import Bipscript.MemoryPool

/-! What holds of the process thread's pool in every run of its callers. -/
namespace Bipscript

open Cells Transition Tlsf

namespace MemoryPool

variable {s t : MemoryPool} {acts : List Act} {act : Act} {mem bytes base total n k : ℕ}
  {words : ℕ → ℕ} {row : List Cell}

/-! From the start of the pool. -/

/-- A pool begins with one free block and no pointers. -/
theorem create_sound (words : ℕ → ℕ) (h0 : 0 < mem) (hmem : mem % 8 = 0)
    (hmin : 24 ≤ poolBytes bytes)
    (hmax : poolBytes bytes < 2 ^ 32) :
    ∃ s, create mem bytes words = some s ∧ s.live = [] ∧
      Sound s (mem + 6528) (8 + poolBytes bytes) [⟨poolBytes bytes, true⟩] := by
  obtain ⟨tlsf, he, hheap⟩ := tlsfCreateWithPool_spec words h0 hmem hmin hmax
  refine ⟨⟨tlsf, [], fun _ => none⟩, ?_, rfl, hheap, ?_, ?_, ?_, ?_, ?_⟩
  · simp [create, he]
  · exact List.IsChain.singleton _
  · simp only [span_cons, span_nil]
    omega
  · rw [used_cons_free rfl]
    exact List.Perm.refl _
  · intro p n hp
    cases hp
  · intro p n hp
    cases hp

/-- Every run of the pool is a run of its row. -/
theorem Sound.run (h : Sound s base total row) (hrun : Run Step s acts t) :
    ∃ row', Run (Rows.Step base) ⟨row, s.live⟩ acts ⟨row', t.live⟩ ∧ Sound t base total row' := by
  induction hrun generalizing row with
  | refl => exact ⟨row, .refl, h⟩
  | stepL hstep _ ih =>
    obtain ⟨t, row₁, he, hrow, hsound⟩ := h.exec hstep.1
    obtain rfl : _ = t := Option.some_inj.mp (hstep.2.symm.trans he)
    obtain ⟨row₂, hrest, hsound₂⟩ := ih hsound
    exact ⟨row₂, .stepL hrow hrest, hsound₂⟩

/-- The pool after a run from its start. -/
theorem sound_of_run (h0 : 0 < mem) (hmem : mem % 8 = 0) (hmin : 24 ≤ poolBytes bytes)
    (hmax : poolBytes bytes < 2 ^ 32) (hs : create mem bytes words = some s)
    (hrun : Run Step s acts t) :
    ∃ row, Run (Rows.Step (mem + 6528)) ⟨[⟨poolBytes bytes, true⟩], []⟩ acts ⟨row, t.live⟩ ∧
      Sound t (mem + 6528) (8 + poolBytes bytes) row := by
  obtain ⟨s', hs', hlive, hsound⟩ := create_sound words h0 hmem hmin hmax
  obtain rfl : s = s' := Option.some_inj.mp (hs.symm.trans hs')
  rw [← hlive]
  exact hsound.run hrun

/-! What callers hold. -/

/-- A live pointer is aligned, and its bytes lie in the pool. -/
theorem Sound.bounds (h : Sound s base total row) {p : ℕ} (hp : (p, n) ∈ s.live) :
    p % 8 = 0 ∧ base + 16 ≤ p ∧ p + n ≤ base + total + 8 := by
  obtain ⟨x, c, rfl, hx, hn, -⟩ := h.sizes p n hp
  have hplaced := (mem_used_iff.mp hx).1
  have hmod := h.heap.aligned_at hplaced
  have hbounds := placed_bounds hplaced
  rw [h.total] at hbounds
  omega

theorem Sound.nodup (h : Sound s base total row) : (s.live.map Prod.fst).Nodup := by
  rw [h.live.nodup_iff, List.nodup_iff_pairwise_ne, List.pairwise_map]
  have hplaced : (placed 8 base row).Pairwise fun e f => e.1 + 8 + e.2.size ≤ f.1 := placed_sorted
  have hsorted := hplaced.filter fun e => !e.2.free
  exact hsorted.imp fun hle => by omega

/-- Two callers hold no byte in common. -/
theorem Sound.apart (h : Sound s base total row) {p q m : ℕ} (hp : (p, n) ∈ s.live)
    (hq : (q, m) ∈ s.live) (hpq : p ≠ q) : p + n ≤ q ∨ q + m ≤ p := by
  obtain ⟨x, c, rfl, hx, hn, -⟩ := h.sizes p n hp
  obtain ⟨y, d, rfl, hy, hm, -⟩ := h.sizes q m hq
  rcases placed_apart (mem_used_iff.mp hx).1 (mem_used_iff.mp hy).1 with ⟨hxy, -⟩ | hlt | hlt
  · omega
  · omega
  · omega

theorem Sound.disjoint (h : Sound s base total row) :
    s.live.Pairwise fun e f => e.1 + e.2 ≤ f.1 ∨ f.1 + f.2 ≤ e.1 := by
  have hne := List.pairwise_map.mp (List.nodup_iff_pairwise_ne.mp h.nodup)
  exact hne.imp_of_mem fun hp hq hpq => h.apart hp hq hpq

/-- A used block is one that a caller holds. -/
theorem Sound.held (h : Sound s base total row) {c : Cell} (hc : c ∈ row) (hf : c.free = false) :
    ∃ p n, (p, n) ∈ s.live ∧ n ≤ c.size ∧ c.size ≤ adjustRequestSize n ALIGN_SIZE + 24 := by
  obtain ⟨u, v, hrow⟩ := List.append_of_mem hc
  have hused : (base + span 8 u, c) ∈ used 8 base row :=
    mem_used_iff.mpr ⟨mem_placed_iff.mpr ⟨u, v, hrow, rfl⟩, hf⟩
  have hptr : base + span 8 u + 16 ∈ s.live.map Prod.fst :=
    h.live.mem_iff.mpr (List.mem_map.mpr ⟨_, hused, rfl⟩)
  obtain ⟨⟨p, n⟩, hp, hpeq⟩ := List.mem_map.mp hptr
  obtain ⟨x, d, hpx, hx, hsizes⟩ := h.sizes p n hp
  simp only at hpeq
  have hxeq : x = base + span 8 u := by omega
  subst hxeq
  rw [h.unique hused hx]
  exact ⟨p, n, hp, hsizes⟩

/-- There are as many used blocks as pointers held. -/
theorem Sound.countP (h : Sound s base total row) :
    row.countP (!·.free) = s.live.length := by
  have hlength : (s.live.map Prod.fst).length =
      ((used 8 base row).map fun e => e.1 + 16).length := h.live.length_eq
  rw [List.length_map, List.length_map] at hlength
  rw [hlength, used_length]

/-- Requests of a least size bound the number of pointers held. -/
theorem Sound.room (h : Sound s base total row) {m : ℕ} (hm : ∀ p n, (p, n) ∈ s.live → m ≤ n) :
    s.live.length * (8 + max m 24) ≤ total := by
  rw [← h.countP, ← h.total]
  refine le_span fun c hc hf => ?_
  obtain ⟨p, n, hp, hle, -⟩ := h.held hc hf
  have hmn := hm p n hp
  have hproper := (h.heap.proper c hc).2
  omega

/-- A request of no more than `k` bytes is served where no more was asked for so far and the blocks
it could be refused for do not fill the row. -/
theorem Sound.capacity (h : Sound s base total row) (hk : k % 8 = 0) (hk0 : 24 ≤ k)
    (hkmax : k ≤ largestRequest) (hsizes : ∀ p m, (p, m) ∈ s.live → m ≤ k) (hn : n ≠ 0)
    (hle : n ≤ k)
    (hroom : s.live.length * (k + 32) + (s.live.length + 1) * (8 + k + k / 32) < total) :
    ∃ t p, s.exec (.malloc n) = some t ∧ t.live = (p, n) :: s.live := by
  obtain ⟨t, row', he, hstep, -⟩ := h.malloc (by omega : n ≤ largestRequest)
  have hsize := adjustRequestSize_le hk hk0 hkmax hle
  have hround : roundUp (adjustRequestSize n ALIGN_SIZE) ≤ k + k / 32 := by
    have hup := roundUp_le (adjustRequestSize n ALIGN_SIZE)
    omega
  generalize htarget : (⟨row', t.live⟩ : Rows) = target at hstep
  cases hstep with
  | zero => exact (hn rfl).elim
  | refuse _ hnone =>
    -- every free block is small, so the row cannot be as long as it is
    exfalso
    have hsmall : ∀ c ∈ row, c.free = true → c.size ≤ k + k / 32 := by
      rintro ⟨m, f⟩ hc hf
      simp only at hf
      subst hf
      obtain ⟨u, v, hrow⟩ := List.append_of_mem hc
      have hplaced : FreeAt base row (base + span 8 u) m := mem_placed_iff.mpr ⟨u, v, hrow, rfl⟩
      have hm : m < 2 ^ 32 := (h.heap.size_lt hplaced).2.2
      have hlimit : largestRequest = 4160749568 := rfl
      have hnot := mt (fun hround => serves_of_roundUp_le hround (by omega) (by omega))
        (hnone _ m hplaced)
      simp only
      omega
    have hused : ∀ c ∈ row, c.free = false → c.size ≤ k + 24 := by
      intro c hc hf
      obtain ⟨p, m, hp, -, hsize⟩ := h.held hc hf
      have hasked := adjustRequestSize_le hk hk0 hkmax (hsizes p m hp)
      omega
    have hspan := h.settled.span_le (o := 8) hused hsmall
    have h₁ : 8 + (k + 24) = k + 32 := by omega
    have h₂ : 8 + (k + k / 32) = 8 + k + k / 32 := by omega
    rw [h.countP, h.total, h₁, h₂] at hspan
    omega
  | cut => exact ⟨t, _, he, congrArg Rows.live htarget⟩

/-- Where nothing is held, the row is one free block. -/
theorem Sound.whole (h : Sound s base (8 + k) row) (hlive : s.live = []) : row = [⟨k, true⟩] := by
  have hused : used 8 base row = [] := by
    have hperm := h.live
    rw [hlive] at hperm
    exact List.map_eq_nil_iff.mp (List.nil_perm.mp hperm)
  have hne : row ≠ [] := by
    rintro rfl
    have htotal := h.total
    rw [span_nil] at htotal
    omega
  have hspan : span 8 row - 8 = k := by
    rw [h.total]
    omega
  rw [← hspan]
  exact h.settled.eq_singleton hused hne

/-- One free block serves what it is large enough for by its class, at its start. -/
theorem Sound.malloc_whole (h : Sound s base (8 + k) row) (hlive : s.live = [])
    (hn : n ≤ largestRequest) :
    ∃ t, s.exec (.malloc n) = some t ∧
      t.live =
        if n ≠ 0 ∧ Serves (adjustRequestSize n ALIGN_SIZE) k then [(base + 16, n)] else [] := by
  obtain ⟨t, row', he, hstep, -⟩ := h.malloc hn
  rw [hlive] at hstep
  rw [h.whole hlive] at hstep
  refine ⟨t, he, ?_⟩
  have hfree : FreeAt base [⟨k, true⟩] base k := by
    simp [FreeAt]
  generalize htarget : (⟨row', t.live⟩ : Rows) = target at hstep
  cases hstep with
  | zero =>
    rw [if_neg fun hne => hne.1 rfl]
    exact congrArg Rows.live htarget
  | refuse _ hnone =>
    rw [if_neg fun hne => hnone _ _ hfree hne.2]
    exact congrArg Rows.live htarget
  | @cut _ j u v h0 hcut hserves =>
    have hu : u = [] ∧ j = k := by
      cases u with
      | nil =>
        cases hcut
        exact ⟨rfl, rfl⟩
      | cons c u =>
        cases u with
        | nil => cases hcut
        | cons d u => cases hcut
    obtain ⟨rfl, rfl⟩ := hu
    rw [if_pos ⟨h0, hserves⟩]
    exact congrArg Rows.live htarget

/-- A request to a pool of 8000 bytes, and the release of what it gave. -/
theorem create_malloc_free :
    ∃ s t u, create 16 8000 (fun _ => 0) = some s ∧ Step s (.malloc 100) t ∧
      t.live = [(6560, 100)] ∧ Step t (.free (some 6560)) u ∧ u.live = [] := by
  have heval : ((create 16 8000 fun _ => 0).bind fun s => (s.exec (.malloc 100)).bind fun t =>
      (t.exec (.free (some 6560))).map fun u => (t.live, u.live)) =
        some ([(6560, 100)], []) := by
    decide +kernel
  obtain ⟨s, hs, heval⟩ := Option.bind_eq_some_iff.mp heval
  obtain ⟨t, ht, heval⟩ := Option.bind_eq_some_iff.mp heval
  obtain ⟨u, hu, heval⟩ := Option.map_eq_some_iff.mp heval
  obtain ⟨hlive, hlive'⟩ := Prod.mk.inj heval
  have hrange : 100 ≤ largestRequest := by decide
  refine ⟨s, t, u, hs, ⟨hrange, ht⟩, hlive, ⟨⟨100, ?_⟩, hu⟩, hlive'⟩
  rw [hlive]
  exact List.mem_singleton_self _

/-! The statements about runs. -/

/-- The pool refines its row: what the words, lists and bitmaps hold answers every call as the row
does. -/
theorem run_refines (h0 : 0 < mem) (hmem : mem % 8 = 0) (hmin : 24 ≤ poolBytes bytes)
    (hmax : poolBytes bytes < 2 ^ 32) (hs : create mem bytes words = some s)
    (hrun : Run Step s acts t) :
    ∃ row, Run (Rows.Step (mem + 6528)) ⟨[⟨poolBytes bytes, true⟩], []⟩ acts ⟨row, t.live⟩ ∧
      Laid t.tlsf.words (mem + 6528) false (row ++ [sentinel]) ∧ Settled row ∧
        Filed t.tlsf (FreeAt (mem + 6528) row) := by
  obtain ⟨row, hrow, hsound⟩ := sound_of_run h0 hmem hmin hmax hs hrun
  exact ⟨row, hrow, hsound.heap.laid, hsound.settled, hsound.heap.filed⟩

theorem run_refines_freed :
    ∃ s u, create 16 8000 (fun _ => 0) = some s ∧ Run Step s [.malloc 100, .free (some 6560)] u ∧
      ∃ row, Run (Rows.Step 6544) ⟨[⟨1448, true⟩], []⟩ [.malloc 100, .free (some 6560)]
        ⟨row, []⟩ ∧ Settled row := by
  obtain ⟨s, t, u, hs, ht, -, hu, hlive⟩ := create_malloc_free
  have hrun : Run Step s [.malloc 100, .free (some 6560)] u := .stepL ht (.single hu)
  obtain ⟨row, hrow, -, hset, -⟩ :=
    run_refines (by decide) rfl (by decide) (by decide) hs hrun
  rw [hlive] at hrow
  exact ⟨s, u, hs, hrun, row, hrow, hset⟩

/-- No assertion of the allocator fails, whatever its callers did that they may. -/
theorem run_exec (h0 : 0 < mem) (hmem : mem % 8 = 0) (hmin : 24 ≤ poolBytes bytes)
    (hmax : poolBytes bytes < 2 ^ 32) (hs : create mem bytes words = some s)
    (hrun : Run Step s acts t) (ha : t.Allowed act) : ∃ t', t.exec act = some t' := by
  obtain ⟨row, -, hsound⟩ := sound_of_run h0 hmem hmin hmax hs hrun
  obtain ⟨t', -, he, -, -⟩ := hsound.exec ha
  exact ⟨t', he⟩

theorem run_exec_again :
    ∃ s u, create 16 8000 (fun _ => 0) = some s ∧ Run Step s [.malloc 100, .free (some 6560)] u ∧
      ∃ v, u.exec (.malloc 200) = some v := by
  obtain ⟨s, t, u, hs, ht, -, hu, -⟩ := create_malloc_free
  have hrun : Run Step s [.malloc 100, .free (some 6560)] u := .stepL ht (.single hu)
  have hallowed : u.Allowed (.malloc 200) := show 200 ≤ largestRequest by decide
  exact ⟨s, u, hs, hrun, run_exec (by decide) rfl (by decide) (by decide) hs hrun hallowed⟩

/-- What callers hold lies aligned in the pool, apart from each other, and reads as last stored. -/
theorem run_live (h0 : 0 < mem) (hmem : mem % 8 = 0) (hmin : 24 ≤ poolBytes bytes)
    (hmax : poolBytes bytes < 2 ^ 32) (hs : create mem bytes words = some s)
    (hrun : Run Step s acts t) :
    (∀ p n, (p, n) ∈ t.live → p % 8 = 0 ∧ mem + tlsfSize ≤ p ∧ p + n ≤ mem + bytes) ∧
      t.live.Pairwise (fun e f => e.1 + e.2 ≤ f.1 ∨ f.1 + f.2 ≤ e.1) ∧
        ∀ p n, (p, n) ∈ t.live → ∀ a v, a % 8 = 0 → p ≤ a → a < p + n →
          t.stored a = some v → t.tlsf.words a = v := by
  obtain ⟨row, -, hsound⟩ := sound_of_run h0 hmem hmin hmax hs hrun
  refine ⟨fun p n hp => ?_, hsound.disjoint, hsound.stored⟩
  obtain ⟨hmod, hlow, hhigh⟩ := hsound.bounds hp
  have hsize : tlsfSize = 6536 := rfl
  unfold poolBytes at hhigh hmin
  omega

theorem run_live_stored :
    ∃ s t, create 16 8000 (fun _ => 0) = some s ∧ Run Step s [.malloc 100, .store 6568 7] t ∧
      t.live = [(6560, 100)] ∧ t.tlsf.words 6568 = 7 := by
  obtain ⟨s, t, -, hs, ht, hlive, -⟩ := create_malloc_free
  have hmem : (6560, 100) ∈ t.live := by
    rw [hlive]
    exact List.mem_singleton_self _
  obtain ⟨t', ht'⟩ : ∃ t', t.exec (.store 6568 7) = some t' := ⟨_, rfl⟩
  have hstore : Step t (.store 6568 7) t' :=
    ⟨⟨rfl, 6560, 100, hmem, by decide, by decide⟩, ht'⟩
  obtain rfl : _ = t' := Option.some_inj.mp ht'
  have hrun := Run.stepL ht (.single hstore)
  have hread := (run_live (by decide) rfl (by decide) (by decide) hs hrun).2.2
  refine ⟨s, _, hs, hrun, hlive, ?_⟩
  have hstored : Function.update t.stored 6568 (some 7) 6568 = some 7 := Function.update_self ..
  exact hread 6560 100 hmem 6568 7 rfl (by decide) (by decide) hstored

/-- Once everything is freed, the pool is one block again, and answers every request as it did at
its start, at the same place. -/
theorem run_recover (h0 : 0 < mem) (hmem : mem % 8 = 0) (hmin : 24 ≤ poolBytes bytes)
    (hmax : poolBytes bytes < 2 ^ 32) (hs : create mem bytes words = some s)
    (hrun : Run Step s acts t) (hlive : t.live = []) :
    (Laid t.tlsf.words (mem + 6528) false [⟨poolBytes bytes, true⟩, sentinel] ∧
      Filed t.tlsf (FreeAt (mem + 6528) [⟨poolBytes bytes, true⟩])) ∧
    ∀ n ≤ largestRequest, ∃ s' t', s.exec (.malloc n) = some s' ∧ t.exec (.malloc n) = some t' ∧
      t'.live = s'.live ∧
        s'.live = if n ≠ 0 ∧ Serves (adjustRequestSize n ALIGN_SIZE) (poolBytes bytes) then
          [(mem + 6544, n)] else [] := by
  obtain ⟨row, -, hsound⟩ := sound_of_run h0 hmem hmin hmax hs hrun
  obtain ⟨s₀, hs₀, hlive₀, hsound₀⟩ := create_sound words h0 hmem hmin hmax
  obtain rfl : s = s₀ := Option.some_inj.mp (hs.symm.trans hs₀)
  refine ⟨?_, fun n hn => ?_⟩
  · obtain rfl := hsound.whole hlive
    exact ⟨hsound.heap.laid, hsound.heap.filed⟩
  · obtain ⟨s', hs', hserved⟩ := hsound₀.malloc_whole hlive₀ hn
    obtain ⟨t', ht', hserved'⟩ := hsound.malloc_whole hlive hn
    exact ⟨s', t', hs', ht', hserved'.trans hserved.symm, hserved⟩

/-- A request for 1440 bytes of the 1448, which share a class. -/
theorem run_recover_freed :
    ∃ s u, create 16 8000 (fun _ => 0) = some s ∧ Run Step s [.malloc 100, .free (some 6560)] u ∧
      ∃ v, u.exec (.malloc 1440) = some v ∧ v.live = [(6560, 1440)] := by
  obtain ⟨s, t, u, hs, ht, -, hu, hlive⟩ := create_malloc_free
  have hrun : Run Step s [.malloc 100, .free (some 6560)] u := .stepL ht (.single hu)
  obtain ⟨-, hall⟩ := run_recover (by decide) rfl (by decide) (by decide) hs hrun hlive
  obtain ⟨s', t', -, ht', hsame, hserved⟩ := hall 1440 (by decide)
  rw [if_pos (by decide)] at hserved
  exact ⟨s, u, hs, hrun, t', ht', hsame.trans hserved⟩

/-- No request is refused as long as few enough pointers are held: with `k` a bound on all sizes,
each takes at most `k + 32` bytes, and leaves less than `8 + k + k / 32` unused behind it. -/
theorem run_capacity (h0 : 0 < mem) (hmem : mem % 8 = 0) (hmin : 24 ≤ poolBytes bytes)
    (hmax : poolBytes bytes < 2 ^ 32) (hs : create mem bytes words = some s)
    (hrun : Run Step s acts t) (hk : k % 8 = 0) (hk0 : 24 ≤ k) (hkmax : k ≤ largestRequest)
    (hsizes : ∀ p m, (p, m) ∈ t.live → m ≤ k) (hn : n ≠ 0) (hle : n ≤ k)
    (hroom : t.live.length * (k + 32) + (t.live.length + 1) * (8 + k + k / 32) <
      8 + poolBytes bytes) :
    ∃ t' p, t.exec (.malloc n) = some t' ∧ t'.live = (p, n) :: t.live := by
  obtain ⟨row, -, hsound⟩ := sound_of_run h0 hmem hmin hmax hs hrun
  exact hsound.capacity hk hk0 hkmax hsizes hn hle hroom

theorem run_capacity_second :
    ∃ s t, create 16 8000 (fun _ => 0) = some s ∧ Run Step s [.malloc 100] t ∧
      ∃ u p, t.exec (.malloc 104) = some u ∧ u.live = [(p, 104), (6560, 100)] := by
  obtain ⟨s, t, -, hs, ht, hlive, -⟩ := create_malloc_free
  have hrun := Run.single ht
  have hsizes : ∀ p m, (p, m) ∈ t.live → m ≤ 104 := by
    intro p m hp
    rw [hlive] at hp
    cases List.mem_singleton.mp hp
    decide
  have hroom : t.live.length * (104 + 32) + (t.live.length + 1) * (8 + 104 + 104 / 32) <
      8 + poolBytes 8000 := by
    rw [hlive]
    decide
  obtain ⟨u, p, hu, hlive'⟩ := run_capacity (by decide) rfl (by decide) (by decide) hs hrun rfl
    (by decide) (by decide) hsizes (by decide) (le_refl 104) hroom
  rw [hlive] at hlive'
  exact ⟨s, t, hs, hrun, u, p, hu, hlive'⟩

end MemoryPool

end Bipscript
