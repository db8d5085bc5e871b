import Bipscript.TlsfHeap

/-! `tlsf_malloc` and `tlsf_free` on a pool: a block cut off a free one, a block joined with its
free neighbours. -/
namespace Bipscript.Tlsf

open Cells

variable {s s' : Tlsf} {held : ℕ → ℕ → Prop} {a base n m size x : ℕ} {c d : Cell}
  {u v row : List Cell}

/-! Requests. -/

/-- A request is rounded up to whole words, and to the least size of a block. -/
theorem adjustRequestSize_eq (h : size < 2 ^ 32) :
    adjustRequestSize size ALIGN_SIZE = if size = 0 then 0 else max ((size + 7) / 8 * 8) 24 := by
  unfold adjustRequestSize
  rw [alignUp_eq]
  by_cases h0 : size = 0
  · simp [h0]
  · have hmax : size ≠ 0 ∧ size < blockSizeMax := ⟨h0, h⟩
    rw [if_pos hmax, if_neg h0]
    rfl

theorem adjustRequestSize_bounds (h : size ≤ largestRequest) (h0 : size ≠ 0) :
    adjustRequestSize size ALIGN_SIZE % 8 = 0 ∧ 24 ≤ adjustRequestSize size ALIGN_SIZE ∧
      size ≤ adjustRequestSize size ALIGN_SIZE ∧
        adjustRequestSize size ALIGN_SIZE ≤ largestRequest := by
  have hlimit : largestRequest = 4160749568 := rfl
  rw [adjustRequestSize_eq (by omega), if_neg h0]
  omega

/-- A size that a block can have serves whatever is not above it. -/
theorem adjustRequestSize_le (hn : n % 8 = 0) (hmin : 24 ≤ n) (hmax : n ≤ largestRequest)
    (h : size ≤ n) : adjustRequestSize size ALIGN_SIZE ≤ n := by
  have hlimit : largestRequest = 4160749568 := rfl
  rw [adjustRequestSize_eq (by omega)]
  split <;> omega

/-! Free blocks on either side. -/

theorem freeAt_middle (ha : a = base + span 8 u) :
    FreeAt base (u ++ c :: v) x m ↔
      Around base u (a + 8 + c.size) v x m ∨ x = a ∧ c = ⟨m, true⟩ := by
  rw [freeAt_append, freeAt_cons, ← ha]
  unfold Around
  constructor
  · rintro (hu | hx | hv)
    · exact .inl (.inl hu)
    · exact .inr hx
    · exact .inl (.inr hv)
  · rintro ((hu | hv) | hx)
    · exact .inl hu
    · exact .inr (.inr hv)
    · exact .inr (.inl hx)

/-- All free blocks but one. -/
theorem freeAt_but (ha : a = base + span 8 u) :
    FreeAt base (u ++ ⟨n, true⟩ :: v) x m ∧ x ≠ a ↔ Around base u (a + 8 + n) v x m := by
  rw [freeAt_middle ha]
  constructor
  · rintro ⟨hx | ⟨he, -⟩, hne⟩
    · exact hx
    · exact (hne he).elim
  · intro hx
    exact ⟨.inl hx, hx.ne ha (by omega)⟩

/-! Allocation. -/

/-- What is left of a free block of `n` bytes when `size` of them are asked for. -/
def carve (n size : ℕ) : List Cell :=
  if 32 + size ≤ n then [⟨size, false⟩, ⟨n - (size + 8), true⟩] else [⟨n, false⟩]

/-- The search finds a block that is large enough, and one of the earliest class of which all blocks
are; it finds none only if there is none. -/
theorem Heap.locateFree (h : Heap s base row (FreeAt base row)) (hsize : size % 8 = 0)
    (h0 : size ≠ 0) (hmax : size ≤ largestRequest) :
    (s.blockLocateFree size = some (none, s) ∧ ∀ x n, FreeAt base row x n → ¬ Serves size n) ∨
    ∃ a n s', s.blockLocateFree size = some (some a, s') ∧ FreeAt base row a n ∧ Serves size n ∧
      (∀ x m, FreeAt base row x m → Serves size m →
        rank (mappingInsert n) ≤ rank (mappingInsert m)) ∧
      Heap s' base row (fun x m => FreeAt base row x m ∧ x ≠ a) ∧ Kept s s' (used 8 base row) := by
  have hlimit : largestRequest = 4160749568 := rfl
  have hround := roundUp_lt hmax
  have hsearch : mappingSearch size = mappingInsert (roundUp size) := mappingSearch_eq (by omega)
  have hlt : ∀ {x n}, FreeAt base row x n → n < 2 ^ 32 := fun hx => (h.size_lt hx).2.2
  have hbounds : ∀ i j, s.blocks i j ≠ s.control → i < 32 ∧ j < 32 := by
    intro i j hne
    obtain ⟨x, n, hx, hmap⟩ := h.filed.nonempty_iff.mp hne
    have hb := mappingInsert_bounds (hlt hx)
    rw [hmap] at hb
    omega
  have hmem : ∀ {x n}, FreeAt base row x n →
      s.blocks (mappingInsert n).1 (mappingInsert n).2 ≠ s.control := fun hx =>
    h.filed.nonempty_iff.mpr ⟨_, _, hx, rfl⟩
  unfold blockLocateFree
  rcases searchSuitableBlock_spec (i := (mappingSearch size).1) (j := (mappingSearch size).2)
    h.filed.bitmaps hbounds (hsearch ▸ (mappingInsert_bounds hround).2) with
    ⟨he, hnone⟩ | ⟨i, j, he, hne, hrank, hleast⟩
  · left
    refine ⟨by simp [h0, he], ?_⟩
    intro x n hx
    have hlow := hnone _ _ (hmem hx)
    exact not_le.mpr hlow
  · right
    obtain ⟨n, hx, hmap⟩ := h.filed.head_held hne
    have hserves : Serves size n := by
      unfold Serves
      rw [hmap]
      exact hrank
    have hle : size ≤ n := hserves.le hsize (by omega)
    obtain ⟨p, hp⟩ := h.header hx
    have hblock : s.blockSize (s.blocks i j) = n := blockSize_eq hp (h.size_lt hx).1
    obtain ⟨s', hs', hheap, hkept⟩ := h.remove hx
    rw [hmap] at hs'
    refine ⟨s.blocks i j, n, s', ?_, hx, hserves, ?_, hheap, hkept⟩
    · simp [h0, he, tlsfAssert, hblock, hle, hs']
    · intro x m hm hserved
      rw [hmap]
      exact hleast _ _ (hmem hm) hserved

/-- A free block in no list is trimmed and handed out. -/
theorem Heap.prepareUsed (ha : a = base + span 8 u)
    (h : Heap s base (u ++ ⟨n, true⟩ :: v) (Around base u (a + 8 + n) v)) (hsize : size % 8 = 0)
    (hmin : 24 ≤ size) :
    ∃ s', s.blockPrepareUsed (some a) size = some (some (a + 16), s') ∧
      Heap s' base (u ++ (carve n size ++ v)) (FreeAt base (u ++ (carve n size ++ v))) ∧
        Kept s s' (used 8 base (u ++ ⟨n, true⟩ :: v)) := by
  have hplace : (a, ⟨n, true⟩) ∈ placed 8 base (u ++ ⟨n, true⟩ :: v) := by
    rw [placed_append, ← ha]
    exact List.mem_append_right _ List.mem_cons_self
  obtain ⟨p, hp⟩ := h.header hplace
  have hn := h.size_lt hplace
  have hfree : s.blockIsFree a := (blockIsFree_iff hp hn.1).mpr rfl
  have hblock : s.blockSize a = n := blockSize_eq hp hn.1
  have h0 : size ≠ 0 := by omega
  by_cases hcan : 32 + size ≤ n
  · obtain ⟨m, rfl⟩ : ∃ m, n = size + 8 + m := ⟨n - (size + 8), by omega⟩
    have hcarve : carve (size + 8 + m) size = [⟨size, false⟩, ⟨m, true⟩] := by
      have hrest : size + 8 + m - (size + 8) = m := by omega
      unfold carve
      rw [if_pos hcan, hrest]
    obtain ⟨s₁, s₂, hs₁, hs₂, h₂, hk₂⟩ := h.split ha ⟨hsize, hmin⟩ (by omega) fun _ _ hx => hx
    have hrest : FreeAt base (u ++ ⟨size, true⟩ :: ⟨m, true⟩ :: v) (a + 8 + size) m := by
      rw [freeAt_append, freeAt_cons, freeAt_cons, ← ha]
      exact .inr (.inr (.inl ⟨rfl, rfl⟩))
    obtain ⟨s₃, hs₃, h₃, hk₃⟩ := h₂.blockInsert hrest fun k hk => by
      rcases hk with hk | hk
      · have := hk.bounds
        omega
      · have := hk.bounds
        omega
    have hend : a + 8 + (size + 8 + m) = a + 8 + size + 8 + m := by omega
    have hout : ∀ x k, Around base u (a + 8 + (size + 8 + m)) v x k ∨ x = a + 8 + size ∧ k = m →
        Around base u (a + 8 + size) (⟨m, true⟩ :: v) x k := by
      rintro x k ((hu | hv) | ⟨rfl, rfl⟩)
      · exact .inl hu
      · rw [hend] at hv
        exact .inr (freeAt_cons.mpr (.inr hv))
      · exact .inr (freeAt_cons.mpr (.inl ⟨rfl, rfl⟩))
    obtain ⟨s₄, hs₄, h₄, hk₄⟩ := h₃.markAsUsed ha hout
    have hused : used 8 base (u ++ ⟨size, true⟩ :: ⟨m, true⟩ :: v) =
        used 8 base (u ++ ⟨size + 8 + m, true⟩ :: v) := by
      rw [used_append, used_append, used_cons_free rfl, used_cons_free rfl, used_cons_free rfl]
      simp only
      congr 2
      omega
    rw [hused] at hk₃ hk₄
    refine ⟨s₄, ?_, ?_, (hk₂.trans hk₃).trans hk₄⟩
    · have hsplit : s.blockCanSplit a size := by
        unfold blockCanSplit
        rw [hblock, blockHeaderSize_eq]
        exact hcan
      have htrim : s.blockTrimFree a size = some s₃ := by
        simp [blockTrimFree, tlsfAssert, hfree, hsplit, hs₁, hs₂, hs₃]
      simp [blockPrepareUsed, tlsfAssert, h0, htrim, hs₄, blockToPtr]
    · rw [hcarve]
      apply h₄.congr
      intro x k
      change FreeAt base (u ++ ⟨size, false⟩ :: ⟨m, true⟩ :: v) x k ↔ _
      rw [freeAt_middle ha]
      constructor
      · rintro ((hu | hv) | ⟨-, hc⟩)
        · exact .inl (.inl hu)
        · rcases freeAt_cons.mp hv with ⟨hx, hc⟩ | hv
          · cases hc
            exact .inr ⟨hx, rfl⟩
          · rw [hend]
            exact .inl (.inr hv)
        · cases hc
      · intro hx
        exact .inl (hout x k hx)
  · obtain ⟨s', hs', h', hk⟩ := h.markAsUsed ha fun _ _ hx => hx
    have hcarve : carve n size = [⟨n, false⟩] := if_neg hcan
    refine ⟨s', ?_, ?_, hk⟩
    · have hsplit : ¬ s.blockCanSplit a size := by
        unfold blockCanSplit
        rw [hblock, blockHeaderSize_eq]
        exact hcan
      have htrim : s.blockTrimFree a size = some s := by
        simp [blockTrimFree, tlsfAssert, hfree, hsplit]
      simp [blockPrepareUsed, tlsfAssert, h0, htrim, hs', blockToPtr]
    · rw [hcarve]
      apply h'.congr
      intro x k
      change FreeAt base (u ++ ⟨n, false⟩ :: v) x k ↔ _
      rw [freeAt_middle ha]
      constructor
      · rintro (hx | ⟨-, hc⟩)
        · exact hx
        · cases hc
      · exact .inl

theorem settled_carve (h : Settled (u ++ ⟨n, true⟩ :: v)) : Settled (u ++ (carve n size ++ v)) := by
  have hv : Settled v := h.right.tail
  unfold carve
  split
  · have hrest : Settled (⟨n - (size + 8), true⟩ :: v) :=
      settled_around (u := []) List.isChain_nil (fun _ hd => by cases hd) hv (h.behind_free rfl)
    exact settled_append_used h.left hrest rfl
  · exact settled_append_used h.left hv rfl

/-- What `tlsf_malloc` returns, and the row it leaves. -/
inductive Allocation (s : Tlsf) (base : ℕ) (row : List Cell) (size : ℕ) :
    Option ℕ → Tlsf → List Cell → Prop
  | refused (h : ∀ x n, FreeAt base row x n → ¬ Serves size n) :
      Allocation s base row size none s row
  | cut {u v : List Cell} {n : ℕ} {s' : Tlsf} (hrow : row = u ++ ⟨n, true⟩ :: v)
      (hserves : Serves size n) (hle : size ≤ n)
      (hfit : ∀ x m, FreeAt base row x m → Serves size m →
        rank (mappingInsert n) ≤ rank (mappingInsert m))
      (hkept : Kept s s' (used 8 base row)) :
      Allocation s base row size (some (base + span 8 u + 16)) s' (u ++ (carve n size ++ v))

/-- No assertion fails in `tlsf_malloc`. It returns null only where no free block is of a class all
of whose blocks suffice, and else cuts the block off one of the earliest such class. -/
theorem Heap.malloc (h : Heap s base row (FreeAt base row)) (hset : Settled row) (h0 : size ≠ 0)
    (hmax : size ≤ largestRequest) :
    ∃ ptr s' row', s.tlsfMalloc size = some (ptr, s') ∧
      Allocation s base row (adjustRequestSize size ALIGN_SIZE) ptr s' row' ∧
        Heap s' base row' (FreeAt base row') ∧ Settled row' := by
  obtain ⟨hmod, hmin, -, hlimit⟩ := adjustRequestSize_bounds hmax h0
  unfold tlsfMalloc
  generalize adjustRequestSize size ALIGN_SIZE = adjust at *
  rcases h.locateFree hmod (by omega) hlimit with
    ⟨he, hnone⟩ | ⟨a, n, s₁, he, hx, hserves, hfit, h₁, hk₁⟩
  · refine ⟨none, s, row, ?_, .refused hnone, h, hset⟩
    simp [he, blockPrepareUsed]
  · obtain ⟨u, v, rfl, rfl⟩ := mem_placed_iff.mp hx
    obtain ⟨s₂, hs₂, h₂, hk₂⟩ :=
      (h₁.congr fun x m => (freeAt_but rfl).symm).prepareUsed rfl hmod hmin
    have hlimit' : largestRequest = 4160749568 := rfl
    have hle : adjust ≤ n := hserves.le hmod (by omega)
    refine ⟨_, s₂, _, ?_, .cut rfl hserves hle hfit (hk₁.trans hk₂), h₂, settled_carve hset⟩
    simp [he, hs₂]

/-! Release. -/

/-- A block just freed is joined with a free one before it. -/
theorem Heap.mergePrev (ha : a = base + span 8 u)
    (h : Heap s base (u ++ ⟨n, true⟩ :: v) (Around base u (a + 8 + n) v)) (hu : Settled u) :
    ∃ u' a' n' s', s.blockMergePrev a = some (a', s') ∧ a' = base + span 8 u' ∧
      a' + 8 + n' = a + 8 + n ∧
        Heap s' base (u' ++ ⟨n', true⟩ :: v) (Around base u' (a + 8 + n) v) ∧
        settle 8 (u' ++ ⟨n', true⟩ :: v) = settle 8 (u ++ ⟨n, true⟩ :: v) ∧ Settled u' ∧
          (∀ d ∈ u'.getLast?, d.free = false) ∧
            Kept s s' (used 8 base (u ++ ⟨n, true⟩ :: v)) := by
  have hlaid := h.laid
  rw [List.append_assoc, List.cons_append] at hlaid
  have hsize := ((laid_cons_iff ha).mp hlaid).2.1
  have hn : n % 8 = 0 ∧ 24 ≤ n :=
    h.proper ⟨n, true⟩ (List.mem_append_right u List.mem_cons_self)
  have hflag := blockIsPrevFree_iff hsize hn.1
  -- nothing is joined unless the row before the block ends in a free one
  have hkeep : lastFree false u = false → (∀ d ∈ u.getLast?, d.free = false) →
      ∃ u' a' n' s', s.blockMergePrev a = some (a', s') ∧ a' = base + span 8 u' ∧
        a' + 8 + n' = a + 8 + n ∧
          Heap s' base (u' ++ ⟨n', true⟩ :: v) (Around base u' (a + 8 + n) v) ∧
            settle 8 (u' ++ ⟨n', true⟩ :: v) = settle 8 (u ++ ⟨n, true⟩ :: v) ∧ Settled u' ∧
              (∀ d ∈ u'.getLast?, d.free = false) ∧
                Kept s s' (used 8 base (u ++ ⟨n, true⟩ :: v)) := by
    intro hlast hused
    have hnot : ¬ s.blockIsPrevFree a := by
      rw [hflag, hlast]
      exact Bool.false_ne_true
    exact ⟨u, a, n, s, by simp [blockMergePrev, hnot], ha, rfl, h, rfl, hu, hused, .refl⟩
  rcases List.eq_nil_or_concat u with rfl | ⟨u', ⟨m, f⟩, hcat⟩
  · exact hkeep rfl fun d hd => by cases hd
  · rw [List.concat_eq_append] at hcat
    subst hcat
    cases f with
    | false =>
      refine hkeep lastFree_concat fun d hd => ?_
      rw [List.getLast?_concat] at hd
      cases hd
      rfl
    | true =>
      obtain ⟨a', ha'⟩ : ∃ a', a' = base + span 8 u' := ⟨_, rfl⟩
      have hspan : a = a' + 8 + m := by
        rw [span_append] at ha
        simp only [span_cons, span_nil] at ha
        omega
      rw [List.append_assoc] at hlaid
      have hrow : Laid s.words base false (u' ++ ⟨m, true⟩ :: ⟨n, true⟩ :: (v ++ [sentinel])) :=
        hlaid
      have hcells := (laid_cons_iff ha').mp hrow
      have hm : m % 8 = 0 ∧ 24 ≤ m := h.proper ⟨m, true⟩ (by simp)
      have hback : s.words a = a' := hspan ▸ hcells.2.2.1 rfl
      have hprevFree : s.blockIsPrevFree a := hflag.mpr lastFree_concat
      have hprev := blockPrev_eq hsize hn.1 lastFree_concat
      rw [hback] at hprev
      have hfree : s.blockIsFree a' := (blockIsFree_iff hcells.2.1 hm.1).mpr rfl
      have hat : FreeAt base (u' ++ [⟨m, true⟩]) a' m := by
        rw [freeAt_append, freeAt_cons, ← ha']
        exact .inr (.inl ⟨rfl, rfl⟩)
      obtain ⟨s₁, hs₁, h₁, hk₁⟩ := h.blockRemove (.inl hat)
      rw [List.append_assoc] at h₁ hk₁
      have hend : a' + 8 + (m + 8 + n) = a + 8 + n := by omega
      have hiff : ∀ x k, Around base (u' ++ [⟨m, true⟩]) (a + 8 + n) v x k ∧ x ≠ a' ↔
          Around base u' (a + 8 + n) v x k := by
        intro x k
        unfold Around
        rw [freeAt_append, freeAt_cons, ← ha']
        constructor
        · rintro ⟨(hx | ⟨he, -⟩ | hx) | hx, hne⟩
          · exact .inl hx
          · exact (hne he).elim
          · cases hx
          · exact .inr hx
        · rintro (hx | hx)
          · have := hx.bounds
            exact ⟨.inl (.inl hx), by omega⟩
          · have := hx.bounds
            exact ⟨.inr hx, by omega⟩
      obtain ⟨s₂, hs₂, h₂, hk₂⟩ := h₁.absorb ha' fun x k hx => by
        rw [hend]
        exact (hiff x k).mp hx
      have hsettle : settle 8 (u' ++ ⟨m, true⟩ :: ⟨n, true⟩ :: v) =
          settle 8 (u' ++ ⟨m + 8 + n, true⟩ :: v) := settle_join rfl rfl
      have hused : used 8 base (u' ++ ⟨m, true⟩ :: ⟨n, true⟩ :: v) =
          used 8 base (u' ++ ⟨m + 8 + n, true⟩ :: v) := by
        rw [← used_settle, hsettle, used_settle]
      rw [← hused] at hk₂
      refine ⟨u', a', m + 8 + n, s₂, ?_, ha', hend, h₂.congr fun x k => (hiff x k).symm, ?_,
        hu.left, hu.before_free (c := ⟨m, true⟩) rfl, ?_⟩
      · have ha0 : a' ≠ 0 := by
          have := h.above
          omega
        rw [← hspan] at hs₂
        simp [blockMergePrev, hprevFree, hprev, tlsfAssert, ha0, hfree, hs₁, hs₂]
      · rw [← hsettle, List.append_assoc]
        rfl
      · rw [List.append_assoc]
        exact hk₁.trans hk₂

/-- A block just freed is joined with a free one behind it. -/
theorem Heap.mergeNext (ha : a = base + span 8 u)
    (h : Heap s base (u ++ ⟨n, true⟩ :: v) (Around base u (a + 8 + n) v)) (hv : Settled v) :
    ∃ n' v' s', s.blockMergeNext a = some (a, s') ∧
      Heap s' base (u ++ ⟨n', true⟩ :: v') (Around base u (a + 8 + n') v') ∧
        settle 8 (u ++ ⟨n', true⟩ :: v') = settle 8 (u ++ ⟨n, true⟩ :: v) ∧ Settled v' ∧
          (∀ d ∈ v'.head?, d.free = false) ∧
            Kept s s' (used 8 base (u ++ ⟨n, true⟩ :: v)) := by
  have hlaid := h.laid
  rw [List.append_assoc, List.cons_append] at hlaid
  obtain ⟨-, hsize, -, hrest⟩ := (laid_cons_iff ha).mp hlaid
  have hn : n % 8 = 0 ∧ 24 ≤ n :=
    h.proper ⟨n, true⟩ (List.mem_append_right u List.mem_cons_self)
  have hnext := blockNext_eq hsize hn.1 (by omega)
  have he0 : a + 8 + n ≠ 0 := by omega
  -- nothing is joined with a used block
  have hkeep : ¬ s.blockIsFree (a + 8 + n) → (∀ d ∈ v.head?, d.free = false) →
      ∃ n' v' s', s.blockMergeNext a = some (a, s') ∧
        Heap s' base (u ++ ⟨n', true⟩ :: v') (Around base u (a + 8 + n') v') ∧
          settle 8 (u ++ ⟨n', true⟩ :: v') = settle 8 (u ++ ⟨n, true⟩ :: v) ∧ Settled v' ∧
            (∀ d ∈ v'.head?, d.free = false) ∧
              Kept s s' (used 8 base (u ++ ⟨n, true⟩ :: v)) := by
    intro hnot hused
    exact ⟨n, v, s, by simp [blockMergeNext, hnext, tlsfAssert, hnot], h, rfl, hv, hused, .refl⟩
  cases v with
  | nil =>
    refine hkeep ?_ fun d hd => by cases hd
    have hlast : s.words (a + 8 + n + 8) = sizeWord 0 false true := hrest.1
    rw [blockIsFree_iff hlast rfl]
    exact Bool.false_ne_true
  | cons c v =>
    obtain ⟨k, f⟩ := c
    have hk : k % 8 = 0 ∧ 24 ≤ k := h.proper ⟨k, f⟩ (by simp)
    have hsize' : s.words (a + 8 + n + 8) = sizeWord k f true := hrest.1
    have hflag := blockIsFree_iff hsize' hk.1
    cases f with
    | false =>
      refine hkeep (fun hf => Bool.false_ne_true (hflag.mp hf)) fun d hd => ?_
      cases hd
      rfl
    | true =>
      have hat : Around base u (a + 8 + n) (⟨k, true⟩ :: v) (a + 8 + n) k :=
        .inr (freeAt_cons.mpr (.inl ⟨rfl, rfl⟩))
      obtain ⟨s₁, hs₁, h₁, hk₁⟩ := h.blockRemove hat
      have hend : a + 8 + (n + 8 + k) = a + 8 + n + 8 + k := by omega
      have hiff : ∀ x m, Around base u (a + 8 + n) (⟨k, true⟩ :: v) x m ∧ x ≠ a + 8 + n ↔
          Around base u (a + 8 + (n + 8 + k)) v x m := by
        intro x m
        unfold Around
        rw [freeAt_cons, hend]
        constructor
        · rintro ⟨hx | ⟨he, -⟩ | hx, hne⟩
          · exact .inl hx
          · exact (hne he).elim
          · exact .inr hx
        · rintro (hx | hx)
          · have := hx.bounds
            exact ⟨.inl hx, by omega⟩
          · have := hx.bounds
            exact ⟨.inr (.inr hx), by omega⟩
      obtain ⟨s₂, hs₂, h₂, hk₂⟩ := h₁.absorb ha fun x m hx => (hiff x m).mp hx
      have hsettle : settle 8 (u ++ ⟨n, true⟩ :: ⟨k, true⟩ :: v) =
          settle 8 (u ++ ⟨n + 8 + k, true⟩ :: v) := settle_join rfl rfl
      have hused : used 8 base (u ++ ⟨n, true⟩ :: ⟨k, true⟩ :: v) =
          used 8 base (u ++ ⟨n + 8 + k, true⟩ :: v) := by
        rw [← used_settle, hsettle, used_settle]
      rw [← hused] at hk₂
      refine ⟨n + 8 + k, v, s₂, ?_, h₂.congr fun x m => (hiff x m).symm, hsettle.symm, hv.tail,
        Settled.behind_free (u := []) hv rfl, hk₁.trans hk₂⟩
      have hlast : ¬ s.blockIsLast a := fun hl => by
        have := (blockIsLast_iff hsize hn.1).mp hl
        omega
      simp [blockMergeNext, hnext, tlsfAssert, hflag.mpr rfl, hlast, hs₁, hs₂]

/-- No assertion fails in `tlsf_free` of a used block, and the row is settled again. -/
theorem Heap.release (ha : a = base + span 8 u)
    (h : Heap s base (u ++ ⟨n, false⟩ :: v) (FreeAt base (u ++ ⟨n, false⟩ :: v)))
    (hset : Settled (u ++ ⟨n, false⟩ :: v)) :
    ∃ s', s.tlsfFree (some (a + 16)) = some s' ∧
      Heap s' base (settle 8 (u ++ ⟨n, true⟩ :: v)) (FreeAt base (settle 8 (u ++ ⟨n, true⟩ :: v))) ∧
        Kept s s' (used 8 base (u ++ ⟨n, true⟩ :: v)) := by
  have hplace : (a, ⟨n, false⟩) ∈ placed 8 base (u ++ ⟨n, false⟩ :: v) := by
    rw [placed_append, ← ha]
    exact List.mem_append_right _ List.mem_cons_self
  obtain ⟨p, hp⟩ := h.header hplace
  have hnot : ¬ s.blockIsFree a := by
    rw [blockIsFree_iff hp (h.size_lt hplace).1]
    exact Bool.false_ne_true
  have hiff : ∀ x m, FreeAt base (u ++ ⟨n, false⟩ :: v) x m ↔ Around base u (a + 8 + n) v x m := by
    intro x m
    rw [freeAt_middle ha]
    constructor
    · rintro (hx | ⟨-, hc⟩)
      · exact hx
      · cases hc
    · exact .inl
  obtain ⟨s₁, hs₁, h₁, hk₁⟩ := (h.congr fun x m => (hiff x m).symm).markAsFree ha fun _ _ hx => hx
  obtain ⟨u', a', n', s₂, hs₂, ha', hend, h₂, hset₂, hu', hlast, hk₂⟩ := h₁.mergePrev ha hset.left
  rw [← hend] at h₂
  obtain ⟨n'', v', s₃, hs₃, h₃, hset₃, hv', hhead, hk₃⟩ := h₂.mergeNext ha' hset.right.tail
  have hfree : FreeAt base (u' ++ ⟨n'', true⟩ :: v') a' n'' := by
    rw [freeAt_middle ha']
    exact .inr ⟨rfl, rfl⟩
  obtain ⟨s₄, hs₄, h₄, hk₄⟩ := h₃.blockInsert hfree fun m hm => by
    exact hm.ne ha' (by omega) rfl
  have hrow : u' ++ ⟨n'', true⟩ :: v' = settle 8 (u ++ ⟨n, true⟩ :: v) := by
    rw [← hset₂, ← hset₃]
    exact (settled_around hu' hlast hv' hhead).settle_eq.symm
  have hused₂ : used 8 base (u' ++ ⟨n', true⟩ :: v) = used 8 base (u ++ ⟨n, true⟩ :: v) := by
    rw [← used_settle, hset₂, used_settle]
  have hused₃ : used 8 base (u' ++ ⟨n'', true⟩ :: v') = used 8 base (u ++ ⟨n, true⟩ :: v) := by
    rw [hrow, used_settle]
  rw [hused₂] at hk₃
  rw [hused₃] at hk₄
  refine ⟨s₄, ?_, ?_, ((hk₁.trans hk₂).trans hk₃).trans hk₄⟩
  · have hblock : blockFromPtr (a + 16) = a := by
      unfold blockFromPtr
      rw [blockStartOffset_eq]
      omega
    simp [tlsfFree, hblock, tlsfAssert, hnot, hs₁, hs₂, hs₃, hs₄]
  · rw [← hrow]
    apply h₄.congr
    intro x m
    rw [freeAt_middle ha']
    exact or_congr_right ⟨fun hx => ⟨hx.1, (congrArg Cell.size hx.2).symm⟩,
      fun hx => ⟨hx.1, by rw [hx.2]⟩⟩

end Bipscript.Tlsf
