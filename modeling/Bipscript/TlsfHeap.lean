import Bipscript.TlsfLists

/-! A pool with its free lists: what each operation of the allocator keeps of it. -/
namespace Bipscript.Tlsf

open Cells

variable {s s' t : Tlsf} {held : ℕ → ℕ → Prop} {a base e n m size x y : ℕ} {c d : Cell}
  {u v row old : List Cell} {us : List (ℕ × Cell)}

/-- The used block of no size that closes a pool. -/
def sentinel : Cell := ⟨0, false⟩

/-- A free block of a row and its size. -/
def FreeAt (base : ℕ) (row : List Cell) (x n : ℕ) : Prop := (x, ⟨n, true⟩) ∈ placed 8 base row

theorem FreeAt.bounds (h : FreeAt base row x n) : base ≤ x ∧ x + 8 + n ≤ base + span 8 row :=
  placed_bounds h

theorem FreeAt.apart (h : FreeAt base row y n) (hx : (x, c) ∈ placed 8 base row) :
    (x = y ∧ c = ⟨n, true⟩) ∨ x + 8 + c.size ≤ y ∨ y + 8 + n ≤ x :=
  placed_apart hx h

/-- A pool whose blocks are `row`, the first at `base`, with those of `held` in the free lists. -/
structure Heap (s : Tlsf) (base : ℕ) (row : List Cell) (held : ℕ → ℕ → Prop) : Prop where
  laid : Laid s.words base false (row ++ [sentinel])
  proper : ∀ c ∈ row, c.size % 8 = 0 ∧ 24 ≤ c.size
  small : span 8 row ≤ 2 ^ 32
  aligned : base % 8 = 0
  positive : 0 < s.control
  above : s.control + 32 ≤ base
  free : ∀ x n, held x n → FreeAt base row x n
  filed : Filed s held

/-- The words of used blocks behind their size fields are as before. -/
def Kept (s s' : Tlsf) (us : List (ℕ × Cell)) : Prop :=
  ∀ x c, (x, c) ∈ us → ∀ y, x + 16 ≤ y → y ≤ x + 8 + c.size → s'.words y = s.words y

theorem Kept.refl : Kept s s us := fun _ _ _ _ _ _ => rfl

theorem Kept.trans (h : Kept s s' us) (h' : Kept s' t us) : Kept s t us := by
  intro x c hx y hlow hhigh
  rw [h' x c hx y hlow hhigh, h x c hx y hlow hhigh]

theorem proper_whole (h : ∀ c ∈ row, c.size % 8 = 0 ∧ 24 ≤ c.size) :
    ∀ c ∈ row ++ [sentinel], Proper c := by
  intro c hc
  rcases List.mem_append.mp hc with hc | hc
  · exact ⟨(h c hc).1, fun _ => (h c hc).2⟩
  · rw [List.mem_singleton.mp hc]
    exact ⟨rfl, by rintro ⟨⟩⟩

/-- Behind every block stands a next one, the last one at least. -/
theorem exists_next (h : ∀ c ∈ row, c.size % 8 = 0 ∧ 24 ≤ c.size) :
    ∃ d v, row ++ [sentinel] = d :: v ∧ Proper d := by
  have hall := proper_whole h
  cases row with
  | nil => exact ⟨sentinel, [], rfl, hall _ List.mem_cons_self⟩
  | cons c cs => exact ⟨c, cs ++ [sentinel], rfl, hall _ List.mem_cons_self⟩

theorem Heap.size_lt (h : Heap s base row held) (hx : (x, c) ∈ placed 8 base row) :
    c.size % 8 = 0 ∧ 24 ≤ c.size ∧ c.size < 2 ^ 32 := by
  have hp := h.proper c (mem_of_placed hx)
  have hb := placed_bounds hx
  have := h.small
  omega

theorem placed_aligned (h : ∀ c ∈ row, c.size % 8 = 0 ∧ 24 ≤ c.size) (hb : base % 8 = 0)
    (hx : (x, c) ∈ placed 8 base row) : x % 8 = 0 := by
  induction row generalizing base with
  | nil => cases hx
  | cons e row ih =>
    rcases List.mem_cons.mp hx with he | hx
    · cases he
      exact hb
    · have he := (h e List.mem_cons_self).1
      exact ih (fun c hc => h c (List.mem_cons_of_mem e hc)) (by omega) hx

theorem Heap.aligned_at (h : Heap s base row held) (hx : (x, c) ∈ placed 8 base row) : x % 8 = 0 :=
  placed_aligned h.proper h.aligned hx

/-- Free blocks are as far apart as their headers take. -/
theorem Heap.spaced (h : Heap s base row held) : Spaced s.control (FreeAt base row) := by
  constructor
  · intro x n y m hx hy
    have hn : 24 ≤ n := (h.size_lt hx).2.1
    have hm : 24 ≤ m := (h.size_lt hy).2.1
    have hends : y + 8 + m ≤ x ∨ x + 8 + n ≤ y ∨ (x = y ∧ n = m) := by
      rcases hy.apart hx with ⟨he, hc⟩ | hlt | hlt
      · cases hc
        exact .inr (.inr ⟨he, rfl⟩)
      · exact .inr (.inl hlt)
      · exact .inl hlt
    omega
  · intro x n hx
    have hb := (placed_bounds hx).1
    have := h.above
    omega

/-! What a change of links or of one part of the row leaves. -/

/-- A row is in the size fields of its blocks and in the pointers behind its free blocks. -/
theorem Laid.congr {w w' : ℕ → ℕ} {p : Bool} (h : Laid w a p row)
    (hw : ∀ x c, (x, c) ∈ placed 8 a row →
      w' (x + 8) = w (x + 8) ∧ (c.free = true → w' (x + 8 + c.size) = w (x + 8 + c.size))) :
    Laid w' a p row := by
  induction row generalizing a p with
  | nil => trivial
  | cons c row ih =>
    obtain ⟨hsize, hback, hrest⟩ := h
    obtain ⟨hw₁, hw₂⟩ := hw a c List.mem_cons_self
    refine ⟨hw₁.trans hsize, fun hc => (hw₂ hc).trans (hback hc), ?_⟩
    exact ih hrest fun x d hx => hw x d (List.mem_cons_of_mem _ hx)

/-- Links are in none of the words of the row or of the used blocks. -/
theorem Heap.relinked {held' : ℕ → ℕ → Prop} (h : Heap s base row held)
    (hr : Relinked s s' held') (hfree : ∀ x n, held' x n → FreeAt base row x n) :
    Laid s'.words base false (row ++ [sentinel]) ∧ Kept s s' (used 8 base row) := by
  have hlow : ∀ {x n}, FreeAt base row x n → 24 ≤ n := fun hx => (h.size_lt hx).2.1
  have habove := h.above
  constructor
  · apply h.laid.congr
    intro x c hx
    rw [placed_append] at hx
    -- a word of the row is no link of the null block or of a free one
    have hword : ∀ z, base + 8 ≤ z → (∀ y n, FreeAt base row y n → z ≠ y + 16 ∧ z ≠ y + 24) →
        s'.words z = s.words z := by
      intro z hz hno
      apply hr.words
      rintro y (rfl | ⟨n, hy⟩)
      · omega
      · exact hno y n (hfree y n hy)
    rcases List.mem_append.mp hx with hx | hx
    · have hb := placed_bounds hx
      have hp := h.size_lt hx
      constructor
      · apply hword _ (by omega)
        intro y n hy
        have := hlow hy
        have := hy.apart hx
        omega
      · intro hc
        apply hword _ (by omega)
        intro y n hy
        have := hlow hy
        rcases hy.apart hx with ⟨he, hcn⟩ | hlt | hlt
        · have hsize : c.size = n := congrArg Cell.size hcn
          omega
        · omega
        · omega
    · have hxe : x = base + span 8 row ∧ c = sentinel := by simpa using hx
      constructor
      · apply hword _ (by omega)
        intro y n hy
        have hyb := hy.bounds
        have := hlow hy
        omega
      · intro hc
        rw [hxe.2] at hc
        cases hc
  · intro x c hx y hlow' hhigh
    obtain ⟨hx, hc⟩ := mem_used_iff.mp hx
    have hb := placed_bounds hx
    apply hr.words
    rintro z (rfl | ⟨n, hz⟩)
    · omega
    · have hz' := hfree z n hz
      have := hlow hz'
      rcases hz'.apart hx with ⟨-, hcn⟩ | hlt | hlt
      · rw [hcn] at hc
        cases hc
      · omega
      · omega

/-- One part of the row exchanged for another that takes as much. -/
theorem Heap.exchange (h : Heap s base (u ++ (old ++ v)) held) (ha : a = base + span 8 u)
    (he : e = a + span 8 old) (hlocal : Local s s' a e) (new : List Cell)
    (hspan : span 8 new = span 8 old)
    (hnew : ∀ c ∈ new, c.size % 8 = 0 ∧ 24 ≤ c.size)
    (hlaid : Laid s'.words base false (u ++ (new ++ (v ++ [sentinel]))))
    (hout : ∀ x n, held x n → FreeAt base u x n ∨ FreeAt e v x n) :
    Heap s' base (u ++ (new ++ v)) held ∧ Kept s s' (used 8 base u ++ used 8 e v) := by
  have hcontrol : s'.control = s.control := by rw [hlocal.same]
  have hproper : ∀ c ∈ u ++ (new ++ v), c.size % 8 = 0 ∧ 24 ≤ c.size := by
    intro c hc
    rcases List.mem_append.mp hc with hc | hc
    · exact h.proper c (List.mem_append_left _ hc)
    · rcases List.mem_append.mp hc with hc | hc
      · exact hnew c hc
      · exact h.proper c (List.mem_append_right u (List.mem_append_right old hc))
  constructor
  · refine ⟨?_, hproper, ?_, h.aligned, hcontrol ▸ h.positive, hcontrol ▸ h.above, ?_, ?_⟩
    · rw [List.append_assoc, List.append_assoc]
      exact hlaid
    · have := h.small
      simp only [span_append] at this ⊢
      omega
    · intro x n hx
      unfold FreeAt
      rw [placed_append, placed_append, ← ha, hspan, ← he]
      rcases hout x n hx with hu | hv
      · exact List.mem_append_left _ hu
      · exact List.mem_append_right _ (List.mem_append_right _ hv)
    · apply h.filed.congr hcontrol (by rw [hlocal.same]) (by rw [hlocal.same])
        (by rw [hlocal.same])
      intro x n hx
      have hn : 24 ≤ n := (h.size_lt (h.free x n hx)).2.1
      rcases hout x n hx with hu | hv
      · have := hu.bounds
        exact ⟨hlocal.words _ (by omega), hlocal.words _ (by omega)⟩
      · have := hv.bounds
        exact ⟨hlocal.words _ (by omega), hlocal.words _ (by omega)⟩
  · intro x c hx y hlow hhigh
    apply hlocal.words
    rcases List.mem_append.mp hx with hx | hx
    · have := placed_bounds (mem_used_iff.mp hx).1
      omega
    · have := placed_bounds (mem_used_iff.mp hx).1
      omega

theorem Heap.next (h : Heap s base (u ++ (old ++ v)) held) :
    ∃ d v', v ++ [sentinel] = d :: v' ∧ Proper d :=
  exists_next fun c hc => h.proper c (List.mem_append_right u (List.mem_append_right old hc))

theorem Heap.congr {held' : ℕ → ℕ → Prop} (h : Heap s base row held)
    (hiff : ∀ x n, held' x n ↔ held x n) : Heap s base row held' := by
  have heq : held' = held := by
    funext x n
    exact propext (hiff x n)
  rw [heq]
  exact h

/-- The free blocks on either side of a part of the row. -/
def Around (base : ℕ) (u : List Cell) (e : ℕ) (v : List Cell) (x n : ℕ) : Prop :=
  FreeAt base u x n ∨ FreeAt e v x n

theorem freeAt_append :
    FreeAt base (u ++ v) x n ↔ FreeAt base u x n ∨ FreeAt (base + span 8 u) v x n := by
  unfold FreeAt
  rw [placed_append, List.mem_append]

theorem freeAt_cons :
    FreeAt a (c :: v) x n ↔ (x = a ∧ c = ⟨n, true⟩) ∨ FreeAt (a + 8 + c.size) v x n := by
  unfold FreeAt
  rw [placed_cons, List.mem_cons, Prod.mk.injEq]
  exact or_congr_left (and_congr_right fun _ => eq_comm)

theorem Around.ne (h : Around base u e v x n) (ha : a = base + span 8 u) (he : a < e) : x ≠ a := by
  rcases h with h | h
  · have := h.bounds
    omega
  · have := h.bounds
    omega

/-! The steps of the allocator. -/

section Steps

variable (ha : a = base + span 8 u)

include ha

theorem Heap.markAsFree (h : Heap s base (u ++ ⟨n, false⟩ :: v) held)
    (hout : ∀ x m, held x m → Around base u (a + 8 + n) v x m) :
    ∃ s', s.blockMarkAsFree a = some s' ∧ Heap s' base (u ++ ⟨n, true⟩ :: v) held ∧
      Kept s s' (used 8 base (u ++ ⟨n, true⟩ :: v)) := by
  have h' : Heap s base (u ++ ([⟨n, false⟩] ++ v)) held := h
  obtain ⟨d, v', hv, hd⟩ := h'.next
  have hn : n % 8 = 0 ∧ 24 ≤ n :=
    h.proper ⟨n, false⟩ (List.mem_append_right u List.mem_cons_self)
  have hlaid := h.laid
  rw [List.append_assoc, List.cons_append, hv] at hlaid
  obtain ⟨s', hs', hlaid', hlocal⟩ := blockMarkAsFree_spec hlaid ha hn.1 (by omega) hd
  rw [← hv] at hlaid'
  have he : a + 8 + n = a + span 8 [⟨n, false⟩] := by simp; omega
  obtain ⟨hheap, hkept⟩ := h'.exchange ha he hlocal [⟨n, true⟩] rfl
    (fun c hc => (List.mem_singleton.mp hc) ▸ hn) hlaid' hout
  refine ⟨s', hs', hheap, ?_⟩
  rw [used_append, used_cons_free rfl, ← ha]
  exact hkept

theorem Heap.markAsUsed (h : Heap s base (u ++ ⟨n, true⟩ :: v) held)
    (hout : ∀ x m, held x m → Around base u (a + 8 + n) v x m) :
    ∃ s', s.blockMarkAsUsed a = some s' ∧ Heap s' base (u ++ ⟨n, false⟩ :: v) held ∧
      Kept s s' (used 8 base (u ++ ⟨n, true⟩ :: v)) := by
  have h' : Heap s base (u ++ ([⟨n, true⟩] ++ v)) held := h
  obtain ⟨d, v', hv, hd⟩ := h'.next
  have hn : n % 8 = 0 ∧ 24 ≤ n :=
    h.proper ⟨n, true⟩ (List.mem_append_right u List.mem_cons_self)
  have hlaid := h.laid
  rw [List.append_assoc, List.cons_append, hv] at hlaid
  obtain ⟨s', hs', hlaid', hlocal⟩ := blockMarkAsUsed_spec hlaid ha hn.1 (by omega) hd
  rw [← hv] at hlaid'
  have he : a + 8 + n = a + span 8 [⟨n, true⟩] := by simp; omega
  obtain ⟨hheap, hkept⟩ := h'.exchange ha he hlocal [⟨n, false⟩] rfl
    (fun c hc => (List.mem_singleton.mp hc) ▸ hn) hlaid' hout
  refine ⟨s', hs', hheap, ?_⟩
  rw [used_append, used_cons_free rfl, ← ha]
  exact hkept

/-- A block takes in the free one behind it, both in no list. -/
theorem Heap.absorb (h : Heap s base (u ++ ⟨m, true⟩ :: ⟨n, true⟩ :: v) held)
    (hout : ∀ x k, held x k → Around base u (a + 8 + (m + 8 + n)) v x k) :
    ∃ s', s.blockAbsorb a (a + 8 + m) = some (a, s') ∧
      Heap s' base (u ++ ⟨m + 8 + n, true⟩ :: v) held ∧
        Kept s s' (used 8 base (u ++ ⟨m + 8 + n, true⟩ :: v)) := by
  have h' : Heap s base (u ++ ([⟨m, true⟩, ⟨n, true⟩] ++ v)) held := h
  obtain ⟨d, v', hv, hd⟩ := h'.next
  have hm : m % 8 = 0 ∧ 24 ≤ m :=
    h.proper ⟨m, true⟩ (List.mem_append_right u List.mem_cons_self)
  have hn : n % 8 = 0 ∧ 24 ≤ n :=
    h.proper ⟨n, true⟩ (List.mem_append_right u (List.mem_cons_of_mem _ List.mem_cons_self))
  have hlaid := h.laid
  rw [List.append_assoc, List.cons_append, List.cons_append, hv] at hlaid
  obtain ⟨s', hs', hlaid', hlocal⟩ := blockAbsorb_spec hlaid ha hm.1 (by omega) hn.1
  rw [← hv] at hlaid'
  have he : a + 8 + (m + 8 + n) = a + span 8 [⟨m, true⟩, ⟨n, true⟩] := by simp; omega
  have hsum : (m + 8 + n) % 8 = 0 ∧ 24 ≤ m + 8 + n := by omega
  obtain ⟨hheap, hkept⟩ := h'.exchange ha he hlocal [⟨m + 8 + n, true⟩]
    (by simp; omega) (fun c hc => (List.mem_singleton.mp hc) ▸ hsum) hlaid' hout
  refine ⟨s', hs', hheap, ?_⟩
  rw [used_append, used_cons_free rfl, ← ha]
  exact hkept

/-- A free block in no list split in two of the same kind. -/
theorem Heap.split (h : Heap s base (u ++ ⟨n + 8 + m, true⟩ :: v) held) (hn : n % 8 = 0 ∧ 24 ≤ n)
    (hm : 24 ≤ m) (hout : ∀ x k, held x k → Around base u (a + 8 + (n + 8 + m)) v x k) :
    ∃ s₁ s₂, s.blockSplit a n = some (a + 8 + n, s₁) ∧
      s₁.blockLinkNext a = some (a + 8 + n, s₂) ∧
        Heap (s₂.blockSetPrevFree (a + 8 + n)) base (u ++ ⟨n, true⟩ :: ⟨m, true⟩ :: v) held ∧
          Kept s (s₂.blockSetPrevFree (a + 8 + n)) (used 8 base (u ++ ⟨n + 8 + m, true⟩ :: v)) := by
  have h' : Heap s base (u ++ ([⟨n + 8 + m, true⟩] ++ v)) held := h
  obtain ⟨d, v', hv, hd⟩ := h'.next
  have hsum : (n + 8 + m) % 8 = 0 ∧ 24 ≤ n + 8 + m :=
    h.proper ⟨n + 8 + m, true⟩ (List.mem_append_right u List.mem_cons_self)
  have halign : a % 8 = 0 := by
    refine h.aligned_at (c := ⟨n + 8 + m, true⟩) ?_
    rw [placed_append, ← ha]
    exact List.mem_append_right _ List.mem_cons_self
  have hlaid := h.laid
  rw [List.append_assoc, List.cons_append, hv] at hlaid
  obtain ⟨s₁, s₂, hs₁, hs₂, hlaid', hlocal⟩ :=
    blockSplit_spec hlaid ha halign hn.1 (by omega) (by omega) hm hd
  rw [← hv] at hlaid'
  have he : a + 8 + (n + 8 + m) = a + span 8 [⟨n + 8 + m, true⟩] := by simp; omega
  have hnew : ∀ c ∈ [(⟨n, true⟩ : Cell), ⟨m, true⟩], c.size % 8 = 0 ∧ 24 ≤ c.size := by
    intro c hc
    rcases List.mem_cons.mp hc with rfl | hc
    · exact hn
    · rw [List.mem_singleton.mp hc]
      simp only
      omega
  obtain ⟨hheap, hkept⟩ := h'.exchange ha he hlocal [⟨n, true⟩, ⟨m, true⟩]
    (by simp; omega) hnew hlaid' hout
  refine ⟨s₁, s₂, hs₁, hs₂, hheap, ?_⟩
  rw [used_append, used_cons_free rfl, ← ha]
  exact hkept

end Steps

/-- A free block taken out of the lists. -/
theorem Heap.remove (h : Heap s base row held) (hx : held a n) :
    ∃ s', s.removeFreeBlock a (mappingInsert n).1 (mappingInsert n).2 = some s' ∧
      Heap s' base row (fun x m => held x m ∧ x ≠ a) ∧ Kept s s' (used 8 base row) := by
  obtain ⟨s', hs', hfiled, hr⟩ :=
    removeFreeBlock_spec h.filed hx (h.spaced.mono h.free) h.positive
  obtain ⟨hlaid, hkept⟩ := h.relinked hr h.free
  exact ⟨s', hs', ⟨hlaid, h.proper, h.small, h.aligned, hr.control ▸ h.positive,
    hr.control ▸ h.above, fun x m hm => h.free x m hm.1, hfiled⟩, hkept⟩

/-- A free block put into the lists. -/
theorem Heap.insert (h : Heap s base row held) (hx : FreeAt base row a n) (hno : ∀ m, ¬ held a m) :
    ∃ s', s.insertFreeBlock a (mappingInsert n).1 (mappingInsert n).2 = some s' ∧
      Heap s' base row (fun x m => held x m ∨ x = a ∧ m = n) ∧ Kept s s' (used 8 base row) := by
  have hfree : ∀ x m, held x m ∨ x = a ∧ m = n → FreeAt base row x m := by
    rintro x m (hm | ⟨rfl, rfl⟩)
    · exact h.free x m hm
    · exact hx
  obtain ⟨s', hs', hfiled, hr⟩ :=
    insertFreeBlock_spec h.filed hno (h.spaced.mono hfree) h.positive (h.aligned_at hx)
  obtain ⟨hlaid, hkept⟩ := h.relinked hr hfree
  exact ⟨s', hs', ⟨hlaid, h.proper, h.small, h.aligned, hr.control ▸ h.positive,
    hr.control ▸ h.above, hfree, hfiled⟩, hkept⟩

/-- What the row says of a block is what its header says. -/
theorem Heap.header (h : Heap s base row held) (hx : (x, c) ∈ placed 8 base row) :
    ∃ p, s.words (x + 8) = sizeWord c.size c.free p := by
  obtain ⟨u, v, rfl, rfl⟩ := mem_placed_iff.mp hx
  have hlaid := h.laid
  rw [List.append_assoc, List.cons_append] at hlaid
  exact ⟨_, ((laid_cons_iff rfl).mp hlaid).2.1⟩

theorem Heap.blockRemove (h : Heap s base row held) (hx : held a n) :
    ∃ s', s.blockRemove a = some s' ∧ Heap s' base row (fun x m => held x m ∧ x ≠ a) ∧
      Kept s s' (used 8 base row) := by
  have hfree := h.free a n hx
  obtain ⟨p, hp⟩ := h.header hfree
  have hsize : s.blockSize a = n := blockSize_eq hp (h.size_lt hfree).1
  unfold Tlsf.blockRemove
  rw [hsize]
  exact h.remove hx

theorem Heap.blockInsert (h : Heap s base row held) (hx : FreeAt base row a n)
    (hno : ∀ m, ¬ held a m) :
    ∃ s', s.blockInsert a = some s' ∧ Heap s' base row (fun x m => held x m ∨ x = a ∧ m = n) ∧
      Kept s s' (used 8 base row) := by
  obtain ⟨p, hp⟩ := h.header hx
  have hsize : s.blockSize a = n := blockSize_eq hp (h.size_lt hx).1
  unfold Tlsf.blockInsert
  rw [hsize]
  exact h.insert hx hno

/-- A word of a used block is nothing to the allocator. -/
theorem Heap.store (h : Heap s base row held) (hx : (x, c) ∈ used 8 base row) (hlow : x + 16 ≤ y)
    (hhigh : y ≤ x + 8 + c.size) (k : ℕ) : Heap (s.write y k) base row held := by
  obtain ⟨hx, hc⟩ := mem_used_iff.mp hx
  have hb := placed_bounds hx
  refine ⟨?_, h.proper, h.small, h.aligned, h.positive, h.above, h.free, ?_⟩
  · apply h.laid.congr
    intro z d hz
    rw [placed_append] at hz
    rcases List.mem_append.mp hz with hz | hz
    · have hd := (h.size_lt hz).2.1
      constructor
      · apply write_words_ne
        have := placed_apart hz hx
        omega
      · intro hfree
        apply write_words_ne
        rcases placed_apart hz hx with ⟨-, hcd⟩ | hlt | hlt
        · rw [hcd, hc] at hfree
          cases hfree
        · omega
        · omega
    · have hze : z = base + span 8 row ∧ d = sentinel := by simpa using hz
      constructor
      · apply write_words_ne
        omega
      · intro hfree
        rw [hze.2] at hfree
        cases hfree
  · suffices hlinks : ∀ z n, held z n →
        (s.write y k).words (z + 16) = s.words (z + 16) ∧
          (s.write y k).words (z + 24) = s.words (z + 24) from
      h.filed.congr rfl rfl rfl rfl hlinks
    intro z n hz
    have hfree := h.free z n hz
    have hn : 24 ≤ n := (h.size_lt hfree).2.1
    have hne : y ≠ z + 16 ∧ y ≠ z + 24 := by
      rcases hfree.apart hx with ⟨-, hcn⟩ | hlt | hlt
      · rw [hcn] at hc
        cases hc
      · omega
      · omega
    exact ⟨write_words_ne hne.1.symm, write_words_ne hne.2.symm⟩

end Bipscript.Tlsf
