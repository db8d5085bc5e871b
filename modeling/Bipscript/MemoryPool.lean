import Bipscript.Library.Run
import Bipscript.TlsfMalloc

/-! The pool of the process thread between its callers: runs of allocations, releases and stores. -/
namespace Bipscript

open Cells Transition Tlsf

variable {a base e n m size x y : ℕ} {c d : Cell} {u v row : List Cell}

namespace Tlsf

variable {s s' : Tlsf} {held : ℕ → ℕ → Prop} {k : ℕ}

/-! A pool at its start. -/

/-- The bytes of the one free block a pool starts with. -/
def poolBytes (bytes : ℕ) : ℕ := (bytes - tlsfSize - 16) / 8 * 8

theorem filed_controlConstruct (mem : ℕ) (words : ℕ → ℕ) :
    Filed (controlConstruct mem words) fun _ _ => False where
  lists := by
    refine ⟨fun _ _ => [], fun i j => DoublyLinked.linked_nil rfl, fun i j x => ?_⟩
    simp
  bitmaps := by
    constructor
    · intro i j
      simp [controlConstruct]
    · intro i
      simp [controlConstruct]

/-- What `tlsf_add_pool` does for an aligned pool of a size in range. -/
theorem tlsfAddPool_spec (mem bytes : ℕ) (h : Filed s fun _ _ => False) (h0 : 0 < s.control)
    (hmem : mem % 8 = 0) (habove : s.control + 40 ≤ mem) (hk : k = (bytes - 16) / 8 * 8)
    (hmin : 24 ≤ k) (hmax : k < 2 ^ 32) :
    ∃ s', s.tlsfAddPool mem bytes = some s' ∧
      Heap s' (mem - 8) [⟨k, true⟩] (FreeAt (mem - 8) [⟨k, true⟩]) := by
  obtain ⟨b, hb⟩ : ∃ b, b = mem - 8 := ⟨_, rfl⟩
  rw [← hb]
  have hkmod : k % 8 = 0 := by omega
  -- the header of the first block is written over whatever was there
  obtain ⟨f, p, hflags⟩ := exists_sizeWord hkmod (s.words (b + 8))
  obtain ⟨s₁, hs₁⟩ : ∃ t, t = s.write (b + 8) (sizeWord k f p) := ⟨_, rfl⟩
  have hresize : s.blockSetSize b k = s₁ := by
    rw [hs₁]
    exact congrArg (s.write (b + 8)) hflags
  have hsize₁ : s₁.words (b + 8) = sizeWord k f p := by rw [hs₁, write_words_self]
  obtain ⟨s₂, hs₂⟩ : ∃ t, t = s₁.write (b + 8) (sizeWord k true p) := ⟨_, rfl⟩
  have hsize₂ : s₂.words (b + 8) = sizeWord k true p := by rw [hs₂, write_words_self]
  obtain ⟨s₃, hs₃⟩ : ∃ t, t = s₂.write (b + 8) (sizeWord k true false) := ⟨_, rfl⟩
  have hsize₃ : s₃.words (b + 8) = sizeWord k true false := by rw [hs₃, write_words_self]
  have hcontrol₃ : s₃.control = s.control := by
    rw [hs₃, hs₂, hs₁]
    rfl
  have hfiled₃ : Filed s₃ fun _ _ => False := by
    rw [hs₃, hs₂, hs₁]
    exact h.congr rfl rfl rfl rfl fun _ _ hx => hx.elim
  have hspaced : Spaced s₃.control fun x m => False ∨ x = b ∧ m = k := by
    constructor
    · rintro x n y m (hx | ⟨rfl, rfl⟩) (hy | ⟨rfl, rfl⟩)
      · exact hx.elim
      · exact hx.elim
      · exact hy.elim
      · exact .inl ⟨rfl, rfl⟩
    · rintro x n (hx | ⟨rfl, rfl⟩)
      · exact hx.elim
      · omega
  obtain ⟨s₄, hs₄, hfiled₄, hr⟩ := insertFreeBlock_spec hfiled₃ (fun _ hx => hx) hspaced
    (hcontrol₃ ▸ h0) (by omega)
  have hcontrol₄ : s₄.control = s.control := hr.control.trans hcontrol₃
  have hsize₄ : s₄.words (b + 8) = sizeWord k true false := by
    rw [hr.words, hsize₃]
    rintro y (rfl | ⟨n, hx | ⟨rfl, -⟩⟩)
    · omega
    · exact hx.elim
    · omega
  have hinsert : s₃.blockInsert b = some s₄ := by
    unfold blockInsert
    rw [blockSize_eq hsize₃ hkmod]
    exact hs₄
  have hlink := blockLinkNext_eq hsize₄ hkmod (by omega)
  obtain ⟨e, he⟩ : ∃ e, e = b + 8 + k := ⟨_, rfl⟩
  rw [← he] at hlink
  obtain ⟨s₅, hs₅⟩ : ∃ t, t = s₄.write e b := ⟨_, rfl⟩
  rw [← hs₅] at hlink
  -- so is the header of the sentinel
  obtain ⟨g, q, hflags'⟩ := exists_sizeWord (n := 0) rfl (s₅.words (e + 8))
  obtain ⟨s₆, hs₆⟩ : ∃ t, t = s₅.write (e + 8) (sizeWord 0 g q) := ⟨_, rfl⟩
  have hresize' : s₅.blockSetSize e 0 = s₆ := by
    rw [hs₆]
    exact congrArg (s₅.write (e + 8)) hflags'
  have hsize₆ : s₆.words (e + 8) = sizeWord 0 g q := by rw [hs₆, write_words_self]
  obtain ⟨s₇, hs₇⟩ : ∃ t, t = s₆.write (e + 8) (sizeWord 0 false q) := ⟨_, rfl⟩
  have hsize₇ : s₇.words (e + 8) = sizeWord 0 false q := by rw [hs₇, write_words_self]
  obtain ⟨s₈, hs₈⟩ : ∃ t, t = s₇.write (e + 8) (sizeWord 0 false true) := ⟨_, rfl⟩
  have hsize₈ : s₈.words (e + 8) = sizeWord 0 false true := by rw [hs₈, write_words_self]
  have hwords₈ : ∀ x, x ≠ e → x ≠ e + 8 → s₈.words x = s₄.words x := by
    intro x h₁ h₂
    rw [hs₈, write_words_ne h₂, hs₇, write_words_ne h₂, hs₆, write_words_ne h₂, hs₅,
      write_words_ne h₁]
  have hback₈ : s₈.words e = b := by
    rw [hs₈, write_words_ne (by omega), hs₇, write_words_ne (by omega), hs₆,
      write_words_ne (by omega), hs₅, write_words_self]
  have hcontrol₈ : s₈.control = s.control := by
    rw [← hcontrol₄, hs₈, hs₇, hs₆, hs₅]
    rfl
  have hexec : s.tlsfAddPool mem bytes = some s₈ := by
    have hbytes : alignDown (bytes - tlsfPoolOverhead) 8 = k :=
      (alignDown_eq (bytes - tlsfPoolOverhead)).trans hk.symm
    have hblock : offsetToBlock mem (-8) = b := by
      unfold offsetToBlock
      omega
    have hrange : ¬ (k < 24 ∨ 4294967296 < k) := by omega
    have hfree : s₁.blockSetFree b = s₂ := (blockSetFree_eq hsize₁ hkmod).trans hs₂.symm
    have hused : s₂.blockSetPrevUsed b = s₃ := (blockSetPrevUsed_eq hsize₂ hkmod).trans hs₃.symm
    have hused' : s₆.blockSetUsed e = s₇ := (blockSetUsed_eq hsize₆ rfl).trans hs₇.symm
    have hfree' : s₇.blockSetPrevFree e = s₈ := (blockSetPrevFree_eq hsize₇ rfl).trans hs₈.symm
    simp [tlsfAddPool, hbytes, hmem, hrange, hblock, hresize, hfree, hused, hinsert, hlink,
      hresize', hused', hfree']
  have hlaid : Laid s₈.words b false ([⟨k, true⟩] ++ [sentinel]) := by
    refine ⟨?_, fun _ => ?_, ?_, ?_, trivial⟩
    · rw [hwords₈ _ (by omega) (by omega), hsize₄]
    · rw [← he, hback₈]
    · rw [← he]
      exact hsize₈
    · rintro ⟨⟩
  refine ⟨s₈, hexec, hlaid, ?_, ?_, by omega, by omega, by omega, fun _ _ hx => hx, ?_⟩
  · intro c hc
    rw [List.mem_singleton.mp hc]
    exact ⟨hkmod, hmin⟩
  · simp only [span_cons, span_nil]
    omega
  · have hfiled₈ : Filed s₈ fun x m => False ∨ x = b ∧ m = k := by
      apply hfiled₄.congr
      · rw [hcontrol₈, hcontrol₄]
      · rw [hs₈, hs₇, hs₆, hs₅]
        rfl
      · rw [hs₈, hs₇, hs₆, hs₅]
        rfl
      · rw [hs₈, hs₇, hs₆, hs₅]
        rfl
      · rintro x n (hx | ⟨rfl, -⟩)
        · exact hx.elim
        · exact ⟨hwords₈ _ (by omega) (by omega), hwords₈ _ (by omega) (by omega)⟩
    have hsame : FreeAt b [⟨k, true⟩] = fun x m => False ∨ x = b ∧ m = k := by
      funext x m
      simp [FreeAt, eq_comm]
    rw [hsame]
    exact hfiled₈

/-- A pool begins as one free block. -/
theorem tlsfCreateWithPool_spec {mem bytes : ℕ} (words : ℕ → ℕ) (h0 : 0 < mem) (hmem : mem % 8 = 0)
    (hmin : 24 ≤ poolBytes bytes) (hmax : poolBytes bytes < 2 ^ 32) :
    ∃ s, tlsfCreateWithPool mem bytes words = some s ∧
      Heap s (mem + 6528) [⟨poolBytes bytes, true⟩]
        (FreeAt (mem + 6528) [⟨poolBytes bytes, true⟩]) := by
  have hsize : tlsfSize = 6536 := rfl
  have hcreate : tlsfCreate mem words = some (controlConstruct mem words) := by
    have halign : ¬ mem % ALIGN_SIZE ≠ 0 := not_not.mpr hmem
    exact if_neg halign
  have hcontrol : (controlConstruct mem words).control = mem := rfl
  obtain ⟨s, hs, hheap⟩ := tlsfAddPool_spec (mem + tlsfSize) (bytes - tlsfSize)
    (filed_controlConstruct mem words) h0 (by omega) (by omega) rfl hmin hmax
  refine ⟨s, ?_, ?_⟩
  · simp [tlsfCreateWithPool, hcreate, hs]
  · have hbase : mem + tlsfSize - 8 = mem + 6528 := by omega
    rw [hbase] at hheap
    exact hheap

end Tlsf

/-- The pool with what its callers hold: the pointers they got and the sizes they asked for, and the
words they stored there since. -/
structure MemoryPool where
  tlsf : Tlsf
  live : List (ℕ × ℕ)
  stored : ℕ → Option ℕ

namespace MemoryPool

inductive Act
  | malloc (size : ℕ)
  | free (p : Option ℕ)
  | store (a value : ℕ)

/-- A call of `malloc` or `free`, or a store of a caller; nothing where an assertion fails. -/
def exec (s : MemoryPool) : Act → Option MemoryPool
  | .malloc size => do
    let (p, tlsf) ← s.tlsf.tlsfMalloc size
    match p with
    | none => pure { s with tlsf }
    | some p =>
      pure
        { tlsf
          live := (p, size) :: s.live
          stored := fun a => if p ≤ a ∧ a < p + size then none else s.stored a }
  | .free p => do
    let tlsf ← s.tlsf.tlsfFree p
    match p with
    | none => pure { s with tlsf }
    | some p => pure { s with tlsf, live := s.live.filter fun e => e.1 ≠ p }
  | .store a value =>
    pure { s with tlsf := s.tlsf.write a value, stored := Function.update s.stored a (some value) }

/-- Callers free what they hold, and store words there; requests are in the range of the arrays. -/
def Allowed (s : MemoryPool) : Act → Prop
  | .malloc size => size ≤ largestRequest
  | .free none => True
  | .free (some p) => ∃ n, (p, n) ∈ s.live
  | .store a _ => a % 8 = 0 ∧ ∃ p n, (p, n) ∈ s.live ∧ p ≤ a ∧ a < p + n

def Step (s : MemoryPool) (a : Act) (t : MemoryPool) : Prop := s.Allowed a ∧ s.exec a = some t

/-- The pool as it is constructed. -/
def create (mem bytes : ℕ) (words : ℕ → ℕ) : Option MemoryPool := do
  let tlsf ← tlsfCreateWithPool mem bytes words
  pure { tlsf, live := [], stored := fun _ => none }

/-- What an allocator is for: a row of blocks, and the pointers its callers hold. -/
structure Rows where
  row : List Cell
  live : List (ℕ × ℕ)

/-- A request is answered with a part of a free block of the earliest class that a search for it
looks into and that has one, or with null if there is no such block. A block freed is joined with
its free neighbours. -/
inductive Rows.Step (base : ℕ) (r : Rows) : Act → Rows → Prop
  | zero : Rows.Step base r (.malloc 0) r
  | refuse {n : ℕ} (h0 : n ≠ 0)
      (h : ∀ x k, FreeAt base r.row x k → ¬ Serves (adjustRequestSize n ALIGN_SIZE) k) :
      Rows.Step base r (.malloc n) r
  | cut {n k : ℕ} {u v : List Cell} (h0 : n ≠ 0) (hrow : r.row = u ++ ⟨k, true⟩ :: v)
      (hserves : Serves (adjustRequestSize n ALIGN_SIZE) k)
      (hle : adjustRequestSize n ALIGN_SIZE ≤ k)
      (hfit : ∀ x m, FreeAt base r.row x m → Serves (adjustRequestSize n ALIGN_SIZE) m →
        rank (mappingInsert k) ≤ rank (mappingInsert m)) :
      Rows.Step base r (.malloc n)
        ⟨u ++ (carve k (adjustRequestSize n ALIGN_SIZE) ++ v), (base + span 8 u + 16, n) :: r.live⟩
  | freeNull : Rows.Step base r (.free none) r
  | free {k : ℕ} {u v : List Cell} (hrow : r.row = u ++ ⟨k, false⟩ :: v) :
      Rows.Step base r (.free (some (base + span 8 u + 16)))
        ⟨settle 8 (u ++ ⟨k, true⟩ :: v), r.live.filter fun e => e.1 ≠ base + span 8 u + 16⟩
  | store {a k : ℕ} : Rows.Step base r (.store a k) r

/-- The pool is a settled row, its used blocks are those that callers hold, each as large as asked
for and not much larger, with the words stored there. -/
structure Sound (s : MemoryPool) (base total : ℕ) (row : List Cell) : Prop where
  heap : Heap s.tlsf base row (FreeAt base row)
  settled : Settled row
  total : span 8 row = total
  live : (s.live.map Prod.fst).Perm ((used 8 base row).map fun e => e.1 + 16)
  sizes : ∀ p n, (p, n) ∈ s.live → ∃ x c, p = x + 16 ∧ (x, c) ∈ used 8 base row ∧ n ≤ c.size ∧
    c.size ≤ adjustRequestSize n ALIGN_SIZE + 24
  stored : ∀ p n, (p, n) ∈ s.live → ∀ a v, a % 8 = 0 → p ≤ a → a < p + n →
    s.stored a = some v → s.tlsf.words a = v

variable {s t : MemoryPool} {total : ℕ} {act : Act}

/-- The used cells before and behind a part of the row. -/
theorem used_middle (ha : a = base + span 8 u) (he : e = a + 8 + c.size) (hc : c.free = true) :
    used 8 base (u ++ c :: v) = used 8 base u ++ used 8 e v := by
  rw [used_append, used_cons_free hc, ← ha, he]

/-- How much of a free block is taken. -/
def taken (n size : ℕ) : ℕ := if 32 + size ≤ n then size else n

theorem used_carve (ha : a = base + span 8 u) :
    used 8 base (u ++ (carve n size ++ v)) =
      used 8 base u ++ (a, ⟨taken n size, false⟩) :: used 8 (a + 8 + n) v := by
  rw [used_append, ← ha]
  unfold carve taken
  split
  · have hend : a + 8 + size + 8 + (n - (size + 8)) = a + 8 + n := by omega
    simp only [List.cons_append, List.nil_append]
    rw [used_cons_used rfl, used_cons_free rfl]
    simp only [hend]
  · rfl

theorem span_carve : span 8 (u ++ (carve n size ++ v)) = span 8 (u ++ ⟨n, true⟩ :: v) := by
  unfold carve
  split
  · simp only [span_append, span_cons, span_nil]
    omega
  · simp only [span_append, span_cons, span_nil]
    omega

/-- A word of a live block lies in its used block. -/
theorem Sound.word (h : Sound s base total row) {p k : ℕ} (hp : (p, n) ∈ s.live) (hk : k % 8 = 0)
    (hlow : p ≤ k) (hhigh : k < p + n) :
    ∃ x c, p = x + 16 ∧ (x, c) ∈ used 8 base row ∧ x + 16 ≤ k ∧ k ≤ x + 8 + c.size := by
  obtain ⟨x, c, rfl, hx, hn, -⟩ := h.sizes p n hp
  have hplaced := (mem_used_iff.mp hx).1
  have hmod := (h.heap.size_lt hplaced).1
  have hxmod := h.heap.aligned_at hplaced
  exact ⟨x, c, rfl, hx, hlow, by omega⟩

theorem Sound.unique (h : Sound s base total row) (hc : (x, c) ∈ used 8 base row)
    (hd : (x, d) ∈ used 8 base row) : c = d := by
  have hc' := (mem_used_iff.mp hc).1
  have hd' := (mem_used_iff.mp hd).1
  have := (h.heap.size_lt hc').2.1
  rcases placed_apart hc' hd' with ⟨-, he⟩ | hlt | hlt
  · exact he
  · omega
  · omega

/-- What is stored in live blocks stays where their words are kept. -/
theorem Sound.kept (h : Sound s base total row) {tlsf : Tlsf} {us : List (ℕ × Cell)}
    (hk : Kept s.tlsf tlsf us) {p i j : ℕ} (hp : (p, n) ∈ s.live)
    (hus : ∀ x c, p = x + 16 → (x, c) ∈ used 8 base row → (x, c) ∈ us) (hi : i % 8 = 0)
    (hlow : p ≤ i) (hhigh : i < p + n) (hv : s.stored i = some j) : tlsf.words i = j := by
  obtain ⟨x, c, hpx, hx, hxlow, hxhigh⟩ := h.word hp hi hlow hhigh
  rw [hk x c (hus x c hpx hx) i hxlow hxhigh]
  exact h.stored p n hp i j hi hlow hhigh hv

theorem Sound.malloc (h : Sound s base total row) (hn : n ≤ largestRequest) :
    ∃ t row', s.exec (.malloc n) = some t ∧
      Rows.Step base ⟨row, s.live⟩ (.malloc n) ⟨row', t.live⟩ ∧ Sound t base total row' := by
  by_cases h0 : n = 0
  · subst h0
    have hnone : s.tlsf.tlsfMalloc 0 = some (none, s.tlsf) := rfl
    refine ⟨s, row, ?_, .zero, h⟩
    simp [exec, hnone]
  · obtain ⟨ptr, tlsf, row', he, halloc, hheap, hset⟩ := h.heap.malloc h.settled h0 hn
    obtain ⟨hmod, hmin, hle, -⟩ := adjustRequestSize_bounds hn h0
    generalize hadjust : adjustRequestSize n ALIGN_SIZE = size at *
    cases halloc with
    | refused hnone =>
      refine ⟨s, row, ?_, .refuse h0 fun x k hx => ?_, h⟩
      · simp [exec, he]
      · rw [hadjust]
        exact hnone x k hx
    | @cut u v k _ hrow hserves hsize hfit hkept =>
      obtain ⟨x, hx⟩ : ∃ x, x = base + span 8 u := ⟨_, rfl⟩
      rw [← hx] at he
      have hplaced : (x, ⟨k, true⟩) ∈ placed 8 base row := by
        rw [hrow, placed_append, ← hx]
        exact List.mem_append_right _ List.mem_cons_self
      have hkmod : k % 8 = 0 := (h.heap.size_lt hplaced).1
      have hold : used 8 base row = used 8 base u ++ used 8 (x + 8 + k) v := by
        rw [hrow]
        exact used_middle hx rfl rfl
      have hnew : used 8 base (u ++ (carve k size ++ v)) =
          used 8 base u ++ (x, ⟨taken k size, false⟩) :: used 8 (x + 8 + k) v := used_carve hx
      have htaken : size ≤ taken k size ∧ taken k size ≤ size + 24 := by
        unfold taken
        split <;> omega
      have hcut : Rows.Step base ⟨row, s.live⟩ (.malloc n)
          ⟨u ++ (carve k size ++ v), (x + 16, n) :: s.live⟩ := by
        rw [hx, ← hadjust]
        exact .cut h0 hrow (hadjust ▸ hserves) (hadjust ▸ hsize) (hadjust ▸ hfit)
      refine ⟨⟨tlsf, (x + 16, n) :: s.live, fun i =>
        if x + 16 ≤ i ∧ i < x + 16 + n then none else s.stored i⟩, _, ?_, hcut, hheap, hset,
          ?_, ?_, ?_, ?_⟩
      · simp [exec, he]
      · rw [span_carve, ← hrow, h.total]
      · rw [hnew, List.map_cons, List.map_append, List.map_cons]
        refine (List.Perm.cons (x + 16) ?_).trans List.perm_middle.symm
        rw [← List.map_append, ← hold]
        exact h.live
      · intro p m hp
        rcases List.mem_cons.mp hp with hp | hp
        · cases hp
          have hsizes : n ≤ taken k size ∧
              taken k size ≤ adjustRequestSize n ALIGN_SIZE + 24 := by omega
          refine ⟨x, ⟨taken k size, false⟩, rfl, ?_, hsizes⟩
          rw [hnew]
          exact List.mem_append_right _ List.mem_cons_self
        · obtain ⟨y, c, hpy, hy, hsizes⟩ := h.sizes p m hp
          refine ⟨y, c, hpy, ?_, hsizes⟩
          rw [hold] at hy
          rw [hnew]
          rcases List.mem_append.mp hy with hy | hy
          · exact List.mem_append_left _ hy
          · exact List.mem_append_right _ (List.mem_cons_of_mem _ hy)
      · intro p m hp i j hi hlow hhigh hv
        simp only at hv
        split at hv
        · cases hv
        · rename_i hout
          rcases List.mem_cons.mp hp with hp | hp
          · cases hp
            exact (hout ⟨hlow, hhigh⟩).elim
          · exact h.kept hkept hp (fun _ _ _ hy => hy) hi hlow hhigh hv

theorem Sound.free (h : Sound s base total row) {p : ℕ} (hp : (p, n) ∈ s.live) :
    ∃ t row', s.exec (.free (some p)) = some t ∧
      Rows.Step base ⟨row, s.live⟩ (.free (some p)) ⟨row', t.live⟩ ∧ Sound t base total row' := by
  obtain ⟨x, c, rfl, hx, -⟩ := h.sizes p n hp
  obtain ⟨hplaced, hc⟩ := mem_used_iff.mp hx
  obtain ⟨u, v, hrow, hxu⟩ := mem_placed_iff.mp hplaced
  obtain ⟨k, f⟩ := c
  simp only at hc
  subst hc
  have hheap := h.heap
  have hset := h.settled
  rw [hrow] at hheap hset
  obtain ⟨tlsf, he, hheap', hkept⟩ := hheap.release hxu hset
  have hnew : used 8 base (u ++ ⟨k, true⟩ :: v) = used 8 base u ++ used 8 (x + 8 + k) v :=
    used_middle hxu rfl rfl
  have hold : used 8 base row = used 8 base u ++ (x, ⟨k, false⟩) :: used 8 (x + 8 + k) v := by
    rw [hrow, used_append, used_cons_used rfl, ← hxu]
  -- every other used block starts elsewhere
  have hother : ∀ y d, (y, d) ∈ used 8 base (u ++ ⟨k, true⟩ :: v) ↔
      (y, d) ∈ used 8 base row ∧ y ≠ x := by
    intro y d
    rw [hnew, hold, List.mem_append, List.mem_append, List.mem_cons]
    constructor
    · rintro (hy | hy)
      · have := placed_bounds (mem_used_iff.mp hy).1
        exact ⟨.inl hy, by omega⟩
      · have := placed_bounds (mem_used_iff.mp hy).1
        exact ⟨.inr (.inr hy), by omega⟩
    · rintro ⟨hy | hy | hy, hne⟩
      · exact .inl hy
      · cases hy
        exact (hne rfl).elim
      · exact .inr hy
  have hfree : Rows.Step base ⟨row, s.live⟩ (.free (some (x + 16)))
      ⟨settle 8 (u ++ ⟨k, true⟩ :: v), s.live.filter fun e => e.1 ≠ x + 16⟩ := by
    rw [hxu]
    exact .free hrow
  refine ⟨⟨tlsf, s.live.filter fun e => e.1 ≠ x + 16, s.stored⟩, _, ?_, hfree, hheap',
    settle_settled, ?_, ?_, ?_, ?_⟩
  · simp [exec, he]
  · rw [settle_span, ← h.total, hrow]
    simp only [span_append, span_cons]
  · have hfilter : (s.live.filter fun e => e.1 ≠ x + 16).map Prod.fst =
        (s.live.map Prod.fst).filter fun q => q ≠ x + 16 := by
      rw [List.filter_map]
      rfl
    have hrest : ((used 8 base row).map fun e => e.1 + 16).filter (fun q => q ≠ x + 16) =
        (used 8 base (u ++ ⟨k, true⟩ :: v)).map fun e => e.1 + 16 := by
      have hkeep : ∀ l : List (ℕ × Cell), (∀ y d, (y, d) ∈ l → y ≠ x) →
          (l.map fun e => e.1 + 16).filter (fun q => q ≠ x + 16) = l.map fun e => e.1 + 16 := by
        intro l hl
        apply List.filter_eq_self.mpr
        intro q hq
        obtain ⟨⟨y, d⟩, hy, rfl⟩ := List.mem_map.mp hq
        have := hl y d hy
        exact decide_eq_true (by simp only; omega)
      rw [hold, hnew, List.map_append, List.map_append, List.map_cons, List.filter_append,
        List.filter_cons_of_neg (by simp)]
      rw [hkeep, hkeep]
      · intro y d hy
        have := placed_bounds (mem_used_iff.mp hy).1
        omega
      · intro y d hy
        have := placed_bounds (mem_used_iff.mp hy).1
        omega
    rw [hfilter, used_settle, ← hrest]
    exact h.live.filter _
  · intro q m hq
    obtain ⟨hq, hne⟩ := List.mem_filter.mp hq
    have hne : q ≠ x + 16 := of_decide_eq_true hne
    obtain ⟨y, d, hqy, hy, hsizes⟩ := h.sizes q m hq
    refine ⟨y, d, hqy, ?_, hsizes⟩
    rw [used_settle]
    exact (hother y d).mpr ⟨hy, by omega⟩
  · intro q m hq i j hi hlow hhigh hv
    obtain ⟨hq, hne⟩ := List.mem_filter.mp hq
    have hne : q ≠ x + 16 := of_decide_eq_true hne
    exact h.kept hkept hq (fun y d hqy hy => (hother y d).mpr ⟨hy, by omega⟩) hi hlow hhigh hv

theorem Sound.store (h : Sound s base total row) {p : ℕ} (hp : (p, n) ∈ s.live) (ha : a % 8 = 0)
    (hlow : p ≤ a) (hhigh : a < p + n) (k : ℕ) :
    ∃ t row', s.exec (.store a k) = some t ∧
      Rows.Step base ⟨row, s.live⟩ (.store a k) ⟨row', t.live⟩ ∧ Sound t base total row' := by
  obtain ⟨x, c, hpx, hx, hxlow, hxhigh⟩ := h.word hp ha hlow hhigh
  refine ⟨_, row, rfl, .store, h.heap.store hx hxlow hxhigh k, h.settled, h.total, h.live, h.sizes,
    ?_⟩
  intro q m hq i j hi hqlow hqhigh hv
  simp only at hv ⊢
  by_cases hia : i = a
  · subst hia
    rw [Function.update_self] at hv
    rw [write_words_self]
    exact Option.some_inj.mp hv
  · rw [Function.update_of_ne hia] at hv
    rw [write_words_ne hia]
    exact h.stored q m hq i j hi hqlow hqhigh hv

/-- Whatever the callers do that they may, no assertion fails, and it is a step of the row. -/
theorem Sound.exec (h : Sound s base total row) (ha : s.Allowed act) :
    ∃ t row', s.exec act = some t ∧ Rows.Step base ⟨row, s.live⟩ act ⟨row', t.live⟩ ∧
      Sound t base total row' := by
  cases act with
  | malloc n => exact h.malloc ha
  | free p =>
    cases p with
    | none => exact ⟨s, row, rfl, .freeNull, h⟩
    | some p =>
      obtain ⟨n, hp⟩ := ha
      exact h.free hp
  | store a k =>
    obtain ⟨hmod, p, n, hp, hlow, hhigh⟩ := ha
    exact h.store hp hmod hlow hhigh k

/-! What a call changes of what the callers hold. -/

theorem exec_malloc (he : s.exec (.malloc n) = some t) :
    (t.live = s.live ∧ t.stored = s.stored) ∨
      ∃ p, t.live = (p, n) :: s.live ∧
        t.stored = fun a => if p ≤ a ∧ a < p + n then none else s.stored a := by
  obtain ⟨⟨p, tlsf⟩, -, he⟩ := Option.bind_eq_some_iff.mp he
  cases p with
  | none =>
    cases he
    exact .inl ⟨rfl, rfl⟩
  | some p =>
    cases he
    exact .inr ⟨p, rfl, rfl⟩

theorem exec_free {p : ℕ} (he : s.exec (.free (some p)) = some t) :
    t.live = (s.live.filter fun e => e.1 ≠ p) ∧ t.stored = s.stored := by
  obtain ⟨tlsf, -, he⟩ := Option.bind_eq_some_iff.mp he
  cases he
  exact ⟨rfl, rfl⟩

end MemoryPool

end Bipscript
