import Bipscript.Library.Cells
import Bipscript.TlsfMapping

/-! The blocks of a pool side by side: what marking, splitting and absorbing do to the row. -/
namespace Bipscript.Tlsf

open Cells

variable {s s' : Tlsf} {w w' : ℕ → ℕ} {a b base x : ℕ} {n m : ℕ} {f p q : Bool}
  {c d : Cell} {u v cs ds row row' : List Cell}

/-- A size field: a size, whether the block is free and whether the one before it is. -/
def sizeWord (size : ℕ) (free prevFree : Bool) : ℕ := size + free.toNat + 2 * prevFree.toNat

/-! Flags in the two lowest bits. -/

theorem testBit_of_lt_four {mask i : ℕ} (hm : mask < 4) (hi : ¬ i < 2) :
    mask.testBit i = false := by
  have hpow : 2 ^ 2 ≤ 2 ^ i := Nat.pow_le_pow_right Nat.two_pos (by omega)
  exact Nat.testBit_lt_two_pow (Nat.lt_of_lt_of_le hm hpow)

theorem low_bits {k r mask : ℕ} (hr : r < 4) (hm : mask < 4) :
    (2 ^ 2 * k + r) &&& mask = r &&& mask ∧ (2 ^ 2 * k + r) ||| mask = 2 ^ 2 * k + (r ||| mask) ∧
      clearBits (2 ^ 2 * k + r) mask = 2 ^ 2 * k + clearBits r mask := by
  have hor : r ||| mask < 2 ^ 2 := Nat.or_lt_two_pow hr hm
  have hclear : clearBits r mask < 2 ^ 2 :=
    Nat.xor_lt_two_pow hr (Nat.lt_of_le_of_lt Nat.and_le_left hr)
  refine ⟨?_, ?_, ?_⟩
  · apply Nat.eq_of_testBit_eq
    intro i
    rw [Nat.testBit_and, Nat.testBit_and, Nat.testBit_two_pow_mul_add _ hr]
    split
    · rfl
    · rename_i hi
      simp [testBit_of_lt_four hm hi]
  · apply Nat.eq_of_testBit_eq
    intro i
    rw [Nat.testBit_or, Nat.testBit_two_pow_mul_add _ hr, Nat.testBit_two_pow_mul_add _ hor]
    split
    · rw [Nat.testBit_or]
    · rename_i hi
      simp [testBit_of_lt_four hm hi]
  · apply Nat.eq_of_testBit_eq
    intro i
    rw [testBit_clearBits, Nat.testBit_two_pow_mul_add _ hr, Nat.testBit_two_pow_mul_add _ hclear]
    split
    · rw [testBit_clearBits]
    · rename_i hi
      simp [testBit_of_lt_four hm hi]

/-- A size field of an aligned size, split off its flags. -/
theorem sizeWord_eq (hn : n % 8 = 0) :
    ∃ k, n = 2 ^ 2 * k ∧
      ∀ f p, sizeWord n f p = 2 ^ 2 * k + (f.toNat + 2 * p.toNat) ∧ f.toNat + 2 * p.toNat < 4 := by
  refine ⟨n / 4, by omega, ?_⟩
  intro f p
  have hf := f.toNat_lt
  have hp := p.toNat_lt
  unfold sizeWord
  omega

theorem clearBits_sizeWord (hn : n % 8 = 0) : clearBits (sizeWord n f p) 3 = n := by
  obtain ⟨k, hk, hw⟩ := sizeWord_eq hn
  obtain ⟨he, hlt⟩ := hw f p
  rw [he, (low_bits hlt (by omega)).2.2, hk]
  cases f <;> cases p <;> rfl

theorem free_sizeWord (hn : n % 8 = 0) : sizeWord n f p &&& 1 ≠ 0 ↔ f = true := by
  obtain ⟨k, hk, hw⟩ := sizeWord_eq hn
  obtain ⟨he, hlt⟩ := hw f p
  rw [he, (low_bits hlt (by omega)).1]
  cases f <;> cases p <;> decide

theorem prevFree_sizeWord (hn : n % 8 = 0) : sizeWord n f p &&& 2 ≠ 0 ↔ p = true := by
  obtain ⟨k, hk, hw⟩ := sizeWord_eq hn
  obtain ⟨he, hlt⟩ := hw f p
  rw [he, (low_bits hlt (by omega)).1]
  cases f <;> cases p <;> decide

theorem sizeWord_setFree (hn : n % 8 = 0) : sizeWord n f p ||| 1 = sizeWord n true p := by
  obtain ⟨k, hk, hw⟩ := sizeWord_eq hn
  obtain ⟨he, hlt⟩ := hw f p
  rw [he, (low_bits hlt (by omega)).2.1, (hw true p).1]
  cases f <;> cases p <;> rfl

theorem sizeWord_setUsed (hn : n % 8 = 0) : clearBits (sizeWord n f p) 1 = sizeWord n false p := by
  obtain ⟨k, hk, hw⟩ := sizeWord_eq hn
  obtain ⟨he, hlt⟩ := hw f p
  rw [he, (low_bits hlt (by omega)).2.2, (hw false p).1]
  cases f <;> cases p <;> rfl

theorem sizeWord_setPrevFree (hn : n % 8 = 0) : sizeWord n f p ||| 2 = sizeWord n f true := by
  obtain ⟨k, hk, hw⟩ := sizeWord_eq hn
  obtain ⟨he, hlt⟩ := hw f p
  rw [he, (low_bits hlt (by omega)).2.1, (hw f true).1]
  cases f <;> cases p <;> rfl

theorem sizeWord_setPrevUsed (hn : n % 8 = 0) :
    clearBits (sizeWord n f p) 2 = sizeWord n f false := by
  obtain ⟨k, hk, hw⟩ := sizeWord_eq hn
  obtain ⟨he, hlt⟩ := hw f p
  rw [he, (low_bits hlt (by omega)).2.2, (hw f false).1]
  cases f <;> cases p <;> rfl

theorem sizeWord_resize (hn : n % 8 = 0) (hm : m % 8 = 0) :
    n ||| (sizeWord m f p &&& 3) = sizeWord n f p := by
  obtain ⟨k, hk, hw⟩ := sizeWord_eq hn
  obtain ⟨k', -, hw'⟩ := sizeWord_eq hm
  obtain ⟨he, hlt⟩ := hw' f p
  have hzero : n = 2 ^ 2 * k + 0 := hk
  rw [he, (low_bits hlt (by omega)).1, (hw f p).1, hzero,
    (low_bits (by omega) (Nat.lt_of_le_of_lt Nat.and_le_left hlt)).2.1]
  cases f <;> cases p <;> rfl

/-- A size written over anything keeps some flags. -/
theorem exists_sizeWord (hn : n % 8 = 0) (m : ℕ) : ∃ f p, n ||| (m &&& 3) = sizeWord n f p := by
  have hmod : m &&& 3 = m % 4 := Nat.and_two_pow_sub_one_eq_mod m 2
  obtain ⟨k, hk, hw⟩ := sizeWord_eq hn
  have hzero : n = 2 ^ 2 * k + 0 := hk
  refine ⟨decide (m % 2 = 1), decide (m / 2 % 2 = 1), ?_⟩
  rw [hmod, (hw _ _).1, hzero, (low_bits (by omega) (by omega)).2.1, Nat.zero_or]
  by_cases h : m % 2 = 1 <;> by_cases h' : m / 2 % 2 = 1 <;> simp [h, h'] <;> omega

/-! Rows of blocks in memory. -/

/-- The blocks of a row from `a` on, `p` saying whether the block before it is free: each size field
as the block is, and behind each free block the pointer back to it. -/
def Laid (w : ℕ → ℕ) : ℕ → Bool → List Cell → Prop
  | _, _, [] => True
  | a, p, c :: cs =>
    w (a + 8) = sizeWord c.size c.free p ∧ (c.free = true → w (a + 8 + c.size) = a) ∧
      Laid w (a + 8 + c.size) c.free cs

/-- A block's size is aligned, and large enough for the header of a free one. -/
def Proper (c : Cell) : Prop := c.size % 8 = 0 ∧ (c.free = true → 24 ≤ c.size)

@[simp] theorem laid_nil : Laid w a p [] := trivial

theorem laid_append :
    Laid w a p (cs ++ ds) ↔ Laid w a p cs ∧ Laid w (a + span 8 cs) (lastFree p cs) ds := by
  induction cs generalizing a p with
  | nil => exact (and_iff_right trivial).symm
  | cons c cs ih =>
    have hplace : a + 8 + c.size + span 8 cs = a + span 8 (c :: cs) := by
      rw [span_cons]
      omega
    simp only [List.cons_append, Laid, lastFree, ih, hplace, and_assoc]

/-- A row is in the words from its first size field to its end. -/
theorem Laid.frame (h : Laid w a p cs) (hw : ∀ x, a + 8 ≤ x → x ≤ a + span 8 cs → w' x = w x) :
    Laid w' a p cs := by
  induction cs generalizing a p with
  | nil => trivial
  | cons c cs ih =>
    obtain ⟨hsize, hback, hrest⟩ := h
    rw [span_cons] at hw
    refine ⟨?_, ?_, ih hrest ?_⟩
    · rw [hw (a + 8) (by omega) (by omega), hsize]
    · intro hc
      rw [hw (a + 8 + c.size) (by omega) (by omega), hback hc]
    · intro x hlow hhigh
      exact hw x (by omega) (by omega)

/-- The flag for the block before a row is in the first size field. -/
theorem Laid.reflag (h : Laid w a p (d :: ds)) (hd : Proper d) (q : Bool)
    (hsize : w' (a + 8) = sizeWord d.size d.free q) (hw : ∀ x, a + 8 < x → w' x = w x) :
    Laid w' a q (d :: ds) := by
  obtain ⟨-, hback, hrest⟩ := h
  refine ⟨hsize, ?_, hrest.frame fun x hlow _ => hw x (by omega)⟩
  intro hfree
  have hmin := hd.2 hfree
  rw [hw (a + 8 + d.size) (by omega), hback hfree]

/-! What the accessors read off a size field. -/

@[simp] theorem write_words_self {v : ℕ} : (s.write a v).words a = v := by
  simp [write]

theorem write_words_ne {v : ℕ} (h : x ≠ a) : (s.write a v).words x = s.words x := by
  simp [write, h]

section Fields

variable (h : s.words (a + 8) = sizeWord n f p) (hn : n % 8 = 0)

include h hn

theorem blockSize_eq : s.blockSize a = n := by
  have hmask : blockHeaderFreeBit ||| blockHeaderPrevFreeBit = 3 := rfl
  unfold blockSize sizeField
  rw [h, hmask, clearBits_sizeWord hn]

theorem blockIsFree_iff : s.blockIsFree a ↔ f = true := by
  unfold blockIsFree sizeField
  rw [h]
  exact free_sizeWord hn

theorem blockIsPrevFree_iff : s.blockIsPrevFree a ↔ p = true := by
  unfold blockIsPrevFree sizeField
  rw [h]
  exact prevFree_sizeWord hn

theorem blockIsLast_iff : s.blockIsLast a ↔ n = 0 := by
  unfold blockIsLast
  rw [blockSize_eq h hn]

theorem blockSetFree_eq : s.blockSetFree a = s.write (a + 8) (sizeWord n true p) := by
  unfold blockSetFree setSizeField sizeField
  rw [h]
  exact congrArg (s.write (a + 8)) (sizeWord_setFree hn)

theorem blockSetUsed_eq : s.blockSetUsed a = s.write (a + 8) (sizeWord n false p) := by
  unfold blockSetUsed setSizeField sizeField
  rw [h]
  exact congrArg (s.write (a + 8)) (sizeWord_setUsed hn)

theorem blockSetPrevFree_eq : s.blockSetPrevFree a = s.write (a + 8) (sizeWord n f true) := by
  unfold blockSetPrevFree setSizeField sizeField
  rw [h]
  exact congrArg (s.write (a + 8)) (sizeWord_setPrevFree hn)

theorem blockSetPrevUsed_eq : s.blockSetPrevUsed a = s.write (a + 8) (sizeWord n f false) := by
  unfold blockSetPrevUsed setSizeField sizeField
  rw [h]
  exact congrArg (s.write (a + 8)) (sizeWord_setPrevUsed hn)

theorem blockSetSize_eq (hm : m % 8 = 0) :
    s.blockSetSize a m = s.write (a + 8) (sizeWord m f p) := by
  unfold blockSetSize setSizeField sizeField
  rw [h]
  exact congrArg (s.write (a + 8)) (sizeWord_resize hm hn)

theorem blockNext_eq (h0 : n ≠ 0) : s.blockNext a = some (a + 8 + n) := by
  have hnext : offsetToBlock (blockToPtr a) (n - blockHeaderOverhead) = a + 8 + n := by
    unfold offsetToBlock blockToPtr
    rw [blockHeaderOverhead_eq, blockStartOffset_eq]
    omega
  have hlast : ¬ s.blockIsLast a := fun hl => h0 ((blockIsLast_iff h hn).mp hl)
  unfold blockNext
  rw [blockSize_eq h hn, hnext]
  simp [tlsfAssert, hlast]

theorem blockLinkNext_eq (h0 : n ≠ 0) :
    s.blockLinkNext a = some (a + 8 + n, s.write (a + 8 + n) a) := by
  unfold blockLinkNext
  rw [blockNext_eq h hn h0]
  rfl

theorem blockPrev_eq (hp : p = true) : s.blockPrev a = some (s.words a) := by
  unfold blockPrev
  simp [tlsfAssert, (blockIsPrevFree_iff h hn).mpr hp, prevPhysBlock]

end Fields

/-- Clearing the three lowest bits rounds down. -/
theorem clearBits_seven (x : ℕ) : clearBits x 7 = x / 8 * 8 := by
  have hself : x = 2 ^ 3 * (x / 8) + x % 8 := by omega
  have hdown : x / 8 * 8 = 2 ^ 3 * (x / 8) + 0 := by omega
  apply Nat.eq_of_testBit_eq
  intro i
  rw [testBit_clearBits, hdown, Nat.testBit_two_pow_mul_add _ (by omega)]
  conv_lhs => rw [hself, Nat.testBit_two_pow_mul_add _ (by omega)]
  rw [show 7 = 2 ^ 3 - 1 from rfl, Nat.testBit_two_pow_sub_one]
  by_cases hi : i < 3
  · simp [hi]
  · simp [hi]

theorem alignUp_eq (x : ℕ) : alignUp x ALIGN_SIZE = (x + 7) / 8 * 8 := clearBits_seven (x + 7)

theorem alignDown_eq (x : ℕ) : alignDown x ALIGN_SIZE = x / 8 * 8 := by
  have hmod : x &&& 7 = x % 8 := Nat.and_two_pow_sub_one_eq_mod x 3
  unfold alignDown
  rw [alignSize_eq, hmod]
  omega

theorem alignPtr_eq (h : a % 8 = 0) : alignPtr a ALIGN_SIZE = a := by
  have hclear : alignPtr a ALIGN_SIZE = (a + 7) / 8 * 8 := clearBits_seven (a + 7)
  omega

/-! What the operations do to a row. -/

/-- `s'` differs from `s` in the words behind `a`, up to the size field of a block at `e`. -/
structure Local (s s' : Tlsf) (a e : ℕ) : Prop where
  same : s' = { s with words := s'.words }
  words : ∀ x, x < a + 8 ∨ e + 8 < x → s'.words x = s.words x

theorem Local.write {e v : ℕ} (h : Local s s' a e) (hlow : a + 8 ≤ x) (hhigh : x ≤ e + 8) :
    Local s (s'.write x v) a e where
  same := by
    rw [h.same]
    rfl
  words := by
    intro y hy
    rw [write_words_ne (by omega), h.words y hy]

theorem Local.refl {e : ℕ} : Local s s a e := ⟨rfl, fun _ _ => rfl⟩

/-- The row before a block, the block, and the row behind it. -/
theorem laid_cons_iff (ha : a = base + span 8 u) :
    Laid w base p (u ++ ⟨n, f⟩ :: cs) ↔ Laid w base p u ∧
      w (a + 8) = sizeWord n f (lastFree p u) ∧ (f = true → w (a + 8 + n) = a) ∧
        Laid w (a + 8 + n) f cs := by
  rw [laid_append, ← ha]
  rfl

section Marks

variable {g : Bool} (h : s.words (a + 8) = sizeWord n f p) (hn : n % 8 = 0) (h0 : n ≠ 0)
  (hd : s.words (a + 8 + n + 8) = sizeWord m q g) (hm : m % 8 = 0)

include h hn h0 hd hm

theorem blockMarkAsFree_eq :
    s.blockMarkAsFree a =
      some (((s.write (a + 8 + n) a).write (a + 8 + n + 8) (sizeWord m q true)).write (a + 8)
        (sizeWord n true p)) := by
  have hnext : (s.write (a + 8 + n) a).words (a + 8 + n + 8) = sizeWord m q g := by
    rw [write_words_ne (by omega), hd]
  have hself : ((s.write (a + 8 + n) a).write (a + 8 + n + 8) (sizeWord m q true)).words (a + 8) =
      sizeWord n f p := by
    rw [write_words_ne (by omega), write_words_ne (by omega), h]
  unfold blockMarkAsFree
  rw [blockLinkNext_eq h hn h0]
  change some (((s.write (a + 8 + n) a).blockSetPrevFree (a + 8 + n)).blockSetFree a) = _
  rw [blockSetPrevFree_eq hnext hm, blockSetFree_eq hself hn]

theorem blockMarkAsUsed_eq :
    s.blockMarkAsUsed a =
      some ((s.write (a + 8 + n + 8) (sizeWord m q false)).write (a + 8) (sizeWord n false p)) := by
  have hself : (s.write (a + 8 + n + 8) (sizeWord m q false)).words (a + 8) = sizeWord n f p := by
    rw [write_words_ne (by omega), h]
  unfold blockMarkAsUsed
  rw [blockNext_eq h hn h0]
  change some ((s.blockSetPrevUsed (a + 8 + n)).blockSetUsed a) = _
  rw [blockSetPrevUsed_eq hd hm, blockSetUsed_eq hself hn]

end Marks

/-- A block marked as free is so in its own size field, in that of the next block and in the
pointer behind it. -/
theorem blockMarkAsFree_spec (h : Laid s.words base p (u ++ ⟨n, false⟩ :: d :: v))
    (ha : a = base + span 8 u) (hn : n % 8 = 0) (h0 : n ≠ 0) (hd : Proper d) :
    ∃ s', s.blockMarkAsFree a = some s' ∧ Laid s'.words base p (u ++ ⟨n, true⟩ :: d :: v) ∧
      Local s s' a (a + 8 + n) := by
  obtain ⟨hu, hsize, -, hnext⟩ := (laid_cons_iff ha).mp h
  refine ⟨_, blockMarkAsFree_eq hsize hn h0 hnext.1 hd.1, (laid_cons_iff ha).mpr ⟨?_, ?_, ?_, ?_⟩,
    ((Local.refl.write (by omega) (by omega)).write (by omega) (by omega)).write (by omega)
      (by omega)⟩
  · apply hu.frame
    intro x _ hx
    rw [write_words_ne (by omega), write_words_ne (by omega), write_words_ne (by omega)]
  · exact write_words_self
  · intro _
    rw [write_words_ne (by omega), write_words_ne (by omega)]
    exact write_words_self
  · apply hnext.reflag hd
    · rw [write_words_ne (by omega)]
      exact write_words_self
    · intro x hx
      rw [write_words_ne (by omega), write_words_ne (by omega), write_words_ne (by omega)]

theorem blockMarkAsUsed_spec (h : Laid s.words base p (u ++ ⟨n, true⟩ :: d :: v))
    (ha : a = base + span 8 u) (hn : n % 8 = 0) (h0 : n ≠ 0) (hd : Proper d) :
    ∃ s', s.blockMarkAsUsed a = some s' ∧ Laid s'.words base p (u ++ ⟨n, false⟩ :: d :: v) ∧
      Local s s' a (a + 8 + n) := by
  obtain ⟨hu, hsize, -, hnext⟩ := (laid_cons_iff ha).mp h
  refine ⟨_, blockMarkAsUsed_eq hsize hn h0 hnext.1 hd.1, (laid_cons_iff ha).mpr ⟨?_, ?_, ?_, ?_⟩,
    (Local.refl.write (by omega) (by omega)).write (by omega) (by omega)⟩
  · apply hu.frame
    intro x _ hx
    rw [write_words_ne (by omega), write_words_ne (by omega)]
  · exact write_words_self
  · rintro ⟨⟩
  · apply hnext.reflag hd
    · rw [write_words_ne (by omega)]
      exact write_words_self
    · intro x hx
      rw [write_words_ne (by omega), write_words_ne (by omega)]

/-- A free block takes in the free block behind it. -/
theorem blockAbsorb_spec (h : Laid s.words base p (u ++ ⟨m, true⟩ :: ⟨n, true⟩ :: d :: v))
    (ha : a = base + span 8 u) (hm : m % 8 = 0) (h0 : m ≠ 0) (hn : n % 8 = 0) :
    ∃ s', s.blockAbsorb a (a + 8 + m) = some (a, s') ∧
      Laid s'.words base p (u ++ ⟨m + 8 + n, true⟩ :: d :: v) ∧
        Local s s' a (a + 8 + (m + 8 + n)) := by
  obtain ⟨hu, hsize, -, hrest⟩ := (laid_cons_iff ha).mp h
  have hsize' : s.words (a + 8 + m + 8) = sizeWord n true true := hrest.1
  have hnext : Laid s.words (a + 8 + m + 8 + n) true (d :: v) := hrest.2.2
  have hsum : (m + 8 + n) % 8 = 0 := by omega
  have hgrown : s.sizeField a + (s.blockSize (a + 8 + m) + 8) =
      sizeWord (m + 8 + n) true (lastFree p u) := by
    have hfield : s.sizeField a = sizeWord m true (lastFree p u) := hsize
    rw [blockSize_eq hsize' hn, hfield]
    unfold sizeWord
    omega
  have hself : (s.write (a + 8) (sizeWord (m + 8 + n) true (lastFree p u))).words (a + 8) =
      sizeWord (m + 8 + n) true (lastFree p u) := write_words_self
  have hlast : ¬ s.blockIsLast a := fun hl => h0 ((blockIsLast_iff hsize hm).mp hl)
  have hplace : a + 8 + m + 8 + n = a + 8 + (m + 8 + n) := by omega
  rw [hplace] at hnext
  have he : s.blockAbsorb a (a + 8 + m) =
      some (a, (s.write (a + 8) (sizeWord (m + 8 + n) true (lastFree p u))).write
        (a + 8 + (m + 8 + n)) a) := by
    have hlink := blockLinkNext_eq hself hsum (by omega)
    simp [blockAbsorb, tlsfAssert, hlast, hgrown, setSizeField, hlink]
  refine ⟨_, he, (laid_cons_iff ha).mpr ⟨?_, ?_, ?_, ?_⟩,
    (Local.refl.write (by omega) (by omega)).write (by omega) (by omega)⟩
  · apply hu.frame
    intro x _ hx
    rw [write_words_ne (by omega), write_words_ne (by omega)]
  · rw [write_words_ne (by omega)]
    exact write_words_self
  · intro _
    exact write_words_self
  · apply hnext.frame
    intro x hx _
    rw [write_words_ne (by omega), write_words_ne (by omega)]

/-- A free block split in two free ones, which are then linked with each other. -/
theorem blockSplit_spec (h : Laid s.words base p (u ++ ⟨n + 8 + m, true⟩ :: d :: v))
    (ha : a = base + span 8 u) (hbase : a % 8 = 0) (hn : n % 8 = 0) (h0 : n ≠ 0) (hm : m % 8 = 0)
    (hmin : 24 ≤ m) (hd : Proper d) :
    ∃ s₁ s₂, s.blockSplit a n = some (a + 8 + n, s₁) ∧
      s₁.blockLinkNext a = some (a + 8 + n, s₂) ∧
        Laid (s₂.blockSetPrevFree (a + 8 + n)).words base p
          (u ++ ⟨n, true⟩ :: ⟨m, true⟩ :: d :: v) ∧
            Local s (s₂.blockSetPrevFree (a + 8 + n)) a (a + 8 + (n + 8 + m)) := by
  obtain ⟨hu, hsize, -, hnext⟩ := (laid_cons_iff ha).mp h
  obtain ⟨r, hr⟩ : ∃ r, r = a + 8 + n := ⟨_, rfl⟩
  obtain ⟨e, he⟩ : ∃ e, e = r + 8 + m := ⟨_, rfl⟩
  have hend : a + 8 + (n + 8 + m) = e := by omega
  rw [hend] at hnext ⊢
  rw [← hr]
  -- the flags of the second block are whatever was in its place
  obtain ⟨f, q, hflags⟩ := exists_sizeWord hm (s.words (r + 8))
  have hresize : s.blockSetSize r m = s.write (r + 8) (sizeWord m f q) :=
    congrArg (s.write (r + 8)) hflags
  obtain ⟨s₁, hs₁⟩ : ∃ s₁, s₁ = s.write (r + 8) (sizeWord m f q) := ⟨_, rfl⟩
  obtain ⟨s₂, hs₂⟩ : ∃ s₂, s₂ = s₁.write (a + 8) (sizeWord n true (lastFree p u)) := ⟨_, rfl⟩
  have hsize₁ : s₁.words (a + 8) = sizeWord (n + 8 + m) true (lastFree p u) := by
    rw [hs₁, write_words_ne (by omega), hsize]
  have hrest₁ : s₁.words (r + 8) = sizeWord m f q := by rw [hs₁, write_words_self]
  have hrest₂ : s₂.words (r + 8) = sizeWord m f q := by rw [hs₂, write_words_ne (by omega), hrest₁]
  have hnext₂ : s₂.words (r + 8 + m + 8) = sizeWord d.size d.free true := by
    rw [hs₂, write_words_ne (by omega), hs₁, write_words_ne (by omega), ← he]
    exact hnext.1
  have hmark := blockMarkAsFree_eq hrest₂ hm (by omega) hnext₂ hd.1
  rw [← he] at hmark
  obtain ⟨s₃, hs₃⟩ : ∃ s₃, s₃ = ((s₂.write e r).write (e + 8) (sizeWord d.size d.free true)).write
    (r + 8) (sizeWord m true q) := ⟨_, rfl⟩
  rw [← hs₃] at hmark
  have hsize₃ : s₃.words (a + 8) = sizeWord n true (lastFree p u) := by
    rw [hs₃, write_words_ne (by omega), write_words_ne (by omega), write_words_ne (by omega), hs₂,
      write_words_self]
  have hlink := blockLinkNext_eq hsize₃ hn h0
  rw [← hr] at hlink
  have hrest₄ : (s₃.write r a).words (r + 8) = sizeWord m true q := by
    rw [write_words_ne (by omega), hs₃, write_words_self]
  have hremaining : offsetToBlock (blockToPtr a) (n - (8 : ℕ)) = r := by
    unfold offsetToBlock blockToPtr
    rw [blockStartOffset_eq]
    omega
  have halign : blockToPtr r = alignPtr (blockToPtr r) ALIGN_SIZE := by
    refine (alignPtr_eq ?_).symm
    unfold blockToPtr
    rw [blockStartOffset_eq]
    omega
  have hsplit : s.blockSplit a n = some (r, s₃) := by
    have hsum : (n + 8 + m) % 8 = 0 := by omega
    have hremain : s.blockSize a - (n + 8) = m := by
      rw [blockSize_eq hsize hsum]
      omega
    have hwhole : s.blockSize a = m + n + 8 := by
      rw [blockSize_eq hsize hsum]
      omega
    have hshrink : s₁.blockSetSize a n = s₂ := by rw [blockSetSize_eq hsize₁ hsum hn, hs₂]
    have hleast : blockSizeMin ≤ s₁.blockSize r := by
      rw [blockSize_eq hrest₁ hm]
      exact hmin
    rw [← hs₁] at hresize
    simp only [blockSplit, hremaining, blockHeaderOverhead_eq, hremain, tlsfAssert, if_pos halign,
      if_pos hwhole, hresize, if_pos hleast, hshrink, hmark]
    rfl
  refine ⟨s₃, s₃.write r a, hsplit, hlink, ?_⟩
  rw [blockSetPrevFree_eq hrest₄ hm]
  constructor
  · -- the words written are those of the two blocks and of what stands behind them
    have hwords : ∀ x, x ≠ a + 8 → x ≠ r → x ≠ r + 8 → x ≠ e → x ≠ e + 8 →
        ((s₃.write r a).write (r + 8) (sizeWord m true true)).words x = s.words x := by
      intro x h₁ h₂ h₃ h₄ h₅
      rw [write_words_ne h₃, write_words_ne h₂, hs₃, write_words_ne h₃, write_words_ne h₅,
        write_words_ne h₄, hs₂, write_words_ne h₁, hs₁, write_words_ne h₃]
    refine (laid_cons_iff ha).mpr ⟨?_, ?_, ?_, ?_, ?_, ?_⟩
    · apply hu.frame
      intro x _ hx
      exact hwords x (by omega) (by omega) (by omega) (by omega) (by omega)
    · rw [write_words_ne (by omega), write_words_ne (by omega), hsize₃]
    · intro _
      rw [← hr, write_words_ne (by omega), write_words_self]
    · rw [← hr]
      exact write_words_self
    · intro _
      rw [← hr, ← he, write_words_ne (by omega), write_words_ne (by omega), hs₃,
        write_words_ne (by omega), write_words_ne (by omega), write_words_self]
    · rw [← hr, ← he]
      apply hnext.reflag hd
      · rw [write_words_ne (by omega), write_words_ne (by omega), hs₃, write_words_ne (by omega),
          write_words_self]
      · intro x hx
        exact hwords x (by omega) (by omega) (by omega) (by omega) (by omega)
  · rw [hs₃, hs₂, hs₁]
    refine Local.write (Local.write (Local.write (Local.write (Local.write (Local.write (Local.write
      Local.refl ?_ ?_) ?_ ?_) ?_ ?_) ?_ ?_) ?_ ?_) ?_ ?_) ?_ ?_ <;> omega

end Bipscript.Tlsf
