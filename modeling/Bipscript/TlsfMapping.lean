import Bipscript.Tlsf

/-! The bit scans and the classes of sizes: what is searched for suffices. -/
namespace Bipscript.Tlsf

variable {word size n m : ℕ}

@[simp] theorem smallBlockSize_eq : SMALL_BLOCK_SIZE = 256 := rfl

@[simp] theorem alignSize_eq : ALIGN_SIZE = 8 := rfl

@[simp] theorem blockHeaderSize_eq : blockHeaderSize = 32 := rfl

@[simp] theorem blockHeaderOverhead_eq : blockHeaderOverhead = 8 := rfl

@[simp] theorem blockStartOffset_eq : blockStartOffset = 16 := rfl

@[simp] theorem blockSizeMin_eq : blockSizeMin = 24 := rfl

@[simp] theorem blockSizeMax_eq : blockSizeMax = 4294967296 := rfl

/-! Bit scans. -/

@[simp] theorem testBit_clearBits {mask i : ℕ} :
    (clearBits word mask).testBit i = (word.testBit i && !mask.testBit i) := by
  unfold clearBits
  rw [Nat.testBit_xor, Nat.testBit_and]
  cases word.testBit i <;> cases mask.testBit i <;> rfl

theorem testBit_onesFrom {i : ℕ} :
    (onesFrom n).testBit i = (decide (n ≤ i) && decide (i < 32)) := by
  have hones : (0xffffffff : ℕ) = 2 ^ 32 - 1 := by decide
  have hrange : (0x100000000 : ℕ) = 2 ^ 32 := by decide
  unfold onesFrom
  rw [hrange, Nat.testBit_mod_two_pow, Nat.testBit_shiftLeft, hones, Nat.testBit_two_pow_sub_one]
  by_cases hi : i < 32
  · have hsub : i - n < 32 := by omega
    simp [hi, hsub]
  · simp [hi]

/-- A word of no bits below 32 is zero. -/
theorem exists_testBit (h : word ≠ 0) : ∃ i, word.testBit i = true :=
  Nat.exists_testBit_of_ne_zero h

/-- The scan from below finds the lowest bit. -/
theorem tlsfFfs_spec (h : word ≠ 0) (hw : ∀ i, word.testBit i = true → i < 32) :
    word.testBit (tlsfFfs word).toNat = true ∧
      ∀ i, word.testBit i = true → (tlsfFfs word).toNat ≤ i := by
  obtain ⟨j, hj⟩ := exists_testBit h
  cases hfind : (List.range 32).find? fun i => word.testBit i with
  | none =>
    rw [List.find?_eq_none] at hfind
    exact (hfind j (List.mem_range.mpr (hw j hj)) hj).elim
  | some i =>
    obtain ⟨hi, -, hbelow⟩ := List.find?_range_eq_some.mp hfind
    have hffs : (tlsfFfs word).toNat = i := by
      simp only [tlsfFfs, builtinFfs, hfind]
      omega
    rw [hffs]
    refine ⟨hi, ?_⟩
    intro k hk
    by_contra hlt
    have hclear := hbelow k (by omega)
    rw [hk] at hclear
    cases hclear

theorem tlsfFls_eq (h : word ≠ 0) (hw : word < 2 ^ 32) : tlsfFls word = Nat.log2 word := by
  have hlog : Nat.log2 word < 32 := (Nat.log2_lt h).mpr hw
  unfold tlsfFls builtinClz
  rw [if_pos h]
  omega

theorem log2_div {k : ℕ} (h : 2 ^ k ≤ n) : Nat.log2 n = k + Nat.log2 (n / 2 ^ k) := by
  have hpos : 0 < 2 ^ k := Nat.two_pow_pos k
  have hn : n ≠ 0 := by omega
  have hq : n / 2 ^ k ≠ 0 := by
    have := Nat.div_pos h hpos
    omega
  have hlow := Nat.log2_self_le hq
  have hhigh : n / 2 ^ k < 2 ^ (Nat.log2 (n / 2 ^ k) + 1) := Nat.lt_log2_self
  refine (Nat.log2_eq_iff hn).mpr ⟨?_, ?_⟩
  · rw [Nat.pow_add, Nat.mul_comm]
    exact (Nat.le_div_iff_mul_le hpos).mp hlow
  · rw [Nat.add_assoc, Nat.pow_add, Nat.mul_comm]
    exact (Nat.div_lt_iff_lt_mul hpos).mp hhigh

/-- The scan of a 64-bit word in halves. -/
theorem tlsfFlsSizet_eq (h : size ≠ 0) (hs : size < 2 ^ 64) :
    tlsfFlsSizet size = Nat.log2 size := by
  have hmask : size &&& 0xffffffff = size % 2 ^ 32 := Nat.and_two_pow_sub_one_eq_mod size 32
  have hhigh : size >>> 32 = size / 2 ^ 32 := Nat.shiftRight_eq_div_pow size 32
  simp only [tlsfFlsSizet, hmask, hhigh]
  by_cases hlarge : 2 ^ 32 ≤ size
  · have hq : size / 2 ^ 32 ≠ 0 := by omega
    have hlog := log2_div hlarge
    rw [if_pos hq, tlsfFls_eq hq (by omega)]
    omega
  · have hq : size / 2 ^ 32 = 0 := by omega
    have hmod : size % 2 ^ 32 = size := by omega
    rw [if_neg (not_not.mpr hq), hmod, tlsfFls_eq h (by omega)]

/-! Classes of sizes. -/

/-- The lists in the order in which they are searched. -/
def rank (index : ℕ × ℕ) : ℕ := 32 * index.1 + index.2

theorem mappingInsert_small (h : n < 256) : mappingInsert n = (0, n / 8) := by
  unfold mappingInsert
  rw [if_pos (by simpa using h)]
  rfl

theorem xor_32 (h : 32 ≤ n) (hn : n < 64) : n ^^^ 32 = n - 32 := by
  have hall : ∀ k < 64, 32 ≤ k → k ^^^ 32 = k - 32 := by decide
  exact hall n hn h

/-- The quotient that gives the second index lies between 32 and 64. -/
theorem quotient_bounds (h : 256 ≤ n) :
    32 ≤ n / 2 ^ (Nat.log2 n - 5) ∧ n / 2 ^ (Nat.log2 n - 5) < 64 := by
  have hne : n ≠ 0 := by omega
  have hlog : 8 ≤ Nat.log2 n := (Nat.le_log2 hne).mpr h
  have hpos : 0 < 2 ^ (Nat.log2 n - 5) := Nat.two_pow_pos _
  have hlow := Nat.log2_self_le hne
  have hhigh : n < 2 ^ (Nat.log2 n + 1) := Nat.lt_log2_self
  constructor
  · refine (Nat.le_div_iff_mul_le hpos).mpr ?_
    have hpow : 32 * 2 ^ (Nat.log2 n - 5) = 2 ^ Nat.log2 n := by
      rw [show (32 : ℕ) = 2 ^ 5 from rfl, ← Nat.pow_add]
      congr 1
      omega
    omega
  · refine (Nat.div_lt_iff_lt_mul hpos).mpr ?_
    have hpow : 64 * 2 ^ (Nat.log2 n - 5) = 2 ^ (Nat.log2 n + 1) := by
      rw [show (64 : ℕ) = 2 ^ 6 from rfl, ← Nat.pow_add]
      congr 1
      omega
    omega

theorem mappingInsert_large (h : 256 ≤ n) (hn : n < 2 ^ 64) :
    mappingInsert n = (Nat.log2 n - 7, n / 2 ^ (Nat.log2 n - 5) - 32) := by
  have hfls : (tlsfFlsSizet n).toNat = Nat.log2 n := by
    rw [tlsfFlsSizet_eq (by omega) hn]
    exact Int.toNat_natCast _
  obtain ⟨hlow, hhigh⟩ := quotient_bounds h
  have hnot : ¬ n < SMALL_BLOCK_SIZE := by
    rw [smallBlockSize_eq]
    omega
  unfold mappingInsert
  rw [if_neg hnot]
  simp only [hfls, Nat.shiftRight_eq_div_pow]
  exact Prod.ext rfl (xor_32 hlow hhigh)

/-- The sizes of one first-level class have ranks of their own. -/
theorem rank_mappingInsert_large (h : 256 ≤ n) (hn : n < 2 ^ 64) :
    8 ≤ Nat.log2 n ∧
      rank (mappingInsert n) + 32 = 32 * (Nat.log2 n - 7) + n / 2 ^ (Nat.log2 n - 5) := by
  have hlog : 8 ≤ Nat.log2 n := (Nat.le_log2 (by omega)).mpr h
  obtain ⟨hlow, -⟩ := quotient_bounds h
  refine ⟨hlog, ?_⟩
  rw [mappingInsert_large h hn]
  simp only [rank]
  omega

theorem rank_mappingInsert_small (h : n < 256) : rank (mappingInsert n) = n / 8 := by
  rw [mappingInsert_small h]
  simp [rank]

theorem log2_mono (h : n ≤ m) (hn : n ≠ 0) : Nat.log2 n ≤ Nat.log2 m := by
  have hm : m ≠ 0 := by omega
  exact (Nat.le_log2 hm).mpr (Nat.le_trans (Nat.log2_self_le hn) h)

/-- A larger block is in no earlier list. -/
theorem rank_mappingInsert_mono (h : n ≤ m) (hm : m < 2 ^ 64) :
    rank (mappingInsert n) ≤ rank (mappingInsert m) := by
  by_cases hsmall : m < 256
  · rw [rank_mappingInsert_small hsmall, rank_mappingInsert_small (by omega)]
    omega
  · obtain ⟨hlm, hrm⟩ := rank_mappingInsert_large (by omega : 256 ≤ m) hm
    obtain ⟨hqm, -⟩ := quotient_bounds (by omega : 256 ≤ m)
    by_cases hn : n < 256
    · rw [rank_mappingInsert_small hn]
      omega
    · obtain ⟨hln, hrn⟩ := rank_mappingInsert_large (by omega : 256 ≤ n) (by omega)
      obtain ⟨-, hqn⟩ := quotient_bounds (by omega : 256 ≤ n)
      have hlog := log2_mono h (by omega)
      rcases Nat.lt_or_eq_of_le hlog with hlt | heq
      · omega
      · have hdiv : n / 2 ^ (Nat.log2 n - 5) ≤ m / 2 ^ (Nat.log2 n - 5) := Nat.div_le_div_right h
        rw [heq] at hdiv hrn
        omega

theorem mappingInsert_bounds (h : n < 2 ^ 32) :
    (mappingInsert n).1 < 25 ∧ (mappingInsert n).2 < 32 := by
  by_cases hsmall : n < 256
  · rw [mappingInsert_small hsmall]
    simp only
    omega
  · have hlog : Nat.log2 n < 32 := (Nat.log2_lt (by omega)).mpr h
    obtain ⟨-, hq⟩ := quotient_bounds (by omega : 256 ≤ n)
    rw [mappingInsert_large (by omega) (by omega)]
    simp only
    omega

/-- What a size is rounded up by before a search for it: a step of its class, less one. -/
def roundUp (size : ℕ) : ℕ :=
  if 256 ≤ size then size + (2 ^ (Nat.log2 size - 5) - 1) else size

theorem mappingSearch_eq (hs : size < 2 ^ 64) :
    mappingSearch size = mappingInsert (roundUp size) := by
  by_cases h : 256 ≤ size
  · have hfls : (tlsfFlsSizet size).toNat = Nat.log2 size := by
      rw [tlsfFlsSizet_eq (by omega) hs]
      exact Int.toNat_natCast _
    have hpos : 0 < 2 ^ (Nat.log2 size - 5) := Nat.two_pow_pos _
    have hsum : size + (1 <<< (Nat.log2 size - 5) - 1) = size + (2 ^ (Nat.log2 size - 5) - 1) := by
      rw [Nat.one_shiftLeft]
    unfold mappingSearch roundUp
    rw [if_pos (by simpa using h), if_pos h, hfls]
    exact congrArg mappingInsert hsum
  · unfold mappingSearch roundUp
    rw [if_neg (by simpa using h), if_neg h]

/-- A block of `n` bytes is of a class that a search for `size` looks into. -/
def Serves (size n : ℕ) : Prop := rank (mappingSearch size) ≤ rank (mappingInsert n)

instance (size n : ℕ) : Decidable (Serves size n) := inferInstanceAs (Decidable (_ ≤ _))

theorem serves_of_roundUp_le (h : roundUp size ≤ n) (hs : size < 2 ^ 64) (hn : n < 2 ^ 64) :
    Serves size n := by
  unfold Serves
  rw [mappingSearch_eq hs]
  exact rank_mappingInsert_mono h hn

theorem le_roundUp (size : ℕ) : size ≤ roundUp size := by
  unfold roundUp
  split <;> omega

/-- Rounding adds less than a thirty-second part. -/
theorem roundUp_le (size : ℕ) : roundUp size ≤ size + size / 32 := by
  unfold roundUp
  split
  · rename_i h
    have hlow := Nat.log2_self_le (by omega : size ≠ 0)
    have hlog : 8 ≤ Nat.log2 size := (Nat.le_log2 (by omega)).mpr h
    have hpow : 32 * 2 ^ (Nat.log2 size - 5) = 2 ^ Nat.log2 size := by
      rw [show (32 : ℕ) = 2 ^ 5 from rfl, ← Nat.pow_add]
      congr 1
      omega
    omega
  · omega

/-- A block in a list that the search looks into is large enough: the list's sizes begin at the
size searched for, or above. -/
theorem Serves.le (hr : Serves size n) (h : size % 8 = 0) (hs : size < 2 ^ 33) : size ≤ n := by
  unfold Serves at hr
  rw [mappingSearch_eq (by omega)] at hr
  by_contra hlt
  have hround := roundUp_le size
  by_cases hlarge : 256 ≤ size
  · have hup := le_roundUp size
    obtain ⟨hls, -⟩ := rank_mappingInsert_large hlarge (by omega)
    obtain ⟨hlr, hrr⟩ := rank_mappingInsert_large (by omega : 256 ≤ roundUp size) (by omega)
    obtain ⟨hqr, -⟩ := quotient_bounds (by omega : 256 ≤ roundUp size)
    by_cases hn : n < 256
    · rw [rank_mappingInsert_small hn] at hr
      omega
    · obtain ⟨hln, hrn⟩ := rank_mappingInsert_large (by omega : 256 ≤ n) (by omega)
      obtain ⟨-, hqn⟩ := quotient_bounds (by omega : 256 ≤ n)
      have hlogn := log2_mono (by omega : n ≤ size) (by omega)
      have hlogr := log2_mono hup (by omega)
      have hsame : Nat.log2 n = Nat.log2 size ∧ Nat.log2 (roundUp size) = Nat.log2 size := by omega
      rw [hsame.1] at hrn
      rw [hsame.2] at hrr
      -- within one class the rounded size is one step further
      have hpos : 0 < 2 ^ (Nat.log2 size - 5) := Nat.two_pow_pos _
      have hstep : (size - 1) / 2 ^ (Nat.log2 size - 5) + 1 =
          roundUp size / 2 ^ (Nat.log2 size - 5) := by
        rw [← Nat.add_div_right _ hpos]
        unfold roundUp
        rw [if_pos hlarge]
        congr 1
        omega
      have hdiv : n / 2 ^ (Nat.log2 size - 5) ≤ (size - 1) / 2 ^ (Nat.log2 size - 5) :=
        Nat.div_le_div_right (by omega)
      omega
  · have hself : roundUp size = size := if_neg hlarge
    rw [hself, rank_mappingInsert_small (by omega), rank_mappingInsert_small (by omega)] at hr
    omega

/-- Sizes up to this one are searched for within the arrays. -/
def largestRequest : ℕ := 2 ^ 32 - 2 ^ 27

theorem roundUp_lt (h : size ≤ largestRequest) : roundUp size < 2 ^ 32 := by
  have hsize : size ≤ 4160749568 := h
  unfold roundUp
  split
  · have hlog : Nat.log2 size < 32 := (Nat.log2_lt (by omega)).mpr (by omega)
    have hpow : 2 ^ (Nat.log2 size - 5) ≤ 2 ^ 26 := Nat.pow_le_pow_right (by omega) (by omega)
    omega
  · omega

end Bipscript.Tlsf
