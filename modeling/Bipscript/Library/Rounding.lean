import Mathlib.Data.Int.Log
import Mathlib.Data.Rat.Floor
import Mathlib.Tactic.Linarith

/-! Binary floating point without limits on the exponent: rounding to the nearest, ties to even. -/
namespace Rounding

def nearestEven (q : ℚ) : ℤ :=
  if Int.fract q < 1 / 2 ∨ Int.fract q = 1 / 2 ∧ ⌊q⌋ % 2 = 0 then ⌊q⌋ else ⌊q⌋ + 1

/-- The distance between neighbours around a positive number, with `p` binary digits. -/
def ulp (p : ℕ) (q : ℚ) : ℚ := 2 ^ (Int.log 2 q - (p - 1))

/-- A number that is not negative, to `p` binary digits. -/
def round (p : ℕ) (q : ℚ) : ℚ :=
  if q = 0 then 0 else nearestEven (q / ulp p q) * ulp p q

/-- What the two formats of IEEE 754 keep of a number in their range. -/
def single (q : ℚ) : ℚ := round 24 q

def double (q : ℚ) : ℚ := round 53 q

variable {p n : ℕ} {q : ℚ}

theorem le_nearestEven {k : ℤ} (h : (k : ℚ) ≤ q) : k ≤ nearestEven q := by
  have hfloor : k ≤ ⌊q⌋ := Int.le_floor.mpr h
  unfold nearestEven
  split <;> omega

theorem ulp_pos (p : ℕ) (q : ℚ) : 0 < ulp p q := zpow_pos two_pos _

/-- A power of two by the distance is one. -/
theorem two_pow_mul_ulp (p k : ℕ) (q : ℚ) :
    ((2 ^ k : ℕ) : ℤ) * ulp p q = 2 ^ (k + (Int.log 2 q - (p - 1))) := by
  unfold ulp
  rw [zpow_add₀ two_ne_zero, zpow_natCast]
  push_cast
  rfl

/-- A whole number of no more than `p` digits is below what a number above it is rounded to. -/
theorem natCast_le_round (hp : 0 < p) (hn : n < 2 ^ p) (h : (n : ℚ) ≤ q) : (n : ℚ) ≤ round p q := by
  have hulp := ulp_pos p q
  -- what is a multiple of the distance stays below
  have hmultiple : ∀ k : ℤ, k * ulp p q ≤ q →
      k * ulp p q ≤ nearestEven (q / ulp p q) * ulp p q := by
    intro k hk
    have hle : k ≤ nearestEven (q / ulp p q) := le_nearestEven ((le_div_iff₀ hulp).mpr hk)
    exact mul_le_mul_of_nonneg_right (by exact_mod_cast hle) hulp.le
  unfold round
  split
  · rename_i hq
    rwa [hq] at h
  · rename_i hq
    have hpos : 0 < q := lt_of_le_of_ne (n.cast_nonneg.trans h) (Ne.symm hq)
    by_cases hlog : Int.log 2 q < p
    · -- whole numbers are multiples of the distance
      obtain ⟨k, hk⟩ := Int.eq_ofNat_of_zero_le (show 0 ≤ (p : ℤ) - 1 - Int.log 2 q by omega)
      have hone : ((2 ^ k : ℕ) : ℤ) * ulp p q = 1 := by
        rw [two_pow_mul_ulp, show (k : ℤ) + (Int.log 2 q - (p - 1)) = 0 by omega, zpow_zero]
      have hmul : (n : ℚ) = ((n * (2 ^ k : ℕ) : ℤ) : ℚ) * ulp p q := by
        rw [Int.cast_mul, mul_assoc, hone, mul_one, Int.cast_natCast]
      rw [hmul] at h ⊢
      exact hmultiple _ h
    · -- the powers of two between are
      obtain ⟨k, hk⟩ := Nat.exists_eq_succ_of_ne_zero hp.ne'
      have hbinade : ((2 ^ k : ℕ) : ℤ) * ulp p q = 2 ^ Int.log 2 q := by
        rw [two_pow_mul_ulp]
        congr 1
        omega
      have hbelow : (n : ℚ) ≤ 2 ^ Int.log 2 q := by
        have hpow : (n : ℚ) ≤ 2 ^ (p : ℤ) := by
          rw [zpow_natCast]
          exact_mod_cast hn.le
        exact hpow.trans (zpow_le_zpow_right₀ one_le_two (not_lt.mp hlog))
      rw [← hbinade] at hbelow
      refine hbelow.trans (hmultiple _ ?_)
      rw [hbinade]
      exact Int.zpow_log_le_self one_lt_two hpos

theorem natCast_le_double (hn : n < 2 ^ 53) (h : (n : ℚ) ≤ q) : (n : ℚ) ≤ double q :=
  natCast_le_round (by decide) hn h

end Rounding
