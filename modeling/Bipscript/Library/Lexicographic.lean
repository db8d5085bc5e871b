import Mathlib.Data.List.Lex
import Mathlib.Algebra.Order.Monoid.Defs
import Mathlib.Algebra.Order.Ring.Nat

/-! Bounded lists of bounded positive digits, the first digit the weightiest: how many of them a
chain in lexicographic order can have. -/
namespace Lexicographic

/-- The number of the digits `ds` in base `b`, with `n` places. -/
def weight (b : ℕ) : ℕ → List ℕ → ℕ
  | _, [] => 0
  | 0, _ :: _ => 0
  | n + 1, d :: ds => d * b ^ n + weight b n ds

/-- At most `n` digits, each positive and below `b`. -/
def Digits (b n : ℕ) (ds : List ℕ) : Prop := ds.length ≤ n ∧ ∀ d ∈ ds, 0 < d ∧ d < b

variable {b n d : ℕ} {ds ds' : List ℕ}

theorem Digits.tail (h : Digits b (n + 1) (d :: ds)) : Digits b n ds :=
  ⟨Nat.le_of_succ_le_succ h.1, fun e he => h.2 e (List.mem_cons_of_mem d he)⟩

theorem weight_lt (hb : 0 < b) (h : Digits b n ds) : weight b n ds < b ^ n := by
  induction n generalizing ds with
  | zero =>
    obtain rfl := List.length_eq_zero_iff.mp (Nat.le_zero.mp h.1)
    exact Nat.one_pos
  | succ n ih =>
    cases ds with
    | nil => exact Nat.pow_pos hb
    | cons d ds =>
      have hd := (h.2 d List.mem_cons_self).2
      have hrest := ih h.tail
      calc d * b ^ n + weight b n ds < d * b ^ n + b ^ n := Nat.add_lt_add_left hrest _
        _ = (d + 1) * b ^ n := (Nat.succ_mul d _).symm
        _ ≤ b * b ^ n := Nat.mul_le_mul_right _ hd
        _ = b ^ (n + 1) := (Nat.pow_succ').symm

theorem weight_lt_of_lex (hb : 0 < b) (hlex : List.Lex (· < ·) ds ds') (h : Digits b n ds)
    (h' : Digits b n ds') : weight b n ds < weight b n ds' := by
  induction hlex generalizing n with
  | nil =>
    rename_i d ds
    cases n with
    | zero => exact absurd h'.1 (Nat.not_succ_le_zero _)
    | succ n =>
      have hd := (h'.2 d List.mem_cons_self).1
      have hpos := Nat.mul_pos hd (Nat.pow_pos (n := n) hb)
      exact Nat.lt_of_lt_of_le hpos (Nat.le_add_right _ _)
  | cons hlex ih =>
    cases n with
    | zero => exact absurd h'.1 (Nat.not_succ_le_zero _)
    | succ n => exact Nat.add_lt_add_left (ih h.tail h'.tail) _
  | rel hlt =>
    rename_i d ds e ds'
    cases n with
    | zero => exact absurd h'.1 (Nat.not_succ_le_zero _)
    | succ n =>
      calc d * b ^ n + weight b n ds < d * b ^ n + b ^ n :=
            Nat.add_lt_add_left (weight_lt hb h.tail) _
        _ = (d + 1) * b ^ n := (Nat.succ_mul d _).symm
        _ ≤ e * b ^ n := Nat.mul_le_mul_right _ hlt
        _ ≤ e * b ^ n + weight b n ds' := Nat.le_add_right _ _

end Lexicographic
