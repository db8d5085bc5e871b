import Bipscript.PositionSum
import Bipscript.EventBuffer
import Mathlib.Data.Set.Basic

/-! The order of bar positions in 32-bit arithmetic. -/
namespace Bipscript.Duration

/-- What 32 bits keep of two cross products stands in their own order: the bars decide, or both
lose the same multiple of `2 ^ 32`, or the one that loses more also keeps more. -/
def InOrder (a b : Duration) : Prop :=
  let p := a.position * b.division
  let q := b.position * a.division
  a.whole ≠ b.whole ∨ p / 2 ^ 32 = q / 2 ^ 32 ∨
    (p / 2 ^ 32 < q / 2 ^ 32 ∧ p % 2 ^ 32 < q % 2 ^ 32) ∨
    (q / 2 ^ 32 < p / 2 ^ 32 ∧ q % 2 ^ 32 < p % 2 ^ 32)

instance (a b : Duration) : Decidable (InOrder a b) :=
  inferInstanceAs (Decidable (_ ∨ _ ∨ _ ∨ _))

theorem InOrder.symm {a b : Duration} (h : InOrder a b) : InOrder b a := by
  rcases h with h | h | h | h
  · exact Or.inl h.symm
  · exact Or.inr (Or.inl h.symm)
  · exact Or.inr (Or.inr (Or.inr h))
  · exact Or.inr (Or.inr (Or.inl h))

/-- Divisions whose product fits lose nothing: a position is below its division. -/
theorem inOrder_of_division {a b : Duration} (ha : Bounded a) (hb : Bounded b)
    (h : a.division * b.division ≤ 2 ^ 32) : InOrder a b := by
  have hp : a.position * b.division < 2 ^ 32 :=
    (Nat.mul_lt_mul_of_pos_right ha.normal (Nat.zero_lt_of_lt hb.normal)).trans_le h
  have hq : b.position * a.division < 2 ^ 32 := by
    rw [Nat.mul_comm a.division] at h
    exact (Nat.mul_lt_mul_of_pos_right hb.normal (Nat.zero_lt_of_lt ha.normal)).trans_le h
  refine Or.inr (Or.inl ?_)
  rw [Nat.div_eq_of_lt hp, Nat.div_eq_of_lt hq]

theorem lt_iff_value {a b : Duration} (ha : Bounded a) (hb : Bounded b) :
    a.lt (· * ·) b = true ↔ a.value < b.value :=
  Position.lt_iff_value_lt ⟨a, ha.normal⟩ ⟨b, hb.normal⟩

theorem le_iff_value {a b : Duration} (ha : Bounded a) (hb : Bounded b) :
    a.le (· * ·) b = true ↔ a.value ≤ b.value :=
  Position.le_iff_value_le ⟨a, ha.normal⟩ ⟨b, hb.normal⟩

/-- The remainders compare as the numbers do exactly when the quotients do not decide against
them. -/
theorem mod_compare_iff (p q : ℕ) :
    ((p % 2 ^ 32 < q % 2 ^ 32 ↔ p < q) ∧ (p % 2 ^ 32 ≤ q % 2 ^ 32 ↔ p ≤ q)) ↔
      p / 2 ^ 32 = q / 2 ^ 32 ∨
        (p / 2 ^ 32 < q / 2 ^ 32 ∧ p % 2 ^ 32 < q % 2 ^ 32) ∨
        (q / 2 ^ 32 < p / 2 ^ 32 ∧ q % 2 ^ 32 < p % 2 ^ 32) := by
  omega

/-- Both comparisons on the machine are those of exact arithmetic exactly when the cross products
stay in order. -/
theorem compare_iff (a b : Duration) :
    (a.lt mul32 b = a.lt (· * ·) b ∧ a.le mul32 b = a.le (· * ·) b) ↔ InOrder a b := by
  unfold lt le InOrder mul32
  by_cases hw : a.whole = b.whole
  · simp only [hw, lt_irrefl, if_false, if_true, ne_eq, not_true_eq_false, false_or,
      decide_eq_decide]
    exact mod_compare_iff _ _
  · simp [hw]

theorem InOrder.lt_eq {a b : Duration} (h : InOrder a b) : a.lt mul32 b = a.lt (· * ·) b :=
  ((compare_iff a b).mpr h).1

theorem InOrder.le_eq {a b : Duration} (h : InOrder a b) : a.le mul32 b = a.le (· * ·) b :=
  ((compare_iff a b).mpr h).2

/-- `operator<` and `operator<=` compare the rational numbers of bars of the durations in `s`, and
`operator<=` is a total preorder on them. -/
structure Ordered (s : Set Duration) : Prop where
  lt : ∀ a ∈ s, ∀ b ∈ s, (a.lt mul32 b = true ↔ a.value < b.value)
  le : ∀ a ∈ s, ∀ b ∈ s, (a.le mul32 b = true ↔ a.value ≤ b.value)
  total : ∀ a ∈ s, ∀ b ∈ s, a.le mul32 b = true ∨ b.le mul32 a = true
  trans : ∀ a ∈ s, ∀ b ∈ s, ∀ c ∈ s, a.le mul32 b = true → b.le mul32 c = true → a.le mul32 c = true

theorem ordered_of_value {s : Set Duration}
    (hlt : ∀ a ∈ s, ∀ b ∈ s, (a.lt mul32 b = true ↔ a.value < b.value))
    (hle : ∀ a ∈ s, ∀ b ∈ s, (a.le mul32 b = true ↔ a.value ≤ b.value)) : Ordered s where
  lt := hlt
  le := hle
  total := by
    intro a ha b hb
    rw [hle a ha b hb, hle b hb a ha]
    exact le_total _ _
  trans := by
    intro a ha b hb c hc hab hbc
    rw [hle a ha b hb] at hab
    rw [hle b hb c hc] at hbc
    rw [hle a ha c hc]
    exact hab.trans hbc

/-- The order of the positions in a set is that of the rationals iff every two of them keep their
cross products in order. -/
theorem ordered_iff (s : Set Duration) (hs : ∀ d ∈ s, Obtained d) :
    Ordered s ↔ ∀ a ∈ s, ∀ b ∈ s, InOrder a b := by
  constructor
  · intro h a ha b hb
    have hab := (hs a ha).bounded
    have hbb := (hs b hb).bounded
    rw [← compare_iff]
    constructor
    · exact Bool.eq_iff_iff.mpr ((h.lt a ha b hb).trans (lt_iff_value hab hbb).symm)
    · exact Bool.eq_iff_iff.mpr ((h.le a ha b hb).trans (le_iff_value hab hbb).symm)
  · intro h
    apply ordered_of_value
    · intro a ha b hb
      rw [(h a ha b hb).lt_eq]
      exact lt_iff_value (hs a ha).bounded (hs b hb).bounded
    · intro a ha b hb
      rw [(h a ha b hb).le_eq]
      exact le_iff_value (hs a ha).bounded (hs b hb).bounded

/-- Thirds and quarters of the first bar. -/
theorem ordered_small : Ordered {(mk 1 1 3).normalize, (mk 1 1 4).normalize} := by
  refine (ordered_iff _ ?_).mpr ?_
  · rintro d (rfl | rfl)
    · exact .new (by decide) (by decide) (by decide) (by decide)
    · exact .new (by decide) (by decide) (by decide) (by decide)
  · rintro a (rfl | rfl) b (rfl | rfl) <;> decide

/-- `Position(1, 65536, 131072)` is half a bar after `Position(1, 0, 131072)`, and `<=` it: both
cross products are kept as zero. -/
theorem not_ordered :
    Obtained (mk 1 65536 131072) ∧ Obtained (mk 1 0 131072) ∧
      (mk 1 65536 131072).le mul32 (mk 1 0 131072) = true ∧
      ¬ (mk 1 65536 131072).value ≤ (mk 1 0 131072).value := by
  refine ⟨?_, ?_, by decide, ?_⟩
  · have h : Obtained (mk 1 65536 131072).normalize :=
      .new (by decide) (by decide) (by decide) (by decide)
    exact h
  · have h : Obtained (mk 1 0 131072).normalize :=
      .new (by decide) (by decide) (by decide) (by decide)
    exact h
  · norm_num [value]

end Bipscript.Duration
