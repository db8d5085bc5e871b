import Bipscript.AbcNotes

/-! A sum less its first term: the carry of the sum against the borrow of the difference. -/
namespace Bipscript

namespace Position

/-- A sum in one division, its bars wrapped once. -/
theorem add_eq {p : Position} {d : Duration} (h : p.division = d.division)
    (hmax : p.division ≤ Duration.MAX_DENOMINATOR) (hfits : p.position + d.position < 2 ^ 32) :
    p.add d = some ⟨⟨(p.whole + d.whole + (p.position + d.position) / p.division) % 2 ^ 32,
      (p.position + d.position) % p.division, p.division⟩, Nat.mod_lt _ p.division_pos⟩ := by
  have hsum : p.sum d =
      ⟨(p.whole + d.whole) % 2 ^ 32, p.position + d.position, p.division⟩ := by
    unfold Duration.sum
    dsimp only
    rw [if_pos h, Nat.mod_eq_of_lt hfits]
  have hne : (p.sum d).division ≠ 0 := by
    rw [hsum]
    exact p.division_pos.ne'
  obtain ⟨r, hr, he⟩ := add_of_division hne
  rw [hsum, Duration.normalize_eq (Nat.mod_lt _ (by norm_num)) hmax, Nat.mod_add_mod] at he
  rw [hr]
  cases r
  cases he
  rfl

/-- Whole bars weigh the same as their parts. -/
theorem add_parts {q : Position} {d : Duration} (h : q.division = d.division)
    (hmax : q.division ≤ Duration.MAX_DENOMINATOR) (hfits : q.position + d.parts < 2 ^ 32) :
    q.add ⟨0, d.parts, d.division⟩ = q.add d := by
  have hpos := q.division_pos
  have hparts : q.position + d.parts = q.position + d.position + d.whole * q.division := by
    unfold Duration.parts
    rw [h]
    omega
  have hsmall : q.position + d.position < 2 ^ 32 := by
    unfold Duration.parts at hfits
    omega
  rw [add_eq (d := ⟨0, d.parts, d.division⟩) h hmax hfits, add_eq h hmax hsmall]
  dsimp only
  simp only [hparts, Nat.add_mul_div_right _ _ hpos, Nat.add_mul_mod_self_right, Nat.add_zero]
  congr 4
  omega

/-- The sum less its first term is the second one, as a value and as a term of further sums. -/
def Cancels (p : Position) (d : Duration) : Prop :=
  ∃ s r, p.add d = some s ∧ s.sub p.toDuration = .ok r ∧ r.value = d.value ∧
    ∀ q : Position, Duration.Bounded q.toDuration → q.division = d.division → q.add r = q.add d

/-- What the loop borrows for the bars of the sum holds the carry that the sum had made. -/
theorem sub_carry {p : Position} {d : Duration} (h : p.division = d.division)
    (hp : p.position < 2 ^ 32) (hparts : d.parts < 2 ^ 32) :
    Duration.sub ⟨p.whole + d.whole + (p.position + d.position) / p.division,
      (p.position + d.position) % p.division, p.division⟩ p.toDuration =
      .ok ⟨0, d.parts, d.division⟩ := by
  have hsplit := Nat.mod_add_div' (p.position + d.position) p.division
  have hbars : p.whole + d.whole + (p.position + d.position) / p.division - p.whole =
      d.whole + (p.position + d.position) / p.division := by
    rw [Nat.add_assoc, Nat.add_sub_cancel_left]
  have hborrow : (p.position + d.position) % p.division +
      (d.whole + (p.position + d.position) / p.division) * p.division =
        p.position + d.parts := by
    unfold Duration.parts
    rw [Nat.add_mul, ← h]
    omega
  refine (Duration.sub_eq (by rfl)).trans ?_
  dsimp only
  rw [hbars, hborrow, ← h]
  congr 2
  omega

/-- Adding and then subtracting the same position, while the bars with their carry fit. -/
theorem cancels {p : Position} {d : Duration} (hp : Duration.Bounded p.toDuration)
    (hd : Duration.Bounded d) (h : p.division = d.division)
    (hmax : d.division ≤ Duration.MAX_DENOMINATOR)
    (hbars : p.whole + d.whole + (p.position + d.position) / d.division < 2 ^ 32)
    (hparts : d.whole * d.division + d.position + 384000 < 2 ^ 32) : Cancels p d := by
  have hlt := hp.normal
  have hlt' := hd.normal
  have hmax' : d.division ≤ 384000 := hmax
  have hparts' : d.parts + 384000 < 2 ^ 32 := hparts
  rw [← h] at hbars hmax hmax' hlt'
  refine ⟨_, ⟨0, d.parts, d.division⟩, add_eq h hmax (by omega), ?_, ?_, ?_⟩
  · dsimp only
    rw [Nat.mod_eq_of_lt hbars]
    exact sub_carry h (by omega) (by omega)
  · have hpos : 0 < d.division := Nat.zero_lt_of_lt hd.normal
    rw [Duration.value_eq_parts (d := ⟨0, d.parts, d.division⟩) hpos,
      Duration.value_eq_parts hpos]
    congr 2
    unfold Duration.parts
    dsimp only
    omega
  · intro q hq hqd
    have hqlt := hq.normal
    rw [← h] at hqd
    exact add_parts (hqd.trans h) (by omega) (by omega)

/-- The middle of bar 7, with a bar and three quarters added and taken off. -/
theorem cancels_carry : Cancels ⟨⟨7, 2, 4⟩, by decide⟩ ⟨1, 3, 4⟩ :=
  cancels (p := ⟨⟨7, 2, 4⟩, by decide⟩) (d := ⟨1, 3, 4⟩) ⟨by decide, by decide, by decide⟩
    ⟨by decide, by decide, by decide⟩ rfl (by decide) (by decide) (by decide)

/-- The bars of the last position and of three quarters fit, but not with the carry: the sum is in
bar 0, and the loop of the difference does not turn. -/
theorem not_cancels_carry :
    ¬ ∀ (p : Position) (d : Duration), Duration.Bounded p.toDuration → Duration.Bounded d →
      p.division = d.division → d.division ≤ Duration.MAX_DENOMINATOR →
      p.whole + d.whole < 2 ^ 32 → d.whole * d.division + d.position + 384000 < 2 ^ 32 →
      Cancels p d := by
  intro h
  obtain ⟨s, r, hs, hr, hvalue, -⟩ := h ⟨⟨4294967295, 3, 4⟩, by decide⟩ ⟨0, 3, 4⟩
    ⟨by decide, by decide, by decide⟩ ⟨by decide, by decide, by decide⟩ rfl (by decide)
    (by decide) (by decide)
  have hadd : (⟨⟨4294967295, 3, 4⟩, by decide⟩ : Position).add ⟨0, 3, 4⟩ =
      some ⟨⟨0, 2, 4⟩, by decide⟩ := by decide
  rw [hadd] at hs
  cases hs
  have hsub : Duration.sub ⟨0, 2, 4⟩ ⟨4294967295, 3, 4⟩ = .ok ⟨0, 4294967295, 4⟩ := by rfl
  rw [hsub] at hr
  cases hr
  norm_num [Duration.value] at hvalue

end Position

end Bipscript
