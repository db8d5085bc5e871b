import Bipscript.Position
import Mathlib.Data.Nat.Cast.Field

/-! Sums of bar positions in 32-bit arithmetic. -/
namespace Bipscript.Duration

/-- The assignments of `operator+=`, up to its call of `normalize`. -/
def sum (p d : Duration) : Duration :=
  let whole := (p.whole + d.whole) % 2 ^ 32
  if p.division = d.division then
    ⟨whole, (p.position + d.position) % 2 ^ 32, p.division⟩
  else
    ⟨whole, (mul32 p.position d.division + mul32 d.position p.division) % 2 ^ 32,
      mul32 p.division d.division⟩

/-- `operator+=`. None is the division by zero that `normalize` traps on. -/
def addAssign (p d : Duration) : Option Duration :=
  if (p.sum d).division = 0 then none else some (p.sum d).normalize

/-- The values of the public constructors and of `+=`. -/
inductive Obtained : Duration → Prop
  | new {whole position division : ℕ} (hw : whole < 2 ^ 32) (hp : position < 2 ^ 32)
      (hd : division < 2 ^ 32) (h : division ≠ 0) : Obtained (mk whole position division).normalize
  | add {p d r : Duration} (hp : Obtained p) (hd : Obtained d) (h : p.addAssign d = some r) :
      Obtained r

/-- The numerator and the denominator of a sum's fraction of a bar, as `+=` forms them but in
exact arithmetic. -/
def fraction (p d : Duration) : ℕ × ℕ :=
  if p.division = d.division then (p.position + d.position, p.division)
  else (p.position * d.division + d.position * p.division, p.division * d.division)

/-- The sum exists, and is exact when its bars fit. -/
def Adds (p d : Duration) : Prop :=
  ∃ r, p.addAssign d = some r ∧ r.division ≠ 0 ∧
    (⌊p.value + d.value⌋ < 2 ^ 32 → r.value = p.value + d.value)

/-- What the two terms lose to 32 bits is in the proportion of what they keep, in particular
nothing when both fit, and something is kept of the denominator. -/
def Keeps (p d : Duration) : Prop :=
  let (n, q) := p.fraction d
  q % 2 ^ 32 ≠ 0 ∧
    (⌊p.value + d.value⌋ < 2 ^ 32 → n / 2 ^ 32 * (q % 2 ^ 32) = q / 2 ^ 32 * (n % 2 ^ 32))

theorem reduce_whole (factor : ℕ) (d : Duration) : (d.reduce factor).whole = d.whole := by
  induction d using reduce.induct factor with
  | case1 d hc ih => rwa [reduce, if_pos hc]
  | case2 d hc => rw [reduce, if_neg hc]

theorem reduce_division_le (factor : ℕ) (d : Duration) :
    (d.reduce factor).division ≤ d.division := by
  induction d using reduce.induct factor with
  | case1 d hc ih =>
    rw [reduce, if_pos hc]
    exact le_trans ih (Nat.div_le_self _ _)
  | case2 d hc => rw [reduce, if_neg hc]

theorem reduce_value (factor : ℕ) (d : Duration) : (d.reduce factor).value = d.value := by
  induction d using reduce.induct factor with
  | case1 d hc ih =>
    rw [reduce, if_pos hc, ih]
    obtain ⟨hf, -, hp, hd⟩ := hc
    have hf' : (factor : ℚ) ≠ 0 := by exact_mod_cast (by omega : factor ≠ 0)
    unfold value
    rw [Nat.cast_div (Nat.dvd_of_mod_eq_zero hp) hf', Nat.cast_div (Nat.dvd_of_mod_eq_zero hd) hf',
      div_div_div_cancel_right₀ hf']
  | case2 d hc => rw [reduce, if_neg hc]

/-- What the two branches of `normalize` have made of a duration. -/
structure Normalized (d r : Duration) : Prop where
  whole : r.whole < 2 ^ 32
  normal : r.position < r.division
  division_le : r.division ≤ d.division
  value : r.value = ((d.whole + d.position / d.division) % 2 ^ 32 : ℕ) +
    ((d.position % d.division : ℕ) : ℚ) / d.division

theorem Normalized.reduce {d r : Duration} (h : Normalized d r) (factor : ℕ) :
    Normalized d (r.reduce factor) := by
  refine ⟨?_, reduce_lt factor r h.normal, (reduce_division_le factor r).trans h.division_le, ?_⟩
  · rw [reduce_whole]
    exact h.whole
  · rw [reduce_value]
    exact h.value

theorem Normalized.foldl {d r : Duration} (h : Normalized d r) (factors : List ℕ) :
    Normalized d (factors.foldl (fun d factor => d.reduce factor) r) := by
  induction factors generalizing r with
  | nil => exact h
  | cons factor factors ih => exact ih (h.reduce factor)

theorem normalized_normalize {d : Duration} (hw : d.whole < 2 ^ 32) (hd : 0 < d.division) :
    Normalized d d.normalize := by
  have hunity : Normalized d (if d.position ≥ d.division then
      { d with whole := (d.whole + d.position / d.division) % 2 ^ 32,
               position := d.position % d.division }
      else d) := by
    split
    · exact ⟨Nat.mod_lt _ (by norm_num), Nat.mod_lt _ hd, le_rfl, rfl⟩
    · rename_i hlt
      have hlt' : d.position < d.division := by omega
      refine ⟨hw, hlt', le_rfl, ?_⟩
      rw [Nat.div_eq_of_lt hlt', Nat.mod_eq_of_lt hlt', Nat.add_zero, Nat.mod_eq_of_lt hw]
      rfl
  have hcases : d.normalize = _ ∨ d.normalize = _ := (ite_eq_or_eq _ _ _)
  rcases hcases with he | he
  · rw [he]
    exact hunity.foldl _
  · rw [he]
    exact hunity

theorem sum_eq {p d : Duration} (hp : p.division < 2 ^ 32) :
    p.sum d = ⟨(p.whole + d.whole) % 2 ^ 32, (p.fraction d).1 % 2 ^ 32,
      (p.fraction d).2 % 2 ^ 32⟩ := by
  unfold sum fraction
  by_cases h : p.division = d.division
  · rw [if_pos h, if_pos h, Nat.mod_eq_of_lt hp]
  · rw [if_neg h, if_neg h]
    simp only [mul32, Nat.add_mod, Nat.mod_mod]

/-- Values below `2 ^ 32`, the fraction below a bar. -/
structure Bounded (d : Duration) : Prop where
  whole : d.whole < 2 ^ 32
  normal : d.position < d.division
  division : d.division < 2 ^ 32

theorem Obtained.bounded {d : Duration} (h : Obtained d) : Bounded d := by
  induction h with
  | @new whole position division hw hp hd h =>
    have hn := normalized_normalize (d := ⟨whole, position, division⟩) hw (Nat.pos_of_ne_zero h)
    exact ⟨hn.whole, hn.normal, hn.division_le.trans_lt hd⟩
  | @add p d r hp hd h ihp ihd =>
    unfold addAssign at h
    rw [sum_eq ihp.division] at h
    split at h
    · cases h
    · rename_i h0
      cases h
      have hlt : ∀ n : ℕ, n % 2 ^ 32 < 2 ^ 32 := fun n => Nat.mod_lt n (by norm_num)
      have hn := normalized_normalize (hlt _) (Nat.pos_of_ne_zero h0)
      exact ⟨hn.whole, hn.normal, hn.division_le.trans_lt (hlt _)⟩

theorem fraction_spec {p d : Duration} (hp0 : 0 < p.division) (hd0 : 0 < d.division) :
    0 < (p.fraction d).2 ∧
      p.value + d.value = (p.whole + d.whole : ℕ) + ((p.fraction d).1 : ℚ) / (p.fraction d).2 := by
  have hp' : (p.division : ℚ) ≠ 0 := by exact_mod_cast hp0.ne'
  have hd' : (d.division : ℚ) ≠ 0 := by exact_mod_cast hd0.ne'
  unfold fraction value
  split
  · rename_i h
    refine ⟨hp0, ?_⟩
    rw [← h]
    push_cast
    ring
  · refine ⟨Nat.mul_pos hp0 hd0, ?_⟩
    push_cast
    field_simp
    ring

/-- The parts of a mixed number are its own. -/
theorem mixed_inj {a b : ℕ} {f g : ℚ} (hf : 0 ≤ f) (hf1 : f < 1) (hg : 0 ≤ g) (hg1 : g < 1)
    (h : a + f = b + g) : a = b ∧ f = g := by
  have hab : (a : ℚ) < b + 1 := by linarith
  have hba : (b : ℚ) < a + 1 := by linarith
  have hab' : a < b + 1 := by exact_mod_cast hab
  have hba' : b < a + 1 := by exact_mod_cast hba
  obtain rfl : a = b := by omega
  exact ⟨rfl, by linarith⟩

theorem mixed (n : ℕ) {q : ℕ} (hq : 0 < q) :
    (n : ℚ) / q = (n / q : ℕ) + ((n % q : ℕ) : ℚ) / q ∧
      0 ≤ ((n % q : ℕ) : ℚ) / q ∧ ((n % q : ℕ) : ℚ) / q < 1 := by
  have hq' : (0 : ℚ) < q := by exact_mod_cast hq
  refine ⟨?_, by positivity, ?_⟩
  · have h : (q : ℚ) * (n / q : ℕ) + (n % q : ℕ) = n := by exact_mod_cast Nat.div_add_mod n q
    rw [eq_comm, ← h]
    field_simp
  · rw [div_lt_one hq']
    exact_mod_cast Nat.mod_lt n hq

/-- A mixed number whose bars wrap at `2 ^ 32` is one that fits iff the fractions agree. -/
theorem wrapped_eq_iff {w n q n' q' : ℕ} (hq : 0 < q) (hq' : 0 < q') (hn' : n' < 2 ^ 32)
    (hfit : w + n / q < 2 ^ 32) :
    (((w % 2 ^ 32 + n' / q') % 2 ^ 32 : ℕ) : ℚ) + ((n' % q' : ℕ) : ℚ) / q' = w + (n : ℚ) / q ↔
      n' * q = n * q' := by
  obtain ⟨hmix, h0, h1⟩ := mixed n hq
  obtain ⟨hmix', h0', h1'⟩ := mixed n' hq'
  have hfrac : n' * q = n * q' ↔ (n' : ℚ) / q' = n / q := by
    rw [div_eq_div_iff (by exact_mod_cast hq'.ne') (by exact_mod_cast hq.ne')]
    exact_mod_cast Iff.rfl
  have hle : n' / q' < 2 ^ 32 := (Nat.div_le_self _ _).trans_lt hn'
  rw [hfrac]
  constructor
  · intro h
    rw [hmix, ← add_assoc, ← Nat.cast_add] at h
    obtain ⟨hwhole, hrest⟩ := mixed_inj h0' h1' h0 h1 h
    have hquot : n' / q' = n / q := by
      generalize n' / q' = a at *
      generalize n / q = b at *
      omega
    rw [hmix, hmix', hrest, hquot]
  · intro h
    rw [hmix, hmix'] at h
    obtain ⟨hwhole, hrest⟩ := mixed_inj h0' h1' h0 h1 h
    rw [hmix, hwhole, hrest, ← add_assoc, ← Nat.cast_add]
    congr 2
    generalize n / q = b at *
    omega

/-- A product with what is kept of one term is one with what is lost of it. -/
theorem kept_iff_lost (n q : ℕ) :
    n % 2 ^ 32 * q = n * (q % 2 ^ 32) ↔
      n / 2 ^ 32 * (q % 2 ^ 32) = q / 2 ^ 32 * (n % 2 ^ 32) := by
  have hn := Nat.div_add_mod n (2 ^ 32)
  have hq := Nat.div_add_mod q (2 ^ 32)
  generalize n / 2 ^ 32 = j at *
  generalize n % 2 ^ 32 = n' at *
  generalize q / 2 ^ 32 = k at *
  generalize q % 2 ^ 32 = q' at *
  subst hn hq
  constructor
  · intro h
    nlinarith
  · intro h
    nlinarith

/-- A sum of bar positions exists and is exact iff 32 bits keep its fraction. -/
theorem adds_iff (p d : Duration) (hp : Obtained p) (hd : Obtained d) : Adds p d ↔ Keeps p d := by
  have hpb := hp.bounded
  have hdb := hd.bounded
  obtain ⟨hq, hvalue⟩ :=
    fraction_spec (Nat.zero_lt_of_lt hpb.normal) (Nat.zero_lt_of_lt hdb.normal)
  unfold Adds Keeps addAssign
  rw [sum_eq hpb.division]
  generalize p.fraction d = f at *
  obtain ⟨n, q⟩ := f
  by_cases h0 : q % 2 ^ 32 = 0
  · rw [if_pos h0]
    constructor
    · rintro ⟨r, hr, -⟩
      cases hr
    · intro h
      exact absurd h0 h.1
  · have hlt : ∀ n : ℕ, n % 2 ^ 32 < 2 ^ 32 := fun n => Nat.mod_lt n (by norm_num)
    have hr := normalized_normalize
      (d := ⟨(p.whole + d.whole) % 2 ^ 32, n % 2 ^ 32, q % 2 ^ 32⟩) (hlt _) (Nat.pos_of_ne_zero h0)
    have hfloor : ⌊p.value + d.value⌋ = ((p.whole + d.whole + n / q : ℕ) : ℤ) := by
      rw [hvalue, Int.floor_natCast_add, Nat.cast_add (p.whole + d.whole)]
      congr 1
      exact Rat.floor_natCast_div_natCast n q
    have hiff : ⌊p.value + d.value⌋ < 2 ^ 32 →
        ((normalize ⟨(p.whole + d.whole) % 2 ^ 32, n % 2 ^ 32, q % 2 ^ 32⟩).value =
          p.value + d.value ↔ n / 2 ^ 32 * (q % 2 ^ 32) = q / 2 ^ 32 * (n % 2 ^ 32)) := by
      intro hfits
      rw [hfloor] at hfits
      rw [hr.value, hvalue, ← kept_iff_lost]
      exact wrapped_eq_iff hq (Nat.pos_of_ne_zero h0) (hlt _) (by exact_mod_cast hfits)
    rw [if_neg h0]
    constructor
    · rintro ⟨r, he, -, hexact⟩
      cases he
      exact ⟨h0, fun hfits => (hiff hfits).mp (hexact hfits)⟩
    · rintro ⟨-, hkeeps⟩
      refine ⟨_, rfl, (Nat.zero_lt_of_lt hr.normal).ne', fun hfits => ?_⟩
      exact (hiff hfits).mpr (hkeeps hfits)

/-- Quarters and eighths: `1 + 1/4` and `1/8`. -/
theorem adds_small : Adds (mk 1 1 4).normalize (mk 0 1 8).normalize :=
  (adds_iff (mk 1 1 4).normalize (mk 0 1 8).normalize
    (.new (by decide) (by decide) (by decide) (by decide))
    (.new (by decide) (by decide) (by decide) (by decide))).mpr
    ⟨by decide, fun _ => by decide⟩

/-- `Position(1, 1, 65536) + Duration(0, 1, 131072)`: the product of the divisions is `2 ^ 33`, and
`normalize` divides by zero. -/
theorem not_adds :
    Obtained (mk 1 1 65536) ∧ Obtained (mk 0 1 131072) ∧ ¬ Adds (mk 1 1 65536) (mk 0 1 131072) := by
  refine ⟨?_, ?_, ?_⟩
  · have h : Obtained (mk 1 1 65536).normalize :=
      .new (by decide) (by decide) (by decide) (by decide)
    exact h
  · have h : Obtained (mk 0 1 131072).normalize :=
      .new (by decide) (by decide) (by decide) (by decide)
    exact h
  · rintro ⟨r, hr, -⟩
    have hnone : addAssign (mk 1 1 65536) (mk 0 1 131072) = none := by decide
    rw [hnone] at hr
    cases hr

end Bipscript.Duration
