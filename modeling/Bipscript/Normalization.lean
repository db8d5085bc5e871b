import Bipscript.PositionSum

/-! The loops of `normalize` counted out: that they end, and what they leave. -/
namespace Bipscript.Duration

/-- The inner `while` of `normalize` for `fuel` tests of its condition; none, it has not ended. -/
def whileReduce (factor : ℕ) : ℕ → Duration → Option Duration
  | 0, _ => none
  | fuel + 1, d =>
    if d.position % factor = 0 ∧ d.division % factor = 0 then
      whileReduce factor fuel
        { d with position := d.position / factor, division := d.division / factor }
    else some d

/-- `normalize` with its loops, none where it traps on a zero division or has not ended. -/
def normalizeLoop (fuel : ℕ) (d : Duration) : Option Duration :=
  if d.division = 0 then none
  else
    let d := if d.position ≥ d.division then
        { d with whole := (d.whole + d.position / d.division) % 2 ^ 32,
                 position := d.position % d.division }
      else d
    if d.division > MAX_DENOMINATOR then
      [7, 6, 5, 4, 3, 2].foldlM (fun d factor => d.whileReduce factor fuel) d
    else some d

variable {factor fuel : ℕ}

theorem reduce_division_pos {d : Duration} (hd : 0 < d.division) :
    0 < (d.reduce factor).division := by
  induction d using reduce.induct factor with
  | case1 d hc ih =>
    rw [reduce, if_pos hc]
    obtain ⟨hf, _, _, hdvd⟩ := hc
    exact ih (Nat.div_pos (Nat.le_of_dvd hd (Nat.dvd_of_mod_eq_zero hdvd)) (by omega))
  | case2 d hc => rwa [reduce, if_neg hc]

/-- Each round makes the division smaller, so it bounds the number of rounds. -/
theorem whileReduce_eq (hf : 1 < factor) {d : Duration} (hd : 0 < d.division)
    (hfuel : d.division < fuel) : d.whileReduce factor fuel = some (d.reduce factor) := by
  induction fuel generalizing d with
  | zero => omega
  | succ fuel ih =>
    rw [whileReduce, reduce]
    by_cases hc : d.position % factor = 0 ∧ d.division % factor = 0
    · rw [if_pos hc, if_pos ⟨hf, hd, hc⟩]
      have hdvd : factor ∣ d.division := Nat.dvd_of_mod_eq_zero hc.2
      apply ih
      · exact Nat.div_pos (Nat.le_of_dvd hd hdvd) (by omega)
      · have hlt : d.division / factor < d.division := Nat.div_lt_self hd hf
        change d.division / factor < fuel
        omega
    · rw [if_neg hc, if_neg fun h => hc h.2.2]

theorem foldlM_whileReduce {factors : List ℕ} (hf : ∀ factor ∈ factors, 1 < factor)
    {d : Duration} (hd : 0 < d.division) (hfuel : d.division < fuel) :
    factors.foldlM (fun d factor => d.whileReduce factor fuel) d =
      some (factors.foldl (fun d factor => d.reduce factor) d) := by
  induction factors generalizing d with
  | nil => rfl
  | cons factor factors ih =>
    have hle := reduce_division_le factor d
    rw [List.foldlM_cons, whileReduce_eq (hf factor List.mem_cons_self) hd hfuel]
    exact ih (fun factor h => hf factor (List.mem_cons_of_mem _ h)) (reduce_division_pos hd)
      (by omega)

/-- With fuel above the division the loops have all ended. -/
theorem normalizeLoop_eq {d : Duration} (hd : 0 < d.division) (hfuel : d.division < fuel) :
    d.normalizeLoop fuel = some d.normalize := by
  have hf : ∀ factor ∈ [7, 6, 5, 4, 3, 2], 1 < factor := by decide
  unfold normalizeLoop normalize
  rw [if_neg hd.ne']
  by_cases hp : d.position ≥ d.division
  · simp only [hp, if_true]
    split
    · exact foldlM_whileReduce hf hd hfuel
    · rfl
  · simp only [hp, if_false]
    split
    · exact foldlM_whileReduce hf hd hfuel
    · rfl

/-- The common factors of both parts. -/
def common (d : Duration) : ℕ := Nat.gcd d.position d.division

/-- A loop leaves no common factor that was not there. -/
theorem common_reduce_dvd (factor : ℕ) (d : Duration) : (d.reduce factor).common ∣ d.common := by
  induction d using reduce.induct factor with
  | case1 d hc ih =>
    rw [reduce, if_pos hc]
    obtain ⟨-, -, hp, hdvd⟩ := hc
    refine ih.trans ?_
    unfold common
    dsimp only
    rw [Nat.gcd_div (Nat.dvd_of_mod_eq_zero hp) (Nat.dvd_of_mod_eq_zero hdvd)]
    exact Nat.div_dvd_of_dvd
      (Nat.dvd_gcd (Nat.dvd_of_mod_eq_zero hp) (Nat.dvd_of_mod_eq_zero hdvd))
  | case2 d hc => rw [reduce, if_neg hc]

/-- And none that is a multiple of its own. -/
theorem not_dvd_common_reduce (hf : 1 < factor) {d : Duration} (hd : 0 < d.division) :
    ¬ factor ∣ (d.reduce factor).common := by
  induction d using reduce.induct factor with
  | case1 d hc ih =>
    rw [reduce, if_pos hc]
    exact ih (Nat.div_pos (Nat.le_of_dvd hd (Nat.dvd_of_mod_eq_zero hc.2.2.2)) (by omega))
  | case2 d hc =>
    rw [reduce, if_neg hc]
    intro hdvd
    exact hc ⟨hf, hd, Nat.mod_eq_zero_of_dvd (hdvd.trans (Nat.gcd_dvd_left _ _)),
      Nat.mod_eq_zero_of_dvd (hdvd.trans (Nat.gcd_dvd_right _ _))⟩

theorem common_foldl_dvd (factors : List ℕ) (d : Duration) :
    (factors.foldl (fun d factor => d.reduce factor) d).common ∣ d.common := by
  induction factors generalizing d with
  | nil => exact dvd_rfl
  | cons factor factors ih => exact (ih _).trans (common_reduce_dvd factor d)

theorem not_dvd_common_foldl {factors : List ℕ} (hf : ∀ factor ∈ factors, 1 < factor)
    {d : Duration} (hd : 0 < d.division) (h : factor ∈ factors) :
    ¬ factor ∣ (factors.foldl (fun d factor => d.reduce factor) d).common := by
  induction factors generalizing d with
  | nil => cases h
  | cons first factors ih =>
    rcases List.mem_cons.mp h with rfl | h
    · -- the later loops bring nothing back
      intro hdvd
      exact not_dvd_common_reduce (hf factor List.mem_cons_self) hd
        (hdvd.trans (common_foldl_dvd factors _))
    · exact ih (fun factor h => hf factor (List.mem_cons_of_mem _ h)) (reduce_division_pos hd) h

theorem not_dvd_common_normalize {d : Duration} (hd : 0 < d.division)
    (hmax : MAX_DENOMINATOR < d.division) (h : factor ∈ [7, 6, 5, 4, 3, 2]) :
    ¬ factor ∣ d.normalize.common := by
  have hf : ∀ factor ∈ [7, 6, 5, 4, 3, 2], 1 < factor := by decide
  unfold normalize
  by_cases hp : d.position ≥ d.division
  · simp only [hp, if_true]
    rw [if_pos hmax]
    exact not_dvd_common_foldl hf hd h
  · simp only [hp, if_false]
    rw [if_pos hmax]
    exact not_dvd_common_foldl hf hd h

/-- Bars that fit are kept. -/
theorem value_normalize {d : Duration} (hd : 0 < d.division) (hv : d.value < 2 ^ 32) :
    d.normalize.value = d.value := by
  obtain ⟨hmix, hnn, -⟩ := mixed d.position hd
  unfold value at hv
  have hfit : d.whole + d.position / d.division < 2 ^ 32 := by
    have hfit' : ((d.whole + d.position / d.division : ℕ) : ℚ) < 2 ^ 32 := by
      push_cast
      linarith
    exact_mod_cast hfit'
  have hn := normalized_normalize ((Nat.le_add_right _ _).trans_lt hfit) hd
  rw [hn.value, Nat.mod_eq_of_lt hfit, value, hmix, ← add_assoc, ← Nat.cast_add]

/-- `normalize` ends, with the value it was given as a fraction below a bar, and in terms without
small common factors when the division was too large. -/
theorem normalize_ends (d : Duration) (hd : 1 ≤ d.division) (hv : d.value < 2 ^ 32) :
    (∃ bound, ∀ fuel, bound ≤ fuel → d.normalizeLoop fuel = some d.normalize) ∧
      d.normalize.value = d.value ∧
      d.normalize.position < d.normalize.division ∧ 1 ≤ d.normalize.division ∧
      (MAX_DENOMINATOR < d.division → ∀ factor ∈ [2, 3, 5, 7],
        ¬ (factor ∣ d.normalize.position ∧ factor ∣ d.normalize.division)) := by
  have hlt := normalize_lt d hd
  refine ⟨⟨d.division + 1, fun fuel hfuel => normalizeLoop_eq hd hfuel⟩, value_normalize hd hv,
    hlt, by omega, ?_⟩
  rintro hmax factor hfactor ⟨hp, hq⟩
  have hmem : ∀ factor ∈ [2, 3, 5, 7], factor ∈ [7, 6, 5, 4, 3, 2] := by decide
  exact not_dvd_common_normalize hd hmax (hmem factor hfactor) (Nat.dvd_gcd hp hq)

/-- The line of bar 2, in parts of `2 ^ 19`. -/
theorem normalize_zero_ends :
    (∃ bound, ∀ fuel, bound ≤ fuel →
        (mk 2 0 524288).normalizeLoop fuel = some (mk 2 0 524288).normalize) ∧
      (mk 2 0 524288).normalize.value = (mk 2 0 524288).value ∧
      (mk 2 0 524288).normalize.position < (mk 2 0 524288).normalize.division ∧
      1 ≤ (mk 2 0 524288).normalize.division ∧
      (MAX_DENOMINATOR < (mk 2 0 524288).division → ∀ factor ∈ [2, 3, 5, 7],
        ¬ (factor ∣ (mk 2 0 524288).normalize.position ∧
          factor ∣ (mk 2 0 524288).normalize.division)) :=
  normalize_ends (mk 2 0 524288) (by decide) (by norm_num [value])

end Bipscript.Duration
