import Mathlib.Algebra.Order.Floor.Ring
import Mathlib.Data.Rat.Floor
import Mathlib.Tactic.Positivity
import Mathlib.Tactic.Linarith
import Mathlib.Tactic.FieldSimp
import Mathlib.Tactic.GCongr

/-! Bar positions, their order, and the frame offset of one against the JACK transport. -/
namespace Bipscript

/-- Three `unsigned int`s: `whole + position / division` bars. -/
structure Duration where
  whole : ℕ
  position : ℕ
  division : ℕ
deriving DecidableEq, Repr

/-- The product of two `unsigned int`s. -/
def mul32 (a b : ℕ) : ℕ := a * b % 2 ^ 32

namespace Duration

/-- frames in a measure 44.1k 60bpm -/
def MAX_DENOMINATOR : ℕ := 384000

/-- The inner `while` of `normalize`: both terms are divided by `factor` while both are multiples.
A zero `division` never gets here, the `%` before would have trapped. -/
def reduce (factor : ℕ) (d : Duration) : Duration :=
  if 1 < factor ∧ 0 < d.division ∧ d.position % factor = 0 ∧ d.division % factor = 0 then
    reduce factor { d with position := d.position / factor, division := d.division / factor }
  else d
termination_by d.division
decreasing_by exact Nat.div_lt_self (by omega) (by omega)

/-- `normalize`, for a `division` that is not zero. -/
def normalize (d : Duration) : Duration :=
  let d := if d.position ≥ d.division then
      { d with whole := (d.whole + d.position / d.division) % 2 ^ 32,
               position := d.position % d.division }
    else d
  if d.division > MAX_DENOMINATOR then
    [7, 6, 5, 4, 3, 2].foldl (fun d factor => d.reduce factor) d
  else d

/-- `operator<`. The cross products are taken with `mul`: `mul32` on the machine, `(· * ·)` in
exact arithmetic. -/
def lt (mul : ℕ → ℕ → ℕ) (a b : Duration) : Bool :=
  if a.whole < b.whole then true
  else if a.whole = b.whole then mul a.position b.division < mul b.position a.division
  else false

/-- `operator<=`, with the same parameter. -/
def le (mul : ℕ → ℕ → ℕ) (a b : Duration) : Bool :=
  if a.whole < b.whole then true
  else if a.whole = b.whole then mul a.position b.division ≤ mul b.position a.division
  else false

/-- Exactly one of `a <= b` and `b < a`, also where the cross products overflow. -/
theorem lt_iff_not_le {mul : ℕ → ℕ → ℕ} {a b : Duration} :
    b.lt mul a = true ↔ ¬ a.le mul b = true := by
  unfold lt le
  split_ifs <;> simp <;> omega

theorem le_of_lt {mul : ℕ → ℕ → ℕ} {a b : Duration} (h : a.lt mul b = true) :
    a.le mul b = true := by
  unfold lt at h
  unfold le
  split_ifs at h ⊢
  · rfl
  · exact decide_eq_true (of_decide_eq_true h).le

/-- The rational number of bars. -/
def value (d : Duration) : ℚ := d.whole + d.position / d.division

theorem reduce_lt (factor : ℕ) (d : Duration) (h : d.position < d.division) :
    (d.reduce factor).position < (d.reduce factor).division := by
  induction d using reduce.induct factor with
  | case1 d hc ih =>
    rw [reduce, if_pos hc]
    apply ih
    obtain ⟨hf, _, hp, hd⟩ := hc
    exact Nat.div_lt_div_of_lt_of_dvd (Nat.dvd_of_mod_eq_zero hd) h
  | case2 d hc => rwa [reduce, if_neg hc]

/-- Every constructor and `+=` end in `normalize`, so a position is always below its division. -/
theorem normalize_lt (d : Duration) (h : 0 < d.division) :
    d.normalize.position < d.normalize.division := by
  have hunity : ∀ e : Duration, e.position < e.division →
      ([7, 6, 5, 4, 3, 2].foldl (fun d factor => d.reduce factor) e).position <
        ([7, 6, 5, 4, 3, 2].foldl (fun d factor => d.reduce factor) e).division := by
    intro e he
    simp only [List.foldl_cons, List.foldl_nil]
    iterate 6 apply reduce_lt
    exact he
  unfold normalize
  by_cases hp : d.position ≥ d.division
  · simp only [hp, if_true]
    have hlt : d.position % d.division < d.division := Nat.mod_lt _ h
    split
    · exact hunity _ hlt
    · exact hlt
  · simp only [hp, if_false]
    split
    · exact hunity _ (by omega)
    · omega

end Duration

/-- A `Position` carries what its constructors establish. -/
structure Position extends Duration where
  normal : position < division
deriving DecidableEq

namespace Position

/-- The division of positions in quarters. -/
theorem four_pos : 0 < 4 := Nat.succ_pos 3

/-- The constructor from three numbers; none is its `logic_error`. -/
def ofBar (bar position division : ℕ) : Option Position :=
  if h : division = 0 then none
  else if bar = 0 then none
  else some ⟨(Duration.mk bar position division).normalize,
    Duration.normalize_lt _ (Nat.pos_of_ne_zero h)⟩

theorem division_pos (p : Position) : 0 < p.division := Nat.zero_lt_of_lt p.normal

theorem value_lt_succ (p : Position) : p.value < p.whole + 1 := by
  have hd : (0 : ℚ) < p.division := by exact_mod_cast p.division_pos
  have hn : (p.position : ℚ) < p.division := by exact_mod_cast p.normal
  have hq : (p.position : ℚ) / p.division < 1 := (div_lt_one hd).mpr hn
  unfold Duration.value
  linarith

theorem whole_le_value (p : Position) : (p.whole : ℚ) ≤ p.value := by
  unfold Duration.value
  have : (0 : ℚ) ≤ (p.position : ℚ) / p.division := by positivity
  linarith

/-- In exact arithmetic the code's comparison is that of the rationals denoted. -/
theorem le_iff_value_le (a b : Position) :
    Duration.le (· * ·) a.toDuration b.toDuration = true ↔ a.value ≤ b.value := by
  have ha : (0 : ℚ) < a.division := by exact_mod_cast a.division_pos
  have hb : (0 : ℚ) < b.division := by exact_mod_cast b.division_pos
  have ha' := a.value_lt_succ
  have hb' := b.value_lt_succ
  have ha'' := a.whole_le_value
  have hb'' := b.whole_le_value
  unfold Duration.le
  split
  · rename_i h
    have h' : (a.whole : ℚ) + 1 ≤ b.whole := by exact_mod_cast h
    simp only [true_iff]
    linarith
  · rename_i h
    split
    · rename_i he
      rw [decide_eq_true_iff]
      unfold Duration.value
      rw [he, add_le_add_iff_left, div_le_div_iff₀ ha hb]
      exact_mod_cast Iff.rfl
    · rename_i hne
      have h' : (b.whole : ℚ) + 1 ≤ a.whole := by exact_mod_cast (by omega : b.whole + 1 ≤ a.whole)
      simp only [Bool.false_eq_true, false_iff, not_le]
      linarith

theorem lt_iff_value_lt (a b : Position) :
    Duration.lt (· * ·) a.toDuration b.toDuration = true ↔ a.value < b.value := by
  rw [← not_le, ← le_iff_value_le]
  unfold Duration.lt Duration.le
  split
  · rename_i h
    simp [show ¬ b.whole < a.whole by omega, show ¬ b.whole = a.whole by omega]
  · rename_i h
    split
    · rename_i he
      simp [he]
    · rename_i hne
      simp [show b.whole < a.whole by omega]

end Position

/-- The fields of `jack_position_t` that place an event, the floating-point ones exact. -/
structure JackPosition where
  bar : ℤ
  beat : ℤ
  tick : ℤ
  ticksPerBeat : ℚ
  beatsPerBar : ℚ
  beatsPerMinute : ℚ
  frameRate : ℕ

/-- A transport position with a tempo and a time signature: what JACK reports while a timebase
master is rolling. -/
structure BBT extends JackPosition where
  ticksPerBeat_pos : 0 < ticksPerBeat
  beatsPerBar_pos : 0 < beatsPerBar
  beatsPerMinute_pos : 0 < beatsPerMinute

/-- A floating-point value cast to an integer type. -/
def truncate (q : ℚ) : ℤ := if 0 ≤ q then ⌊q⌋ else ⌈q⌉

theorem truncate_mono {a b : ℚ} (h : a ≤ b) : truncate a ≤ truncate b := by
  unfold truncate
  split <;> split
  · exact Int.floor_mono h
  · rename_i ha hb
    exact absurd (ha.trans h) hb
  · rename_i ha hb
    have hneg : ⌈a⌉ ≤ 0 := Int.ceil_le.mpr (by exact_mod_cast (not_le.mp ha).le)
    exact hneg.trans (Int.floor_nonneg.mpr hb)
  · exact Int.ceil_mono h

theorem truncate_of_nonneg {q : ℚ} (h : 0 ≤ q) : truncate q = ⌊q⌋ := if_pos h

theorem truncate_intCast (z : ℤ) : truncate z = z := by
  unfold truncate
  split
  · exact Int.floor_intCast z
  · exact Int.ceil_intCast z

/-- `(position * ticks_per_beat * beats_per_bar) / division` as an `unsigned int`. -/
def evtTick (p : Duration) (pos : JackPosition) : ℤ :=
  truncate (p.position * pos.ticksPerBeat * pos.beatsPerBar / p.division)

def tickOffset (p : Duration) (pos : JackPosition) : ℤ :=
  truncate ((((p.whole : ℤ) - pos.bar : ℤ) * pos.beatsPerBar + 1 - pos.beat) * pos.ticksPerBeat
    + evtTick p pos - pos.tick)

/-- Frames from the start of the period to the position, negative when it has passed. -/
def calculateFrameOffset (p : Duration) (pos : JackPosition) : ℤ :=
  truncate (tickOffset p pos * pos.frameRate * 60 / (pos.ticksPerBeat * pos.beatsPerMinute))

/-- An event's own tick stays inside its bar. -/
theorem evtTick_bounds (p : Position) (pos : BBT) :
    0 ≤ evtTick p.toDuration pos.toJackPosition ∧
      (evtTick p.toDuration pos.toJackPosition : ℚ) ≤ pos.ticksPerBeat * pos.beatsPerBar := by
  have hd : (0 : ℚ) < p.division := by exact_mod_cast p.division_pos
  have hn : (p.position : ℚ) ≤ p.division := by exact_mod_cast p.normal.le
  have ht := pos.ticksPerBeat_pos
  have hb := pos.beatsPerBar_pos
  have hq : (0 : ℚ) ≤ p.position * pos.ticksPerBeat * pos.beatsPerBar / p.division := by positivity
  unfold evtTick truncate
  rw [if_pos hq]
  refine ⟨Int.floor_nonneg.mpr hq, (Int.floor_le _).trans ?_⟩
  rw [div_le_iff₀ hd]
  calc (p.position : ℚ) * pos.ticksPerBeat * pos.beatsPerBar
      = p.position * (pos.ticksPerBeat * pos.beatsPerBar) := by ring
    _ ≤ p.division * (pos.ticksPerBeat * pos.beatsPerBar) :=
        mul_le_mul_of_nonneg_right hn (by positivity)
    _ = pos.ticksPerBeat * pos.beatsPerBar * p.division := by ring

theorem tickOffset_mono (a b : Position) (pos : BBT) (h : a.value ≤ b.value) :
    tickOffset a.toDuration pos.toJackPosition ≤ tickOffset b.toDuration pos.toJackPosition := by
  have ht := pos.ticksPerBeat_pos
  have hb := pos.beatsPerBar_pos
  apply truncate_mono
  have hsame := Position.le_iff_value_le a b
  by_cases hlt : a.whole < b.whole
  · -- a later bar outweighs whatever the event's own tick adds
    have h1 := (evtTick_bounds a pos).2
    have h2 : (0 : ℚ) ≤ evtTick b.toDuration pos.toJackPosition := by
      exact_mod_cast (evtTick_bounds b pos).1
    have h3 : ((a.whole : ℤ) - pos.bar : ℤ) + (1 : ℚ) ≤ ((b.whole : ℤ) - pos.bar : ℤ) := by
      push_cast
      have : (a.whole : ℚ) + 1 ≤ b.whole := by exact_mod_cast hlt
      linarith
    have h4 :=
      mul_le_mul_of_nonneg_right h3 (by positivity : 0 ≤ pos.beatsPerBar * pos.ticksPerBeat)
    nlinarith
  · have hwhole : a.whole = b.whole := by
      have ha := a.whole_le_value
      have hb' := b.value_lt_succ
      have : (a.whole : ℚ) < b.whole + 1 := by linarith
      have : a.whole < b.whole + 1 := by exact_mod_cast this
      omega
    have hda : (0 : ℚ) < a.division := by exact_mod_cast a.division_pos
    have hdb : (0 : ℚ) < b.division := by exact_mod_cast b.division_pos
    have hfrac : (a.position : ℚ) / a.division ≤ b.position / b.division := by
      unfold Duration.value at h
      rw [hwhole] at h
      linarith
    have htick :
        evtTick a.toDuration pos.toJackPosition ≤ evtTick b.toDuration pos.toJackPosition := by
      apply truncate_mono
      have :=
        mul_le_mul_of_nonneg_right hfrac (by positivity : 0 ≤ pos.ticksPerBeat * pos.beatsPerBar)
      calc (a.position : ℚ) * pos.ticksPerBeat * pos.beatsPerBar / a.division
          = a.position / a.division * (pos.ticksPerBeat * pos.beatsPerBar) := by ring
        _ ≤ b.position / b.division * (pos.ticksPerBeat * pos.beatsPerBar) := this
        _ = b.position * pos.ticksPerBeat * pos.beatsPerBar / b.division := by ring
    have htick' : (evtTick a.toDuration pos.toJackPosition : ℚ) ≤
        evtTick b.toDuration pos.toJackPosition := by exact_mod_cast htick
    rw [hwhole]
    linarith

/-- Later bar positions never have smaller frame offsets. -/
theorem calculateFrameOffset_mono (a b : Position) (pos : BBT) (h : a.value ≤ b.value) :
    calculateFrameOffset a.toDuration pos.toJackPosition ≤
      calculateFrameOffset b.toDuration pos.toJackPosition := by
  have ht := pos.ticksPerBeat_pos
  have hm := pos.beatsPerMinute_pos
  have htick : (tickOffset a.toDuration pos.toJackPosition : ℚ) ≤
      tickOffset b.toDuration pos.toJackPosition := by exact_mod_cast tickOffset_mono a b pos h
  apply truncate_mono
  gcongr

/-- The first bar of a 4/4 piece at 120 bpm: 96000 frames, 7680 ticks. -/
def barOne : BBT where
  bar := 1
  beat := 1
  tick := 0
  ticksPerBeat := 1920
  beatsPerBar := 4
  beatsPerMinute := 120
  frameRate := 48000
  ticksPerBeat_pos := by norm_num
  beatsPerBar_pos := by norm_num
  beatsPerMinute_pos := by norm_num

end Bipscript
