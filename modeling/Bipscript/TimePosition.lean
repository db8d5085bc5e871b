import Bipscript.AbcTimes
import Bipscript.TransportMaster

/-! A position taken from the transport, and the frames from it to another one. -/
namespace Bipscript

/-- `jack_position_t` with what a time position reads of it besides. -/
structure JackTime extends JackPosition where
  valid : ℕ
  usecs : ℕ

/-- The fields are set one by one: unlike a `Position` it need not stay below its division. -/
structure TimePosition extends Duration where
  time : ℕ

/-- The constructor from a JACK position. The bar is cast to `unsigned int`; so are the parts, where
these are not negative. What `Position()` leaves is bar 0. -/
def TimePosition.ofJack (pos : JackTime) : TimePosition :=
  if pos.valid ≠ 0 then
    { whole := (pos.bar % 2 ^ 32).toNat,
      position := (truncate (pos.tick + pos.ticksPerBeat * (pos.beat - 1 : ℤ))).toNat,
      division := (truncate (pos.ticksPerBeat * pos.beatsPerBar)).toNat,
      time := pos.usecs }
  else { whole := 0, position := 0, division := 1, time := pos.usecs }

/-- A valid position in a bar of `n` beats of `t` ticks each: the first bar is bar 1, the last one
an `int32_t`. -/
structure JackTime.In (n t : ℕ) (pos : JackTime) : Prop where
  valid : pos.valid ≠ 0
  one_le_bar : 1 ≤ pos.bar
  bar_lt : pos.bar < 2 ^ 31
  beatsPerBar : pos.beatsPerBar = n
  ticksPerBeat : pos.ticksPerBeat = t
  one_le_beat : 1 ≤ pos.beat
  beat_le : pos.beat ≤ n
  tick_nonneg : 0 ≤ pos.tick
  tick_lt : pos.tick < t

/-- Ticks from the start of bar 1. -/
def absoluteTick (n t : ℕ) (pos : JackPosition) : ℤ :=
  ((pos.bar - 1) * n + (pos.beat - 1)) * t + pos.tick

variable {n t : ℕ} {pos : JackTime}

namespace JackTime.In

/-- The ticks before a position in its own bar. -/
theorem parts_nonneg (h : pos.In n t) : 0 ≤ pos.tick + t * (pos.beat - 1) := by
  have hbeat := h.one_le_beat
  have htick := h.tick_nonneg
  have hmul : 0 ≤ (t : ℤ) * (pos.beat - 1) := mul_nonneg (by omega) (by omega)
  omega

theorem parts_lt (h : pos.In n t) : pos.tick + t * (pos.beat - 1) < t * n := by
  have hbeat := h.beat_le
  have htick := h.tick_lt
  have hmul : (t : ℤ) * (pos.beat - 1) ≤ t * (n - 1) :=
    mul_le_mul_of_nonneg_left (by omega) (by omega)
  rw [mul_sub (t : ℤ) n] at hmul
  omega

theorem ofJack_eq (h : pos.In n t) :
    (TimePosition.ofJack pos).toDuration =
      ⟨pos.bar.toNat, (pos.tick + t * (pos.beat - 1)).toNat, t * n⟩ := by
  have hposition : (pos.tick : ℚ) + t * (pos.beat - 1 : ℤ) =
      ((pos.tick + t * (pos.beat - 1) : ℤ) : ℚ) := by push_cast; rfl
  have hdivision : (t : ℚ) * n = ((t * n : ℕ) : ℤ) := by push_cast; rfl
  have hbar : pos.bar % 2 ^ 32 = pos.bar := by
    have hone := h.one_le_bar
    have hlt := h.bar_lt
    omega
  unfold TimePosition.ofJack
  rw [if_pos h.valid, hbar, h.ticksPerBeat, h.beatsPerBar, hposition, hdivision,
    truncate_intCast, truncate_intCast]
  rfl

/-- It is a position after all. -/
theorem normal (h : pos.In n t) :
    (TimePosition.ofJack pos).position < (TimePosition.ofJack pos).division := by
  have hnonneg := h.parts_nonneg
  have hlt := h.parts_lt
  rw [h.ofJack_eq]
  dsimp only
  rw [Int.toNat_lt hnonneg]
  exact_mod_cast hlt

/-- The encoder: all the ticks are there, after those of a bar 0. -/
theorem parts_ofJack (h : pos.In n t) :
    ((TimePosition.ofJack pos).parts : ℤ) = n * t + absoluteTick n t pos.toJackPosition := by
  have hbar := h.one_le_bar
  rw [h.ofJack_eq]
  unfold Duration.parts absoluteTick
  dsimp only
  push_cast
  rw [Int.toNat_of_nonneg h.parts_nonneg, Int.toNat_of_nonneg (by omega)]
  ring

/-- The decoder: a position in ticks is as far away as its ticks are. -/
theorem tickOffset_eq (h : pos.In n t) {d : Duration} (hd : d.division = t * n) :
    tickOffset d pos.toJackPosition =
      d.parts - n * t - absoluteTick n t pos.toJackPosition := by
  have hticks : 0 < t * n := by
    have hnonneg := h.parts_nonneg
    have hlt := h.parts_lt
    exact_mod_cast hnonneg.trans_lt hlt
  have hticks' : (t : ℚ) * n ≠ 0 := by exact_mod_cast hticks.ne'
  have hevt : evtTick d pos.toJackPosition = d.position := by
    unfold evtTick
    rw [h.ticksPerBeat, h.beatsPerBar, hd]
    push_cast
    rw [mul_assoc, mul_div_assoc, div_self hticks', mul_one]
    exact truncate_intCast d.position
  have hexact : (((d.whole : ℤ) - pos.bar : ℤ) * (n : ℚ) + 1 - pos.beat) * t +
      (d.position : ℤ) - pos.tick =
        ((d.parts - n * t - absoluteTick n t pos.toJackPosition : ℤ) : ℚ) := by
    unfold Duration.parts absoluteTick
    rw [hd]
    push_cast
    ring
  unfold tickOffset
  rw [hevt, h.ticksPerBeat, h.beatsPerBar, hexact, truncate_intCast]

end JackTime.In

/-- A time position is away from another position of the transport by the ticks between them. -/
theorem calculateFrameOffset_ofJack {p q : JackTime} (hp : p.In n t) (hq : q.In n t) :
    calculateFrameOffset (TimePosition.ofJack p).toDuration q.toJackPosition =
        truncate ((absoluteTick n t p.toJackPosition - absoluteTick n t q.toJackPosition : ℤ) *
          q.frameRate * 60 / (t * q.beatsPerMinute)) ∧
      calculateFrameOffset (TimePosition.ofJack p).toDuration p.toJackPosition = 0 := by
  have hoffset : ∀ {q : JackTime}, q.In n t →
      tickOffset (TimePosition.ofJack p).toDuration q.toJackPosition =
        absoluteTick n t p.toJackPosition - absoluteTick n t q.toJackPosition := by
    intro q hq
    have hdivision : (TimePosition.ofJack p).division = t * n := by rw [hp.ofJack_eq]
    rw [hq.tickOffset_eq hdivision, hp.parts_ofJack]
    omega
  unfold calculateFrameOffset
  refine ⟨?_, ?_⟩
  · rw [hoffset hq, hq.ticksPerBeat]
  · rw [hoffset hp, Int.sub_self, Int.cast_zero, zero_mul, zero_mul, zero_div]
    exact truncate_intCast 0

/-- A place in a 4/4 piece at 120 bpm. -/
def JackTime.ofBeat (bar beat tick : ℤ) : JackTime :=
  { barOne.toJackPosition with bar := bar, beat := beat, tick := tick, valid := 1, usecs := 0 }

/-- From the last beat of bar 2 to the off-beat that opens bar 3: a beat and a half. -/
theorem calculateFrameOffset_nextBar :
    calculateFrameOffset (TimePosition.ofJack (.ofBeat 3 1 960)).toDuration
        (JackTime.ofBeat 2 4 0).toJackPosition = 36000 ∧
      calculateFrameOffset (TimePosition.ofJack (.ofBeat 3 1 960)).toDuration
        (JackTime.ofBeat 3 1 960).toJackPosition = 0 := by
  have hp : (JackTime.ofBeat 3 1 960).In 4 1920 := by
    constructor <;> norm_num [JackTime.ofBeat, barOne]
  have hq : (JackTime.ofBeat 2 4 0).In 4 1920 := by
    constructor <;> norm_num [JackTime.ofBeat, barOne]
  refine ⟨(calculateFrameOffset_ofJack hp hq).1.trans ?_, (calculateFrameOffset_ofJack hp hq).2⟩
  norm_num [absoluteTick, JackTime.ofBeat, barOne, truncate]

end Bipscript
