import Bipscript.Position
import Bipscript.Library.Run
import Mathlib.Tactic.LinearCombination

/-! The timebase master: bar, beat and tick of the JACK position, from one callback to the next.
Floating-point values are exact and integers unbounded; a conversion to an integer truncates. -/
namespace Bipscript.Transport

/-- The fields of `jack_position_t` that the timebase callback reads or writes. -/
structure TimebasePosition extends JackPosition where
  valid : Bool
  frame : ℕ
  beatType : ℚ
  barStartTick : ℚ

/-- All but the place in the music. -/
def TimebasePosition.header (pos : TimebasePosition) : Bool × ℕ × ℕ × ℚ × ℚ × ℚ × ℚ :=
  (pos.valid, pos.frame, pos.frameRate, pos.ticksPerBeat, pos.beatsPerBar, pos.beatType,
    pos.beatsPerMinute)

/-- The constructor's `ticksPerBeat(1920.0)`; nothing else writes the field. -/
def ticksPerBeat : ℤ := 1920

structure Master where
  lastTick : ℚ
  beatsPerBar : ℚ
  beatUnit : ℚ
  bpm : ℚ
  doForceBeat : Bool
  beatsPerBar_pos : 0 < beatsPerBar
  bpm_pos : 0 < bpm

/-- `std::lround`: to the nearest integer, halves away from zero. -/
def lround (q : ℚ) : ℤ := if 0 ≤ q then ⌊q + 1 / 2⌋ else ⌈q - 1 / 2⌉

theorem lround_near (q : ℚ) : q - 1 / 2 ≤ lround q ∧ (lround q : ℚ) ≤ q + 1 / 2 := by
  unfold lround
  split
  · have h1 := Int.floor_le (q + 1 / 2)
    have h2 := Int.lt_floor_add_one (q + 1 / 2)
    exact ⟨by linarith, h1⟩
  · have h1 := Int.le_ceil (q - 1 / 2)
    have h2 := Int.ceil_lt_add_one (q - 1 / 2)
    exact ⟨h1, by linarith⟩

theorem lround_nonneg_iff (q : ℚ) : 0 ≤ lround q ↔ -1 / 2 < q := by
  unfold lround
  split
  · have h : (0 : ℤ) ≤ ⌊q + 1 / 2⌋ := Int.floor_nonneg.mpr (by linarith)
    exact ⟨fun _ => by linarith, fun _ => h⟩
  · have h : (0 : ℤ) ≤ ⌈q - 1 / 2⌉ ↔ (-1 : ℤ) < ⌈q - 1 / 2⌉ := by omega
    rw [h, Int.lt_ceil]
    push_cast
    constructor <;> intro hq <;> linarith

theorem le_lround_iff {n : ℤ} (hn : 1 ≤ n) (q : ℚ) : n ≤ lround q ↔ (n : ℚ) - 1 / 2 ≤ q := by
  have hn' : (1 : ℚ) ≤ n := by exact_mod_cast hn
  unfold lround
  split
  · rw [Int.le_floor]
    constructor <;> intro hq <;> linarith
  · have hc : ⌈q - 1 / 2⌉ ≤ 0 := Int.ceil_le.mpr (by push_cast; linarith)
    exact ⟨fun hq => by omega, fun hq => by linarith⟩

namespace Master

/-- The constructor, which leaves `lastTick` as it finds it. -/
def new (lastTick bpm beatsPerBar beatUnit : ℚ) (hb : 0 < bpm) (hn : 0 < beatsPerBar) : Master :=
  ⟨lastTick, beatsPerBar, beatUnit, bpm, false, hn, hb⟩

def setBpm (m : Master) (bpm : ℚ) (h : 0 < bpm) : Master := { m with bpm := bpm, bpm_pos := h }

def forceBeat (m : Master) (bpm : ℚ) (h : 0 < bpm) : Master :=
  { m with bpm := bpm, bpm_pos := h, doForceBeat := true }

def setTimeSignature (m : Master) (numerator denominator : ℕ) (h : 1 ≤ numerator) : Master :=
  { m with beatsPerBar := numerator, beatUnit := denominator,
           beatsPerBar_pos := by exact_mod_cast h }

/-- `ticksPerBeat * bpm * frames / (frame_rate * 60)`. -/
def ticks (m : Master) (frameRate frames : ℕ) : ℚ :=
  ticksPerBeat * m.bpm * frames / (frameRate * 60)

/-- `++pos->beat`, and the first beat of the next bar when that is past `beatsPerBar`. -/
def nextBeat (m : Master) (pos : TimebasePosition) : TimebasePosition :=
  if m.beatsPerBar < (pos.beat + 1 : ℤ) then
    { pos with beat := 1, bar := pos.bar + 1,
               barStartTick := pos.barStartTick + m.beatsPerBar * ticksPerBeat }
  else { pos with beat := pos.beat + 1 }

/-- The branch for `new_pos`. -/
def locate (m : Master) (pos : TimebasePosition) : Master × TimebasePosition :=
  let tick := truncate (m.ticks pos.frameRate pos.frame)
  let beat := truncate (tick / ticksPerBeat)
  let bar := truncate (beat / m.beatsPerBar)
  let posTick := truncate (tick - beat * ticksPerBeat)
  ({ m with lastTick := posTick },
   { pos with bar := bar + 1,
              beat := truncate (beat - bar * m.beatsPerBar + 1),
              tick := posTick,
              barStartTick := bar * m.beatsPerBar * ticksPerBeat })

/-- One turn of `while (pos->tick >= ticksPerBeat)`. -/
def carryBeat (s : Master × TimebasePosition) : Master × TimebasePosition :=
  ({ s.1 with lastTick := s.1.lastTick - ticksPerBeat },
   s.1.nextBeat { s.2 with tick := s.2.tick - ticksPerBeat })

@[simp] theorem nextBeat_tick (m : Master) (pos : TimebasePosition) :
    (m.nextBeat pos).tick = pos.tick := by
  unfold nextBeat
  split <;> rfl

@[simp] theorem nextBeat_header (m : Master) (pos : TimebasePosition) :
    (m.nextBeat pos).header = pos.header := by
  unfold nextBeat
  split <;> rfl

def carry (s : Master × TimebasePosition) : Master × TimebasePosition :=
  if ticksPerBeat ≤ s.2.tick then carry (carryBeat s) else s
termination_by s.2.tick.toNat
decreasing_by
  simp only [carryBeat, nextBeat_tick, ticksPerBeat] at *
  omega

/-- The branch for a position that follows the last one. -/
def advance (m : Master) (nframes : ℕ) (pos : TimebasePosition) : Master × TimebasePosition :=
  let lastTick := m.lastTick + m.ticks pos.frameRate nframes
  carry ({ m with lastTick := lastTick }, { pos with tick := lround lastTick })

/-- The end of `setTime`: a forced beat skips to the next beat from the second half of one. -/
def applyForceBeat (s : Master × TimebasePosition) : Master × TimebasePosition :=
  if s.1.doForceBeat then
    if ticksPerBeat / 2 < s.2.tick then
      ({ s.1 with lastTick := 0, doForceBeat := false },
       { s.1.nextBeat s.2 with tick := 0 })
    else ({ s.1 with doForceBeat := false }, s.2)
  else s

/-- The assignments at the top of `setTime`. -/
def stamp (m : Master) (pos : TimebasePosition) : TimebasePosition :=
  { pos with
    valid := true, beatsPerBar := m.beatsPerBar, beatType := m.beatUnit,
    ticksPerBeat := ticksPerBeat, beatsPerMinute := m.bpm }

def setTime (m : Master) (nframes : ℕ) (pos : TimebasePosition) (newPos : Bool) :
    Master × TimebasePosition :=
  applyForceBeat (if newPos then m.locate (m.stamp pos) else m.advance nframes (m.stamp pos))

theorem ticks_nonneg (m : Master) (frameRate frames : ℕ) : 0 ≤ m.ticks frameRate frames := by
  have hb := m.bpm_pos
  unfold ticks ticksPerBeat
  positivity

theorem ticks_pos (m : Master) {frameRate frames : ℕ} (hr : 0 < frameRate) (hf : 0 < frames) :
    0 < m.ticks frameRate frames := by
  have hb := m.bpm_pos
  have hr' : (0 : ℚ) < frameRate := by exact_mod_cast hr
  have hf' : (0 : ℚ) < frames := by exact_mod_cast hf
  unfold ticks ticksPerBeat
  positivity

theorem ticks_add (m : Master) (frameRate a b : ℕ) :
    m.ticks frameRate (a + b) = m.ticks frameRate a + m.ticks frameRate b := by
  unfold ticks
  push_cast
  ring

/-- Ticks from the origin of the transport to a frame of it. -/
def located (m : Master) (pos : TimebasePosition) : ℤ := ⌊m.ticks pos.frameRate pos.frame⌋

theorem located_nonneg (m : Master) (pos : TimebasePosition) : 0 ≤ m.located pos :=
  Int.floor_nonneg.mpr (m.ticks_nonneg _ _)

/-- Bars from the origin of the transport to a frame of it. -/
def locatedBar (m : Master) (pos : TimebasePosition) : ℤ :=
  ⌊(m.located pos / ticksPerBeat : ℤ) / m.beatsPerBar⌋

/-- `locate` splits the ticks by beats, and the beats by bars. -/
theorem locate_eq (m : Master) (pos : TimebasePosition) :
    m.locate pos =
      ({ m with lastTick := (m.located pos % ticksPerBeat : ℤ) },
       { pos with
         bar := m.locatedBar pos + 1,
         beat := ⌊(m.located pos / ticksPerBeat : ℤ) - m.locatedBar pos * m.beatsPerBar⌋ + 1,
         tick := m.located pos % ticksPerBeat,
         barStartTick := m.locatedBar pos * m.beatsPerBar * ticksPerBeat }) := by
  have hb := m.beatsPerBar_pos
  have hbeat0 : 0 ≤ m.located pos / ticksPerBeat :=
    Int.ediv_nonneg (m.located_nonneg pos) (by decide)
  have htick : truncate (m.ticks pos.frameRate pos.frame) = m.located pos :=
    truncate_of_nonneg (m.ticks_nonneg _ _)
  have hbeat : truncate ((m.located pos : ℚ) / ticksPerBeat) = m.located pos / ticksPerBeat := by
    have hdiv : (0 : ℚ) ≤ m.located pos / ticksPerBeat := by
      have := m.located_nonneg pos
      have : (0 : ℚ) ≤ m.located pos := by exact_mod_cast this
      unfold ticksPerBeat
      positivity
    rw [truncate_of_nonneg hdiv]
    exact Rat.floor_intCast_div_natCast (m.located pos) 1920
  have hquot : (0 : ℚ) ≤ (m.located pos / ticksPerBeat : ℤ) / m.beatsPerBar :=
    div_nonneg (by exact_mod_cast hbeat0) hb.le
  have hbar : truncate ((m.located pos / ticksPerBeat : ℤ) / m.beatsPerBar) = m.locatedBar pos :=
    truncate_of_nonneg hquot
  have hrest : (0 : ℚ) ≤ (m.located pos / ticksPerBeat : ℤ) - m.locatedBar pos * m.beatsPerBar := by
    have := Int.floor_le ((m.located pos / ticksPerBeat : ℤ) / m.beatsPerBar)
    rw [le_div_iff₀ hb] at this
    unfold locatedBar
    linarith
  have hfrac : truncate ((m.located pos : ℚ) - (m.located pos / ticksPerBeat : ℤ) * ticksPerBeat) =
      m.located pos % ticksPerBeat := by
    rw [Int.emod_def, mul_comm ticksPerBeat]
    exact_mod_cast truncate_intCast _
  unfold locate
  simp only [htick, hbeat, hbar, hfrac]
  rw [truncate_of_nonneg (by linarith), Int.floor_add_one]

/-- The beats of a bar stay in it, from 1. -/
theorem locate_beat (m : Master) (pos : TimebasePosition) : 1 ≤ (m.locate pos).2.beat := by
  have hb := m.beatsPerBar_pos
  have h := Int.floor_le ((m.located pos / ticksPerBeat : ℤ) / m.beatsPerBar)
  rw [le_div_iff₀ hb] at h
  have hfloor : 0 ≤ ⌊(m.located pos / ticksPerBeat : ℤ) - m.locatedBar pos * m.beatsPerBar⌋ :=
    Int.floor_nonneg.mpr (by unfold locatedBar; linarith)
  rw [locate_eq]
  show 1 ≤ _ + 1
  omega

theorem locatedBar_nonneg (m : Master) (pos : TimebasePosition) : 0 ≤ m.locatedBar pos := by
  have hbeat0 : 0 ≤ m.located pos / ticksPerBeat :=
    Int.ediv_nonneg (m.located_nonneg pos) (by decide)
  exact Int.floor_nonneg.mpr (div_nonneg (by exact_mod_cast hbeat0) m.beatsPerBar_pos.le)

/-- What each turn of the loop preserves, the loop preserves. -/
theorem carry_rule {I : Master × TimebasePosition → Prop}
    (hI : ∀ s, ticksPerBeat ≤ s.2.tick → I s → I (carryBeat s)) (s : Master × TimebasePosition)
    (hs : I s) : I (carry s) := by
  induction s using carry.induct with
  | case1 s hc ih =>
    rw [carry, if_pos hc]
    exact ih (hI s hc hs)
  | case2 s hc => rwa [carry, if_neg hc]

theorem carry_lt (s : Master × TimebasePosition) : (carry s).2.tick < ticksPerBeat := by
  induction s using carry.induct with
  | case1 s hc ih => rwa [carry, if_pos hc]
  | case2 s hc =>
    rw [carry, if_neg hc]
    exact not_le.mp hc

/-- Callbacks for periods that follow one another, the position handed back as it was left. -/
def roll (s : Master × TimebasePosition) (periods : List ℕ) : Master × TimebasePosition :=
  periods.foldl (fun s nframes => s.1.setTime nframes s.2 false) s

end Master

/-- Ticks from the origin of the transport to a position, under `n` beats to a bar. -/
def absoluteTick (n : ℤ) (pos : TimebasePosition) : ℤ :=
  ((pos.bar - 1) * n + pos.beat - 1) * ticksPerBeat + pos.tick

/-- A beat of a bar of `n` beats, the start of the bar in step with its number. -/
structure InBar (n : ℤ) (pos : TimebasePosition) : Prop where
  beat_pos : 1 ≤ pos.beat
  beat_le : pos.beat ≤ n
  start : pos.barStartTick = (pos.bar - 1) * n * ticksPerBeat

namespace Master

theorem inBar_nextBeat {m : Master} {n : ℤ} {pos : TimebasePosition} (hn : m.beatsPerBar = n)
    (h : InBar n pos) :
    InBar n (m.nextBeat pos) ∧
      absoluteTick n (m.nextBeat pos) = absoluteTick n pos + ticksPerBeat := by
  obtain ⟨h1, h2, h3⟩ := h
  by_cases hb : n < pos.beat + 1
  · have he : m.nextBeat pos = { pos with
        beat := 1, bar := pos.bar + 1,
        barStartTick := pos.barStartTick + n * ticksPerBeat } := by
      unfold nextBeat
      rw [hn, if_pos (by exact_mod_cast hb)]
    have hlast : pos.beat = n := by omega
    rw [he]
    refine ⟨⟨le_rfl, by show 1 ≤ n; omega, ?_⟩, ?_⟩
    · simp only [h3]
      push_cast
      ring
    · simp only [absoluteTick, hlast]
      ring
  · have he : m.nextBeat pos = { pos with beat := pos.beat + 1 } := by
      unfold nextBeat
      rw [hn, if_neg (by exact_mod_cast hb)]
    rw [he]
    refine ⟨⟨by show 1 ≤ pos.beat + 1; omega, by show pos.beat + 1 ≤ n; omega, h3⟩, ?_⟩
    simp only [absoluteTick]
    ring

/-- The state after callbacks that have made `x` ticks, rounded only for `pos->tick`. -/
structure Tracks (m : Master) (frameRate : ℕ) (n : ℤ) (x : ℚ) (s : Master × TimebasePosition) :
    Prop where
  same : s.1 = { m with lastTick := s.1.lastTick }
  rate : s.2.frameRate = frameRate
  inBar : InBar n s.2
  sum : (absoluteTick n s.2 : ℚ) - s.2.tick + s.1.lastTick = x
  low : s.1.lastTick - 1 / 2 ≤ s.2.tick
  high : (s.2.tick : ℚ) ≤ s.1.lastTick + 1 / 2

variable {m : Master} {n : ℤ} {rate : ℕ} {x : ℚ} {s : Master × TimebasePosition}

theorem Tracks.carryBeat (hn : m.beatsPerBar = n) (h : Tracks m rate n x s) :
    Tracks m rate n x (carryBeat s) := by
  have hs : s.1.beatsPerBar = n := by rw [h.same]; exact hn
  have hb : InBar n { s.2 with tick := s.2.tick - ticksPerBeat } :=
    ⟨h.inBar.beat_pos, h.inBar.beat_le, h.inBar.start⟩
  obtain ⟨hbar, habs⟩ := inBar_nextBeat hs hb
  refine ⟨?_, ?_, hbar, ?_, ?_, ?_⟩
  · show { s.1 with lastTick := s.1.lastTick - ticksPerBeat } = _
    rw [h.same]
    rfl
  · have hh := nextBeat_header s.1 { s.2 with tick := s.2.tick - ticksPerBeat }
    simp only [TimebasePosition.header, Prod.mk.injEq] at hh
    exact hh.2.2.1.trans h.rate
  · have hsum := h.sum
    simp only [Master.carryBeat, habs, nextBeat_tick]
    simp only [absoluteTick] at hsum ⊢
    push_cast at hsum ⊢
    linarith
  · have hlow := h.low
    simp only [Master.carryBeat, nextBeat_tick]
    push_cast
    linarith
  · have hhigh := h.high
    simp only [Master.carryBeat, nextBeat_tick]
    push_cast
    linarith

theorem Tracks.advance (hn : m.beatsPerBar = n) (h : Tracks m rate n x s) (nframes : ℕ) :
    Tracks m rate n (x + m.ticks rate nframes) (s.1.advance nframes s.2) := by
  have ht : s.1.ticks s.2.frameRate nframes = m.ticks rate nframes := by
    rw [h.same, h.rate]
    rfl
  apply carry_rule (I := Tracks m rate n (x + m.ticks rate nframes))
    (fun _ _ => Tracks.carryBeat hn)
  obtain ⟨hlow, hhigh⟩ := lround_near (s.1.lastTick + m.ticks rate nframes)
  rw [ht]
  refine ⟨?_, h.rate, ⟨h.inBar.beat_pos, h.inBar.beat_le, h.inBar.start⟩, ?_, hlow, hhigh⟩
  · show { s.1 with lastTick := s.1.lastTick + m.ticks rate nframes } = _
    rw [h.same]
  · have hsum := h.sum
    simp only [absoluteTick] at hsum ⊢
    push_cast at hsum ⊢
    linarith

theorem tracks_locate (hn : m.beatsPerBar = n) (pos : TimebasePosition) :
    Tracks m pos.frameRate n (m.located pos) (m.locate pos) ∧
      absoluteTick n (m.locate pos).2 = m.located pos := by
  have hn0 : 0 < n := by
    have := m.beatsPerBar_pos
    rw [hn] at this
    exact_mod_cast this
  have hbar : m.locatedBar pos = m.located pos / ticksPerBeat / n := by
    unfold locatedBar
    rw [hn]
    obtain ⟨k, rfl⟩ := Int.eq_ofNat_of_zero_le hn0.le
    exact Rat.floor_intCast_div_natCast _ k
  have hbeat : ⌊(m.located pos / ticksPerBeat : ℤ) - m.locatedBar pos * m.beatsPerBar⌋ =
      m.located pos / ticksPerBeat % n := by
    rw [hn, hbar, Int.emod_def, mul_comm n]
    exact_mod_cast Int.floor_intCast _
  have habs : absoluteTick n (m.locate pos).2 = m.located pos := by
    have h1 := Int.mul_ediv_add_emod (m.located pos) ticksPerBeat
    have h2 := Int.mul_ediv_add_emod (m.located pos / ticksPerBeat) n
    rw [locate_eq]
    simp only [absoluteTick]
    rw [hbeat, hbar]
    linear_combination h1 + ticksPerBeat * h2
  refine ⟨⟨rfl, ?_, ?_, ?_, ?_, ?_⟩, habs⟩
  · rw [locate_eq]
  · have h1 := Int.emod_nonneg (m.located pos / ticksPerBeat) hn0.ne'
    have h2 := Int.emod_lt_of_pos (m.located pos / ticksPerBeat) hn0
    rw [locate_eq]
    refine ⟨?_, ?_, ?_⟩
    · simp only [hbeat]
      omega
    · simp only [hbeat]
      omega
    · simp only [hn]
      push_cast
      ring
  · rw [habs, locate_eq]
    push_cast
    ring
  · rw [locate_eq]
    simp
  · rw [locate_eq]
    simp

theorem applyForceBeat_of_not (h : s.1.doForceBeat = false) : applyForceBeat s = s := by
  unfold applyForceBeat
  simp [h]

theorem Tracks.setTime (hn : m.beatsPerBar = n) (hf : m.doForceBeat = false)
    (h : Tracks m rate n x s) (nframes : ℕ) :
    Tracks m rate n (x + m.ticks rate nframes) (s.1.setTime nframes s.2 false) := by
  have hp : Tracks m rate n x (s.1, s.1.stamp s.2) :=
    ⟨h.same, h.rate, ⟨h.inBar.beat_pos, h.inBar.beat_le, h.inBar.start⟩, h.sum, h.low, h.high⟩
  have ha := hp.advance hn nframes
  have hforce : (s.1.advance nframes (s.1.stamp s.2)).1.doForceBeat = false := by
    rw [ha.same]
    exact hf
  show Tracks m rate n _ (applyForceBeat (s.1.advance nframes (s.1.stamp s.2)))
  rw [applyForceBeat_of_not hforce]
  exact ha

theorem Tracks.roll (hn : m.beatsPerBar = n) (hf : m.doForceBeat = false)
    (h : Tracks m rate n x s) (periods : List ℕ) :
    Tracks m rate n (x + m.ticks rate periods.sum) (roll s periods) := by
  induction periods generalizing x s with
  | nil => simpa [Master.roll, ticks] using h
  | cons k ks ih =>
    have hk := ih (h.setTime hn hf k)
    rw [List.sum_cons, ticks_add, ← add_assoc]
    exact hk

theorem tracks_setTime (hn : m.beatsPerBar = n) (hf : m.doForceBeat = false) (nframes : ℕ)
    (pos : TimebasePosition) :
    Tracks m pos.frameRate n (m.located pos) (m.setTime nframes pos true) ∧
      absoluteTick n (m.setTime nframes pos true).2 = m.located pos := by
  have he : m.setTime nframes pos true = m.locate (m.stamp pos) :=
    applyForceBeat_of_not hf
  rw [he]
  exact tracks_locate hn (m.stamp pos)

end Master

open Master

/-- Rolling on from a position agrees to a tick with locating the frame reached. -/
theorem roll_agrees (m : Master) (n : ℕ) (hn : m.beatsPerBar = n) (hf : m.doForceBeat = false)
    (pos pos' : TimebasePosition) (first again : ℕ) (periods : List ℕ)
    (hr : pos'.frameRate = pos.frameRate) (hp : pos'.frame = pos.frame + periods.sum) :
    let rolled := (roll (m.setTime first pos true) periods).2
    |absoluteTick n rolled - absoluteTick n (m.setTime again pos' true).2| ≤ 1 ∧
      rolled.barStartTick = (rolled.bar - 1) * n * ticksPerBeat := by
  have hn' : m.beatsPerBar = (n : ℤ) := by rw [hn]; rfl
  have ht := (tracks_setTime hn' hf first pos).1.roll hn' hf periods
  refine ⟨?_, by exact_mod_cast ht.inBar.start⟩
  rw [(tracks_setTime hn' hf again pos').2]
  have hsum := ht.sum
  have hlow := ht.low
  have hhigh := ht.high
  have hloc : m.located pos' =
      ⌊m.ticks pos.frameRate pos.frame + m.ticks pos.frameRate periods.sum⌋ := by
    rw [← ticks_add, ← hr, ← hp]
    rfl
  have h1 := Int.floor_le (m.ticks pos.frameRate pos.frame)
  have h2 := Int.lt_floor_add_one (m.ticks pos.frameRate pos.frame)
  have h3 := Int.floor_le (m.ticks pos.frameRate pos.frame + m.ticks pos.frameRate periods.sum)
  have h4 :=
    Int.lt_floor_add_one (m.ticks pos.frameRate pos.frame + m.ticks pos.frameRate periods.sum)
  rw [← hloc] at h3 h4
  change (m.located pos : ℚ) ≤ _ at h1
  change _ < (m.located pos : ℚ) + 1 at h2
  -- half a tick from rounding and less than one from each truncation, over integers
  have hlt : absoluteTick n (roll (m.setTime first pos true) periods).2 < m.located pos' + 2 := by
    have : (absoluteTick n (roll (m.setTime first pos true) periods).2 : ℚ) <
      m.located pos' + 2 := by
      linarith
    exact_mod_cast this
  have hgt : m.located pos' - 2 < absoluteTick n (roll (m.setTime first pos true) periods).2 := by
    have : (m.located pos' : ℚ) - 2 <
      absoluteTick n (roll (m.setTime first pos true) periods).2 := by
      linarith
    exact_mod_cast this
  rw [abs_le]
  omega

/-- 4/4 at 120 bpm: 24000 frames to a beat at 48 kHz. -/
def fourFour : Master :=
  Master.new 0 120 4 4 barOne.beatsPerMinute_pos barOne.beatsPerBar_pos

/-- What JACK has before any callback. -/
def origin : TimebasePosition where
  bar := 0
  beat := 0
  tick := 0
  ticksPerBeat := 0
  beatsPerBar := 0
  beatsPerMinute := 0
  frameRate := 48000
  valid := false
  frame := 0
  beatType := 0
  barStartTick := 0

theorem roll_agrees_four :
    |absoluteTick 4 (roll (fourFour.setTime 1024 origin true) [1024, 512]).2 -
        absoluteTick 4 (fourFour.setTime 1024 { origin with frame := 1536 } true).2| ≤ 1 ∧
      (roll (fourFour.setTime 1024 origin true) [1024, 512]).2.barStartTick =
        ((roll (fourFour.setTime 1024 origin true) [1024, 512]).2.bar - 1) * (4 : ℕ) *
          ticksPerBeat :=
  roll_agrees fourFour 4 (by norm_num [fourFour, Master.new]) rfl origin
    { origin with frame := 1536 } 1024 1024 [1024, 512] rfl rfl

end Bipscript.Transport
