import Bipscript.TransportMaster
import Mathlib.Data.Prod.Lex

/-! Runs of the timebase master: callbacks and the script's calls in any order. -/
namespace Bipscript.Transport

open Transition Master

/-- What JACK hands the callback: the length of the cycle, and where it starts. -/
structure Cycle where
  nframes : ℕ
  frame : ℕ
  frameRate : ℕ
  frameRate_pos : 0 < frameRate

inductive Op
  | setTime (c : Cycle) (newPos : Bool)
  | setBpm (bpm : ℚ) (h : 0 < bpm)
  | forceBeat (bpm : ℚ) (h : 0 < bpm)
  | setTimeSignature (numerator denominator : ℕ) (hn : 1 ≤ numerator) (hd : 1 ≤ denominator)

/-- The master, and the position as the last callback left it. -/
abbrev Timebase := Master × TimebasePosition

def Cycle.place (c : Cycle) (pos : TimebasePosition) : TimebasePosition :=
  { pos with frame := c.frame, frameRate := c.frameRate }

def exec (s : Timebase) : Op → Timebase
  | .setTime c newPos => s.1.setTime c.nframes (c.place s.2) newPos
  | .setBpm bpm h => (s.1.setBpm bpm h, s.2)
  | .forceBeat bpm h => (s.1.forceBeat bpm h, s.2)
  | .setTimeSignature numerator denominator hn _ =>
    (s.1.setTimeSignature numerator denominator hn, s.2)

/-- A position that JACK's documentation allows: bars and beats from 1, ticks from 0. -/
structure Placed (pos : TimebasePosition) : Prop where
  bar : 1 ≤ pos.bar
  beat : 1 ≤ pos.beat
  beat_le : pos.beat ≤ pos.beatsPerBar
  tick : 0 ≤ pos.tick
  tick_lt : pos.tick < pos.ticksPerBeat

def LeavesPlaced (s : Timebase) : Op → Prop
  | .setTime c newPos => Placed (exec s (.setTime c newPos)).2
  | _ => True

/-- Ticks into the beat that the period ends at, before the carry. -/
def due (s : Timebase) (c : Cycle) : ℚ := s.1.lastTick + s.1.ticks c.frameRate c.nframes

/-- Whole beats from the origin of the transport to the frame of the cycle. -/
def wholeBeats (s : Timebase) (c : Cycle) : ℤ :=
  ⌊s.1.ticks c.frameRate c.frame⌋ / ticksPerBeat

/-- When a callback stays in the time signature. A located frame is not in a fraction of a beat
that ends its bar. A period that reaches no beat was in a beat that the signature still has, and
has not stood still on the half tick before one. -/
def InSignature (s : Timebase) : Op → Prop
  | .setTime c true =>
    if s.1.doForceBeat = true ∧ 960 < ⌊s.1.ticks c.frameRate c.frame⌋ % ticksPerBeat then
      1 ≤ s.1.beatsPerBar
    else Int.fract (wholeBeats s c / s.1.beatsPerBar) * s.1.beatsPerBar < ⌊s.1.beatsPerBar⌋
  | .setTime c false =>
    -1 / 2 < due s c ∧
      if 3839 / 2 ≤ due s c ∨ s.1.doForceBeat = true ∧ 1921 / 2 ≤ due s c then
        1 ≤ s.1.beatsPerBar
      else s.2.beat ≤ s.1.beatsPerBar
  | _ => True

theorem nextBeat_beat (m : Master) (pos : TimebasePosition) (h : 1 ≤ pos.beat) :
    1 ≤ (m.nextBeat pos).beat ∧ ((m.nextBeat pos).beat ≤ m.beatsPerBar ↔ 1 ≤ m.beatsPerBar) := by
  unfold nextBeat
  split
  · exact ⟨le_rfl, by norm_num⟩
  · rename_i hb
    have h' : (1 : ℚ) ≤ (pos.beat + 1 : ℤ) := by exact_mod_cast (by omega : 1 ≤ pos.beat + 1)
    exact ⟨by show 1 ≤ pos.beat + 1; omega, fun hle => h'.trans hle, fun _ => not_lt.mp hb⟩

theorem carryBeat_beat {s : Timebase} (h : 1 ≤ s.2.beat) :
    1 ≤ (carryBeat s).2.beat ∧
      ((carryBeat s).2.beat ≤ s.1.beatsPerBar ↔ 1 ≤ s.1.beatsPerBar) :=
  nextBeat_beat s.1 { s.2 with tick := s.2.tick - ticksPerBeat } h

theorem bar_le_nextBeat (m : Master) (pos : TimebasePosition) :
    pos.bar ≤ (m.nextBeat pos).bar := by
  unfold nextBeat
  split
  · show pos.bar ≤ pos.bar + 1
    omega
  · exact le_rfl

/-- What `carry` leaves alone, and where it can leave the beat. -/
structure Carried (s t : Timebase) : Prop where
  master : t.1 = { s.1 with lastTick := t.1.lastTick }
  header : t.2.header = s.2.header
  bar : s.2.bar ≤ t.2.bar
  beat : 1 ≤ t.2.beat
  tick : 0 ≤ s.2.tick → 0 ≤ t.2.tick

theorem Carried.refl {s : Timebase} (h : 1 ≤ s.2.beat) : Carried s s :=
  ⟨rfl, rfl, le_rfl, h, id⟩

theorem Carried.carryBeat {s t : Timebase} (ht : ticksPerBeat ≤ t.2.tick) (h : Carried s t) :
    Carried s (carryBeat t) := by
  refine ⟨?_, ?_, ?_, ?_, fun _ => ?_⟩
  · show { t.1 with lastTick := t.1.lastTick - ticksPerBeat } = _
    rw [h.master]
    rfl
  · exact (nextBeat_header _ _).trans h.header
  · exact h.bar.trans (bar_le_nextBeat t.1 { t.2 with tick := t.2.tick - ticksPerBeat })
  · exact (carryBeat_beat h.beat).1
  · simp only [Master.carryBeat, nextBeat_tick]
    omega

theorem carried_carry {s : Timebase} (h : 1 ≤ s.2.beat) : Carried s (carry s) :=
  carry_rule (I := Carried s) (fun _ => Carried.carryBeat) s (.refl h)

theorem carry_beat_le {s : Timebase} (h : 1 ≤ s.2.beat) :
    (carry s).2.beat ≤ s.1.beatsPerBar ↔
      if ticksPerBeat ≤ s.2.tick then 1 ≤ s.1.beatsPerBar else s.2.beat ≤ s.1.beatsPerBar := by
  by_cases hc : ticksPerBeat ≤ s.2.tick
  · rw [if_pos hc, carry, if_pos hc]
    constructor
    · intro hle
      have hb := (carried_carry (carryBeat_beat h).1).beat
      exact le_trans (by exact_mod_cast hb) hle
    · intro h1
      -- every turn of the loop leaves a beat that the signature has
      have hI : ∀ t : Timebase, ticksPerBeat ≤ t.2.tick →
          t.1.beatsPerBar = s.1.beatsPerBar ∧ 1 ≤ t.2.beat ∧ t.2.beat ≤ s.1.beatsPerBar →
          (carryBeat t).1.beatsPerBar = s.1.beatsPerBar ∧ 1 ≤ (carryBeat t).2.beat ∧
            (carryBeat t).2.beat ≤ s.1.beatsPerBar := by
        rintro t - ⟨hb, hbeat, -⟩
        obtain ⟨h2, h3⟩ := carryBeat_beat hbeat
        rw [hb] at h3
        exact ⟨hb, h2, h3.mpr h1⟩
      apply (carry_rule hI (carryBeat s) ⟨rfl, ?_⟩).2.2
      obtain ⟨h2, h3⟩ := carryBeat_beat h
      exact ⟨h2, h3.mpr h1⟩
  · rw [if_neg hc, carry, if_neg hc]

theorem carry_tick_nonneg {s : Timebase} (h : 1 ≤ s.2.beat) :
    0 ≤ (carry s).2.tick ↔ 0 ≤ s.2.tick := by
  refine ⟨fun hc => ?_, (carried_carry h).tick⟩
  by_contra hn
  rw [carry, if_neg (by unfold ticksPerBeat; omega)] at hc
  exact hn hc

/-- Whether a forced beat skips to the next one. -/
def Skips (s : Timebase) : Prop := s.1.doForceBeat = true ∧ 960 < s.2.tick

instance (s : Timebase) : Decidable (Skips s) := inferInstanceAs (Decidable (_ ∧ _))

theorem applyForceBeat_of_skips {s : Timebase} (h : Skips s) :
    applyForceBeat s =
      ({ s.1 with lastTick := 0, doForceBeat := false }, { s.1.nextBeat s.2 with tick := 0 }) := by
  unfold applyForceBeat
  rw [if_pos h.1]
  exact if_pos h.2

theorem applyForceBeat_of_not_skips {s : Timebase} (h : ¬ Skips s) :
    applyForceBeat s = ({ s.1 with doForceBeat := false }, s.2) := by
  unfold applyForceBeat
  split
  · rename_i hf
    exact if_neg (fun ht => h ⟨hf, ht⟩)
  · rename_i hf
    rw [Bool.not_eq_true] at hf
    obtain ⟨⟨_, _, _, _, force, _, _⟩, _⟩ := s
    cases hf
    rfl

/-- What is left for the forced beat: a position whose beat may not be in the signature. -/
structure Unforced (s : Timebase) : Prop where
  bar : 1 ≤ s.2.bar
  beat : 1 ≤ s.2.beat
  tick_lt : s.2.tick < ticksPerBeat
  signature : s.2.beatsPerBar = s.1.beatsPerBar
  ticks : s.2.ticksPerBeat = ticksPerBeat

theorem placed_applyForceBeat {s : Timebase} (h : Unforced s) :
    (1 ≤ (applyForceBeat s).2.bar ∧ 1 ≤ (applyForceBeat s).2.beat) ∧
      (Placed (applyForceBeat s).2 ↔
        0 ≤ s.2.tick ∧ if Skips s then 1 ≤ s.1.beatsPerBar else s.2.beat ≤ s.1.beatsPerBar) := by
  have hticks : (0 : ℚ) < s.2.ticksPerBeat := by
    rw [h.ticks]
    norm_num [ticksPerBeat]
  by_cases hs : Skips s
  · obtain ⟨hbeat, hle⟩ := nextBeat_beat s.1 s.2 h.beat
    have hbar := h.bar.trans (bar_le_nextBeat s.1 s.2)
    have hhead := nextBeat_header s.1 s.2
    simp only [TimebasePosition.header, Prod.mk.injEq] at hhead
    obtain ⟨-, -, -, htpb, hbpb, -⟩ := hhead
    have htick : 0 ≤ s.2.tick := by have := hs.2; omega
    rw [applyForceBeat_of_skips hs, if_pos hs]
    refine ⟨⟨hbar, hbeat⟩, fun hp => ⟨htick, ?_⟩, fun hp => ⟨hbar, hbeat, ?_, le_rfl, ?_⟩⟩
    · have := hp.beat_le
      change (_ : ℚ) ≤ (s.1.nextBeat s.2).beatsPerBar at this
      rw [hbpb, h.signature] at this
      exact hle.mp this
    · show (_ : ℚ) ≤ (s.1.nextBeat s.2).beatsPerBar
      rw [hbpb, h.signature]
      exact hle.mpr hp.2
    · show (_ : ℚ) < (s.1.nextBeat s.2).ticksPerBeat
      rw [htpb]
      exact_mod_cast hticks
  · rw [applyForceBeat_of_not_skips hs, if_neg hs]
    refine ⟨⟨h.bar, h.beat⟩, fun hp => ⟨hp.tick, ?_⟩, fun hp => ⟨h.bar, h.beat, ?_, hp.1, ?_⟩⟩
    · rw [← h.signature]
      exact hp.beat_le
    · rw [h.signature]
      exact hp.2
    · show (s.2.tick : ℚ) < s.2.ticksPerBeat
      rw [h.ticks]
      exact_mod_cast h.tick_lt

theorem unforced_advance {s : Timebase} (hbar : 1 ≤ s.2.bar) (hbeat : 1 ≤ s.2.beat) (nframes : ℕ) :
    Unforced (s.1.advance nframes (s.1.stamp s.2)) ∧
      (s.1.advance nframes (s.1.stamp s.2)).1.beatsPerBar = s.1.beatsPerBar ∧
      (s.1.advance nframes (s.1.stamp s.2)).1.doForceBeat = s.1.doForceBeat := by
  have hc : Carried _ (s.1.advance nframes (s.1.stamp s.2)) := carried_carry (by exact hbeat)
  have hhead := hc.header
  simp only [TimebasePosition.header, Prod.mk.injEq] at hhead
  obtain ⟨-, -, -, htpb, hbpb, -⟩ := hhead
  have hm := hc.master
  have hb : (s.1.advance nframes (s.1.stamp s.2)).1.beatsPerBar = s.1.beatsPerBar := by rw [hm]
  refine ⟨⟨hbar.trans hc.bar, hc.beat, carry_lt _, ?_, htpb⟩, hb, by rw [hm]⟩
  rw [hb]
  exact hbpb

theorem placed_advance {s : Timebase} (hbar : 1 ≤ s.2.bar) (hbeat : 1 ≤ s.2.beat) (c : Cycle) :
    Placed (exec s (.setTime c false)).2 ↔ InSignature s (.setTime c false) := by
  obtain ⟨hu, hb, hf⟩ := unforced_advance (s := (s.1, c.place s.2)) hbar hbeat c.nframes
  have hplaced := (placed_applyForceBeat hu).2
  -- the state at the head of the loop
  let start : Timebase := ({ s.1 with lastTick := due s c },
    { s.1.stamp (c.place s.2) with tick := lround (due s c) })
  have hadv : s.1.advance c.nframes (s.1.stamp (c.place s.2)) = carry start := rfl
  have htick := carry_tick_nonneg (s := start) hbeat
  have hle := carry_beat_le (s := start) hbeat
  have hbeatDue : ticksPerBeat ≤ start.2.tick ↔ 3839 / 2 ≤ due s c := by
    rw [show start.2.tick = lround (due s c) from rfl, le_lround_iff (by decide)]
    norm_num [ticksPerBeat]
  have hhalfDue : 960 < start.2.tick ↔ 1921 / 2 ≤ due s c := by
    have := le_lround_iff (n := 961) (by decide) (due s c)
    rw [show start.2.tick = lround (due s c) from rfl, ← Int.add_one_le_iff]
    norm_num at this ⊢
    exact this
  rw [show (0 ≤ start.2.tick) = (0 ≤ lround (due s c)) from rfl, lround_nonneg_iff] at htick
  simp only [hadv] at hplaced hb hf
  rw [htick, hb] at hplaced
  refine hplaced.trans (and_congr_right fun _ => ?_)
  by_cases hc : ticksPerBeat ≤ start.2.tick
  · have hcarried : (carry start).2.beat ≤ s.1.beatsPerBar ↔ 1 ≤ s.1.beatsPerBar := by
      rwa [if_pos hc] at hle
    rw [if_pos (Or.inl (hbeatDue.mp hc))]
    split
    · exact Iff.rfl
    · exact hcarried
  · have hstay : carry start = start := by rw [carry, if_neg hc]
    have hskips : Skips start ↔ s.1.doForceBeat = true ∧ 1921 / 2 ≤ due s c :=
      and_congr_right fun _ => hhalfDue
    have hor :
        (3839 / 2 ≤ due s c ∨ s.1.doForceBeat = true ∧ 1921 / 2 ≤ due s c) ↔ Skips start := by
      rw [hskips, ← hbeatDue]
      exact or_iff_right hc
    rw [hstay]
    simp only [hor]
    exact Iff.rfl

theorem placed_locate (s : Timebase) (c : Cycle) :
    (1 ≤ (exec s (.setTime c true)).2.bar ∧ 1 ≤ (exec s (.setTime c true)).2.beat) ∧
      (Placed (exec s (.setTime c true)).2 ↔ InSignature s (.setTime c true)) := by
  have hb := s.1.beatsPerBar_pos
  let pos := s.1.stamp (c.place s.2)
  have hbar := s.1.locatedBar_nonneg pos
  have hbeat := s.1.locate_beat pos
  have heq := s.1.locate_eq pos
  have hu : Unforced (s.1.locate pos) := by
    refine ⟨?_, hbeat, ?_, rfl, rfl⟩
    · rw [heq]
      show 1 ≤ _ + 1
      omega
    · rw [heq]
      exact Int.emod_lt_of_pos _ (by decide)
  obtain ⟨hstart, hplaced⟩ := placed_applyForceBeat hu
  refine ⟨hstart, hplaced.trans ?_⟩
  have htick : 0 ≤ (s.1.locate pos).2.tick := by
    rw [heq]
    exact Int.emod_nonneg _ (by decide)
  have hskips : Skips (s.1.locate pos) ↔
      s.1.doForceBeat = true ∧ 960 < ⌊s.1.ticks c.frameRate c.frame⌋ % ticksPerBeat := by
    rw [heq]
    exact Iff.rfl
  have hrest : ((s.1.locate pos).2.beat ≤ s.1.beatsPerBar) ↔
      Int.fract (wholeBeats s c / s.1.beatsPerBar) * s.1.beatsPerBar < ⌊s.1.beatsPerBar⌋ := by
    have hfract : Int.fract (wholeBeats s c / s.1.beatsPerBar) * s.1.beatsPerBar =
        wholeBeats s c - s.1.locatedBar pos * s.1.beatsPerBar := by
      rw [Int.fract, sub_mul, div_mul_cancel₀ _ hb.ne']
      rfl
    rw [heq, ← Int.le_floor, Int.add_one_le_iff, Int.floor_lt, hfract]
    exact Iff.rfl
  rw [and_iff_right htick]
  simp only [hskips]
  show (if _ then 1 ≤ s.1.beatsPerBar else _ ≤ s.1.beatsPerBar) ↔ if _ then _ else _
  rw [hrest]

/-- What every run keeps, whatever the script does to the signature. -/
def Underway (s : Timebase) : Prop := 1 ≤ s.2.bar ∧ 1 ≤ s.2.beat

theorem underway_step {s : Timebase} (h : Underway s) (op : Op) : Underway (exec s op) := by
  cases op with
  | setTime c newPos =>
    cases newPos with
    | true => exact (placed_locate s c).1
    | false =>
      exact (placed_applyForceBeat
        (unforced_advance (s := (s.1, c.place s.2)) h.1 h.2 c.nframes).1).1
  | setBpm bpm hb => exact h
  | forceBeat bpm hb => exact h
  | setTimeSignature numerator denominator hn hd => exact h

theorem leavesPlaced_iff {s : Timebase} (h : Underway s) (op : Op) :
    LeavesPlaced s op ↔ InSignature s op := by
  cases op with
  | setTime c newPos =>
    cases newPos with
    | true => exact (placed_locate s c).2
    | false => exact placed_advance h.1 h.2 c
  | setBpm bpm hb => exact Iff.rfl
  | forceBeat bpm hb => exact Iff.rfl
  | setTimeSignature numerator denominator hn hd => exact Iff.rfl

/-- A run from a located frame leaves only positions in range iff its callbacks stay in the time
signature. -/
theorem always_placed_iff (m : Master) (pos : TimebasePosition) (c : Cycle) (ops : List Op) :
    Always exec LeavesPlaced (m, pos) (.setTime c true :: ops) ↔
      Always exec InSignature (m, pos) (.setTime c true :: ops) := by
  obtain ⟨hstart, hiff⟩ := placed_locate (m, pos) c
  refine and_congr hiff ?_
  exact always_congr (I := Underway) (R := fun _ _ => True)
    (fun s op hs _ => leavesPlaced_iff hs op)
    (fun s op hs _ _ => underway_step hs op) hstart (always_of_forall fun _ _ => trivial)

/-- From the fourth beat of 4/4 to 3/4: the next period is on a beat that 3/4 does not have. -/
theorem not_always_placed :
    ¬ Always exec LeavesPlaced (fourFour, origin)
      [.setTime ⟨256, 72000, 48000, by decide⟩ true, .setTimeSignature 3 4 (by decide) (by decide),
        .setTime ⟨256, 72256, 48000, by decide⟩ false] := by
  rintro ⟨-, -, hplaced, -⟩
  have hunder := underway_step (placed_locate (fourFour, origin) ⟨256, 72000, 48000, by decide⟩).1
    (.setTimeSignature 3 4 (by decide) (by decide))
  have hin := ((placed_advance hunder.1 hunder.2 ⟨256, 72256, 48000, by decide⟩).mp hplaced).2
  revert hin
  decide +kernel

/-- Bar, beat and tick, in the order of the music. -/
def TimebasePosition.triple (pos : TimebasePosition) : ℤ ×ₗ ℤ ×ₗ ℤ :=
  toLex (pos.bar, toLex (pos.beat, pos.tick))

/-- No callback is told of a jump, and every period has frames. -/
def Onward : Op → Prop
  | .setTime c newPos => newPos = false ∧ 0 < c.nframes
  | _ => True

theorem triple_lt_nextBeat (m : Master) (pos : TimebasePosition) (tick tick' : ℤ) :
    { pos with tick := tick }.triple < { m.nextBeat pos with tick := tick' }.triple := by
  unfold TimebasePosition.triple nextBeat
  split
  · exact Prod.Lex.toLex_lt_toLex.mpr (Or.inl (Int.lt_add_one_iff.mpr le_rfl))
  · refine Prod.Lex.toLex_lt_toLex.mpr (Or.inr ⟨rfl, ?_⟩)
    exact Prod.Lex.toLex_lt_toLex.mpr (Or.inl (Int.lt_add_one_iff.mpr le_rfl))

theorem triple_le_of_tick {p q : TimebasePosition} (hbar : p.bar = q.bar) (hbeat : p.beat = q.beat)
    (htick : p.tick ≤ q.tick) : p.triple ≤ q.triple := by
  apply Prod.Lex.toLex_le_toLex.mpr
  refine Or.inr ⟨hbar, ?_⟩
  apply Prod.Lex.toLex_le_toLex.mpr
  exact Or.inr ⟨hbeat, htick⟩

/-- The tick shown is not past the unrounded one by more than rounding. -/
structure Shown (s : Timebase) : Prop where
  tick : 0 ≤ s.2.tick
  near : (s.2.tick : ℚ) ≤ s.1.lastTick + 1 / 2

theorem le_lround {t : ℤ} {q : ℚ} (ht : 0 ≤ t) (h : (t : ℚ) - 1 / 2 < q) : t ≤ lround q := by
  by_cases h0 : t = 0
  · subst h0
    apply (lround_nonneg_iff q).mpr
    norm_num at h ⊢
    linarith
  · exact (le_lround_iff (by omega) q).mpr h.le

theorem forward_carry {s : Timebase} (hs : Shown s) :
    Shown (carry s) ∧ s.2.triple ≤ (carry s).2.triple := by
  apply carry_rule (I := fun t => Shown t ∧ s.2.triple ≤ t.2.triple) _ s ⟨hs, le_rfl⟩
  rintro t ht ⟨hshown, hle⟩
  refine ⟨⟨?_, ?_⟩, hle.trans ?_⟩
  · simp only [carryBeat, nextBeat_tick]
    omega
  · have hnear := hshown.near
    simp only [carryBeat, nextBeat_tick]
    push_cast
    linarith
  · have hlt := triple_lt_nextBeat t.1 { t.2 with tick := t.2.tick - ticksPerBeat } t.2.tick
      (t.2.tick - ticksPerBeat)
    have hsame : { t.1.nextBeat { t.2 with tick := t.2.tick - ticksPerBeat } with
        tick := t.2.tick - ticksPerBeat } = (carryBeat t).2 := by
      unfold carryBeat nextBeat
      split <;> rfl
    rw [hsame] at hlt
    exact hlt.le

theorem forward_applyForceBeat {s : Timebase} (hs : Shown s) :
    Shown (applyForceBeat s) ∧ s.2.triple ≤ (applyForceBeat s).2.triple := by
  by_cases hskips : Skips s
  · rw [applyForceBeat_of_skips hskips]
    exact ⟨⟨le_rfl, by norm_num⟩, (triple_lt_nextBeat s.1 s.2 s.2.tick 0).le⟩
  · rw [applyForceBeat_of_not_skips hskips]
    exact ⟨⟨hs.tick, hs.near⟩, le_rfl⟩

theorem forward_advance {s : Timebase} (hs : Shown s) (c : Cycle) (hn : 0 < c.nframes) :
    Shown (exec s (.setTime c false)) ∧ s.2.triple ≤ (exec s (.setTime c false)).2.triple := by
  let start : Timebase := ({ s.1 with lastTick := due s c },
    { s.1.stamp (c.place s.2) with tick := lround (due s c) })
  have hticks := s.1.ticks_pos c.frameRate_pos hn
  have hnear := hs.near
  have htick : s.2.tick ≤ lround (due s c) := by
    apply le_lround hs.tick
    unfold due
    linarith
  have hstart : Shown start := ⟨hs.tick.trans htick, (lround_near (due s c)).2⟩
  have hle : s.2.triple ≤ start.2.triple := triple_le_of_tick rfl rfl htick
  obtain ⟨hshown, hcarry⟩ := forward_carry hstart
  obtain ⟨hforced, hforce⟩ := forward_applyForceBeat hshown
  exact ⟨hforced, hle.trans (hcarry.trans hforce)⟩

theorem shown_locate (s : Timebase) (c : Cycle) : Shown (exec s (.setTime c true)) := by
  have heq := s.1.locate_eq (s.1.stamp (c.place s.2))
  refine (forward_applyForceBeat ?_).1
  show Shown (s.1.locate _)
  rw [heq]
  exact ⟨Int.emod_nonneg _ (by decide), by simp⟩

theorem forward_step {s : Timebase} (hs : Shown s) {op : Op} (h : Onward op) :
    Shown (exec s op) ∧ s.2.triple ≤ (exec s op).2.triple := by
  cases op with
  | setTime c newPos =>
    obtain ⟨rfl, hn⟩ := h
    exact forward_advance hs c hn
  | setBpm bpm hb => exact ⟨⟨hs.tick, hs.near⟩, le_rfl⟩
  | forceBeat bpm hb => exact ⟨⟨hs.tick, hs.near⟩, le_rfl⟩
  | setTimeSignature numerator denominator hn hd => exact ⟨⟨hs.tick, hs.near⟩, le_rfl⟩

/-- Time never runs backwards from a located frame, whatever the tempo, the forced beats and the
time signature. -/
theorem always_forward (m : Master) (pos : TimebasePosition) (c : Cycle) (ops : List Op)
    (h : ∀ op ∈ ops, Onward op) :
    0 ≤ (exec (m, pos) (.setTime c true)).2.tick ∧
      Always exec (fun s op => s.2.triple ≤ (exec s op).2.triple ∧ 0 ≤ (exec s op).2.tick)
        (exec (m, pos) (.setTime c true)) ops := by
  have hs := shown_locate (m, pos) c
  refine ⟨hs.tick, ?_⟩
  apply always_of_invariant (I := Shown) (R := fun _ op => Onward op) _ _ hs (always_of_forall h)
  · intro s op hs ho
    obtain ⟨hshown, hle⟩ := forward_step hs ho
    exact ⟨hle, hshown.tick⟩
  · intro s op hs ho
    exact (forward_step hs ho).1

/-- A new tempo and a forced beat between two periods. -/
theorem always_forward_forced :
    0 ≤ (exec (fourFour, origin) (.setTime ⟨256, 72000, 48000, by decide⟩ true)).2.tick ∧
      Always exec (fun s op => s.2.triple ≤ (exec s op).2.triple ∧ 0 ≤ (exec s op).2.tick)
        (exec (fourFour, origin) (.setTime ⟨256, 72000, 48000, by decide⟩ true))
        [.setBpm 90 (by decide), .setTime ⟨256, 72256, 48000, by decide⟩ false,
          .forceBeat 100 (by decide), .setTime ⟨256, 72512, 48000, by decide⟩ false] := by
  apply always_forward
  intro op ho
  simp only [List.mem_cons, List.not_mem_nil, or_false] at ho
  rcases ho with rfl | rfl | rfl | rfl
  · trivial
  · exact ⟨rfl, by decide⟩
  · trivial
  · exact ⟨rfl, by decide⟩

end Bipscript.Transport
