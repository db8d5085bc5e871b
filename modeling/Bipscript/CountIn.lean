import Bipscript.MidiEvent
import Bipscript.Library.Rounding
import Bipscript.Library.Run

/-! The count-in of a MIDI beat tracker: four notes a beat apart set the tempo and start the
transport. -/
namespace Bipscript.Midi

open Transition

/-- The difference of two `unsigned int`s. -/
def sub32 (a b : ℕ) : ℕ := (a + (2 ^ 32 - b % 2 ^ 32)) % 2 ^ 32

/-- `matches(TYPE_NOTE_ON, note, 72, 127)`, where the velocities are commented out. -/
def matchesNote (e : Event) (note : UInt8) : Bool :=
  e.data.type == TYPE_NOTE_ON && e.data.databyte1 == note

/-- What the count-in reads of a `jack_position_t`. -/
structure Clock where
  frameRate : ℕ
  beatsPerMinute : ℚ
  frameRate_pos : 0 < frameRate
  beatsPerMinute_pos : 0 < beatsPerMinute

/-- `60 * pos.frame_rate / pos.beats_per_minute`, a product in 32 bits and a quotient in double
precision, cut to whole frames. What does not fit is taken modulo `2 ^ 32`, where the language
leaves the conversion undefined. -/
def Clock.idealBeatPeriod (pos : Clock) : ℕ :=
  ⌊Rounding.double (mul32 60 pos.frameRate / pos.beatsPerMinute)⌋₊ % 2 ^ 32

/-- What the count-in calls, and what it prints when it gives up. -/
inductive Call
  | dispatchCountInEvent (count : ℕ)
  | setTempo (bpm : ℚ)
  | setBpm (bpm : ℚ)
  | transportStart
  | abandoning
deriving DecidableEq

/-- The fields of a `midi::BeatTracker` that are for the count-in. -/
structure CountIn where
  countInNote : UInt8
  countInCount : ℕ
  lastCountTime : Fin 4 → ℕ
  countStartTime : ℕ

/-- `time + nextEvent->getFrameOffset()`, as it is stored. -/
def frameTime (time : ℕ) (e : Event) : ℕ := ((time + e.frameOffset) % 2 ^ 32).toNat

/-- `beatDelta`, for a period of the beat that is not zero, is in the window. -/
def InWindow (idealBeatPeriod last t : ℕ) : Prop :=
  60 ≤ mul32 100 (sub32 t last) / idealBeatPeriod ∧
    mul32 100 (sub32 t last) / idealBeatPeriod ≤ 140

instance (idealBeatPeriod last t : ℕ) : Decidable (InWindow idealBeatPeriod last t) :=
  inferInstanceAs (Decidable (_ ∧ _))

namespace CountIn

/-- The constructor, which leaves the times as it finds them. -/
def new (lastCountTime : Fin 4 → ℕ) (countStartTime : ℕ) : CountIn :=
  ⟨0, 0, lastCountTime, countStartTime⟩

/-- `lastCountTime[i]`; none is an index out of bounds. -/
def getCountTime (s : CountIn) (i : ℕ) : Option ℕ :=
  if h : i < 4 then some (s.lastCountTime ⟨i, h⟩) else none

/-- `lastCountTime[i] = t` -/
def setCountTime (s : CountIn) (i t : ℕ) : Option CountIn :=
  if h : i < 4 then some { s with lastCountTime := Function.update s.lastCountTime ⟨i, h⟩ t }
  else none

/-- The beat period averaged over the four notes. -/
def avgBeatPeriod (s : CountIn) : ℕ :=
  ((sub32 (s.lastCountTime 1) (s.lastCountTime 0) + sub32 (s.lastCountTime 2) (s.lastCountTime 1) +
    sub32 (s.lastCountTime 3) (s.lastCountTime 2)) % 2 ^ 32) / 3

/-- The branch for the last of the four. -/
def schedule (pos : Clock) (t : ℕ) (s : CountIn) : CountIn × List Call :=
  let avgBpm := Rounding.double (pos.frameRate * 60 / s.avgBeatPeriod)
  ({ s with countStartTime := (t + s.avgBeatPeriod) % 2 ^ 32 }, [.setTempo avgBpm, .setBpm avgBpm])

/-- What a count makes of the tracker. -/
def count (pos : Clock) (t : ℕ) (s : CountIn) : CountIn × List Call :=
  let s := { s with countInCount := s.countInCount + 1 }
  if s.countInCount = 4 then
    let r := s.schedule pos t
    (r.1, .dispatchCountInEvent 4 :: r.2)
  else (s, [.dispatchCountInEvent s.countInCount])

/-- None is a division by zero or an index out of bounds. -/
def countInEvent (pos : Clock) (time : ℕ) (nextEvent : Event) (s : CountIn) :
    Option (CountIn × List Call) :=
  let t := frameTime time nextEvent
  if s.countInCount ≠ 0 then do
    let last ← s.getCountTime (s.countInCount - 1)
    if pos.idealBeatPeriod = 0 then none
    else if InWindow pos.idealBeatPeriod last t then do
      let s ← s.setCountTime s.countInCount t
      some (s.count pos t)
    else some (s, [])
  else do
    let s ← s.setCountTime 0 t
    some ({ s with countInCount := 1 }, [.dispatchCountInEvent 1])

/-- The loop over the events of the connection. -/
def countInEvents (pos : Clock) (time : ℕ) (note : UInt8) :
    List Event → CountIn → Option (CountIn × List Call)
  | [], s => some (s, [])
  | nextEvent :: events, s =>
    if matchesNote nextEvent note then do
      let (s, calls) ← s.countInEvent pos time nextEvent
      let (s, calls') ← countInEvents pos time note events s
      some (s, calls ++ calls')
    else countInEvents pos time note events s

/-- The start is due. -/
def Starts (s : CountIn) (nframes time : ℕ) : Prop :=
  s.countInCount = 4 ∧ s.countStartTime ≤ (time + nframes) % 2 ^ 32

instance (s : CountIn) (nframes time : ℕ) : Decidable (s.Starts nframes time) :=
  inferInstanceAs (Decidable (_ ∧ _))

/-- The branch for an active count-in. -/
def watch (pos : Clock) (time : ℕ) (events : List Event) (s : CountIn) :
    Option (CountIn × List Call) :=
  if s.countInNote ≠ 0 ∧ s.countInCount < 4 then
    s.countInEvents pos time s.countInNote events
  else some (s, [])

def detectCountIn (pos : Clock) (nframes time : ℕ) (events : List Event) (s : CountIn) :
    Option (CountIn × List Call) :=
  if s.Starts nframes time then
    some ({ s with countInCount := 0, countInNote := 0 }, [.transportStart])
  else if s.countInCount ≠ 0 then do
    let last ← s.getCountTime (s.countInCount - 1)
    if pos.frameRate < sub32 time last then
      some ({ s with countInCount := 0 }, [.abandoning])
    else s.watch pos time events
  else s.watch pos time events

/-- What happens to a tracker: `countIn` of a script, and `detectCountIn` of a period that does not
roll. -/
inductive Op
  | countIn (note : UInt8)
  | detectCountIn (pos : Clock) (nframes time : ℕ) (events : List Event)

/-- A call that the language leaves undefined leaves the tracker as it was. -/
def exec (s : CountIn) : Op → CountIn
  | .countIn note => { s with countInNote := note }
  | .detectCountIn pos nframes time events =>
    ((s.detectCountIn pos nframes time events).map Prod.fst).getD s

/-- Nothing is divided by zero, no index is out of bounds and the count is at most four. -/
def Safe (s : CountIn) : Op → Prop
  | .countIn _ => True
  | .detectCountIn pos nframes time events =>
    ∃ r, s.detectCountIn pos nframes time events = some r ∧ r.1.countInCount ≤ 4

/-- The notes of a period on the count-in note. -/
def noteTimes (time : ℕ) (note : UInt8) (events : List Event) : List ℕ :=
  (events.filter (matchesNote · note)).map (frameTime time)

/-- Of these times those that are in the window after the one before, the first after `last`. -/
def inTime (idealBeatPeriod : ℕ) : ℕ → List ℕ → List ℕ
  | _, [] => []
  | last, t :: times =>
    if InWindow idealBeatPeriod last t then t :: inTime idealBeatPeriod t times
    else inTime idealBeatPeriod last times

/-- The time of the last note counted, or of the first of the period, and the times after it. -/
def measured (s : CountIn) (times : List ℕ) : Option (ℕ × List ℕ) :=
  if s.countInCount = 0 then
    match times with
    | [] => none
    | t :: times => some (t, times)
  else (s.getCountTime (s.countInCount - 1)).map fun last => (last, times)

/-- An active count-in is not abandoned and not complete. -/
def Watches (s : CountIn) (pos : Clock) (time : ℕ) : Prop :=
  s.countInNote ≠ 0 ∧ s.countInCount < 4 ∧
    ∀ last, s.countInCount ≠ 0 → s.getCountTime (s.countInCount - 1) = some last →
      sub32 time last ≤ pos.frameRate

/-- While the count-in is active, notes are measured only against a beat of at least a frame, and no
more of them come in time in one period than the four that are still missing. -/
def Calm (s : CountIn) : Op → Prop
  | .countIn _ => True
  | .detectCountIn pos _ time events =>
    s.Watches pos time → ∀ last times,
      s.measured (noteTimes time s.countInNote events) = some (last, times) →
        (times ≠ [] → pos.idealBeatPeriod ≠ 0) ∧
          max 1 s.countInCount + (inTime pos.idealBeatPeriod last times).length ≤ 4

variable {s : CountIn} {pos : Clock} {time nframes last t : ℕ} {note : UInt8} {e : Event}
  {events : List Event}

theorem getCountTime_of_lt {i : ℕ} (h : i < 4) :
    s.getCountTime i = some (s.lastCountTime ⟨i, h⟩) := dif_pos h

/-- A write within bounds, and what is read back. -/
theorem setCountTime_of_lt {i : ℕ} (h : i < 4) (t : ℕ) :
    ∃ s', s.setCountTime i t = some s' ∧ s'.countInCount = s.countInCount ∧
      s'.countInNote = s.countInNote ∧ s'.getCountTime i = some t := by
  refine ⟨_, dif_pos h, rfl, rfl, (getCountTime_of_lt h).trans ?_⟩
  exact congrArg some (Function.update_self (⟨i, h⟩ : Fin 4) t s.lastCountTime)

theorem count_spec (pos : Clock) (t : ℕ) (s : CountIn) :
    (s.count pos t).1.countInCount = s.countInCount + 1 ∧
      (s.count pos t).1.lastCountTime = s.lastCountTime ∧
      (s.count pos t).1.countInNote = s.countInNote := by
  unfold count
  dsimp only
  split
  · exact ⟨rfl, rfl, rfl⟩
  · exact ⟨rfl, rfl, rfl⟩

theorem countInEvent_first (hc : s.countInCount = 0) :
    ∃ r, s.countInEvent pos time e = some r ∧ r.1.countInCount = 1 ∧
      r.1.getCountTime 0 = some (frameTime time e) := by
  obtain ⟨s', hs', -, -, hget⟩ :=
    setCountTime_of_lt (s := s) (i := 0) (by decide) (frameTime time e)
  refine ⟨({ s' with countInCount := 1 }, [.dispatchCountInEvent 1]), ?_, rfl, hget⟩
  unfold countInEvent
  rw [if_neg (not_not.mpr hc), hs']
  rfl

section Measured

variable (hc : s.countInCount ≠ 0) (hlast : s.getCountTime (s.countInCount - 1) = some last)

include hc hlast

theorem countInEvent_zero (hzero : pos.idealBeatPeriod = 0) :
    s.countInEvent pos time e = none := by
  unfold countInEvent
  rw [if_pos hc, hlast]
  exact if_pos hzero

theorem countInEvent_of_not_inWindow (hideal : pos.idealBeatPeriod ≠ 0)
    (hwindow : ¬ InWindow pos.idealBeatPeriod last (frameTime time e)) :
    s.countInEvent pos time e = some (s, []) := by
  unfold countInEvent
  rw [if_pos hc, hlast]
  exact (if_neg hideal).trans (if_neg hwindow)

theorem countInEvent_of_inWindow (hideal : pos.idealBeatPeriod ≠ 0)
    (hwindow : InWindow pos.idealBeatPeriod last (frameTime time e)) :
    s.countInEvent pos time e =
      (s.setCountTime s.countInCount (frameTime time e)).map (count pos (frameTime time e)) := by
  unfold countInEvent
  rw [if_pos hc, hlast]
  refine (if_neg hideal).trans ((if_pos hwindow).trans ?_)
  cases s.setCountTime s.countInCount (frameTime time e) with
  | none => rfl
  | some s' => rfl

/-- A note in time is counted while there is a place for its time, and is out of bounds after. -/
theorem countInEvent_counts (hideal : pos.idealBeatPeriod ≠ 0)
    (hwindow : InWindow pos.idealBeatPeriod last (frameTime time e)) :
    if s.countInCount < 4 then
      ∃ r, s.countInEvent pos time e = some r ∧ r.1.countInCount = s.countInCount + 1 ∧
        r.1.getCountTime s.countInCount = some (frameTime time e)
    else s.countInEvent pos time e = none := by
  rw [countInEvent_of_inWindow hc hlast hideal hwindow]
  split
  · rename_i hlt
    obtain ⟨s', hs', hcount, -, hget⟩ := setCountTime_of_lt (s := s) hlt (frameTime time e)
    obtain ⟨hcount', htimes, -⟩ := count_spec pos (frameTime time e) s'
    refine ⟨_, by rw [hs']; rfl, hcount'.trans (congrArg (· + 1) hcount), ?_⟩
    unfold getCountTime at hget ⊢
    rw [htimes]
    exact hget
  · rename_i hlt
    rw [setCountTime, dif_neg hlt]
    rfl

end Measured

theorem countInEvents_cons (hm : matchesNote e note = true) {r : CountIn × List Call}
    (hr : s.countInEvent pos time e = some r) :
    s.countInEvents pos time note (e :: events) =
      (r.1.countInEvents pos time note events).map fun r' => (r'.1, r.2 ++ r'.2) := by
  rw [countInEvents, if_pos hm, hr]
  show (r.1.countInEvents pos time note events).bind _ = _
  cases r.1.countInEvents pos time note events with
  | none => rfl
  | some r' => rfl

theorem countInEvents_cons_none (hm : matchesNote e note = true)
    (hr : s.countInEvent pos time e = none) :
    s.countInEvents pos time note (e :: events) = none := by
  rw [countInEvents, if_pos hm, hr]
  rfl

theorem noteTimes_cons (hm : matchesNote e note = true) :
    noteTimes time note (e :: events) = frameTime time e :: noteTimes time note events := by
  unfold noteTimes
  rw [List.filter_cons, if_pos hm, List.map_cons]

theorem noteTimes_cons_of_not (hm : ¬ matchesNote e note = true) :
    noteTimes time note (e :: events) = noteTimes time note events := by
  unfold noteTimes
  rw [List.filter_cons, if_neg hm]

/-- The loop ends, with a count of at most four. -/
def Ends (o : Option (CountIn × List Call)) : Prop := ∃ r, o = some r ∧ r.1.countInCount ≤ 4

theorem ends_map {o : Option (CountIn × List Call)} (calls : List Call) :
    Ends (o.map fun r => (r.1, calls ++ r.2)) ↔ Ends o := by
  unfold Ends
  constructor
  · rintro ⟨r, hr, hle⟩
    obtain ⟨r', rfl, rfl⟩ := Option.map_eq_some_iff.mp hr
    exact ⟨r', rfl, hle⟩
  · rintro ⟨r, rfl, hle⟩
    exact ⟨_, rfl, hle⟩

/-- From a count of at least one on, by induction on the events. -/
theorem countInEvents_ends_iff (hc : s.countInCount ≠ 0) (hle : s.countInCount ≤ 4)
    (hlast : s.getCountTime (s.countInCount - 1) = some last) :
    Ends (s.countInEvents pos time note events) ↔
      (noteTimes time note events ≠ [] → pos.idealBeatPeriod ≠ 0) ∧
        s.countInCount + (inTime pos.idealBeatPeriod last (noteTimes time note events)).length
          ≤ 4 := by
  induction events generalizing s last with
  | nil => exact iff_of_true ⟨_, rfl, hle⟩ ⟨fun h => absurd rfl h, hle⟩
  | cons e events ih =>
    by_cases hm : matchesNote e note = true
    · rw [noteTimes_cons hm]
      by_cases hideal : pos.idealBeatPeriod = 0
      · rw [countInEvents_cons_none hm (countInEvent_zero hc hlast hideal)]
        exact iff_of_false nofun fun h => h.1 (List.cons_ne_nil _ _) hideal
      · have hsome : ∀ times : List ℕ, times ≠ [] → pos.idealBeatPeriod ≠ 0 := fun _ _ => hideal
        unfold inTime
        by_cases hwindow : InWindow pos.idealBeatPeriod last (frameTime time e)
        · rw [if_pos hwindow, List.length_cons]
          have hcounts := countInEvent_counts hc hlast hideal hwindow
          split at hcounts
          · obtain ⟨r, hr, hcount, hget⟩ := hcounts
            have hiff := @ih r.1 (frameTime time e) (by omega) (by omega)
              (by rw [hcount]; exact hget)
            rw [countInEvents_cons hm hr, ends_map, hiff, hcount, iff_true_intro (hsome _),
              iff_true_intro (hsome _), true_and, true_and, Nat.add_assoc, Nat.add_comm 1]
          · rw [countInEvents_cons_none hm hcounts]
            refine iff_of_false nofun fun h => ?_
            have hlt := h.2
            omega
        · rw [if_neg hwindow,
            countInEvents_cons hm (countInEvent_of_not_inWindow hc hlast hideal hwindow), ends_map,
            ih hc hle hlast, iff_true_intro (hsome _), iff_true_intro (hsome _)]
    · rw [noteTimes_cons_of_not hm, countInEvents, if_neg hm]
      exact ih hc hle hlast

/-- From no count: the first note is not measured. -/
theorem countInEvents_first_iff (hc : s.countInCount = 0) :
    Ends (s.countInEvents pos time note events) ↔
      ∀ t times, noteTimes time note events = t :: times →
        (times ≠ [] → pos.idealBeatPeriod ≠ 0) ∧
          1 + (inTime pos.idealBeatPeriod t times).length ≤ 4 := by
  induction events with
  | nil => exact iff_of_true ⟨_, rfl, hc ▸ Nat.zero_le 4⟩ nofun
  | cons e events ih =>
    by_cases hm : matchesNote e note = true
    · obtain ⟨r, hr, hcount, hget⟩ := @countInEvent_first s pos time e hc
      rw [countInEvents_cons hm hr, ends_map, noteTimes_cons hm,
        countInEvents_ends_iff (s := r.1) (by omega) (by omega) (by rw [hcount]; exact hget),
          hcount]
      constructor
      · rintro h t times ⟨⟩
        exact h
      · exact fun h => h _ _ rfl
    · rw [noteTimes_cons_of_not hm, countInEvents, if_neg hm]
      exact ih

theorem watch_ends_iff (hle : s.countInCount ≤ 4) :
    Ends (s.watch pos time events) ↔
      (s.countInNote ≠ 0 ∧ s.countInCount < 4 → ∀ last times,
        s.measured (noteTimes time s.countInNote events) = some (last, times) →
          (times ≠ [] → pos.idealBeatPeriod ≠ 0) ∧
            max 1 s.countInCount + (inTime pos.idealBeatPeriod last times).length ≤ 4) := by
  unfold watch
  by_cases hw : s.countInNote ≠ 0 ∧ s.countInCount < 4
  · rw [if_pos hw]
    unfold measured
    by_cases hc : s.countInCount = 0
    · rw [countInEvents_first_iff hc, if_pos hc, hc, Nat.max_eq_left (Nat.zero_le 1)]
      generalize noteTimes time s.countInNote events = times
      cases times with
      | nil => exact iff_of_true nofun fun _ _ _ h => nomatch h
      | cons t times =>
        constructor
        · rintro h - last rest ⟨⟩
          exact h _ _ rfl
        · rintro h last rest ⟨⟩
          exact h ⟨hw.1, by omega⟩ _ _ rfl
    · have hlt : s.countInCount - 1 < 4 := by omega
      have hlast := getCountTime_of_lt (s := s) hlt
      rw [countInEvents_ends_iff hc hle hlast, if_neg hc, hlast,
        Nat.max_eq_right (Nat.one_le_iff_ne_zero.mpr hc)]
      constructor
      · rintro h - last rest ⟨⟩
        exact h
      · exact fun h => h hw _ _ rfl
  · rw [if_neg hw]
    exact iff_of_true ⟨_, rfl, hle⟩ fun h => absurd h hw

theorem watch_calm_iff (hle : s.countInCount ≤ 4) (hw : ∀ last, s.countInCount ≠ 0 →
    s.getCountTime (s.countInCount - 1) = some last → sub32 time last ≤ pos.frameRate) :
    Ends (s.watch pos time events) ↔ s.Calm (.detectCountIn pos nframes time events) := by
  constructor
  · exact fun h hwatches => (watch_ends_iff hle).mp h ⟨hwatches.1, hwatches.2.1⟩
  · exact fun h => (watch_ends_iff hle).mpr fun hn => h ⟨hn.1, hn.2, hw⟩

/-- One step, from a count of at most four. -/
theorem safe_iff (hle : s.countInCount ≤ 4) (op : Op) : s.Safe op ↔ s.Calm op := by
  cases op with
  | countIn note => exact Iff.rfl
  | detectCountIn pos nframes time events =>
    show Ends (s.detectCountIn pos nframes time events) ↔ _
    unfold detectCountIn
    by_cases hstarts : s.Starts nframes time
    · rw [if_pos hstarts]
      refine iff_of_true ⟨_, rfl, Nat.zero_le 4⟩ fun h => ?_
      have hfour := hstarts.1
      have hlt := h.2.1
      omega
    · rw [if_neg hstarts]
      by_cases hc : s.countInCount ≠ 0
      · have hlt : s.countInCount - 1 < 4 := by omega
        have hlast := getCountTime_of_lt (s := s) hlt
        rw [if_pos hc, hlast]
        by_cases hlate : pos.frameRate < sub32 time (s.lastCountTime ⟨s.countInCount - 1, hlt⟩)
        · refine iff_of_true ⟨_, if_pos hlate, Nat.zero_le 4⟩ fun h => ?_
          exact absurd (h.2.2 _ hc hlast) (Nat.not_le.mpr hlate)
        · rw [← watch_calm_iff hle fun last _ he =>
            Option.some.inj (hlast.symm.trans he) ▸ Nat.not_lt.mp hlate]
          exact Iff.of_eq (congrArg Ends (if_neg hlate))
      · rw [if_neg hc]
        exact watch_calm_iff hle fun last h => absurd h hc

theorem exec_le (hs : s.countInCount ≤ 4) {op : Op} (h : s.Safe op) :
    (s.exec op).countInCount ≤ 4 := by
  cases op with
  | countIn note => exact hs
  | detectCountIn pos nframes time events =>
    obtain ⟨r, hr, hle⟩ := h
    show ((s.detectCountIn pos nframes time events).map Prod.fst |>.getD s).countInCount ≤ 4
    rw [hr]
    exact hle

/-- Along every sequence of periods, nothing is divided by zero, no index is out of bounds and the
count is at most four exactly when the notes of each period are calm. -/
theorem always_calm_iff (lastCountTime : Fin 4 → ℕ) (countStartTime : ℕ) (ops : List Op) :
    Always exec Safe (new lastCountTime countStartTime) ops ↔
      Always exec Calm (new lastCountTime countStartTime) ops :=
  always_congr (I := fun s => s.countInCount ≤ 4) (R := fun _ _ => True)
    (fun _ op hs _ => safe_iff hs op) (fun _ _ hs _ h => exec_le hs h) (Nat.zero_le 4)
    (always_of_forall fun _ _ => trivial)

/-- A note-on of key 60, so many frames into the period. -/
def noteOn (offset : ℕ) : Event := ⟨⟨⟨1, 0, 1⟩, by decide⟩, offset, ⟨0x90, 60, 100, 0⟩⟩

/-- At 115.2 a minute the beat is 25000 frames: the exact quotient is below that, and its double is
not. -/
example : (Clock.mk 48000 (8106479329266893 / 70368744177664) (by decide)
    (by norm_num)).idealBeatPeriod = 25000 := by decide +kernel

/-- 480 frames to a beat. -/
def presto : Clock := ⟨48000, 6000, by decide, by norm_num⟩

/-- More beats to the second than frames. -/
def prestissimo : Clock := ⟨48000, 2880001, by decide, by norm_num⟩

theorem Safe.isSome (h : s.Safe (.detectCountIn pos nframes time events)) :
    (s.detectCountIn pos nframes time events).isSome = true := by
  obtain ⟨r, hr, -⟩ := h
  exact Option.isSome_iff_exists.mpr ⟨r, hr⟩

/-- Five beats in one period: the fifth is stored past the end of `lastCountTime`. And two notes at
a tempo of which a beat is shorter than a frame: the second divides by zero. -/
theorem fifth_note_not_safe :
    ¬ Always exec Safe (new (fun _ => 0) 0)
        [.countIn 60, .detectCountIn presto 2048 0 ([0, 480, 960, 1440, 1920].map noteOn)] ∧
      ¬ Always exec Safe (new (fun _ => 0) 0)
        [.countIn 60, .detectCountIn prestissimo 256 0 ([0, 100].map noteOn)] := by
  constructor
  · rintro ⟨-, h, -⟩
    exact absurd h.isSome (by decide +kernel)
  · rintro ⟨-, h, -⟩
    exact absurd h.isSome (by decide +kernel)

end CountIn

end Bipscript.Midi
