import Bipscript.MidiSink

/-! The bytes that scheduled notes, patterns and messages are packed into. -/
namespace Bipscript.Midi

/-- The status byte of a channel message, and data bytes. -/
def WellFormed (bytes : List UInt8) : Prop :=
  ∃ status data, bytes = status :: data ∧ 0x80 ≤ status ∧ status ≤ 0xEF ∧
    ∀ byte ∈ data, byte ≤ 0x7F

namespace Message

/-- A message whose class has a field for each byte. -/
def ofBytes (type first second : UInt8) : Message where
  type := type
  byte index := if index.val = 0 then first else second

def Control (controller value : ℤ) : Message :=
  ofBytes 0xB0 (UInt8.ofInt controller) (UInt8.ofInt value)

def NoteOn (pitch velocity : ℤ) : Message :=
  ofBytes 0x90 (UInt8.ofInt pitch) (UInt8.ofInt velocity)

/-- The default velocity is 0. -/
def NoteOff (pitch velocity : ℤ) : Message :=
  ofBytes 0x80 (UInt8.ofInt pitch) (UInt8.ofInt velocity)

/-- A single field, of 32 bits. -/
def PitchBend (value : ℤ) : Message :=
  let value := UInt32.ofInt value
  ofBytes 0xE0 (value &&& 0x7F).toUInt8 (value >>> 7).toUInt8

def ProgramChange (program : ℤ) : Message :=
  ofBytes 0xC0 (UInt8.ofInt program) (UInt8.ofInt program)

end Message

/-- What the overloads of `schedule` take, messages as a script constructs them. -/
inductive Scheduled
  | note (it : Note)
  | pattern (notes : List PatternNote)
  | control (controller value : ℤ)
  | noteOn (pitch velocity : ℤ)
  | noteOff (pitch velocity : ℤ)
  | pitchBend (value : ℤ)
  | programChange (program : ℤ)

namespace Scheduled

/-- The events added; none is the division by zero in the sum of a position. -/
def schedule (unset : ℤ) (position : Position) (channel : UInt8) :
    Scheduled → Except String (Option (List Event))
  | note it =>
    (Sink.scheduleOne unset it position channel).map (Option.map fun events => Sink.added [events])
  | pattern notes => (Sink.schedule unset notes position channel).map (Option.map Sink.added)
  | control controller value => mesg (.Control controller value)
  | noteOn pitch velocity => mesg (.NoteOn pitch velocity)
  | noteOff pitch velocity => mesg (.NoteOff pitch velocity)
  | pitchBend value => mesg (.PitchBend value)
  | programChange program => mesg (.ProgramChange program)
where
  mesg (mesg : Message) : Except String (Option (List Event)) :=
    (Sink.scheduleMessage unset mesg position channel).map fun evt => some [evt]

end Scheduled

/-- The lowest eight bits have the highest of them clear. -/
def SevenBits (value : ℤ) : Prop := value % 256 < 128

instance (value : ℤ) : Decidable (SevenBits value) := inferInstanceAs (Decidable (_ < _))

def Note.InRange (note : Note) : Prop := SevenBits note.value ∧ note.vel ≤ 0x7F

/-- All the arguments fit in seven bits; bit 14 of a pitch bend is clear. -/
def Scheduled.InRange : Scheduled → Prop
  | note it => it.InRange
  | pattern notes => ∀ it ∈ notes, it.note.InRange
  | control controller value => SevenBits controller ∧ SevenBits value
  | noteOn pitch velocity => SevenBits pitch ∧ SevenBits velocity
  | noteOff pitch velocity => SevenBits pitch ∧ SevenBits velocity
  | pitchBend value => SevenBits (value / 128)
  | programChange program => SevenBits program

theorem ofInt_le_iff (value : ℤ) : UInt8.ofInt value ≤ 0x7F ↔ SevenBits value := by
  have hmod : (UInt8.ofInt value).toNat = (value % 256).toNat % 256 := UInt8.toNat_ofNat'
  have h127 : (0x7F : UInt8).toNat = 127 := rfl
  unfold SevenBits
  rw [UInt8.le_iff_toNat_le, hmod, h127]
  omega

theorem pitchBend_high_iff (value : ℤ) :
    (UInt32.ofInt value >>> 7).toUInt8 ≤ 0x7F ↔ SevenBits (value / 128) := by
  have hmod : (UInt32.ofInt value).toNat = (value % 4294967296).toNat % 4294967296 :=
    UInt32.toNat_ofNat'
  have hhigh : (UInt32.ofInt value >>> 7).toUInt8.toNat =
      (UInt32.ofInt value).toNat / 128 % 256 := by
    rw [UInt32.toNat_toUInt8, UInt32.toNat_shiftRight, Nat.shiftRight_eq_div_pow]
    rfl
  have h127 : (0x7F : UInt8).toNat = 127 := rfl
  unfold SevenBits
  rw [UInt8.le_iff_toNat_le, hhigh, hmod, h127]
  omega

theorem pitchBend_low (value : UInt32) : (value &&& 0x7F).toUInt8 ≤ 0x7F := by
  have hle : value.toNat &&& 127 ≤ 127 := Nat.and_le_right
  have hlow : (value &&& 0x7F).toUInt8.toNat = (value.toNat &&& 127) % 256 := by
    rw [UInt32.toNat_toUInt8, UInt32.toNat_and]
    rfl
  have h127 : (0x7F : UInt8).toNat = 127 := rfl
  rw [UInt8.le_iff_toNat_le, hlow, h127]
  omega

variable {unset : ℤ} {position : Position} {channel : UInt8}

/-- The types of the messages leave room for the channel. -/
theorem wellFormed_newEvent_iff {n vel t ch : UInt8} (ht : 0x80 ≤ t ∧ t ≤ 0xE0) (hch : ch < 16) :
    WellFormed (pack (Sink.newEvent unset position n vel t ch)) ↔
      n ≤ 0x7F ∧ (t ≠ 0xC0 → vel ≤ 0x7F) := by
  have hstatus : 0x80 ≤ t + ch ∧ t + ch ≤ 0xEF := by
    obtain ⟨hlow, hhigh⟩ := ht
    rw [UInt8.le_iff_toNat_le] at hlow hhigh
    rw [UInt8.lt_iff_toNat_lt] at hch
    rw [UInt8.le_iff_toNat_le, UInt8.le_iff_toNat_le, UInt8.toNat_add]
    simp only [UInt8.reduceToNat] at *
    omega
  have hdata : WellFormed (pack (Sink.newEvent unset position n vel t ch)) ↔
      ∀ byte ∈ n :: (if dataSize (Sink.newEvent unset position n vel t ch) = 2 then [vel] else []),
        byte ≤ 0x7F := by
    constructor
    · rintro ⟨status, data, he, -, -, hdata⟩
      cases he
      exact hdata
    · intro hdata
      exact ⟨_, _, rfl, hstatus.1, hstatus.2, hdata⟩
  rw [hdata, List.forall_mem_cons]
  unfold dataSize Sink.newEvent
  by_cases h : t = 0xC0 <;> simp [h]

theorem channel_lt (hc : ¬ (channel < 1 ∨ channel > 16)) : channel - 1 < 16 := by
  rw [gt_iff_lt, UInt8.lt_iff_toNat_lt, UInt8.lt_iff_toNat_lt] at hc
  rw [UInt8.lt_iff_toNat_lt, UInt8.toNat_sub]
  simp only [UInt8.reduceToNat] at *
  omega

/-- Both events of a note hold its pitch, the first one its velocity as well. -/
theorem scheduleNote_wellFormed_iff (hc : ¬ (channel < 1 ∨ channel > 16)) {it : Note}
    {events : Event × Event} (h : Sink.scheduleNote unset it position channel = some events) :
    (WellFormed (pack events.1) ∧ WellFormed (pack events.2)) ↔ it.InRange := by
  have hch := channel_lt hc
  obtain ⟨endPosition, -, rfl⟩ := Option.map_eq_some_iff.mp h
  rw [wellFormed_newEvent_iff ⟨by decide, by decide⟩ hch,
    wellFormed_newEvent_iff ⟨by decide, by decide⟩ hch, ofInt_le_iff]
  constructor
  · rintro ⟨⟨hvalue, hvel⟩, -⟩
    exact ⟨hvalue, hvel (by decide)⟩
  · rintro ⟨hvalue, hvel⟩
    exact ⟨⟨hvalue, fun _ => hvel⟩, hvalue, fun _ => by decide⟩

theorem forall_added_iff {p : Event → Prop} {notes : List (Event × Event)} :
    (∀ e ∈ Sink.added notes, p e) ↔ ∀ note ∈ notes, p note.1 ∧ p note.2 := by
  constructor
  · intro h note hnote
    exact ⟨h _ (List.mem_flatMap.mpr ⟨note, hnote, by simp⟩),
      h _ (List.mem_flatMap.mpr ⟨note, hnote, by simp⟩)⟩
  · intro h e he
    obtain ⟨note, hnote, he⟩ := List.mem_flatMap.mp he
    rcases List.mem_pair.mp he with rfl | rfl
    · exact (h note hnote).1
    · exact (h note hnote).2

theorem mapM_wellFormed_iff (hc : ¬ (channel < 1 ∨ channel > 16)) {notes : List PatternNote}
    {events : List (Event × Event)}
    (h : notes.mapM (Sink.schedulePatternNote unset position channel) = some events) :
    (∀ e ∈ Sink.added events, WellFormed (pack e)) ↔ ∀ it ∈ notes, it.note.InRange := by
  rw [forall_added_iff]
  induction notes generalizing events with
  | nil =>
    cases h
    exact iff_of_true nofun nofun
  | cons it notes ih =>
    simp only [List.mapM_cons, Option.bind_eq_bind, Option.bind_eq_some_iff, Option.pure_def,
      Option.some.injEq] at h
    obtain ⟨first, hfirst, rest, hrest, rfl⟩ := h
    obtain ⟨newPosition, -, hfirst⟩ := Option.bind_eq_some_iff.mp hfirst
    rw [List.forall_mem_cons, List.forall_mem_cons, ih hrest,
      scheduleNote_wellFormed_iff hc hfirst]

/-- Of a program change only the first byte is packed. -/
theorem mesg_wellFormed_iff {type first second : UInt8} (htype : 0x80 ≤ type ∧ type ≤ 0xE0)
    {events : List Event}
    (h : Scheduled.schedule.mesg unset position channel (.ofBytes type first second) =
      .ok (some events)) :
    (∀ e ∈ events, WellFormed (pack e)) ↔ first ≤ 0x7F ∧ (type ≠ 0xC0 → second ≤ 0x7F) := by
  unfold Scheduled.schedule.mesg Sink.scheduleMessage at h
  split at h
  · cases h
  · rename_i hc
    cases h
    rw [List.forall_mem_singleton]
    exact wellFormed_newEvent_iff htype (channel_lt hc)

/-- A message of two fields that are set from `int`s. -/
theorem mesg_ofInt_wellFormed_iff {type : UInt8} (htype : 0x80 ≤ type ∧ type ≤ 0xE0)
    (hne : type ≠ 0xC0) {first second : ℤ} {events : List Event}
    (h : Scheduled.schedule.mesg unset position channel
      (.ofBytes type (UInt8.ofInt first) (UInt8.ofInt second)) = .ok (some events)) :
    (∀ e ∈ events, WellFormed (pack e)) ↔ SevenBits first ∧ SevenBits second := by
  rw [mesg_wellFormed_iff htype h, ofInt_le_iff, ofInt_le_iff, forall_prop_of_true hne]

/-- What is scheduled is packed into well-formed messages iff the numbers a script gave are in
range. -/
theorem schedule_wellFormed_iff {s : Scheduled} {events : List Event}
    (h : s.schedule unset position channel = .ok (some events)) :
    (∀ e ∈ events, WellFormed (pack e)) ↔ s.InRange := by
  cases s with
  | note it =>
    simp only [Scheduled.schedule, Sink.scheduleOne] at h
    split at h
    · cases h
    · rename_i hc
      simp only [Except.map, Except.ok.injEq] at h
      obtain ⟨note, hnote, rfl⟩ := Option.map_eq_some_iff.mp h
      rw [forall_added_iff, List.forall_mem_singleton]
      exact scheduleNote_wellFormed_iff hc hnote
  | pattern notes =>
    simp only [Scheduled.schedule, Sink.schedule] at h
    split at h
    · cases h
    · rename_i hc
      simp only [Except.map, Except.ok.injEq] at h
      obtain ⟨notes', hnotes, rfl⟩ := Option.map_eq_some_iff.mp h
      exact mapM_wellFormed_iff hc hnotes
  | control controller value =>
    exact mesg_ofInt_wellFormed_iff ⟨by decide, by decide⟩ (by decide) h
  | noteOn pitch velocity =>
    exact mesg_ofInt_wellFormed_iff ⟨by decide, by decide⟩ (by decide) h
  | noteOff pitch velocity =>
    exact mesg_ofInt_wellFormed_iff ⟨by decide, by decide⟩ (by decide) h
  | pitchBend value =>
    rw [mesg_wellFormed_iff ⟨by decide, by decide⟩ h, pitchBend_high_iff,
      forall_prop_of_true (by decide)]
    exact and_iff_right (pitchBend_low _)
  | programChange program =>
    rw [mesg_wellFormed_iff ⟨by decide, by decide⟩ h, ofInt_le_iff]
    exact and_iff_left fun hne => absurd rfl hne

/-- A quarter note of middle C in bar 1, on channel 10. -/
theorem schedule_wellFormed_note : ∃ events,
    (Scheduled.note ⟨60, 100, ⟨0, 1, 4⟩⟩).schedule 0 ⟨⟨1, 0, 4⟩, by decide⟩ 10 =
      .ok (some events) ∧ ∀ e ∈ events, WellFormed (pack e) := by
  have h : (Scheduled.note ⟨60, 100, ⟨0, 1, 4⟩⟩).schedule 0 ⟨⟨1, 0, 4⟩, by decide⟩ 10 =
      .ok (some _) := rfl
  exact ⟨_, h, (schedule_wellFormed_iff h).mpr ⟨by decide, by decide⟩⟩

/-- `Control(7, 200)` is packed into 0xB0 0x07 0xC8. -/
theorem not_wellFormed_control : ∃ events,
    (Scheduled.control 7 200).schedule 0 ⟨⟨1, 0, 4⟩, by decide⟩ 1 = .ok (some events) ∧
      ¬ ∀ e ∈ events, WellFormed (pack e) := by
  have hevents : (Scheduled.control 7 200).schedule 0 ⟨⟨1, 0, 4⟩, by decide⟩ 1 =
      .ok (some _) := rfl
  refine ⟨_, hevents, fun h => ?_⟩
  have hbits : SevenBits 7 ∧ SevenBits 200 :=
    (mesg_ofInt_wellFormed_iff ⟨by decide, by decide⟩ (by decide) hevents).mp h
  exact absurd hbits.2 (by decide)

end Bipscript.Midi
