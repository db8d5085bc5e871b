import Bipscript.PositionSum
import Bipscript.MidiEvent

/-! Notes and patterns, and the events that a sink makes of them. -/
namespace Bipscript

namespace Duration

/-- Fields of 32 bits, a fraction that may be above a bar. -/
structure Words (d : Duration) : Prop where
  whole : d.whole < 2 ^ 32
  position : d.position < 2 ^ 32
  division_pos : 0 < d.division
  division : d.division < 2 ^ 32

theorem value_nonneg (d : Duration) : 0 ≤ d.value := by
  unfold value
  positivity

/-- The numerator of a sum's fraction of a bar. -/
theorem fraction_lt {p d : Duration} (hp : p.position < p.division) (hd : Words d) :
    (p.fraction d).1 < 2 ^ 32 * (p.fraction d).2 := by
  have hp0 : 0 < p.division := Nat.zero_lt_of_lt hp
  unfold fraction
  split
  · have hle : p.position + 1 + d.position ≤ p.division * 2 ^ 32 := by
      rcases Nat.lt_or_ge 1 p.division with h1 | h1
      · have := hd.position
        have := hd.division
        omega
      · have := hd.position
        omega
    rw [Nat.mul_comm]
    exact Nat.lt_of_lt_of_le (by omega) hle
  · have hleft : p.position * d.division < p.division * d.division :=
      Nat.mul_lt_mul_of_pos_right hp hd.division_pos
    have hright : d.position * p.division ≤ (2 ^ 32 - 1) * (p.division * d.division) := by
      calc d.position * p.division
          ≤ (2 ^ 32 - 1) * p.division := Nat.mul_le_mul_right _ (Nat.le_pred_of_lt hd.position)
        _ ≤ (2 ^ 32 - 1) * (p.division * d.division) :=
            Nat.mul_le_mul_left _ (Nat.le_mul_of_pos_right _ hd.division_pos)
    omega

/-- A sum of `n / q` and `w` bars less `c`, taken in 32 bits, is exact iff the numerator and the
bars fit. -/
theorem wrapped_sub_iff {w n q c : ℕ} (hq : 0 < q) (hn : n < 2 ^ 32 * q) (hc : c ≤ 1) :
    ((((w % 2 ^ 32 + n % 2 ^ 32 / q) % 2 ^ 32 + (2 ^ 32 - c)) % 2 ^ 32 : ℕ) : ℚ) +
        ((n % 2 ^ 32 % q : ℕ) : ℚ) / q = w + (n : ℚ) / q - c ↔
      n < 2 ^ 32 ∧ (c : ℚ) ≤ w + (n : ℚ) / q ∧ w + (n : ℚ) / q < 2 ^ 32 + c := by
  obtain ⟨hmix, h0, h1⟩ := mixed n hq
  obtain ⟨-, h0', h1'⟩ := mixed (n % 2 ^ 32) hq
  have hmod : n % 2 ^ 32 < 2 ^ 32 := Nat.mod_lt _ (by norm_num)
  have hquot : n / q < 2 ^ 32 := Nat.div_lt_of_lt_mul (by rwa [Nat.mul_comm])
  have hquot' : n % 2 ^ 32 / q < 2 ^ 32 := (Nat.div_le_self _ _).trans_lt hmod
  have hdiv := Nat.div_add_mod n q
  have hdiv' := Nat.div_add_mod (n % 2 ^ 32) q
  constructor
  · intro h
    have hmixed :
        (((((w % 2 ^ 32 + n % 2 ^ 32 / q) % 2 ^ 32 + (2 ^ 32 - c)) % 2 ^ 32 + c : ℕ) : ℚ) +
        ((n % 2 ^ 32 % q : ℕ) : ℚ) / q = (w + n / q : ℕ) + ((n % q : ℕ) : ℚ) / q) := by
      rw [Nat.cast_add _ c, Nat.cast_add w]
      linarith
    obtain ⟨hwhole, hfrac⟩ := mixed_inj h0' h1' h0 h1 hmixed
    have hq' : (q : ℚ) ≠ 0 := by exact_mod_cast hq.ne'
    have hrest : n % 2 ^ 32 % q = n % q := by exact_mod_cast (div_left_inj' hq').mp hfrac
    -- both quotients are the same modulo `2 ^ 32`, and below it
    have hsame : n % 2 ^ 32 / q = n / q := by
      generalize n % 2 ^ 32 / q = b at *
      generalize n / q = a at *
      omega
    have hlt : n < 2 ^ 32 := by
      rw [hsame, hrest, hdiv] at hdiv'
      omega
    refine ⟨hlt, ?_, ?_⟩
    · have hle : c ≤ w + n / q := by omega
      have hle' : (c : ℚ) ≤ w + (n / q : ℕ) := by exact_mod_cast hle
      linarith
    · have hle : w + n / q + 1 ≤ 2 ^ 32 + c := by omega
      have hle' : (w : ℚ) + (n / q : ℕ) + 1 ≤ 2 ^ 32 + c := by exact_mod_cast hle
      linarith
  · rintro ⟨hlt, hlow, hhigh⟩
    rw [Nat.mod_eq_of_lt hlt]
    have hlow' : (c : ℚ) < w + (n / q : ℕ) + 1 := by linarith
    have hlow'' : c < w + n / q + 1 := by exact_mod_cast hlow'
    have hhigh' : (w : ℚ) + (n / q : ℕ) < 2 ^ 32 + c := by linarith
    have hhigh'' : w + n / q < 2 ^ 32 + c := by exact_mod_cast hhigh'
    have hwhole : ((w % 2 ^ 32 + n / q) % 2 ^ 32 + (2 ^ 32 - c)) % 2 ^ 32 + c = w + n / q := by
      omega
    have hwhole' : ((((w % 2 ^ 32 + n / q) % 2 ^ 32 + (2 ^ 32 - c)) % 2 ^ 32 : ℕ) : ℚ) + c =
        w + (n / q : ℕ) := by
      exact_mod_cast hwhole
    linarith

end Duration

namespace Position

/-- `operator+`. None is the division by zero that `normalize` traps on. -/
def add (p : Position) (d : Duration) : Option Position :=
  if h : (p.sum d).division = 0 then none
  else some ⟨(p.sum d).normalize, Duration.normalize_lt _ (Nat.pos_of_ne_zero h)⟩

def setBar (bar : ℕ) (p : Position) : Position := ⟨{ p.toDuration with whole := bar }, p.normal⟩

/-- What `operator+` leaves where the product of the divisions fits. -/
structure Sum (p : Position) (d : Duration) (r : Position) : Prop where
  toDuration : r.toDuration = (p.sum d).normalize
  whole : r.whole = ((p.whole + d.whole) % 2 ^ 32 + (p.fraction d).1 % 2 ^ 32 / (p.fraction d).2) %
    2 ^ 32
  rest : (r.position : ℚ) / r.division =
    (((p.fraction d).1 % 2 ^ 32 % (p.fraction d).2 : ℕ) : ℚ) / (p.fraction d).2
  division : r.division < 2 ^ 32

theorem exists_add {p : Position} {d : Duration} (hp : p.division < 2 ^ 32)
    (hd : 0 < d.division) (hq : (p.fraction d).2 < 2 ^ 32) : ∃ r, p.add d = some r ∧ Sum p d r := by
  have hq0 := (Duration.fraction_spec p.division_pos hd).1
  have hsum := Duration.sum_eq (d := d) hp
  rw [Nat.mod_eq_of_lt hq] at hsum
  have hpos : 0 < (p.sum d).division := by rwa [hsum]
  refine ⟨⟨(p.sum d).normalize, Duration.normalize_lt _ hpos⟩, dif_neg hpos.ne', ?_⟩
  have hr : Duration.Normalized (p.sum d) (p.sum d).normalize := by
    refine Duration.normalized_normalize ?_ hpos
    rw [hsum]
    exact Nat.mod_lt _ (by norm_num)
  obtain ⟨-, h0, h1⟩ := Duration.mixed (p.sum d).normalize.position (Nat.zero_lt_of_lt hr.normal)
  obtain ⟨-, h0', h1'⟩ := Duration.mixed ((p.fraction d).1 % 2 ^ 32) hq0
  rw [Nat.mod_eq_of_lt hr.normal] at h0 h1
  have hvalue := hr.value
  simp only [hsum] at hvalue h0 h1
  obtain ⟨hwhole, hrest⟩ := Duration.mixed_inj h0 h1 h0' h1' hvalue
  refine ⟨rfl, ?_, ?_, ?_⟩
  · simp only [hsum]
    exact hwhole
  · simp only [hsum]
    exact hrest
  · have hle := hr.division_le
    simp only [hsum] at hle ⊢
    exact hle.trans_lt hq

/-- A sum less `c` bars is exact iff its numerator and its bars fit. -/
theorem Sum.value_iff {p r : Position} {d : Duration} {c : ℕ} (h : Sum p d r)
    (hd : Duration.Words d) (hc : c ≤ 1) :
    (r.setBar ((r.whole + (2 ^ 32 - c)) % 2 ^ 32)).value = p.value + d.value - c ↔
      (p.fraction d).1 < 2 ^ 32 ∧ (c : ℚ) ≤ p.value + d.value ∧
        p.value + d.value < 2 ^ 32 + c := by
  obtain ⟨hq, hvalue⟩ := Duration.fraction_spec p.division_pos hd.division_pos
  rw [hvalue, ← Duration.wrapped_sub_iff hq (Duration.fraction_lt p.normal hd) hc, ← h.rest,
    ← h.whole]
  exact Iff.rfl

@[simp] theorem setBar_division (p : Position) (bar : ℕ) : (p.setBar bar).division = p.division :=
  rfl

@[simp] theorem setBar_fraction (p : Position) (bar : ℕ) (d : Duration) :
    (p.setBar bar).fraction d = p.fraction d := rfl

theorem setBar_whole_self {p : Position} (h : p.whole < 2 ^ 32) :
    p.setBar ((p.whole + (2 ^ 32 - 0)) % 2 ^ 32) = p := by
  have hbar : (p.whole + (2 ^ 32 - 0)) % 2 ^ 32 = p.whole := by omega
  rw [hbar]
  rfl

end Position

namespace Midi

structure Note where
  value : ℤ
  vel : UInt8
  duration : Duration

structure PatternNote where
  note : Note
  position : Position

/-- What a script can send besides notes. -/
structure Message where
  type : UInt8
  byte : Fin 2 → UInt8

/-- What the fields of a pattern's note hold: only its position is below a bar. -/
structure PatternNote.Stored (note : PatternNote) : Prop where
  position : Duration.Words note.position.toDuration
  duration : Duration.Words note.note.duration

namespace Sink

/-- The constructor of an event. It leaves the frame offset unset, at whatever `unset` is. -/
def newEvent (unset : ℤ) (position : Position) (n vel t ch : UInt8) : Event where
  pos := position
  frameOffset := unset
  data := ⟨t, n, vel, ch⟩

/-- The two events added, in that order; none is a division by zero. -/
def scheduleNote (unset : ℤ) (note : Note) (position : Position) (channel : UInt8) :
    Option (Event × Event) :=
  (position.add note.duration).map fun endPosition =>
    (newEvent unset position (UInt8.ofInt note.value) note.vel 0x90 (channel - 1),
      newEvent unset endPosition (UInt8.ofInt note.value) 0 0x80 (channel - 1))

def newPosition (position : Position) (note : PatternNote) : Option Position :=
  (position.add note.position.toDuration).map fun p =>
    p.setBar ((p.whole + (2 ^ 32 - 1)) % 2 ^ 32) -- pattern bars 1-based

/-- One round of the loop of `schedule`. -/
def schedulePatternNote (unset : ℤ) (position : Position) (channel : UInt8) (note : PatternNote) :
    Option (Event × Event) :=
  (newPosition position note).bind fun newPosition =>
    scheduleNote unset note.note newPosition channel

def schedule (unset : ℤ) (pattern : List PatternNote) (position : Position) (channel : UInt8) :
    Except String (Option (List (Event × Event))) :=
  if channel < 1 ∨ channel > 16 then .error "MIDI channel must be between 1 and 16"
  else .ok (pattern.mapM (schedulePatternNote unset position channel))

/-- `schedule` of one note. -/
def scheduleOne (unset : ℤ) (note : Note) (position : Position) (channel : UInt8) :
    Except String (Option (Event × Event)) :=
  if channel < 1 ∨ channel > 16 then .error "MIDI channel must be between 1 and 16"
  else .ok (scheduleNote unset note position channel)

def scheduleMessage (unset : ℤ) (mesg : Message) (position : Position) (channel : UInt8) :
    Except String Event :=
  if channel < 1 ∨ channel > 16 then .error "MIDI channel must be between 1 and 16"
  else .ok (newEvent unset position (mesg.byte 0) (mesg.byte 1) mesg.type (channel - 1))

/-- The events of the `addMidiEvent` calls, in the order of the calls. -/
def added (notes : List (Event × Event)) : List Event := notes.flatMap fun note => [note.1, note.2]

theorem length_added (notes : List (Event × Event)) : (added notes).length = 2 * notes.length := by
  induction notes with
  | nil => rfl
  | cons note notes ih =>
    simp only [added, List.flatMap_cons, List.length_append, List.length_cons, List.length_nil]
      at ih ⊢
    omega

/-- The denominators that the two sums of a note form. -/
structure Products (position : Position) (note : PatternNote) : Prop where
  start : (position.fraction note.position.toDuration).2 < 2 ^ 32
  stop : ∀ p ∈ newPosition position note, (p.fraction note.note.duration).2 < 2 ^ 32

/-- The events of a note stand where exact arithmetic puts them. -/
structure Placed (position : Position) (note : PatternNote) (events : Event × Event) : Prop where
  on : events.1.pos.value = position.value + note.position.value - 1
  off : events.2.pos.value = position.value + note.position.value - 1 + note.note.duration.value
  type : events.1.data.type = TYPE_NOTE_ON ∧ events.2.data.type = TYPE_NOTE_OFF
  pitch : events.1.data.databyte1 = UInt8.ofInt note.note.value ∧
    events.2.data.databyte1 = UInt8.ofInt note.note.value
  channel : events.1.data.channel = events.2.data.channel

/-- Where in its bar a note starts, in exact arithmetic up to the bars. -/
def onset (position : Position) (note : PatternNote) : Duration :=
  let f := position.fraction note.position.toDuration
  (Duration.mk ((position.whole + note.position.whole) % 2 ^ 32) f.1 f.2).normalize

/-- The numerators of both sums and the bars of both events fit in 32 bits. -/
structure Fits (position : Position) (note : PatternNote) : Prop where
  start : (position.fraction note.position.toDuration).1 < 2 ^ 32
  bar : 1 ≤ position.value + note.position.value ∧
    position.value + note.position.value < 2 ^ 32 + 1
  stop : ((onset position note).fraction note.note.duration).1 < 2 ^ 32
  stopBar : position.value + note.position.value - 1 + note.note.duration.value < 2 ^ 32

variable {position : Position} {channel : UInt8} {note : PatternNote}

theorem exists_newPosition (hd : position.division < 2 ^ 32) (hn : note.Stored)
    (hq : (position.fraction note.position.toDuration).2 < 2 ^ 32) :
    ∃ p, newPosition position note = some p ∧ p.division < 2 ^ 32 ∧ p.whole < 2 ^ 32 ∧
      (p.value = position.value + note.position.value - 1 ↔
        (position.fraction note.position.toDuration).1 < 2 ^ 32 ∧
          1 ≤ position.value + note.position.value ∧
          position.value + note.position.value < 2 ^ 32 + 1) ∧
      ((position.fraction note.position.toDuration).1 < 2 ^ 32 →
        p.fraction note.note.duration = (onset position note).fraction note.note.duration) := by
  obtain ⟨r, hr, hsum⟩ := Position.exists_add hd hn.position.division_pos hq
  refine ⟨r.setBar ((r.whole + (2 ^ 32 - 1)) % 2 ^ 32), ?_, ?_, ?_, ?_, ?_⟩
  · simp only [newPosition, hr, Option.map_some]
  · rw [Position.setBar_division]
    exact hsum.division
  · exact Nat.mod_lt _ (by norm_num)
  · have hiff := hsum.value_iff (c := 1) hn.position le_rfl
    rw [Nat.cast_one] at hiff
    exact hiff
  · intro hlt
    have honset : onset position note = r.toDuration := by
      rw [hsum.toDuration, Duration.sum_eq hd, Nat.mod_eq_of_lt hlt, Nat.mod_eq_of_lt hq]
      rfl
    rw [honset, Position.setBar_fraction]

/-- A note's two events exist, and are where they belong iff its sums fit. -/
theorem exists_schedulePatternNote (unset : ℤ) (channel : UInt8)
    (hd : position.division < 2 ^ 32) (hn : note.Stored) (hq : Products position note) :
    ∃ events, schedulePatternNote unset position channel note = some events ∧
      Duration.Bounded events.1.pos.toDuration ∧ Duration.Bounded events.2.pos.toDuration ∧
      (Placed position note events ↔ Fits position note) := by
  obtain ⟨p, hp, hpd, hpw, hstart, hfraction⟩ := exists_newPosition hd hn hq.start
  have hqp := hq.stop p hp
  obtain ⟨r, hr, hsum⟩ := Position.exists_add hpd hn.duration.division_pos hqp
  have hrw : r.whole < 2 ^ 32 := by
    rw [hsum.whole]
    exact Nat.mod_lt _ (by norm_num)
  have hstop := hsum.value_iff (c := 0) hn.duration (by norm_num)
  rw [Position.setBar_whole_self hrw] at hstop
  simp only [Nat.cast_zero, sub_zero, add_zero] at hstop
  refine ⟨_, by rw [schedulePatternNote, hp, Option.bind_some, scheduleNote, hr]; rfl,
    ⟨hpw, p.normal, hpd⟩, ⟨hrw, r.normal, hsum.division⟩, ?_⟩
  constructor
  · intro h
    have hon : p.value = position.value + note.position.value - 1 := h.on
    have hoff : r.value = position.value + note.position.value - 1 + note.note.duration.value :=
      h.off
    obtain ⟨hlt, hbar⟩ := hstart.mp hon
    rw [← hon] at hoff
    obtain ⟨hlt', -, hbar'⟩ := hstop.mp hoff
    rw [hfraction hlt] at hlt'
    rw [hon] at hbar'
    exact ⟨hlt, hbar, hlt', hbar'⟩
  · intro h
    have hon := hstart.mpr ⟨h.start, h.bar⟩
    have hoff : r.value = p.value + note.note.duration.value := by
      refine hstop.mpr ⟨?_, add_nonneg p.value_nonneg note.note.duration.value_nonneg, ?_⟩
      · rw [hfraction h.start]
        exact h.stop
      · rw [hon]
        exact h.stopBar
    rw [hon] at hoff
    exact ⟨hon, hoff, ⟨rfl, rfl⟩, ⟨rfl, rfl⟩, rfl⟩

theorem exists_mapM {notes : List PatternNote} (unset : ℤ) (channel : UInt8)
    (hd : position.division < 2 ^ 32) (hn : ∀ note ∈ notes, note.Stored ∧ Products position note) :
    ∃ events, notes.mapM (schedulePatternNote unset position channel) = some events ∧
      (∀ e ∈ added events, Duration.Bounded e.pos.toDuration) ∧
      (List.Forall₂ (Placed position) notes events ↔ ∀ note ∈ notes, Fits position note) := by
  induction notes with
  | nil => exact ⟨[], rfl, by simp [added], by simp⟩
  | cons note notes ih =>
    obtain ⟨⟨hs, hq⟩, hrest⟩ := List.forall_mem_cons.mp hn
    obtain ⟨e, he, hon, hoff, hplaced⟩ :=
      exists_schedulePatternNote unset channel hd hs hq
    obtain ⟨events, hevents, hbounded, hiff⟩ := ih hrest
    refine ⟨e :: events, ?_, ?_, ?_⟩
    · rw [List.mapM_cons, he, hevents]
      rfl
    · intro x hx
      simp only [added, List.flatMap_cons, List.cons_append, List.nil_append] at hx hbounded
      rcases List.mem_cons.mp hx with rfl | hx
      · exact hon
      · rcases List.mem_cons.mp hx with rfl | hx
        · exact hoff
        · exact hbounded x hx
    · rw [List.forall₂_cons, List.forall_mem_cons, hplaced, hiff]

/-- The events of a whole pattern. -/
theorem exists_schedule {notes : List PatternNote} (unset : ℤ) (hc : 1 ≤ channel ∧ channel ≤ 16)
    (hd : position.division < 2 ^ 32)
    (hn : ∀ note ∈ notes, note.Stored ∧ Products position note) :
    ∃ events, schedule unset notes position channel = .ok (some events) ∧
      (∀ e ∈ added events, Duration.Bounded e.pos.toDuration) ∧
      (List.Forall₂ (Placed position) notes events ↔ ∀ note ∈ notes, Fits position note) := by
  obtain ⟨events, hevents, hrest⟩ := exists_mapM unset channel hd hn
  refine ⟨events, ?_, hrest⟩
  rw [schedule, if_neg, hevents]
  rintro (hlow | hhigh)
  · exact absurd hc.1 (UInt8.not_le.mpr hlow)
  · exact absurd hc.2 (UInt8.not_le.mpr hhigh)

end Sink

end Midi

end Bipscript
