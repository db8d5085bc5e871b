import Bipscript.AbcReader
import Bipscript.Library.Run

/-! When the notes of a track begin and how long they last, whatever its meters. -/
namespace Bipscript

namespace Duration

theorem borrow_eq (n : ℕ) (d : Duration) :
    ∃ position, borrow n d = ⟨d.whole - n, position, d.division⟩ ∧
      position % 2 ^ 32 = (d.position + n * d.division) % 2 ^ 32 := by
  induction n generalizing d with
  | zero => exact ⟨d.position, rfl, by rw [Nat.zero_mul, Nat.add_zero]⟩
  | succ n ih =>
    obtain ⟨position, he, hmod⟩ := ih
      { d with whole := d.whole - 1, position := (d.position + d.division) % 2 ^ 32 }
    refine ⟨position, ?_, ?_⟩
    · unfold borrow
      rw [he, Nat.sub_sub, Nat.add_comm 1]
    · dsimp only at hmod
      rw [hmod, Nat.mod_add_mod, Nat.succ_mul, Nat.add_assoc, Nat.add_comm d.division]

/-- What is left of the subtraction when its loop is done. -/
theorem sub_eq {a b : Duration} (h : a.division = b.division) :
    a.sub b = .ok ⟨0, (a.position + (a.whole - b.whole) * a.division + (2 ^ 32 - b.position)) %
      2 ^ 32, a.division⟩ := by
  obtain ⟨position, he, hmod⟩ := borrow_eq (a.whole - b.whole) a
  unfold sub
  rw [if_pos h, he]
  dsimp only
  rw [← Nat.mod_add_mod, hmod, Nat.mod_add_mod]

theorem sub_ne {a b : Duration} (h : a.division ≠ b.division) :
    a.sub b = .error "cannot subtract different divisors (not implemented)" := if_neg h

/-- The parts of a bar that a duration counts. -/
def parts (d : Duration) : ℕ := d.whole * d.division + d.position

theorem value_eq_parts {d : Duration} (h : 0 < d.division) :
    d.value = (d.parts : ℚ) / d.division := by
  have hq : (d.division : ℚ) ≠ 0 := by exact_mod_cast h.ne'
  unfold value parts
  push_cast
  field_simp

/-- The parts left are right when there are some, fewer than `2 ^ 32`. -/
theorem sub_parts_iff {a b : Duration} (ha : Bounded a) (hb : Bounded b)
    (h : a.division = b.division) :
    (a.position + (a.whole - b.whole) * a.division + (2 ^ 32 - b.position)) % 2 ^ 32 + b.parts =
      a.parts ↔ b.parts ≤ a.parts ∧ a.parts < 2 ^ 32 + b.parts := by
  have hp := ha.normal
  have hp' := hb.normal
  have hd := ha.division
  unfold parts
  rw [← h] at hp' ⊢
  rcases Nat.lt_or_ge a.whole b.whole with hlt | hle
  · -- the loop does not turn, and the true difference is negative
    have hstep : (a.whole + 1) * a.division ≤ b.whole * a.division := Nat.mul_le_mul_right _ hlt
    rw [Nat.add_mul, Nat.one_mul] at hstep
    generalize a.whole * a.division = x at *
    generalize b.whole * a.division = y at *
    omega
  · have hsplit : (a.whole - b.whole) * a.division + b.whole * a.division =
        a.whole * a.division := by
      rw [← Nat.add_mul, Nat.sub_add_cancel hle]
    generalize (a.whole - b.whole) * a.division = z at *
    generalize a.whole * a.division = x at *
    generalize b.whole * a.division = y at *
    omega

/-- A difference is exact when it is not negative and its parts fit in 32 bits. -/
theorem sub_value_iff {a b : Duration} (ha : Bounded a) (hb : Bounded b)
    (h : a.division = b.division) :
    (∃ r, a.sub b = .ok r ∧ r.value = a.value - b.value) ↔
      b.value ≤ a.value ∧ (a.value - b.value) * a.division < 2 ^ 32 := by
  have hpos : 0 < a.division := Nat.zero_lt_of_lt ha.normal
  have hq : (0 : ℚ) < a.division := by exact_mod_cast hpos
  have hb' : b.value = (b.parts : ℚ) / a.division := by
    rw [value_eq_parts (Nat.zero_lt_of_lt hb.normal), h]
  have hright : (b.value ≤ a.value ∧ (a.value - b.value) * a.division < 2 ^ 32) ↔
      b.parts ≤ a.parts ∧ a.parts < 2 ^ 32 + b.parts := by
    rw [value_eq_parts hpos, hb', div_le_div_iff_of_pos_right hq, ← sub_div,
      div_mul_cancel₀ _ hq.ne', sub_lt_iff_lt_add, Nat.cast_le]
    norm_cast
  rw [hright, ← sub_parts_iff ha hb h, sub_eq h]
  have hvalue : ∀ position : ℕ, (mk 0 position a.division).value = a.value - b.value ↔
      position + b.parts = a.parts := by
    intro position
    have hnone : (mk 0 position a.division).value = (position : ℚ) / a.division := by
      rw [value_eq_parts (d := ⟨0, position, a.division⟩) hpos]
      unfold parts
      rw [Nat.zero_mul, Nat.zero_add]
    rw [hnone, value_eq_parts hpos, hb', ← sub_div, div_left_inj' hq.ne', eq_sub_iff_add_eq]
    norm_cast
  rw [← hvalue]
  constructor
  · rintro ⟨r, ⟨⟩, hr⟩
    exact hr
  · exact fun hr => ⟨_, rfl, hr⟩

end Duration

theorem Position.bounded_add {p r : Position} {d : Duration} (hp : Duration.Bounded p.toDuration)
    (h : p.add d = some r) : Duration.Bounded r.toDuration := by
  unfold Position.add at h
  split at h
  · cases h
  · rename_i h0
    cases h
    have hlt : ∀ n : ℕ, n % 2 ^ 32 < 2 ^ 32 := fun n => Nat.mod_lt n (by norm_num)
    rw [Duration.sum_eq hp.division] at h0
    have hn := Duration.normalized_normalize
      (d := ⟨(p.whole + d.whole) % 2 ^ 32, (p.fraction d).1 % 2 ^ 32, (p.fraction d).2 % 2 ^ 32⟩)
      (hlt _) (Nat.pos_of_ne_zero h0)
    rw [← Duration.sum_eq hp.division] at hn
    refine ⟨hn.whole, hn.normal, hn.division_le.trans_lt ?_⟩
    rw [Duration.sum_eq hp.division]
    exact hlt _

namespace Abc

namespace Reader

/-- The notes of the track that is written to. -/
def track (r : Reader) : Option (List PatternNote) :=
  r.tunes.getLast?.bind fun tune => tune.tracks[r.activeTrack]?

theorem track_of_addMidiNote {r : Reader} {notes : List PatternNote} (note : PatternNote)
    (h : r.track = some notes) :
    ∃ tunes, r.updateTune (addMidiNote r.activeTrack note) = some { r with tunes := tunes } ∧
      ({ r with tunes := tunes } : Reader).track = some (notes ++ [note]) := by
  unfold track at h
  obtain ⟨tune, hlast, htrack⟩ := Option.bind_eq_some_iff.mp h
  obtain ⟨hlt, -⟩ := List.getElem?_eq_some_iff.mp htrack
  refine ⟨r.tunes.dropLast ++
    [{ tune with tracks := tune.tracks.modify r.activeTrack (· ++ [note]) }], ?_, ?_⟩
  · unfold updateTune addMidiNote
    rw [hlast]
    dsimp only
    rw [if_pos hlt, Option.map_some]
  · unfold track
    dsimp only
    rw [List.getLast?_concat, Option.bind_some]
    dsimp only
    rw [List.getElem?_modify_eq, htrack]
    rfl

theorem track_of_updateTune {r r' : Reader} {f : Tune → Option Tune}
    (hf : ∀ tune tune', f tune = some tune' → tune'.tracks = tune.tracks)
    (h : r.updateTune f = some r') : r'.track = r.track := by
  unfold updateTune at h
  split at h
  · cases h
  · rename_i tune hlast
    obtain ⟨tune', hf', rfl⟩ := Option.map_eq_some_iff.mp h
    unfold track
    dsimp only
    rw [List.getLast?_concat, hlast, Option.bind_some, Option.bind_some, hf tune tune' hf']

theorem exists_updateTune {r : Reader} {notes : List PatternNote} (h : r.track = some notes)
    (f : Tune → Tune) :
    ∃ tunes, r.updateTune (fun tune => some (f tune)) = some { r with tunes := tunes } := by
  obtain ⟨tune, hlast, -⟩ := Option.bind_eq_some_iff.mp h
  refine ⟨r.tunes.dropLast ++ [f tune], ?_⟩
  unfold updateTune
  rw [hlast]
  rfl

/-- A meta event leaves the notes and their times alone, and a time signature sets the ticks of a
bar. -/
theorem writeMetaEvent_spec {r : Reader} {notes : List PatternNote} {type : ℤ} {data : List Int8}
    (h : r.track = some notes) (hunit : type = 0x58 → pow2 (data.getD 1 0) ≠ 0) :
    ∃ r', r.writeMetaEvent type data = (r', none) ∧ r'.track = some notes ∧
      r'.ticksPerQuarter = r.ticksPerQuarter ∧ r'.currentPosition = r.currentPosition ∧
      r'.activeNote = r.activeNote ∧ r'.noteStart = r.noteStart ∧
      (r'.ticksPerBar = r.ticksPerBar ∨
        (type = 0x58 ∧ r'.ticksPerBar = (r.setMeter data).ticksPerBar)) := by
  unfold writeMetaEvent
  by_cases htitle : type = 0x03 ∧ r.activeTrack = 0
  · obtain ⟨tunes, he⟩ :=
      exists_updateTune h fun tune => { tune with title := data.takeWhile (· ≠ 0) }
    refine ⟨{ r with tunes := tunes }, ?_, ?_, rfl, rfl, rfl, rfl, Or.inl rfl⟩
    · rw [if_pos htitle, he]
    · rw [track_of_updateTune (by rintro tune tune' ⟨⟩; rfl) he, h]
  · by_cases htype : type = 0x58
    · have hmeter : (r.setMeter data).track = some notes := h
      obtain ⟨tunes, he⟩ := exists_updateTune hmeter fun tune =>
        { tune with timeSignature := some ⟨(r.setMeter data).beatsPerBar,
          (r.setMeter data).beatUnit⟩ }
      refine ⟨{ r.setMeter data with tunes := tunes }, ?_, ?_, rfl, rfl, rfl, rfl,
        Or.inr ⟨htype, rfl⟩⟩
      · rw [if_neg htitle, if_pos htype, if_neg (hunit htype)]
        dsimp only
        rw [he]
      · rw [track_of_updateTune (by rintro tune tune' ⟨⟩; rfl) he, hmeter]
    · refine ⟨r, ?_, h, rfl, rfl, rfl, rfl, Or.inl rfl⟩
      rw [if_neg htitle, if_neg htype]

/-- The note-off of a key that is on adds its note. -/
theorem noteOff_spec {r : Reader} {notes : List PatternNote} {note : Note} {chan : Int32}
    {data : List Int8} {d : Duration} (h : r.track = some notes)
    (hnote : r.activeNote (key chan data) = some note)
    (hd : r.currentPosition.toDuration.sub (r.noteStart (key chan data)).toDuration = .ok d) :
    ∃ tunes, r.noteOff chan data =
      ({ r with
         tunes := tunes
         activeNote := Function.update r.activeNote (key chan data) none }, none) ∧
      ({ r with tunes := tunes } : Reader).track =
        some (notes ++ [⟨{ note with duration := d }, r.noteStart (key chan data)⟩]) := by
  obtain ⟨tunes, he, htrack⟩ := track_of_addMidiNote
    ⟨{ note with duration := d }, r.noteStart (key chan data)⟩ h
  refine ⟨tunes, ?_, htrack⟩
  unfold noteOff
  rw [hnote]
  dsimp only
  rw [hd]
  dsimp only
  rw [he]

theorem noteOff_of_error {r : Reader} {note : Note} {chan : Int32} {data : List Int8}
    {mesg : String} (hnote : r.activeNote (key chan data) = some note)
    (hd : r.currentPosition.toDuration.sub (r.noteStart (key chan data)).toDuration =
      .error mesg) : r.noteOff chan data = (r, some (.throw mesg)) := by
  unfold noteOff
  rw [hnote]
  dsimp only
  rw [hd]

theorem writeMidiEvent_of_add {r : Reader} {delta type : ℤ} {chan : Int32} {data : List Int8}
    {position : Position} (h0 : r.ticksPerBar ≠ 0)
    (hadd : r.currentPosition.add (r.elapsed delta) = some position) :
    r.writeMidiEvent delta type chan data =
      if type = 0x90 then (({ r with currentPosition := position } : Reader).noteOn chan data, none)
      else if type = 0x80 then ({ r with currentPosition := position } : Reader).noteOff chan data
      else ({ r with currentPosition := position }, none) := by
  unfold writeMidiEvent
  rw [if_neg h0, hadd]

end Reader

/-- A reader in a track, with the position at each key's last note-on. -/
structure Playing where
  reader : Reader
  begun : Int32 → Position

namespace Playing

def exec (s : Playing) (c : Callback) : Playing where
  reader := (s.reader.callback c).1
  begun :=
    match c with
    | .writeMidiEvent _ type chan data =>
      if type = 0x90 then
        Function.update s.begun (key chan data) (s.reader.callback c).1.currentPosition
      else s.begun
    | _ => s.begun

/-- The callbacks of a track. A time signature has at least one tick in a bar. -/
def Valid (s : Playing) : Callback → Prop
  | .writeMidiEvent .. => True
  | .writeMetaEvent _ type data =>
    type = 0x58 → pow2 (data.getD 1 0) ≠ 0 ∧ (s.reader.setMeter data).ticksPerBar ≠ 0
  | _ => False

/-- A MIDI event does not throw, and the note that one ends lasts from where its key went on to
where the track now is. -/
def Timed (s : Playing) (c : Callback) : Prop :=
  match c with
  | .writeMidiEvent _ type chan data =>
    (s.reader.callback c).2 = none ∧
      (type = 0x80 → s.reader.activeNote (key chan data) ≠ none → ∃ notes added,
        s.reader.track = some notes ∧ (s.reader.callback c).1.track = some (notes ++ [added]) ∧
        added.note.duration.value =
          (s.reader.callback c).1.currentPosition.value - (s.begun (key chan data)).value)
  | _ => True

/-- Where a note ends, the position counts the parts of a bar that its start does, is not before
it, and is fewer than `2 ^ 32` of them later. -/
structure SameParts (start stop : Position) : Prop where
  division : stop.division = start.division
  le : start.value ≤ stop.value
  lt : (stop.value - start.value) * stop.division < 2 ^ 32

/-- The sum of a MIDI event keeps a denominator, and the difference of a note-off can be formed. -/
def Subtracts (s : Playing) : Callback → Prop
  | .writeMidiEvent delta type chan data =>
    ∃ position, s.reader.currentPosition.add (s.reader.elapsed delta) = some position ∧
      (type = 0x80 → s.reader.activeNote (key chan data) ≠ none →
        SameParts (s.begun (key chan data)) position)
  | _ => True

/-- What the callbacks of a track keep. -/
structure Underway (s : Playing) : Prop where
  track : ∃ notes, s.reader.track = some notes
  ticks : s.reader.ticksPerBar ≠ 0
  position : Duration.Bounded s.reader.currentPosition.toDuration
  start : ∀ k, s.reader.activeNote k ≠ none →
    s.begun k = s.reader.noteStart k ∧ Duration.Bounded (s.begun k).toDuration

variable {s : Playing} {c : Callback} {delta type : ℤ} {chan : Int32} {data : List Int8}
  {position : Position}

theorem callback_of_add (hs : Underway s)
    (hadd : s.reader.currentPosition.add (s.reader.elapsed delta) = some position) :
    s.reader.callback (.writeMidiEvent delta type chan data) =
      if type = 0x90 then
        (({ s.reader with currentPosition := position } : Reader).noteOn chan data, none)
      else if type = 0x80 then
        ({ s.reader with currentPosition := position } : Reader).noteOff chan data
      else ({ s.reader with currentPosition := position }, none) :=
  Reader.writeMidiEvent_of_add hs.ticks hadd

/-- A note-off of a key that is on is in time exactly when its difference can be formed. -/
theorem timed_noteOff_iff (hs : Underway s)
    (hadd : s.reader.currentPosition.add (s.reader.elapsed delta) = some position)
    (hon : s.reader.activeNote (key chan data) ≠ none) :
    s.Timed (.writeMidiEvent delta 0x80 chan data) ↔
      SameParts (s.begun (key chan data)) position := by
  obtain ⟨notes, htrack⟩ := hs.track
  obtain ⟨note, hnote⟩ := Option.ne_none_iff_exists'.mp hon
  obtain ⟨hbegun, hstart⟩ := hs.start _ hon
  have hposition := Position.bounded_add hs.position hadd
  let r : Reader := { s.reader with currentPosition := position }
  have hcall : s.reader.callback (.writeMidiEvent delta 0x80 chan data) = r.noteOff chan data := by
    rw [callback_of_add hs hadd, if_neg (by decide), if_pos rfl]
  unfold Timed
  dsimp only
  rw [hcall]
  by_cases hdivision : position.division = (s.begun (key chan data)).division
  · have hiff := Duration.sub_value_iff hposition hstart hdivision
    obtain ⟨d, hd⟩ : ∃ d, position.toDuration.sub (s.begun (key chan data)).toDuration = .ok d :=
      ⟨_, Duration.sub_eq hdivision⟩
    let added : PatternNote := ⟨{ note with duration := d }, s.begun (key chan data)⟩
    obtain ⟨tunes, he, hadded⟩ :
        ∃ tunes, r.noteOff chan data =
          ({ r with
             tunes := tunes
             activeNote := Function.update r.activeNote (key chan data) none }, none) ∧
          ({ r with tunes := tunes } : Reader).track = some (notes ++ [added]) := by
      have hspec := Reader.noteOff_spec (r := r) (d := d) htrack hnote (by rw [← hbegun]; exact hd)
      rwa [← hbegun] at hspec
    have hnotes : (r.noteOff chan data).1.track = some (notes ++ [added]) := by
      rw [he]
      exact hadded
    have hlater : (r.noteOff chan data).1.currentPosition = position := by rw [he]
    rw [htrack, hnotes, hlater]
    constructor
    · rintro ⟨-, h⟩
      obtain ⟨_, last, ⟨⟩, hlast, hvalue⟩ := h rfl hon
      obtain rfl : added = last := by simpa using hlast
      obtain ⟨hle, hlt⟩ := hiff.mp ⟨d, hd, hvalue⟩
      exact ⟨hdivision, hle, hlt⟩
    · rintro ⟨-, hle, hlt⟩
      obtain ⟨d', hd', hvalue⟩ := hiff.mpr ⟨hle, hlt⟩
      obtain rfl := Except.ok.inj (hd.symm.trans hd')
      refine ⟨?_, fun _ _ => ⟨notes, added, rfl, rfl, hvalue⟩⟩
      rw [he]
  · have herror := Duration.sub_ne hdivision
    rw [hbegun] at herror
    rw [Reader.noteOff_of_error (r := r) hnote herror]
    constructor
    · rintro ⟨h, -⟩
      cases h
    · rintro ⟨h, -, -⟩
      exact absurd h hdivision

theorem timed_iff (hs : Underway s) (c : Callback) : s.Timed c ↔ s.Subtracts c := by
  cases c with
  | writeMidiEvent delta type chan data =>
    cases hadd : s.reader.currentPosition.add (s.reader.elapsed delta) with
    | none =>
      have htrap : s.reader.callback (.writeMidiEvent delta type chan data) =
          (s.reader, some .trap) := by
        change s.reader.writeMidiEvent delta type chan data = _
        unfold Reader.writeMidiEvent
        rw [if_neg hs.ticks, hadd]
      constructor
      · rintro ⟨h, -⟩
        rw [htrap] at h
        cases h
      · rintro ⟨position, h, -⟩
        rw [hadd] at h
        cases h
    | some position =>
      have hsome : s.Subtracts (.writeMidiEvent delta type chan data) ↔
          (type = 0x80 → s.reader.activeNote (key chan data) ≠ none →
            SameParts (s.begun (key chan data)) position) := by
        constructor
        · rintro ⟨position', h, hsame⟩
          obtain rfl := Option.some.inj (hadd.symm.trans h)
          exact hsame
        · exact fun h => ⟨position, hadd, h⟩
      rw [hsome]
      by_cases hoff : type = 0x80 ∧ s.reader.activeNote (key chan data) ≠ none
      · obtain ⟨rfl, hon⟩ := hoff
        rw [timed_noteOff_iff hs hadd hon]
        exact ⟨fun h _ _ => h, fun h => h rfl hon⟩
      · refine iff_of_true ⟨?_, fun h hon => absurd ⟨h, hon⟩ hoff⟩ fun h hon => absurd ⟨h, hon⟩ hoff
        rw [callback_of_add hs hadd]
        split
        · rfl
        · split
          · rename_i htype
            have hnone : s.reader.activeNote (key chan data) = none :=
              not_not.mp fun hon => hoff ⟨htype, hon⟩
            unfold Reader.noteOff
            dsimp only
            rw [hnone]
          · rfl
  | _ => exact Iff.rfl

/-- The position moves on and nothing else does. -/
theorem Underway.move (hs : Underway s)
    (hadd : s.reader.currentPosition.add (s.reader.elapsed delta) = some position) :
    Underway ⟨{ s.reader with currentPosition := position }, s.begun⟩ :=
  ⟨hs.track, hs.ticks, Position.bounded_add hs.position hadd, hs.start⟩

theorem Underway.noteOn (hs : Underway s) (chan : Int32) (data : List Int8) :
    Underway ⟨s.reader.noteOn chan data,
      Function.update s.begun (key chan data) s.reader.currentPosition⟩ := by
  refine ⟨hs.track, hs.ticks, hs.position, fun k hk => ?_⟩
  by_cases he : k = key chan data
  · subst he
    simp only [Reader.noteOn, Function.update_self, true_and]
    exact hs.position
  · simp only [Reader.noteOn, Function.update_of_ne he] at hk ⊢
    exact hs.start k hk

theorem Underway.noteOff (hs : Underway s)
    (hdivision : s.reader.activeNote (key chan data) ≠ none →
      s.reader.currentPosition.division = (s.begun (key chan data)).division) :
    Underway ⟨(s.reader.noteOff chan data).1, s.begun⟩ := by
  cases hnote : s.reader.activeNote (key chan data) with
  | none =>
    have he : s.reader.noteOff chan data = (s.reader, none) := by
      unfold Reader.noteOff
      rw [hnote]
    rw [he]
    exact hs
  | some note =>
    obtain ⟨notes, htrack⟩ := hs.track
    have hon : s.reader.activeNote (key chan data) ≠ none := by
      rw [hnote]
      exact Option.some_ne_none note
    have hd := Duration.sub_eq (hdivision hon)
    rw [(hs.start _ hon).1] at hd
    obtain ⟨tunes, he, hadded⟩ := Reader.noteOff_spec htrack hnote hd
    rw [he]
    refine ⟨⟨_, hadded⟩, hs.ticks, hs.position, fun k hk => ?_⟩
    by_cases hkey : k = key chan data
    · subst hkey
      exact absurd (Function.update_self (key chan data) none s.reader.activeNote) hk
    · exact hs.start k fun h => hk ((Function.update_of_ne hkey _ _).trans h)

theorem underway_exec (hs : Underway s) (hv : s.Valid c) (ht : s.Timed c) :
    Underway (s.exec c) := by
  cases c with
  | writeMidiEvent delta type chan data =>
    obtain ⟨position, hadd, hsame⟩ := (timed_iff hs _).mp ht
    unfold exec
    rw [callback_of_add hs hadd]
    dsimp only
    by_cases hon : type = 0x90
    · rw [if_pos hon, if_pos hon]
      exact (hs.move hadd).noteOn chan data
    · rw [if_neg hon, if_neg hon]
      by_cases hoff : type = 0x80
      · rw [if_pos hoff]
        exact (hs.move hadd).noteOff fun h => (hsame hoff h).division
      · rw [if_neg hoff]
        exact hs.move hadd
  | writeMetaEvent delta type data =>
    obtain ⟨notes, htrack⟩ := hs.track
    obtain ⟨r', he, htrack', -, hposition, hactive, hstart, hticks⟩ :=
      Reader.writeMetaEvent_spec htrack fun h => (hv h).1
    have hcall : s.reader.callback (.writeMetaEvent delta type data) = (r', none) := he
    unfold exec
    rw [hcall]
    refine ⟨⟨notes, htrack'⟩, ?_, ?_, ?_⟩
    · rcases hticks with hticks | ⟨htype, hticks⟩
      · exact hticks ▸ hs.ticks
      · exact hticks ▸ (hv htype).2
    · rw [hposition]
      exact hs.position
    · rw [hactive, hstart]
      exact hs.start
  | _ => exact hv.elim

/-- A reader that has started a track of a tune. -/
structure Started (r : Reader) : Prop where
  track : ∃ notes, r.track = some notes
  ticks : r.ticksPerBar ≠ 0
  position : r.currentPosition = firstBar
  active : r.activeNote = fun _ => none

/-- A tune's track is started in range, and its time signature has ticks. -/
theorem started_startTrack {r : Reader} {tune : Tune} {tunes : List Tune} {track : ℕ}
    (htunes : r.tunes = tunes ++ [tune]) (htrack : track < tune.tracks.length)
    (hticks : r.ticksPerBar ≠ 0) : Started (r.startTrack track) := by
  refine ⟨⟨tune.tracks[track], ?_⟩, hticks, rfl, rfl⟩
  unfold Reader.track Reader.startTrack
  dsimp only
  rw [htunes, List.getLast?_concat, Option.bind_some]
  exact List.getElem?_eq_getElem htrack

theorem underway_of_started {r : Reader} (h : Started r) (begun : Int32 → Position) :
    Underway ⟨r, begun⟩ := by
  refine ⟨h.track, h.ticks, ?_, fun k hk => ?_⟩
  · have hbar : Duration.Bounded firstBar.toDuration := ⟨by decide, by decide, by decide⟩
    rw [h.position]
    exact hbar
  · exact absurd (congrFun h.active k) hk

/-- Of a track's callbacks, with time signatures anywhere among them, none throws and all notes last
as long as their keys are on exactly when every difference can be formed. -/
theorem always_timed_iff {r : Reader} {begun : Int32 → Position} {cs : List Callback}
    (hr : Started r) (hv : Transition.Always exec Valid ⟨r, begun⟩ cs) :
    Transition.Always exec Timed ⟨r, begun⟩ cs ↔ Transition.Always exec Subtracts ⟨r, begun⟩ cs :=
  Transition.always_congr (fun _ c hs _ => timed_iff hs c)
    (fun _ _ hs hv ht => underway_exec hs hv ht) (underway_of_started hr begun) hv

/-- A track of a tune at 24 ticks to the quarter, in 4/4. -/
def track : Reader := ((Reader.new 0 0 0).startSequence 1 24).1.startTrack 0

theorem started_track : Started track := by
  have htunes : ((Reader.new 0 0 0).startSequence 1 24).1.tunes = [] ++ [⟨0, [], none, [[]]⟩] := rfl
  exact started_startTrack htunes (by decide) (by decide)

/-- A quarter in 4/4, then one in 3/4. -/
def waltz : List Callback :=
  [.writeMidiEvent 0 0x90 0 [60, 100], .writeMidiEvent 24 0x80 0 [60, 0],
    .writeMetaEvent 0 0x58 [3, 2], .writeMidiEvent 0 0x90 0 [62, 100]]

theorem always_timed_waltz :
    Transition.Always exec Timed ⟨track, fun _ => firstBar⟩ waltz := by
  have hv : Transition.Always exec Valid ⟨track, fun _ => firstBar⟩ waltz :=
    ⟨trivial, trivial, fun _ => by decide, trivial, trivial⟩
  refine (always_timed_iff started_track hv).mpr ⟨?_, ?_, trivial, ?_, trivial⟩
  · exact ⟨_, rfl, fun h => absurd h (by decide)⟩
  · exact ⟨_, rfl, fun _ _ => ⟨rfl, by decide +kernel, by decide +kernel⟩⟩
  · exact ⟨_, rfl, fun h => absurd h (by decide)⟩

/-- The meter changes under a note: its key goes on among parts of 96 and off among parts of
`96 * 72`, and the subtraction throws. -/
theorem not_always_timed :
    let held : List Callback := [.writeMidiEvent 0 0x90 0 [60, 100], .writeMetaEvent 0 0x58 [3, 2],
      .writeMidiEvent 24 0x80 0 [60, 0]]
    Started track ∧ Transition.Always exec Valid ⟨track, fun _ => firstBar⟩ held ∧
      ¬ Transition.Always exec Timed ⟨track, fun _ => firstBar⟩ held := by
  refine ⟨started_track, ⟨trivial, fun _ => by decide, trivial, trivial⟩, ?_⟩
  rintro ⟨-, -, ⟨hnone, -⟩, -⟩
  revert hnone
  decide +kernel

end Playing

end Abc

end Bipscript
