import Bipscript.MidiSink

/-! The ABC reader: the callbacks its parser makes, and the calls that take a tune from them. -/
namespace Bipscript

namespace Duration

/-- The loop of `operator-`, which turns once for every bar above those of the other. -/
def borrow : ℕ → Duration → Duration
  | 0, result => result
  | n + 1, result =>
    borrow n { result with whole := result.whole - 1,
                           position := (result.position + result.division) % 2 ^ 32 }

/-- `operator-` -/
def sub (a b : Duration) : Except String Duration :=
  if a.division = b.division then
    let result := borrow (a.whole - b.whole) a
    .ok { result with whole := 0, position := (result.position + (2 ^ 32 - b.position)) % 2 ^ 32 }
  else .error "cannot subtract different divisors (not implemented)"

end Duration

namespace Abc

structure Note extends Midi.Note where
  channel : Int32

structure PatternNote where
  note : Note
  position : Position

structure TimeSignature where
  numerator : ℕ
  denominator : ℕ

/-- A tune, with the place it was allocated at: no two tunes of a run share one. -/
structure Tune where
  address : ℕ
  title : List Int8
  timeSignature : Option TimeSignature
  tracks : List (List PatternNote)

structure Error where
  mesg : String
  lineNo : ℤ
  linePos : ℤ
deriving DecidableEq

/-- How a callback or a call ends early: with an exception, or outside of what the language
defines (a division by zero, the last element of an empty vector). -/
inductive Halt
  | throw (mesg : String)
  | trap
deriving DecidableEq

/-- The fields of `ABCReader`, and the number of tunes allocated so far. -/
structure Reader where
  ticksPerQuarter : ℕ
  ticksPerBeat : ℕ
  beatsPerBar : ℕ
  beatUnit : ℕ
  activeTrack : ℕ
  currentPosition : Position
  activeNote : Int32 → Option Note
  noteStart : Int32 → Position
  tunes : List Tune
  errors : List Error
  allocated : ℕ

/-- The parser's callbacks. `delta` is a `long`, `data` what the pointer points at. -/
inductive Callback
  | startSequence (ntracks division : ℕ)
  | startTrack (track : ℕ)
  | writeTempo (tempo : ℤ)
  | writeMetaEvent (delta : ℤ) (type : ℤ) (data : List Int8)
  | writeMidiEvent (delta : ℤ) (type : ℤ) (chan : Int32) (data : List Int8)
  | singleNoteTuningChange (key : ℤ)
  | addError (error : Error)
  | addWarning (warning : Error)

/-- `Position(1, 0, 1)` -/
def firstBar : Position := ⟨⟨1, 0, 1⟩, Nat.zero_lt_one⟩

/-- `data[0] | chan << 8` -/
def key (chan : Int32) (data : List Int8) : Int32 := (data.getD 0 0).toInt32 ||| chan <<< 8

/-- `Note(data[0], data[1], chan)` -/
def newNote (chan : Int32) (data : List Int8) : Note :=
  ⟨⟨(data.getD 0 0).toInt, (data.getD 1 0).toUInt8, ⟨0, 0, 1⟩⟩, chan⟩

/-- `pow(2, data[1])` as an `unsigned int`: a fraction of one is none. -/
def pow2 (n : Int8) : ℕ := if n < 0 then 0 else 2 ^ n.toInt.toNat % 2 ^ 32

namespace Reader

/-- The constructor, which leaves the tick counts and the active track as it finds them. -/
def new (ticksPerQuarter ticksPerBeat activeTrack : ℕ) : Reader where
  ticksPerQuarter := ticksPerQuarter
  ticksPerBeat := ticksPerBeat
  beatsPerBar := 4
  beatUnit := 4
  activeTrack := activeTrack
  currentPosition := ⟨⟨0, 0, 1⟩, Nat.zero_lt_one⟩
  activeNote := fun _ => none
  noteStart := fun _ => ⟨⟨0, 0, 1⟩, Nat.zero_lt_one⟩
  tunes := []
  errors := []
  allocated := 0

/-- `ticksPerBeat * beatsPerBar` -/
def ticksPerBar (r : Reader) : ℕ := mul32 r.ticksPerBeat r.beatsPerBar

/-- A write through `currentTune()`. -/
def updateTune (r : Reader) (f : Tune → Option Tune) : Option Reader :=
  match r.tunes.getLast? with
  | none => none
  | some tune => (f tune).map fun tune => { r with tunes := r.tunes.dropLast ++ [tune] }

def startSequence (r : Reader) (ntracks division : ℕ) : Reader × Option Halt :=
  let r := { r with ticksPerQuarter := division }
  if r.beatUnit = 0 then (r, some .trap)
  else
    ({ r with
       ticksPerBeat := mul32 r.ticksPerQuarter 4 / r.beatUnit
       tunes := r.tunes ++ [⟨r.allocated, [], none, List.replicate ntracks []⟩]
       allocated := r.allocated + 1 }, none)

def startTrack (r : Reader) (track : ℕ) : Reader :=
  { r with currentPosition := firstBar, activeNote := fun _ => none, activeTrack := track }

/-- What a time signature event does to the counts. -/
def setMeter (r : Reader) (data : List Int8) : Reader :=
  { r with
    beatsPerBar := ((data.getD 0 0).toInt % 2 ^ 32).toNat
    beatUnit := pow2 (data.getD 1 0)
    ticksPerBeat := mul32 r.ticksPerQuarter 4 / pow2 (data.getD 1 0) }

def writeMetaEvent (r : Reader) (type : ℤ) (data : List Int8) : Reader × Option Halt :=
  if type = 0x03 ∧ r.activeTrack = 0 then
    match r.updateTune fun tune => some { tune with title := data.takeWhile (· ≠ 0) } with
    | none => (r, some .trap)
    | some r => (r, none)
  else if type = 0x58 then
    if pow2 (data.getD 1 0) = 0 then (r, some .trap)
    else
      let r := r.setMeter data
      match r.updateTune fun tune =>
        some { tune with timeSignature := some ⟨r.beatsPerBar, r.beatUnit⟩ } with
      | none => (r, some .trap)
      | some r => (r, none)
  else (r, none)

/-- `tracks[tracknum].addNote(note, position)` -/
def addMidiNote (tracknum : ℕ) (note : PatternNote) (tune : Tune) : Option Tune :=
  if tracknum < tune.tracks.length then
    some { tune with tracks := tune.tracks.modify tracknum (· ++ [note]) }
  else none

/-- The branch for a note-on. -/
def noteOn (r : Reader) (chan : Int32) (data : List Int8) : Reader :=
  -- `insert` keeps the note of a key that is on
  { r with
    activeNote := Function.update r.activeNote (key chan data)
      (some ((r.activeNote (key chan data)).getD (newNote chan data)))
    noteStart := Function.update r.noteStart (key chan data) r.currentPosition }

/-- The branch for a note-off. -/
def noteOff (r : Reader) (chan : Int32) (data : List Int8) : Reader × Option Halt :=
  match r.activeNote (key chan data) with
  | none => (r, none)
  | some note =>
    let start := r.noteStart (key chan data)
    match r.currentPosition.toDuration.sub start.toDuration with
    | .error mesg => (r, some (.throw mesg))
    | .ok duration =>
      match r.updateTune
          (addMidiNote r.activeTrack ⟨{ note with duration := duration }, start⟩) with
      | none => (r, some .trap)
      | some r => ({ r with activeNote := Function.update r.activeNote (key chan data) none }, none)

/-- `Duration(0, delta_time, ticksPerBeat * beatsPerBar)`, for ticks in a bar. -/
def elapsed (r : Reader) (delta : ℤ) : Duration :=
  (Duration.mk 0 (delta % 2 ^ 32).toNat r.ticksPerBar).normalize

def writeMidiEvent (r : Reader) (delta : ℤ) (type : ℤ) (chan : Int32) (data : List Int8) :
    Reader × Option Halt :=
  if r.ticksPerBar = 0 then (r, some (.throw "division cannot be zero!"))
  else
    match r.currentPosition.add (r.elapsed delta) with
    | none => (r, some .trap)
    | some position =>
      let r := { r with currentPosition := position }
      if type = 0x90 then (r.noteOn chan data, none)
      else if type = 0x80 then r.noteOff chan data
      else (r, none) -- a warning on the console

def addError (r : Reader) (error : Error) : Reader := { r with errors := r.errors ++ [error] }

def callback (r : Reader) : Callback → Reader × Option Halt
  | .startSequence ntracks division => r.startSequence ntracks division
  | .startTrack track => (r.startTrack track, none)
  | .writeTempo _ => (r, none)
  | .writeMetaEvent _ type data => r.writeMetaEvent type data
  | .writeMidiEvent delta type chan data => r.writeMidiEvent delta type chan data
  | .singleNoteTuningChange _ => (r, none)
  | .addError error => (r.addError error, none)
  | .addWarning _ => (r, none)

/-- The callbacks of one parse, up to the first that ends early. -/
def parse : Reader → List Callback → Reader × Option Halt
  | r, [] => (r, none)
  | r, c :: cs =>
    match r.callback c with
    | (r, none) => parse r cs
    | (r, some halt) => (r, some halt)

end Reader

/-- `error()` -/
def Error.message (error : Error) : String :=
  "ABC Error [" ++ toString error.lineNo ++ ":" ++ toString error.linePos ++ "] " ++ error.mesg

/-- The loop that deletes tunes from the back until one is left. -/
def deleteTunes (tunes : List Tune) : List Tune :=
  if 1 < tunes.length then deleteTunes tunes.dropLast else tunes
termination_by tunes.length
decreasing_by
  rw [List.length_dropLast]
  omega

def Tune.track (tune : Tune) (tracknum : ℕ) : Except String (List PatternNote) :=
  if tracknum = 0 then .error "there is no track zero"
  else
    match tune.tracks[tracknum - 1]? with
    | none => .error "track number too high"
    | some pattern => .ok pattern

/-- How a call of the reader ends: with a value made of a tune, or as a callback may. -/
inductive Outcome (α : Type)
  | returned (tune : Tune) (value : α)
  | halted (halt : Halt)

namespace Reader

/-- `errors.clear()` -/
def clear (r : Reader) : Reader := { r with errors := [] }

/-- What `read` and `readTune` share: the parse, its errors, and the tune that is kept. -/
def take (r : Reader) (cs : List Callback) : Reader × Outcome Unit :=
  match r.clear.parse cs with
  | (r, some halt) => (r, .halted halt)
  | (r, none) =>
    match r.errors with
    | error :: _ => (r, .halted (.throw error.message))
    | [] =>
      match (deleteTunes r.tunes).getLast? with
      | none => (r, .halted .trap)
      | some tune => ({ r with tunes := (deleteTunes r.tunes).dropLast }, .returned tune ())

def read (r : Reader) (cs : List Callback) : Reader × Outcome (List PatternNote) :=
  match r.take cs with
  | (r, .halted halt) => (r, .halted halt)
  | (r, .returned tune _) =>
    let trackIndex := if tune.tracks.length > 1 then 2 else 1
    match tune.track trackIndex with
    | .error mesg => (r, .halted (.throw mesg))
    | .ok pattern => (r, .returned tune pattern)

def readTune (r : Reader) (cs : List Callback) : Reader × Outcome Tune :=
  match r.take cs with
  | (r, .halted halt) => (r, .halted halt)
  | (r, .returned tune _) => (r, .returned tune tune)

end Reader

end Abc

end Bipscript
