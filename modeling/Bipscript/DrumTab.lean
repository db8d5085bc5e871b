import Bipscript.MidiSink

/-! The reader of drum tabs. A byte of the text is a character, and the counters do not overflow. -/
namespace Bipscript.DrumTab

/-- `isspace` -/
def isspace (c : Char) : Bool := c = ' ' || ('\t' ≤ c && c ≤ '\r')

/-- The assignments to `noteValue` in the constructor. -/
def noteTable : List (String × ℤ) :=
  [("SDo", 38), ("SNo", 38), ("SNO", 38), ("S o", 38), ("S g", 38), ("SNg", 38), ("S d", 38),
    ("SNd", 38), ("SDf", 40), ("SNF", 40), ("S F", 40), ("BDo", 36), ("B o", 36), ("RDX", 51),
    ("CRx", 51), ("CCX", 49), ("C1X", 49), ("C2X", 57), ("HHx", 42), ("HHX", 42), ("HHo", 42),
    ("HHg", 42), ("HFx", 44), ("HHO", 46), ("T1o", 48), ("T2o", 47), ("T3o", 43), ("FTo", 45),
    ("FTO", 45), ("F1o", 45), ("F2o", 45)]

/-- The assignments to `noteVelocity`. -/
def velocityTable : List (String × ℤ) :=
  [("SDo", 111), ("SNO", 127), ("S d", 22), ("SNd", 22), ("S g", 33), ("BDo", 111), ("HHX", 127),
    ("HHg", 33), ("FTO", 127)]

/-- The two maps. `operator[]` reads 0 for a key that is absent and adds it so, which no later read
can tell: a map is a function. -/
structure Reader where
  noteValue : String → ℤ
  noteVelocity : String → ℤ

/-- What stands before the first `'|'` of a tab line. -/
structure Channel where
  fst : Char
  snd : Char
deriving DecidableEq

/-- The upper-cased code: what `hit` is before the strike is added to it. -/
def Channel.code (channel : Channel) : String :=
  String.ofList [channel.fst.toUpper, channel.snd.toUpper]

/-- `atoi` of a code of two digits. -/
def Channel.number (channel : Channel) : ℤ :=
  (channel.fst.toNat - '0'.toNat) * 10 + (channel.snd.toNat - '0'.toNat)

namespace Reader

def new : Reader where
  noteValue key := (noteTable.lookup key).getD 0
  noteVelocity key := (velocityTable.lookup key).getD 0

/-- `define` of a note's number. -/
def setVelocity (r : Reader) (note : ℤ) (hit : String) (velocity : ℤ) : Reader :=
  { r with noteVelocity := Function.update r.noteVelocity (toString note ++ hit) velocity }

def notenum (r : Reader) (channel : Channel) : ℤ :=
  if channel.fst.isDigit && channel.snd.isDigit then channel.number
  else r.noteValue channel.code

def velocity (r : Reader) (channel : Channel) (c : Char) : ℤ :=
  let velocity := r.noteVelocity (channel.code.push c)
  if velocity = 0 then 127 else velocity

/-- `Note(notenum, velocity, 1, len)`; none is the `logic_error` of a zero division. -/
def newNote (r : Reader) (channel : Channel) (c : Char) (len : ℕ) : Option Midi.Note :=
  if len = 0 then none
  else some ⟨r.notenum channel, UInt8.ofInt (r.velocity channel c), (Duration.mk 0 1 len).normalize⟩

/-- The bar between two `'|'`. -/
def processBar (r : Reader) (bar : ℕ) (channel : Channel) (line : List Char)
    (pattern : List Midi.PatternNote) : Option (List Midi.PatternNote) :=
  line.zipIdx.foldlM (fun pattern (c, i) =>
    if c = '-' then some pattern
    else do
      let note ← r.newNote channel c line.length
      let position ← Position.ofBar bar i line.length
      some (pattern ++ [⟨note, position⟩])) pattern

/-- The loop of `processTabLine`: what is left of the line, the characters since `last`, and the
bar counter. -/
def processBars (r : Reader) (channel : Channel) :
    List Char → List Char → ℕ → List Midi.PatternNote → Option (List Midi.PatternNote × ℕ)
  | [], _, barCounter, pattern => some (pattern, barCounter)
  | c :: line, bar, barCounter, pattern =>
    if c = '|' then do
      let pattern ← r.processBar barCounter channel bar pattern
      processBars r channel line [] (barCounter + 1) pattern
    else processBars r channel line (bar ++ [c]) barCounter pattern

/-- The pattern, and the number of bars on the line. -/
def processTabLine (r : Reader) (startBar : ℕ) (line : List Char)
    (pattern : List Midi.PatternNote) : Option (List Midi.PatternNote × ℕ) := do
  let channel := ⟨line.getD 0 ' ', line.getD 1 ' '⟩
  let (pattern, barCounter) ← r.processBars channel (line.drop 3) [] startBar pattern
  some (pattern, barCounter - startBar)

end Reader

/-- `len > 3 && line[2] == '|'` -/
def isTabLine (line : List Char) : Bool := 3 < line.length && (line)[2]? = some '|'

/-- The variables of `read`. -/
structure Reading where
  startBar : ℕ
  lineBars : ℕ
  pattern : List Midi.PatternNote

/-- What `read` does with a line, the newline before it included. -/
def Reading.line (r : Reader) (s : Reading) (line : List Char) : Option Reading := do
  let line := line.dropWhile isspace
  if isTabLine line then
    let (pattern, lineBars) ← r.processTabLine s.startBar line s.pattern
    some { s with pattern := pattern, lineBars := lineBars }
  else if line = [] then some { s with startBar := s.startBar + s.lineBars, lineBars := 0 }
  else some s -- "ignoring line" on the console

/-- The loop of `read`: what is left of the text, and the characters since `last`. -/
def Reading.loop (r : Reader) : List Char → List Char → Reading → Option Reading
  | [], line, s => s.line r line
  | c :: tab, line, s =>
    if c = '\n' then do
      let s ← s.line r line
      loop r tab ['\n'] s
    else loop r tab (line ++ [c]) s

/-- None is an exception, which no text leads to. -/
def Reader.read (r : Reader) (tab : List Char) : Option (List Midi.PatternNote) :=
  (Reading.loop r tab [] ⟨1, 0, []⟩).map Reading.pattern

end Bipscript.DrumTab
