import Mathlib.Algebra.Order.Floor.Ring
import Mathlib.Data.List.Basic
import Mathlib.Data.Nat.Notation

/-! The MML parser: tokens of a text, the callbacks for the commands in it, and repeats. A read past
the terminator of the text, or a write past the end of a buffer, is undefined. -/
namespace Bipscript.Tinymml

inductive CharType
  | note | sharp | flat | rest | octave | length | volume | tempo | octaveUp | octaveDown | number
  | repeatLeft | repeatRight | userEventMarker | unknown
deriving DecidableEq

inductive Result
  | ok | eot | illegalOctaveValue | illegalLengthValue | illegalTempoValue | illegalVolumeValue
  | illegalNoteText | illegalSequenceFound | illegalTokenLength | illegalUserEventToken
  | illegalUserEventLength | illegalRepeatPair | notReadyForSetup | notReadyForFetch
  | stackFullRepeatLeft | stackEmptyRepeatLeft | stackFullRepeatRight
deriving DecidableEq

/-- `MML_INFO` -/
inductive Info
  | note (number ticks : Int32)
  | rest (ticks : Int32)
  | tempo (value : Int32)
  | length (value : Int32)
  | volume (value : Int32)
  | octave (value : Int32)
  | octaveUp (value : Int32)
  | octaveDown (value : Int32)
  | userEvent (name : List Char)
deriving DecidableEq

structure MmlOption where
  octave : Int32
  length : Int32
  bticks : Int32
deriving DecidableEq

/-- `MML_OPTION_INITIALIZER_DEFAULT` -/
def optionDefault : MmlOption := ⟨4, 8, 480⟩

inductive State
  | init | waitInit | waitSetup | fetchReady
deriving DecidableEq

/-- The handle. Pointers are indices into the text, which is up to its terminator, and the top of a
stack is its first element. -/
structure Mml where
  option : MmlOption
  text : List Char
  tp : ℕ
  state : State
  left : List ℕ
  right : List ℕ
deriving DecidableEq

def MML_WORK_BUFFER_SIZE : ℕ := 8
def MML_USER_EVENT_NAME_SIZE : ℕ := 16
def MML_STACK_MAX_DEPTH : ℕ := 8
def MML_OCTAVE_MIN : Int32 := 0
def MML_OCTAVE_MAX : Int32 := 10

/-- `mml_stack_push`; none is `MML_STACK_RESULT_ERROR_FULL`. -/
def stackPush (stack : List ℕ) (pointer : ℕ) : Option (List ℕ) :=
  if stack.length = MML_STACK_MAX_DEPTH then none else some (pointer :: stack)

def getCharType (c : Char) : CharType :=
  if c ∈ ['C', 'D', 'E', 'F', 'G', 'A', 'B'] then .note
  else if c = '+' then .sharp
  else if c = '-' then .flat
  else if c = 'R' then .rest
  else if c = 'O' then .octave
  else if c = 'L' then .length
  else if c = 'V' then .volume
  else if c = 'T' then .tempo
  else if c = '>' then .octaveUp
  else if c = '<' then .octaveDown
  else if c.isDigit ∨ c = '.' then .number
  else if c = '[' then .repeatLeft
  else if c = ']' then .repeatRight
  else if c = '@' then .userEventMarker
  else .unknown

def isWhitespace (c : Char) : Bool := c == ' ' || c == '\r' || c == '\n' || c == '\t'

def isSharpOrFlat (c : Char) : Bool := getCharType c == .sharp || getCharType c == .flat

/-- What `LIBC_ATOI` counts before it reads digits: characters to skip, signs, and the last of them.
None is its early return. -/
def atoiSigns : List Char → (ofs scnt : ℕ) → (sign : Bool) → Option (ℕ × Bool)
  | [], ofs, _, sign => some (ofs, sign)
  | c :: cs, ofs, scnt, sign =>
    if c = ' ' then atoiSigns cs (ofs + 1) scnt sign
    else if c = '+' ∨ c = '-' then
      if scnt = 0 then atoiSigns cs (ofs + 1) 1 (c == '-') else none
    else atoiSigns cs ofs scnt sign

def atoi (text : List Char) : Int32 :=
  match atoiSigns text 0 0 false with
  | none => 0
  | some (ofs, sign) =>
    let num := ((text.drop ofs).takeWhile Char.isDigit).foldl
      (fun num c => 10 * num + (Int32.ofNat c.toNat - Int32.ofNat '0'.toNat)) (0 : Int32)
    if sign then -num else num

/-- `get_note_number` -/
def getNoteNumber (option : MmlOption) (text : List Char) : Except Result Int32 :=
  match "C D EF G A B".toList.idxOf? (text.headD '\x00') with
  | none => .error .illegalNoteText
  | some distance =>
    .ok (text.tail.foldl
      (fun number c => if c = '+' then number + 1 else if c = '-' then number - 1 else number)
      (Int32.ofNat distance) + option.octave * 12)

/-- `convert_note_length_to_ticks` -/
def convertNoteLengthToTicks (option : MmlOption) (noteLength : Int32) : Except Result Int32 :=
  let bticks := option.bticks
  if noteLength = 0 then .ok 0
  else if noteLength = 1 then .ok (bticks * 4)
  else if noteLength = 2 then .ok (bticks * 2)
  else if noteLength = 4 then .ok (bticks * 1)
  else if noteLength = 8 then .ok (bticks / 2)
  else if noteLength = 16 then .ok (bticks / 4)
  else if noteLength = 32 then .ok (bticks / 8)
  else if noteLength = 64 then .ok (bticks / 16)
  else if noteLength = 23 then .ok (bticks * 4 / 3)
  else if noteLength = 43 then .ok (bticks * 2 / 3)
  else if noteLength = 83 then .ok (bticks * 1 / 3)
  else if noteLength = 163 then .ok (bticks / 2 / 3)
  else if noteLength = 323 then .ok (bticks / 4 / 3)
  else if noteLength = 643 then .ok (bticks / 8 / 3)
  else .error .illegalLengthValue

/-- The dots of `get_note_ticks`. -/
def addDots (option : MmlOption) : List Char → (noteLength ticks : Int32) → Except Result Int32
  | [], _, ticks => .ok ticks
  | c :: cs, noteLength, ticks =>
    if c = '.' then do
      let val ← convertNoteLengthToTicks option (noteLength * 2)
      addDots option cs (noteLength * 2) (ticks + val)
    else addDots option cs noteLength ticks

/-- `get_note_ticks` -/
def getNoteTicks (option : MmlOption) (text : List Char) : Except Result Int32 := do
  let val ← convertNoteLengthToTicks option (atoi text)
  addDots option text (atoi text) val

/-- `get_note_ticks_default` -/
def getNoteTicksDefault (option : MmlOption) : Except Result Int32 :=
  convertNoteLengthToTicks option option.length

/-- The first loop of `get_token`, from a count on: the characters read, and whether the buffer is
full. None is a read past the terminator. -/
def readRun (head : CharType) : (cnt : ℕ) → List Char → Option (Bool × List Char)
  | _, [] => none
  | cnt, c :: cs =>
    if getCharType c ≠ head then some (false, [])
    else if head = .note ∨ head = .repeatLeft ∨ head = .repeatRight then some (false, [c])
    else if MML_WORK_BUFFER_SIZE ≤ cnt + 1 + 1 then some (true, [c])
    else (readRun head (cnt + 1) cs).map fun r => (r.1, c :: r.2)

/-- The loop of `get_user_event_token`, from a count on: the result, the characters passed and the
name. None is a read past the terminator. -/
def readName : (cnt : ℕ) → List Char → Option (Result × ℕ × List Char)
  | _, [] => none
  | _, [c] => if c = '}' then some (.ok, 1, []) else none
  | cnt, c :: d :: cs =>
    if c = '}' then some (.ok, 1, [])
    else if d = '\x00' then some (.illegalSequenceFound, 1, [c])
    else if MML_USER_EVENT_NAME_SIZE ≤ cnt + 1 + 1 then some (.illegalUserEventLength, 1, [c])
    else (readName (cnt + 1) (d :: cs)).map fun r => (r.1, r.2.1 + 1, c :: r.2.2)

namespace Mml

/-- What `TEXT_READ` reads at each place, the terminator last. -/
def cells (h : Mml) : List Char := (h.text ++ ['\x00']).map Char.toUpper

/-- What is left from `tp` on. -/
def rest (h : Mml) : List Char := h.cells.drop h.tp

def next (h : Mml) (n : ℕ) : Mml := { h with tp := h.tp + n }

def skipWhitespace (h : Mml) : Mml := h.next (h.rest.takeWhile isWhitespace).length

/-- The end of the text pops from a repeat stack that is not empty. -/
def endOfText (h : Mml) : Result × Mml :=
  match h.left, h.right with
  | _ :: left, _ => (.illegalRepeatPair, { h with left := left })
  | [], _ :: right => (.illegalRepeatPair, { h with right := right })
  | [], [] => (.eot, h)

/-- `get_token`: the result, the token and the handle. -/
def getToken (handle : Mml) : Option (Result × List Char × Mml) :=
  let h := handle.skipWhitespace
  match h.rest with
  | [] => none
  | c :: cs =>
    if c = '\x00' then
      let r := h.endOfText
      some (r.1, [], r.2)
    else
      match readRun (getCharType c) 0 (c :: cs) with
      | none => none
      | some (true, buf) => some (.illegalTokenLength, buf, h.next buf.length)
      | some (false, buf) =>
        let buf := buf ++ ((h.next buf.length).rest.takeWhile isSharpOrFlat)
        if MML_WORK_BUFFER_SIZE ≤ buf.length then none
        else some (.ok, buf, h.next buf.length)

/-- `get_user_event_token` -/
def getUserEventToken (h : Mml) : Option (Result × List Char × Mml) :=
  match h.rest with
  | [] => none
  | c :: cs =>
    if c ≠ '{' then some (.illegalUserEventToken, [], h)
    else (readName 0 cs).map fun r => (r.1, r.2.2, h.next (1 + r.2.1))

/-- `mml_init`, which leaves the option as it finds it. -/
def init (h : Mml) : Mml := ⟨h.option, [], 0, .waitSetup, [], []⟩

/-- `mml_setup`, with an option. -/
def setup (h : Mml) (option : MmlOption) (text : List Char) : Result × Mml :=
  if h.state ≠ .waitSetup ∧ h.state ≠ .fetchReady then (.notReadyForSetup, h)
  else (.ok, ⟨option, text.takeWhile (· ≠ '\x00'), 0, .fetchReady, [], []⟩)

end Mml

/-- A fetch: the callback made, with the handle as it is then, the result, and the handle after. -/
structure Fetched where
  call : Option (Info × Mml)
  result : Result
  handle : Mml
deriving DecidableEq

/-- A return without a callback. -/
def Fetched.returns (result : Result) (handle : Mml) : Fetched := ⟨none, result, handle⟩

/-- A callback, then the return. -/
def Fetched.calls (info : Info) (result : Result) (handle : Mml) : Fetched :=
  ⟨some (info, handle), result, handle⟩

namespace Mml

/-- A command and its value: `set` is what it does to the option, `illegal` what it returns without
a number. -/
def fetchValue (h : Mml) (info : Int32 → Info) (set : Int32 → MmlOption → MmlOption)
    (illegal : Result) : Option Fetched :=
  h.getToken.map fun (mr, buf2, h) =>
    if getCharType (buf2.headD '\x00') = .number then
      .calls (info (atoi buf2)) mr { h with option := set (atoi buf2) h.option }
    else .returns illegal h

/-- A note or a rest: `info` is the callback for its ticks. Without a number the token after it is
left to be read again, and `pointer` is where. -/
def fetchTicks (h : Mml) (info : Except Result (Int32 → Info)) : Option Fetched :=
  let pointer := h.tp
  h.getToken.map fun (_, buf2, h) =>
    if getCharType (buf2.headD '\x00') = .number then
      match info <*> getNoteTicks h.option buf2 with
      | .error mr => .returns mr h
      | .ok info => .calls info .ok h
    else
      match info <*> getNoteTicksDefault h.option with
      | .error mr => .returns mr h
      | .ok info => ⟨some (info, h), .ok, { h with tp := pointer }⟩

/-- `<` and `>`: a step for each character of the token. -/
def stepOctave (step : Int32 → Int32) (h : Mml) (buf1 : List Char) : Mml :=
  { h with
    option := { h.option with octave := buf1.foldl (fun octave _ => step octave) h.option.octave } }

def octaveUp (octave : Int32) : Int32 := if octave < MML_OCTAVE_MAX then octave + 1 else octave

def octaveDown (octave : Int32) : Int32 := if MML_OCTAVE_MIN < octave then octave - 1 else octave

def repeatLeft (h : Mml) : Fetched :=
  match stackPush h.left (h.tp - 1) with
  | none => .returns .stackFullRepeatLeft h
  | some left => .returns .ok { h with left := left }

/-- Back to the last left bracket. -/
def jumpBack (h : Mml) : Fetched :=
  match h.left with
  | [] => .returns .stackEmptyRepeatLeft h
  | p :: left => .returns .ok { h with left := left, tp := p + 1 }

def repeatRight (h : Mml) : Fetched :=
  let rsp := h.tp - 1
  match h.right with
  | [] => { h with right := [rsp] }.jumpBack
  | p :: right =>
    if rsp = p then .returns .ok { h with right := right }
    else
      match stackPush (p :: right) rsp with
      | none => .returns .stackFullRepeatRight h
      | some right => { h with right := right }.jumpBack

/-- `mml_fetch`; none is undefined. -/
def fetch (handle : Mml) : Option Fetched :=
  if handle.state ≠ .fetchReady then some (.returns .notReadyForFetch handle)
  else do
    let (mr, buf1, h) ← handle.getToken
    if mr ≠ .ok then some (.returns mr h)
    else
      match getCharType (buf1.headD '\x00') with
      | .note => h.fetchTicks ((getNoteNumber h.option buf1).map Info.note)
      | .rest => h.fetchTicks (.ok .rest)
      | .tempo => h.fetchValue .tempo (fun _ option => option) .illegalTempoValue
      | .volume => h.fetchValue .volume (fun _ option => option) .illegalVolumeValue
      | .length =>
        h.fetchValue .length (fun value option => { option with length := value })
          .illegalLengthValue
      | .octave =>
        h.fetchValue .octave (fun value option => { option with octave := value })
          .illegalOctaveValue
      | .octaveUp =>
        let h := stepOctave octaveUp h buf1
        some (.calls (.octaveUp h.option.octave) .ok h)
      | .octaveDown =>
        let h := stepOctave octaveDown h buf1
        some (.calls (.octaveDown h.option.octave) .ok h)
      | .repeatLeft => some h.repeatLeft
      | .repeatRight => some h.repeatRight
      | .userEventMarker => do
        let (mr, name, h) ← h.getUserEventToken
        some (if mr = .ok then .calls (.userEvent name) mr h else .returns mr h)
      | .number | .sharp | .flat | .unknown => some (.returns .illegalSequenceFound h)

end Mml

/-- How a loop over fetches ends: with the first result that is not `MML_RESULT_OK`, or undefined.
The last is for a loop that is cut off. -/
inductive Ending
  | result (mr : Result) (handle : Mml)
  | undefined
  | cut
deriving DecidableEq

/-- `while (mml_fetch(&mml) == MML_RESULT_OK) {}`, at most so many times: the callbacks, each with
the handle as it is then, and the end. -/
def fetchLoop : ℕ → Mml → List (Info × Mml) × Ending
  | 0, _ => ([], .cut)
  | fuel + 1, h =>
    match h.fetch with
    | none => ([], .undefined)
    | some ⟨call, mr, h⟩ =>
      if mr = .ok then (call.toList ++ (fetchLoop fuel h).1, (fetchLoop fuel h).2)
      else (call.toList, .result mr h)

/-- More than the loop over a text can take. -/
def fetches (h : Mml) : ℕ := (h.text.length + 3) ^ 9

/-- The loop of `read`. -/
def parse (h : Mml) : List (Info × Mml) × Ending := fetchLoop (fetches h) h

end Bipscript.Tinymml
