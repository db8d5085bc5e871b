import Bipscript.MmlParser
import Mathlib.Data.List.Basic

/-! Programs of the language that the parser reads: what they mean, and the texts that spell them.
-/
namespace Bipscript.Tinymml

inductive Letter
  | C | D | E | F | G | A | B
deriving DecidableEq

inductive Accidental
  | sharp | flat
deriving DecidableEq

namespace Letter

def char : Letter → Char
  | C => 'C' | D => 'D' | E => 'E' | F => 'F' | G => 'G' | A => 'A' | B => 'B'

/-- Half tones above a C. -/
def halfTones : Letter → ℕ
  | C => 0 | D => 2 | E => 4 | F => 5 | G => 7 | A => 9 | B => 11

end Letter

namespace Accidental

def char : Accidental → Char
  | sharp => '+' | flat => '-'

def halfTones : Accidental → ℤ
  | sharp => 1 | flat => -1

end Accidental

/-- The ticks of a whole note. -/
def WHOLE : ℕ := 1920

/-- The length of a note: none in a chord; a whole, a half, and so on to a 64th, with dots for half
of it and half of that; or two thirds of a half and so on. -/
inductive Length
  | none
  | plain (k dots : ℕ) (h : k + dots ≤ 6)
  | triplet (k : ℕ) (h : k ≤ 5)
deriving DecidableEq

namespace Length

/-- How a length is called. -/
def number : Length → ℕ
  | none => 0
  | plain k _ _ => 2 ^ k
  | triplet k _ => 10 * 2 ^ (k + 1) + 3

def dots : Length → ℕ
  | plain _ dots _ => dots
  | _ => 0

def ticks : Length → ℕ
  | none => 0
  | plain k dots _ => ((List.range (dots + 1)).map fun i => WHOLE / 2 ^ (k + i)).sum
  | triplet k _ => 2 * WHOLE / 3 / 2 ^ (k + 1)

def undotted : Length → Length
  | plain k dots h => plain k 0 (by omega)
  | length => length

end Length

inductive Command
  | note (letter : Letter) (accidentals : List Accidental) (given : Option Length)
  | rest (given : Option Length)
  | tempo (value : ℕ)
  | volume (value : ℕ)
  | length (value : Length)
  | octave (value : ℕ)
  | octaveUp (steps : ℕ)
  | octaveDown (steps : ℕ)
  | userEvent (name : List Char)
deriving DecidableEq

/-- What is in brackets is repeated once. -/
inductive Program
  | done
  | command (c : Command) (next : Program)
  | repeats (body next : Program)
deriving DecidableEq

/-- The octave, and the length of a note without a number. -/
structure Settings where
  octave : ℕ
  length : Length

/-- The fourth octave, and eighths. -/
def Settings.default : Settings := ⟨4, .plain 3 0 (by omega)⟩

/-- The callback for a command, and the settings after it. -/
def Command.meaning (s : Settings) : Command → Info × Settings
  | note letter accidentals given =>
    (.note
      (.ofInt (12 * s.octave + letter.halfTones + (accidentals.map Accidental.halfTones).sum))
      (.ofNat (given.getD s.length).ticks), s)
  | rest given => (.rest (.ofNat (given.getD s.length).ticks), s)
  | tempo value => (.tempo (.ofNat value), s)
  | volume value => (.volume (.ofNat value), s)
  | length value => (.length (.ofNat value.number), { s with length := value.undotted })
  | octave value => (.octave (.ofNat value), { s with octave := value })
  | octaveUp steps =>
    let octave := max s.octave (min 10 (s.octave + steps))
    (.octaveUp (.ofNat octave), { s with octave })
  | octaveDown steps =>
    let octave := s.octave - steps
    (.octaveDown (.ofNat octave), { s with octave })
  | userEvent name => (.userEvent name, s)

/-- All callbacks, and the settings after them. -/
def Program.meaning : Program → Settings → List Info × Settings
  | done, s => ([], s)
  | command c next, s =>
    let r := c.meaning s
    let t := next.meaning r.2
    (r.1 :: t.1, t.2)
  | repeats body next, s =>
    let r := body.meaning s
    let r' := body.meaning r.2
    let t := next.meaning r'.2
    (r.1 ++ r'.1 ++ t.1, t.2)

/-- How deep the brackets are. -/
def Program.depth : Program → ℕ
  | done => 0
  | command _ next => next.depth
  | repeats body next => max (body.depth + 1) next.depth

/-! How programs are written, in upper case. -/

/-- A number and its dots, in a token of at most six characters. -/
inductive IsNumber (n dots : ℕ) : List Char → Prop
  | mk {digits} (hne : digits ≠ []) (hdigits : ∀ c ∈ digits, c.isDigit = true)
      (hvalue : Nat.ofDigitChars 10 digits 0 = n) (hlength : digits.length + dots ≤ 6) :
      IsNumber n dots (digits ++ List.replicate dots '.')

/-- Space, then a number. -/
inductive IsValue (n dots : ℕ) : List Char → Prop
  | mk {space u} (hspace : ∀ c ∈ space, isWhitespace c = true) (hu : IsNumber n dots u) :
      IsValue n dots (space ++ u)

/-- Nothing, or space and a length. -/
inductive IsTicks : Option Length → List Char → Prop
  | none : IsTicks none []
  | some {length : Length} {u} (hu : IsValue length.number length.dots u) :
      IsTicks (some length) u

/-- The characters that a command is known by. -/
def Command.token : Command → List Char
  | note letter accidentals _ => letter.char :: accidentals.map Accidental.char
  | rest _ => ['R']
  | tempo _ => ['T']
  | volume _ => ['V']
  | length _ => ['L']
  | octave _ => ['O']
  | octaveUp steps => List.replicate steps '>'
  | octaveDown steps => List.replicate steps '<'
  | userEvent _ => ['@']

/-- What may stand after these. -/
inductive Command.Argument : Command → List Char → Prop
  | note {letter : Letter} {accidentals : List Accidental} {given u}
      (ha : accidentals.length ≤ 6) (hu : IsTicks given u) :
      Argument (.note letter accidentals given) u
  | rest {given u} (hu : IsTicks given u) : Argument (.rest given) u
  | tempo {value u} (hu : IsValue value 0 u) : Argument (.tempo value) u
  | volume {value u} (hu : IsValue value 0 u) : Argument (.volume value) u
  | length {value : Length} {u} (hu : IsValue value.number value.dots u) :
      Argument (.length value) u
  | octave {value u} (hu : IsValue value 0 u) : Argument (.octave value) u
  | octaveUp {steps} (h : 0 < steps) (h' : steps ≤ 6) : Argument (.octaveUp steps) []
  | octaveDown {steps} (h : 0 < steps) (h' : steps ≤ 6) : Argument (.octaveDown steps) []
  | userEvent {name : List Char} (hname : ∀ c ∈ name, c ≠ '}' ∧ c ≠ '\x00')
      (hlength : name.length ≤ 14) : Argument (.userEvent name) ('{' :: (name ++ ['}']))

/-- No rest or step of the octave goes on into the next: it would be one with it. -/
def Apart (u v : List Char) : Prop :=
  ∀ c ∈ u.getLast?, c ∈ v.head? → c ≠ 'R' ∧ c ≠ '>' ∧ c ≠ '<'

/-- The texts of a program in upper case, with space anywhere between commands. -/
inductive Spells : Program → List Char → Prop
  | done : Spells .done []
  | space {p c u} (hc : isWhitespace c = true) (h : Spells p u) : Spells p (c :: u)
  | command {c next u v} (hu : c.Argument u) (hapart : Apart (c.token ++ u) v)
      (h : Spells next v) : Spells (.command c next) (c.token ++ (u ++ v))
  | repeats {body next u v} (hu : Spells body u) (hv : Spells next v) :
      Spells (.repeats body next) ('[' :: (u ++ ']' :: v))

/-- A text, up to its terminator. -/
def SpelledBy (p : Program) (text : List Char) : Prop :=
  Spells p ((text.takeWhile (· ≠ '\x00')).map Char.toUpper)

/-! The text of a program that has one, a space after each command. -/

def Length.text (length : Length) : List Char :=
  Nat.toDigits 10 length.number ++ List.replicate length.dots '.'

def Command.argument : Command → List Char
  | note _ _ given => given.elim [] Length.text
  | rest given => given.elim [] Length.text
  | tempo value => Nat.toDigits 10 value
  | volume value => Nat.toDigits 10 value
  | length value => value.text
  | octave value => Nat.toDigits 10 value
  | octaveUp _ => []
  | octaveDown _ => []
  | userEvent name => '{' :: (name ++ ['}'])

def Program.text : Program → List Char
  | done => []
  | command c next => c.token ++ (c.argument ++ ' ' :: next.text)
  | repeats body next => '[' :: (body.text ++ ']' :: next.text)

/-- Tokens and names are within the buffers of the parser, which knows no lower case. -/
def Command.Fits : Command → Prop
  | note _ accidentals given => accidentals.length ≤ 6 ∧ ∀ length ∈ given, length.text.length ≤ 6
  | rest given => ∀ length ∈ given, length.text.length ≤ 6
  | tempo value => value < 10 ^ 6
  | volume value => value < 10 ^ 6
  | length value => value.text.length ≤ 6
  | octave value => value < 10 ^ 6
  | octaveUp steps => 0 < steps ∧ steps ≤ 6
  | octaveDown steps => 0 < steps ∧ steps ≤ 6
  | userEvent name =>
    name.length ≤ 14 ∧ ∀ c ∈ name, (c ≠ '}' ∧ c ≠ '\x00') ∧ c.toUpper = c

def Program.Fits : Program → Prop
  | done => True
  | command c next => c.Fits ∧ next.Fits
  | repeats body next => body.Fits ∧ next.Fits

end Bipscript.Tinymml
