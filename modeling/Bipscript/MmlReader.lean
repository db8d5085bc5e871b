import Bipscript.AbcNotes
import Bipscript.Connect
import Bipscript.MmlParser

/-! The MML reader: the notes that the callbacks of its parser add, and where they stand. -/
namespace Bipscript

/-- The constructor from three numbers. -/
def Duration.new (whole position division : ℕ) : Except String Duration :=
  if division = 0 then .error "division cannot be zero!"
  else .ok (normalize ⟨whole, position, division⟩)

structure Transport.TimeSignature where
  valid : Bool
  numerator : UInt32
  denominator : UInt32

namespace Midi

open Tinymml (Info Mml MmlOption)

def MMLReader.MAX_CHORD_SIZE : ℕ := 8

/-- The tones that wait are those of `chordTone` below `chordSize`. -/
@[ext] structure MMLReader where
  mml : Mml
  mmlopt : MmlOption
  pattern : List PatternNote
  currentPosition : Position
  ticksPerBar : UInt32
  chord : List UInt8
  chordSize : chord.length ≤ MMLReader.MAX_CHORD_SIZE

namespace MMLReader

/-- The constructor, which leaves the pattern, the ticks and what `mml_init` does not write as it
finds them. -/
def new (mml : Mml) (pattern : List PatternNote) (ticksPerBar : UInt32) : MMLReader where
  mml := mml.init
  mmlopt := Tinymml.optionDefault
  pattern := pattern
  currentPosition := ⟨⟨0, 0, 1⟩, Nat.zero_lt_one⟩
  ticksPerBar := ticksPerBar
  chord := []
  chordSize := Nat.zero_le _

def processNote (r : MMLReader) (number ticks : Int32) : Outcome MMLReader :=
  if ticks ≠ 0 then
    match Duration.new 0 ticks.toUInt32.toNat r.ticksPerBar.toNat with
    | .error what => .thrown r what
    | .ok duration =>
      let note : PatternNote := ⟨⟨number.toInt, 127, duration⟩, r.currentPosition⟩
      -- the chord that waits comes first
      let chordNotes := r.chord.map fun tone =>
        (⟨⟨tone.toNat, 127, duration⟩, r.currentPosition⟩ : PatternNote)
      match r.currentPosition.add duration with
      | none => .undefined
      | some position =>
        .returned
          { r with
            pattern := r.pattern ++ chordNotes ++ [note]
            currentPosition := position
            chord := []
            chordSize := Nat.zero_le _ }
  -- a note without length is part of a chord
  else if h : r.chord.length < MAX_CHORD_SIZE then
    .returned
      { r with
        chord := r.chord ++ [number.toUInt32.toUInt8]
        chordSize := by rwa [List.length_append, List.length_singleton] }
  else .returned r

def processRest (r : MMLReader) (ticks : Int32) : Outcome MMLReader :=
  match Duration.new 0 ticks.toUInt32.toNat r.ticksPerBar.toNat with
  | .error what => .thrown r what
  | .ok duration =>
    match r.currentPosition.add duration with
    | none => .undefined
    | some position =>
      .returned { r with currentPosition := position, chord := [], chordSize := Nat.zero_le _ }

/-- `mml_callback` -/
def callback (r : MMLReader) : Info → Outcome MMLReader
  | .note number ticks => r.processNote number ticks
  | .rest ticks => r.processRest ticks
  | _ => .returned r

def withParser (r : MMLReader) (mml : Mml) : MMLReader := { r with mml := mml }

/-- The callbacks one after the other, each with the parser as it is then. -/
def process (r : MMLReader) : List (Info × Mml) → Outcome MMLReader
  | [] => .returned r
  | (info, mml) :: calls => ((r.withParser mml).callback info).andThen fun r => r.process calls

/-- The ticks of a bar; none is a division by zero. -/
def barTicks (option : MmlOption) (time : Transport.TimeSignature) : Option UInt32 :=
  if time.valid then
    if time.denominator = 0 then none
    else some (option.bticks.toUInt32 * time.numerator * 4 / time.denominator)
  else some (option.bticks * 4).toUInt32

/-- What `read` does before its loop. -/
def start (r : MMLReader) (ticksPerBar : UInt32) (text : List Char) : MMLReader :=
  { r with
    pattern := []
    currentPosition := Abc.firstBar
    ticksPerBar := ticksPerBar
    mml := (r.mml.setup r.mmlopt text).2 }

/-- The end of the loop of `read`, after the last callback. -/
def finish (ending : Tinymml.Ending) (r : MMLReader) : Outcome MMLReader :=
  match ending with
  | .result _ mml => .returned (r.withParser mml)
  | .undefined | .cut => .undefined

def read (r : MMLReader) (time : Transport.TimeSignature) (text : List Char) : Outcome MMLReader :=
  match barTicks r.mmlopt time with
  | none => .undefined
  | some ticksPerBar =>
    let r := r.start ticksPerBar text
    let parse := Tinymml.parse r.mml
    (r.process parse.1).andThen (finish parse.2)

/-- A note with a length, or a rest: no note before it waits any longer. -/
def resets : Info → Bool
  | .note _ ticks => ticks ≠ 0
  | .rest _ => true
  | _ => false

/-- The tone of a note without length. -/
def tone : Info → Option UInt8
  | .note number ticks => if ticks = 0 then some number.toUInt32.toUInt8 else none
  | _ => none

/-- The notes without length after another callback. -/
def waits (chord : List UInt8) (c : Info) : List UInt8 :=
  if resets c then [] else chord ++ (tone c).toList

/-- The notes without length since the last note with a length or rest. -/
def waiting (cs : List Info) : List UInt8 := cs.foldl waits []

def ticks : Info → Int32
  | .note _ ticks => ticks
  | .rest ticks => ticks
  | _ => 0

def elapsed (cs : List Info) : ℕ := (cs.map fun c => (ticks c).toInt.toNat).sum

/-- A note with the ticks before it and its own. -/
structure Sounded where
  pitch : ℤ
  start : ℕ
  length : ℕ

/-- The notes of a callback: up to eight that waited, and its own. -/
def sounded (before : List Info) : Info → List Sounded
  | .note number ticks =>
    if 0 < ticks then
      ((waiting before).take 8).map (fun tone => ⟨tone.toNat, elapsed before, ticks.toInt.toNat⟩) ++
        [⟨number.toInt, elapsed before, ticks.toInt.toNat⟩]
    else []
  | _ => []

/-- The notes of all callbacks, after those `before`. -/
def score : (before : List Info) → List Info → List Sounded
  | _, [] => []
  | before, c :: cs => sounded before c ++ score (before ++ [c]) cs

/-- A note stands at the bar that the ticks before it make, for as long as its own. -/
structure Right (perBar : ℕ) (added : PatternNote) (n : Sounded) : Prop where
  pitch : added.note.value = n.pitch
  start : added.position.value = 1 + (n.start : ℚ) / perBar
  length : added.note.duration.value = (n.length : ℚ) / perBar

/-- Where `read` starts, with nothing that waits. -/
structure Ready (perBar : ℕ) (r : MMLReader) : Prop where
  pattern : r.pattern = []
  position : r.currentPosition = Abc.firstBar
  ticksPerBar : r.ticksPerBar.toNat = perBar
  chord : r.chord = []

/-- The callbacks return, and the notes added are those of the score, in its order. -/
def Plays (perBar : ℕ) (r : MMLReader) (cs : List (Info × Mml)) : Prop :=
  ∃ r', r.process cs = .returned r' ∧
    List.Forall₂ (Right perBar) r'.pattern (score [] (cs.map Prod.fst))

/-- The bar of every note that has a length fits in 32 bits. -/
def Fits (perBar : ℕ) (cs : List Info) : Prop :=
  ∀ before number ticks after, cs = before ++ .note number ticks :: after → 0 < ticks →
    1 + elapsed before / perBar < 2 ^ 32

/-- Where a callback leaves the position; none is a division by zero. -/
def advance (perBar : ℕ) (p : Position) : Info → Option Position
  | .note _ ticks =>
    if ticks ≠ 0 then p.add (Duration.normalize ⟨0, ticks.toUInt32.toNat, perBar⟩) else some p
  | .rest ticks => p.add (Duration.normalize ⟨0, ticks.toUInt32.toNat, perBar⟩)
  | _ => some p

/-- The notes that a callback adds. -/
def added (perBar : ℕ) (p : Position) (chord : List UInt8) : Info → List PatternNote
  | .note number ticks =>
    if ticks ≠ 0 then
      let duration := Duration.normalize ⟨0, ticks.toUInt32.toNat, perBar⟩
      chord.map (fun tone => ⟨⟨tone.toNat, 127, duration⟩, p⟩) ++
        [⟨⟨number.toInt, 127, duration⟩, p⟩]
    else []
  | _ => []

variable {r r' : MMLReader} {perBar : ℕ} {p : Position} {c : Info} {mml : Mml} {chord : List UInt8}
  {cs before : List Info} {calls : List (Info × Mml)}

theorem take_take_append {α : Type*} (n : ℕ) (xs ys : List α) :
    (xs.take n ++ ys).take n = (xs ++ ys).take n := by
  rw [List.take_append, List.take_append, List.take_take, min_self, List.length_take]
  congr 2
  omega

theorem waits_take (chord : List UInt8) (c : Info) :
    (waits (chord.take MAX_CHORD_SIZE) c).take MAX_CHORD_SIZE =
      (waits chord c).take MAX_CHORD_SIZE := by
  unfold waits
  split
  · rfl
  · exact take_take_append _ _ _

theorem waits_of_resets (hresets : resets c = true) : waits chord c = [] := if_pos hresets

theorem waits_of_not_resets (hresets : resets c = false) :
    waits chord c = chord ++ (tone c).toList := by
  rw [waits, hresets, if_neg Bool.false_ne_true]

theorem advance_of_not_resets (hresets : resets c = false) : advance perBar p c = some p := by
  cases c with
  | note number ticks => exact if_neg (of_decide_eq_false hresets)
  | rest ticks => cases hresets
  | _ => rfl

theorem added_of_not_resets (hresets : resets c = false) : added perBar p chord c = [] := by
  cases c with
  | note number ticks => exact if_neg (of_decide_eq_false hresets)
  | _ => rfl

/-- What a callback leaves at a position that it advances to. -/
def follow (r : MMLReader) (c : Info) (position : Position) : MMLReader :=
  { r with
    pattern := r.pattern ++ added r.ticksPerBar.toNat r.currentPosition r.chord c
    currentPosition := position
    chord := (waits r.chord c).take MAX_CHORD_SIZE
    chordSize := List.length_take_le _ _ }

theorem follow_pattern (r : MMLReader) (c : Info) (position : Position) :
    (r.follow c position).pattern =
      r.pattern ++ added r.ticksPerBar.toNat r.currentPosition r.chord c := rfl

theorem follow_chord (r : MMLReader) (c : Info) (position : Position) :
    (r.follow c position).chord = (waits r.chord c).take MAX_CHORD_SIZE := rfl

/-- A callback that takes no time only adds to what waits. -/
theorem callback_of_not_resets (hresets : resets c = false) :
    r.callback c = .returned (r.follow c r.currentPosition) := by
  have hpattern : (r.follow c r.currentPosition).pattern = r.pattern := by
    rw [follow_pattern, added_of_not_resets hresets, List.append_nil]
  have hchord : (r.follow c r.currentPosition).chord =
      (r.chord ++ (tone c).toList).take MAX_CHORD_SIZE := by
    rw [follow_chord, waits_of_not_resets hresets]
  cases c with
  | note number ticks =>
    have hticks : ticks = 0 := not_not.mp (of_decide_eq_false hresets)
    have htone : tone (.note number ticks) = some number.toUInt32.toUInt8 := if_pos hticks
    rw [htone, Option.toList_some] at hchord
    unfold callback processNote
    dsimp only
    rw [if_neg (not_not.mpr hticks)]
    split
    · rename_i hroom
      refine congrArg Outcome.returned (MMLReader.ext rfl rfl hpattern.symm rfl rfl ?_)
      rw [hchord, List.take_of_length_le]
      rwa [List.length_append, List.length_singleton]
    · rename_i hfull
      have hsize : r.chord.length = MAX_CHORD_SIZE := le_antisymm r.chordSize (not_lt.mp hfull)
      refine congrArg Outcome.returned (MMLReader.ext rfl rfl hpattern.symm rfl rfl ?_)
      rw [hchord, ← hsize, List.take_left]
  | rest ticks => cases hresets
  | _ =>
    refine congrArg Outcome.returned (MMLReader.ext rfl rfl hpattern.symm rfl rfl ?_)
    rw [hchord]
    refine (List.take_of_length_le r.chordSize).symm.trans ?_
    exact congrArg _ (List.append_nil r.chord).symm

/-- Where a bar has ticks, a callback returns if it can advance. -/
theorem callback_eq (h : r.ticksPerBar.toNat ≠ 0) (c : Info) :
    r.callback c =
      match advance r.ticksPerBar.toNat r.currentPosition c with
      | none => .undefined
      | some position => .returned (r.follow c position) := by
  by_cases hresets : resets c = true
  · cases c with
    | note number ticks =>
      have hticks : ticks ≠ 0 := of_decide_eq_true hresets
      unfold callback processNote advance
      dsimp only
      rw [if_pos hticks, if_pos hticks, Duration.new, if_neg h]
      dsimp only
      cases r.currentPosition.add _ with
      | none => rfl
      | some position =>
        refine congrArg Outcome.returned (MMLReader.ext rfl rfl ?_ rfl rfl ?_)
        · rw [follow_pattern, added, if_pos hticks, List.append_assoc]
        · rw [follow_chord, waits_of_resets hresets, List.take_nil]
    | rest ticks =>
      unfold callback processRest advance
      dsimp only
      rw [Duration.new, if_neg h]
      dsimp only
      cases r.currentPosition.add _ with
      | none => rfl
      | some position =>
        exact congrArg Outcome.returned (MMLReader.ext rfl rfl (List.append_nil _).symm rfl rfl rfl)
    | _ => cases hresets
  · rw [Bool.not_eq_true] at hresets
    rw [advance_of_not_resets hresets]
    exact callback_of_not_resets hresets

/-- A note as the reader adds it. -/
structure Coded (perBar : ℕ) (added : PatternNote) (n : Sounded) : Prop where
  pitch : added.note.value = n.pitch
  start : Abc.Stands perBar added.position.toDuration n.start
  length : added.note.duration = Duration.normalize ⟨0, n.length, perBar⟩
  length_lt : n.length < 2 ^ 32

/-- The reader follows the callbacks `before`. -/
structure Follows (perBar : ℕ) (before : List Info) (r : MMLReader) : Prop where
  ticksPerBar : r.ticksPerBar.toNat = perBar
  stands : Abc.Stands perBar r.currentPosition.toDuration (elapsed before)
  chord : r.chord = (waiting before).take MAX_CHORD_SIZE

theorem elapsed_concat (before : List Info) (c : Info) :
    elapsed (before ++ [c]) = elapsed before + (ticks c).toInt.toNat := by
  rw [elapsed, List.map_append, List.sum_append, List.map_singleton, List.sum_singleton]
  rfl

theorem waiting_concat (before : List Info) (c : Info) :
    waiting (before ++ [c]) = waits (waiting before) c := by
  rw [waiting, List.foldl_concat]
  rfl

theorem toNat_lt (ticks : Int32) : ticks.toInt.toNat < 2 ^ 32 := by
  have hlt := ticks.toInt_lt
  omega

section Run

variable (h : 0 < perBar) (hmax : perBar ≤ Duration.MAX_DENOMINATOR)

include h hmax

theorem exists_advance {sum : ℕ} (hstands : Abc.Stands perBar p.toDuration sum) (hc : 0 ≤ ticks c) :
    ∃ position, advance perBar p c = some position ∧
      Abc.Stands perBar position.toDuration (sum + (ticks c).toInt.toNat) := by
  cases c with
  | note number ticks =>
    have hword : ticks.toUInt32.toNat = ticks.toInt.toNat := Int32.toNat_toUInt32_of_le hc
    by_cases hticks : ticks = 0
    · subst hticks
      exact ⟨p, rfl, hstands⟩
    · obtain ⟨position, hadd, hat⟩ := hstands.exists_add h hmax (toNat_lt ticks)
      refine ⟨position, ?_, .inr hat⟩
      rw [advance, if_pos hticks, hword, hadd]
  | rest ticks =>
    have hword : ticks.toUInt32.toNat = ticks.toInt.toNat := Int32.toNat_toUInt32_of_le hc
    obtain ⟨position, hadd, hat⟩ := hstands.exists_add h hmax (toNat_lt ticks)
    refine ⟨position, ?_, .inr hat⟩
    rw [advance, hword, hadd]
  | _ => exact ⟨p, rfl, hstands⟩

theorem right_iff {added : PatternNote} {n : Sounded} (hcoded : Coded perBar added n) :
    Right perBar added n ↔ 1 + n.start / perBar < 2 ^ 32 := by
  have hposition : added.position.value = (Duration.atTick perBar n.start).value := by
    rcases hcoded.start with ⟨hfirst, hzero⟩ | hat
    · rw [hfirst, hzero]
      unfold Duration.atTick Duration.value
      rw [Nat.zero_div, Nat.zero_mod]
      norm_num [Abc.firstBar]
    · rw [hat]
  have hlength : added.note.duration.value = (n.length : ℚ) / perBar := by
    rw [hcoded.length, Duration.elapsed_eq hmax hcoded.length_lt, (Duration.mixed n.length h).1]
    rfl
  have hiff := Duration.atTick_value_iff h (le_refl n.start)
  rw [← hposition, eq_self, true_and] at hiff
  exact ⟨fun hright => hiff.mp hright.start, fun hlt => ⟨hcoded.pitch, hiff.mpr hlt, hlength⟩⟩

end Run

theorem added_coded (hfollows : Follows perBar before r) (hc : 0 ≤ ticks c) :
    List.Forall₂ (Coded perBar) (added perBar r.currentPosition r.chord c) (sounded before c) := by
  cases c with
  | note number ticks =>
    have hword : ticks.toUInt32.toNat = ticks.toInt.toNat := Int32.toNat_toUInt32_of_le hc
    by_cases hticks : ticks = 0
    · subst hticks
      exact .nil
    · have hpos : 0 < ticks := Int32.lt_of_le_of_ne hc (Ne.symm hticks)
      rw [added, if_pos hticks, sounded, if_pos hpos, hfollows.chord, hword]
      refine List.rel_append ?_ (.cons ⟨rfl, hfollows.stands, rfl, toNat_lt ticks⟩ .nil)
      rw [List.forall₂_map_left_iff, List.forall₂_map_right_iff]
      exact List.forall₂_same.mpr fun tone _ => ⟨rfl, hfollows.stands, rfl, toNat_lt ticks⟩
  | _ => exact .nil

/-- A callback, and the notes it adds. -/
theorem Follows.callback (h : 0 < perBar) (hmax : perBar ≤ Duration.MAX_DENOMINATOR)
    (hfollows : Follows perBar before r) (hc : 0 ≤ ticks c) :
    ∃ r', r.callback c = .returned r' ∧ Follows perBar (before ++ [c]) r' ∧
      ∃ added, r'.pattern = r.pattern ++ added ∧
        List.Forall₂ (Coded perBar) added (sounded before c) := by
  obtain ⟨position, hadd, hat⟩ := exists_advance h hmax hfollows.stands hc
  have hcall := callback_eq (hfollows.ticksPerBar ▸ h.ne') c
  rw [hfollows.ticksPerBar, hadd] at hcall
  refine ⟨r.follow c position, hcall, ⟨hfollows.ticksPerBar, ?_, ?_⟩, _, rfl, ?_⟩
  · rw [elapsed_concat]
    exact hat
  · rw [waiting_concat, ← waits_take, ← hfollows.chord]
    rfl
  · rw [hfollows.ticksPerBar]
    exact added_coded hfollows hc

theorem Follows.process (h : 0 < perBar) (hmax : perBar ≤ Duration.MAX_DENOMINATOR)
    (hfollows : Follows perBar before r) (hc : ∀ c ∈ calls, 0 ≤ ticks c.1) :
    ∃ r', r.process calls = .returned r' ∧
      ∃ added, r'.pattern = r.pattern ++ added ∧
        List.Forall₂ (Coded perBar) added (score before (calls.map Prod.fst)) := by
  induction calls generalizing r before with
  | nil => exact ⟨r, rfl, [], (List.append_nil _).symm, .nil⟩
  | cons call calls ih =>
    obtain ⟨c, mml⟩ := call
    have hfollows' : Follows perBar before (r.withParser mml) :=
      ⟨hfollows.ticksPerBar, hfollows.stands, hfollows.chord⟩
    obtain ⟨hfirst, hrest⟩ := List.forall_mem_cons.mp hc
    obtain ⟨r₁, hcall, hfollows₁, added₁, hpattern₁, hcoded₁⟩ := hfollows'.callback h hmax hfirst
    obtain ⟨r₂, hprocess, added₂, hpattern₂, hcoded₂⟩ := ih hfollows₁ hrest
    refine ⟨r₂, ?_, added₁ ++ added₂, ?_, List.rel_append hcoded₁ hcoded₂⟩
    · unfold MMLReader.process
      rw [hcall]
      exact hprocess
    · rw [hpattern₂, hpattern₁, List.append_assoc]
      rfl

theorem forall_score_iff {P : ℕ → Prop} :
    (∀ n ∈ score before cs, P n.start) ↔
      ∀ pre number ticks post, cs = pre ++ .note number ticks :: post → 0 < ticks →
        P (elapsed (before ++ pre)) := by
  induction cs generalizing before with
  | nil =>
    refine iff_of_true nofun fun pre number ticks post he => ?_
    exact absurd (congrArg List.length he) (by simp)
  | cons c cs ih =>
    rw [score, List.forall_mem_append, ih]
    constructor
    · rintro ⟨hfirst, hrest⟩ pre number ticks post he hpos
      cases pre with
      | nil =>
        obtain ⟨rfl, rfl⟩ := List.cons.inj he
        rw [sounded, if_pos hpos, List.forall_mem_append, List.forall_mem_singleton] at hfirst
        rw [List.append_nil]
        exact hfirst.2
      | cons d pre =>
        obtain ⟨rfl, rfl⟩ := List.cons.inj he
        have hlast := hrest pre number ticks post rfl hpos
        rwa [List.append_assoc] at hlast
    · refine fun hall => ⟨fun n hn => ?_, fun pre number ticks post he hpos => ?_⟩
      · cases c with
        | note number ticks =>
          rw [sounded] at hn
          split at hn
          · rename_i hpos
            have hhere := hall [] number ticks cs rfl hpos
            rw [List.append_nil] at hhere
            rcases List.mem_append.mp hn with hn | hn
            · obtain ⟨tone, -, rfl⟩ := List.mem_map.mp hn
              exact hhere
            · obtain rfl := List.mem_singleton.mp hn
              exact hhere
          · cases hn
        | _ => cases hn
      · have hlast := hall (c :: pre) number ticks post (by rw [he]; rfl) hpos
        rwa [List.append_assoc]

theorem fits_iff_forall_score :
    Fits perBar cs ↔ ∀ n ∈ score [] cs, 1 + n.start / perBar < 2 ^ 32 := by
  have hiff : (∀ n ∈ score [] cs, 1 + n.start / perBar < 2 ^ 32) ↔ _ :=
    forall_score_iff (P := fun start => 1 + start / perBar < 2 ^ 32)
  exact hiff.symm

theorem follows_of_ready (hr : Ready perBar r) : Follows perBar [] r :=
  ⟨hr.ticksPerBar, .inl ⟨congrArg Position.toDuration hr.position, rfl⟩, hr.chord⟩

theorem plays_iff_forall_score (hr : Ready perBar r) (h : 0 < perBar)
    (hmax : perBar ≤ Duration.MAX_DENOMINATOR) (hc : ∀ c ∈ calls, 0 ≤ ticks c.1) :
    Plays perBar r calls ↔
      ∀ n ∈ score [] (calls.map Prod.fst), 1 + n.start / perBar < 2 ^ 32 := by
  obtain ⟨r', hprocess, added, hpattern, hcoded⟩ := (follows_of_ready hr).process h hmax hc
  rw [hr.pattern, List.nil_append] at hpattern
  have hright : List.Forall₂ (Right perBar) added (score [] (calls.map Prod.fst)) ↔
      ∀ n ∈ score [] (calls.map Prod.fst), 1 + n.start / perBar < 2 ^ 32 :=
    forall₂_iff_of_forall₂ hcoded fun _ _ _ hnote => right_iff h hmax hnote
  rw [← hright, ← hpattern]
  constructor
  · rintro ⟨r'', hprocess', hplays⟩
    obtain rfl := Outcome.returned.inj (hprocess.symm.trans hprocess')
    exact hplays
  · exact fun hplays => ⟨r', hprocess, hplays⟩

/-- The notes stand where the ticks of the callbacks put them exactly when the bar of each fits. -/
theorem plays_iff_fits (hr : Ready perBar r) (h : 1 ≤ perBar) (hmax : perBar ≤ 384000)
    (hc : ∀ c ∈ calls, 0 ≤ ticks c.1) : Plays perBar r calls ↔ Fits perBar (calls.map Prod.fst) :=
  (plays_iff_forall_score hr h hmax hc).trans fits_iff_forall_score.symm

theorem ready_start (hchord : r.chord = []) (ticksPerBar : UInt32) (text : List Char) :
    Ready ticksPerBar.toNat (r.start ticksPerBar text) :=
  ⟨rfl, rfl, rfl, hchord⟩

/-- A new reader that `read` has started, with a bar of so many ticks. -/
def started (ticksPerBar : UInt32) : MMLReader :=
  (new ⟨Tinymml.optionDefault, [], 0, .init, [], []⟩ [] 0).start ticksPerBar []

theorem ready_started (ticksPerBar : UInt32) : Ready ticksPerBar.toNat (started ticksPerBar) :=
  ready_start rfl ticksPerBar []

/-- Callbacks, made by a parser that stays as it is. -/
def made (cs : List Info) : List (Info × Mml) := cs.map fun c => (c, (started 0).mml)

/-- A chord, a rest and a longer note, in a bar of four quarters. -/
theorem plays_triad :
    Plays 1920 (started 1920)
      (made [.note 60 0, .note 64 0, .note 67 480, .rest 480, .note 72 2880]) := by
  refine (plays_iff_fits (ready_started 1920) (by decide) (by decide) (by decide)).mpr ?_
  exact fits_iff_forall_score.mpr (by decide +kernel)

/-- The bars before the note are as many as 32 bits tell apart. -/
theorem not_plays_late :
    let calls := made [.rest 2147483647, .rest 2147483647, .rest 1, .note 60 480]
    Ready 1 (started 1) ∧ (∀ c ∈ calls, 0 ≤ ticks c.1) ∧ ¬ Plays 1 (started 1) calls := by
  intro calls
  have hc : ∀ c ∈ calls, 0 ≤ ticks c.1 := by decide
  refine ⟨ready_started 1, hc, fun hplays => ?_⟩
  have hall := (plays_iff_forall_score (ready_started 1) (by decide) (by decide) hc).mp hplays
  exact absurd hall (by decide +kernel)

end MMLReader

end Midi

end Bipscript
