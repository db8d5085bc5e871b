import Bipscript.AbcReader
import Bipscript.Library.Run

/-! The tunes a reader holds from one call to the next. -/
namespace Bipscript.Abc

variable {r r' : Reader} {c : Callback} {cs : List Callback}

/-- The callbacks of a parse that come to their end. -/
def completed : Reader → List Callback → List Callback
  | _, [] => []
  | r, c :: cs =>
    match r.callback c with
    | (r, none) => c :: completed r cs
    | (_, some _) => []

def Callback.starts : Callback → ℕ
  | .startSequence .. => 1
  | _ => 0

def Callback.reports : Callback → List Error
  | .addError error => [error]
  | _ => []

/-- What a reader has more than before: tunes at its end, at new places, and errors. -/
structure Grown (r r' : Reader) (started : ℕ) (reported : List Error) : Prop where
  allocated : r'.allocated = r.allocated + started
  addresses : r'.tunes.map Tune.address =
    r.tunes.map Tune.address ++ List.range' r.allocated started
  errors : r'.errors = r.errors ++ reported

theorem Grown.refl (r : Reader) : Grown r r 0 [] :=
  ⟨rfl, (List.append_nil _).symm, (List.append_nil _).symm⟩

theorem Grown.trans {r'' : Reader} {n m : ℕ} {es fs : List Error} (h : Grown r r' n es)
    (h' : Grown r' r'' m fs) : Grown r r'' (n + m) (es ++ fs) := by
  refine ⟨?_, ?_, ?_⟩
  · rw [h'.allocated, h.allocated, Nat.add_assoc]
  · rw [h'.addresses, h.addresses, h.allocated, List.append_assoc, List.range'_append_1]
  · rw [h'.errors, h.errors, List.append_assoc]

/-- A write through `currentTune()` leaves every tune where it is. -/
theorem updateTune_grown {f : Tune → Option Tune}
    (hf : ∀ tune tune', f tune = some tune' → tune'.address = tune.address)
    (h : r.updateTune f = some r') : Grown r r' 0 [] := by
  unfold Reader.updateTune at h
  split at h
  · cases h
  · rename_i tune hlast
    obtain ⟨tune', hf', rfl⟩ := Option.map_eq_some_iff.mp h
    have hsplit := List.dropLast_append_getLast? tune (Option.mem_def.mpr hlast)
    refine ⟨rfl, ?_, (List.append_nil _).symm⟩
    calc (r.tunes.dropLast ++ [tune']).map Tune.address
        = r.tunes.dropLast.map Tune.address ++ [tune.address] := by
          rw [List.map_append, List.map_singleton, hf _ _ hf']
      _ = (r.tunes.dropLast ++ [tune]).map Tune.address := by
          rw [List.map_append, List.map_singleton]
      _ = r.tunes.map Tune.address := by rw [hsplit]
      _ = r.tunes.map Tune.address ++ List.range' r.allocated 0 := (List.append_nil _).symm

theorem startSequence_grown (ntracks division : ℕ) :
    (∃ halt, (r.startSequence ntracks division).2 = some halt ∧
      Grown r (r.startSequence ntracks division).1 0 []) ∨
    ((r.startSequence ntracks division).2 = none ∧
      Grown r (r.startSequence ntracks division).1 1 []) := by
  unfold Reader.startSequence
  dsimp only
  split
  · exact Or.inl ⟨.trap, rfl, rfl, (List.append_nil _).symm, (List.append_nil _).symm⟩
  · refine Or.inr ⟨rfl, rfl, ?_, (List.append_nil _).symm⟩
    exact List.map_append

theorem writeMetaEvent_grown (type : ℤ) (data : List Int8) :
    Grown r (r.writeMetaEvent type data).1 0 [] := by
  unfold Reader.writeMetaEvent
  split
  · split
    · exact Grown.refl r
    · rename_i h
      exact updateTune_grown (by rintro tune tune' ⟨⟩; rfl) h
  · split
    · split
      · exact Grown.refl r
      · dsimp only
        split
        · exact ⟨rfl, (List.append_nil _).symm, (List.append_nil _).symm⟩
        · rename_i h
          have hgrown := updateTune_grown (by rintro tune tune' ⟨⟩; rfl) h
          exact ⟨hgrown.allocated, hgrown.addresses, hgrown.errors⟩
    · exact Grown.refl r

theorem noteOff_grown (chan : Int32) (data : List Int8) :
    Grown r (r.noteOff chan data).1 0 [] := by
  have hnote : ∀ (track : ℕ) (note : PatternNote) (tune tune' : Tune),
      Reader.addMidiNote track note tune = some tune' → tune'.address = tune.address := by
    intro track note tune tune' h
    unfold Reader.addMidiNote at h
    split at h
    · cases h
      rfl
    · cases h
  unfold Reader.noteOff
  split
  · exact Grown.refl r
  · dsimp only
    split
    · exact Grown.refl r
    · split
      · exact Grown.refl r
      · rename_i h
        have hgrown := updateTune_grown (hnote _ _) h
        exact ⟨hgrown.allocated, hgrown.addresses, hgrown.errors⟩

theorem writeMidiEvent_grown (delta type : ℤ) (chan : Int32) (data : List Int8) :
    Grown r (r.writeMidiEvent delta type chan data).1 0 [] := by
  unfold Reader.writeMidiEvent
  split
  · exact Grown.refl r
  · split
    · exact Grown.refl r
    · rename_i position _
      dsimp only
      split
      · exact ⟨rfl, (List.append_nil _).symm, (List.append_nil _).symm⟩
      · split
        · have hgrown := noteOff_grown (r := { r with currentPosition := position }) chan data
          exact ⟨hgrown.allocated, hgrown.addresses, hgrown.errors⟩
        · exact ⟨rfl, (List.append_nil _).symm, (List.append_nil _).symm⟩

/-- A callback that comes to its end adds what it starts and what it reports; one that does not
adds nothing. -/
theorem callback_grown (r : Reader) (c : Callback) :
    (∃ halt, (r.callback c).2 = some halt ∧ Grown r (r.callback c).1 0 []) ∨
    ((r.callback c).2 = none ∧ Grown r (r.callback c).1 c.starts c.reports) := by
  have hsilent : ∀ result : Reader × Option Halt, Grown r result.1 0 [] →
      (∃ halt, result.2 = some halt ∧ Grown r result.1 0 []) ∨
        (result.2 = none ∧ Grown r result.1 0 []) := by
    rintro ⟨r', _ | halt⟩ h
    · exact Or.inr ⟨rfl, h⟩
    · exact Or.inl ⟨halt, rfl, h⟩
  cases c with
  | startSequence ntracks division => exact startSequence_grown ntracks division
  | startTrack track =>
    exact Or.inr ⟨rfl, rfl, (List.append_nil _).symm, (List.append_nil _).symm⟩
  | writeTempo tempo => exact hsilent (r, none) (Grown.refl r)
  | writeMetaEvent delta type data => exact hsilent _ (writeMetaEvent_grown type data)
  | writeMidiEvent delta type chan data =>
    exact hsilent _ (writeMidiEvent_grown delta type chan data)
  | singleNoteTuningChange key => exact hsilent (r, none) (Grown.refl r)
  | addError error => exact Or.inr ⟨rfl, rfl, (List.append_nil _).symm, rfl⟩
  | addWarning warning => exact hsilent (r, none) (Grown.refl r)

theorem parse_grown (r : Reader) (cs : List Callback) :
    Grown r (r.parse cs).1 ((completed r cs).map Callback.starts).sum
      ((completed r cs).flatMap Callback.reports) := by
  induction cs generalizing r with
  | nil => exact Grown.refl r
  | cons c cs ih =>
    unfold Reader.parse completed
    rcases callback_grown r c with ⟨halt, hhalt, hgrown⟩ | ⟨hnone, hgrown⟩
    · generalize r.callback c = result at *
      obtain ⟨r', _⟩ := result
      subst hhalt
      exact hgrown
    · generalize r.callback c = result at *
      obtain ⟨r', _⟩ := result
      subst hnone
      exact hgrown.trans (ih r')

theorem completed_of_none (h : (r.parse cs).2 = none) : completed r cs = cs := by
  induction cs generalizing r with
  | nil => rfl
  | cons c cs ih =>
    unfold Reader.parse at h
    unfold completed
    generalize r.callback c = result at *
    obtain ⟨r', _ | halt⟩ := result
    · dsimp only at h ⊢
      rw [ih h]
    · cases h

theorem deleteTunes_nil : deleteTunes [] = [] := by
  unfold deleteTunes
  exact if_neg (by simp)

/-- The tune kept is the first. -/
theorem deleteTunes_cons (tune : Tune) (tunes : List Tune) :
    deleteTunes (tune :: tunes) = [tune] := by
  induction tunes using List.reverseRecOn with
  | nil =>
    unfold deleteTunes
    exact if_neg (by simp)
  | append_singleton tunes last ih =>
    unfold deleteTunes
    rw [if_pos (by simp), ← List.cons_append, List.dropLast_concat, ih]

/-- The parse stays in the defined language, and starts a tune exactly when no callback throws and
no error is reported. -/
structure Orderly (r : Reader) (cs : List Callback) : Prop where
  defined : (r.clear.parse cs).2 ≠ some .trap
  started : (∃ ntracks division, .startSequence ntracks division ∈ completed r.clear cs) ↔
    (r.clear.parse cs).2 = none ∧ ∀ error, .addError error ∉ cs

theorem sum_starts_eq_zero_iff :
    (cs.map Callback.starts).sum = 0 ↔
      ¬ ∃ ntracks division, .startSequence ntracks division ∈ cs := by
  rw [List.sum_eq_zero_iff]
  constructor
  · rintro h ⟨ntracks, division, hmem⟩
    exact absurd (h 1 (List.mem_map.mpr ⟨_, hmem, rfl⟩)) Nat.one_ne_zero
  · intro h n hn
    obtain ⟨c, hc, rfl⟩ := List.mem_map.mp hn
    cases c with
    | startSequence ntracks division => exact absurd ⟨ntracks, division, hc⟩ h
    | _ => rfl

theorem reports_eq_nil_iff :
    cs.flatMap Callback.reports = [] ↔ ∀ error, .addError error ∉ cs := by
  rw [List.flatMap_eq_nil_iff]
  constructor
  · intro h error hmem
    exact absurd (h _ hmem) (List.cons_ne_nil error [])
  · intro h c hc
    cases c with
    | addError error => exact absurd hc (h error)
    | _ => rfl

theorem Grown.tunes_eq_nil_iff {started : ℕ} {reported : List Error}
    (h : Grown r r' started reported) (hr : r.tunes = []) : r'.tunes = [] ↔ started = 0 := by
  have haddresses := h.addresses
  rw [hr, List.map_nil, List.nil_append] at haddresses
  rw [← List.map_eq_nil_iff (f := Tune.address), haddresses, List.range'_eq_nil_iff]

theorem orderly_of_halted {halt : Halt} (hp : r.clear.parse cs = (r', some halt)) :
    Orderly r cs ↔ (∃ mesg, halt = .throw mesg) ∧
      ¬ ∃ ntracks division, .startSequence ntracks division ∈ completed r.clear cs := by
  constructor
  · rintro ⟨hdefined, hstarted⟩
    rw [hp] at hdefined hstarted
    refine ⟨?_, fun h => ?_⟩
    · cases halt with
      | throw mesg => exact ⟨mesg, rfl⟩
      | trap => exact absurd rfl hdefined
    · cases (hstarted.mp h).1
  · rintro ⟨⟨mesg, rfl⟩, hnone⟩
    refine ⟨?_, ?_⟩
    · rw [hp]
      exact fun h => by cases h
    · rw [hp]
      refine ⟨fun h => absurd h hnone, ?_⟩
      rintro ⟨h, -⟩
      cases h

theorem errors_of_finished (hp : r.clear.parse cs = (r', none)) :
    r'.errors = cs.flatMap Callback.reports := by
  have hgrown := parse_grown r.clear cs
  rw [completed_of_none (by rw [hp]), hp] at hgrown
  exact hgrown.errors

theorem orderly_of_finished (hp : r.clear.parse cs = (r', none)) :
    Orderly r cs ↔
      ((∃ ntracks division, .startSequence ntracks division ∈ cs) ↔ r'.errors = []) := by
  have hall : completed r.clear cs = cs := completed_of_none (by rw [hp])
  rw [errors_of_finished hp, reports_eq_nil_iff]
  constructor
  · rintro ⟨-, h⟩
    rw [hp, hall] at h
    exact h.trans ⟨fun h => h.2, fun h => ⟨rfl, h⟩⟩
  · intro h
    refine ⟨?_, ?_⟩
    · rw [hp]
      exact fun h => by cases h
    · rw [hp, hall]
      exact h.trans ⟨fun h => ⟨rfl, h⟩, fun h => h.2⟩

/-- The tunes after a parse are those its callbacks started. -/
theorem tunes_of_finished (hr : r.tunes = []) (hp : r.clear.parse cs = (r', none)) :
    (r'.tunes = [] ∧ ¬ ∃ ntracks division, .startSequence ntracks division ∈ cs) ∨
    (∃ tune tunes, r'.tunes = tune :: tunes ∧ tune.address = r.allocated ∧
      r.allocated < r'.allocated ∧ ∃ ntracks division, .startSequence ntracks division ∈ cs) := by
  have hgrown := parse_grown r.clear cs
  rw [completed_of_none (by rw [hp]), hp] at hgrown
  have hnil := hgrown.tunes_eq_nil_iff hr
  cases ht : r'.tunes with
  | nil => exact Or.inl ⟨rfl, sum_starts_eq_zero_iff.mp (hnil.mp ht)⟩
  | cons tune tunes =>
    have hpos : (cs.map Callback.starts).sum ≠ 0 :=
      fun h => absurd (ht.symm.trans (hnil.mpr h)) (List.cons_ne_nil _ _)
    refine Or.inr ⟨tune, tunes, rfl, ?_, ?_, ?_⟩
    · have haddresses : r'.tunes.map Tune.address = r.tunes.map Tune.address ++ _ :=
        hgrown.addresses
      obtain ⟨n, hn⟩ := Nat.exists_eq_succ_of_ne_zero hpos
      rw [ht, hr, hn, List.map_nil, List.nil_append, List.range'_succ, List.map_cons]
        at haddresses
      exact (List.cons.inj haddresses).1
    · have hallocated : r'.allocated = r.allocated + _ := hgrown.allocated
      omega
    · exact not_not.mp fun h => hpos (sum_starts_eq_zero_iff.mpr h)

theorem take_of_finished {tune : Tune} {tunes : List Tune} (hp : r.clear.parse cs = (r', none))
    (he : r'.errors = []) (ht : r'.tunes = tune :: tunes) :
    r.take cs = ({ r' with tunes := [] }, .returned tune ()) := by
  unfold Reader.take
  rw [hp]
  dsimp only
  rw [ht, deleteTunes_cons]
  split
  · rename_i error errors h
    exact absurd (he.symm.trans h) (List.cons_ne_nil error errors).symm
  · rfl

/-- A call on a reader that holds no tune: it takes its own first tune and its parse is orderly, or
it ends early, leaving none exactly when the parse is orderly. -/
theorem take_cases (hr : r.tunes = []) (cs : List Callback) :
    (∃ r' tune, r.take cs = (r', .returned tune ()) ∧ tune.address = r.allocated ∧
      r.allocated < r'.allocated ∧ r'.tunes = [] ∧ Orderly r cs) ∨
    (∃ r' halt, r.take cs = (r', .halted halt) ∧
      (Orderly r cs ↔ (∃ mesg, halt = .throw mesg) ∧ r'.tunes = [])) := by
  rcases hp : r.clear.parse cs with ⟨r', _ | halt⟩
  · have horderly := orderly_of_finished hp
    cases he : r'.errors with
    | cons error errors =>
      have hnot : ¬ r'.errors = [] := by
        rw [he]
        exact List.cons_ne_nil _ _
      refine Or.inr ⟨r', .throw error.message, ?_, ?_⟩
      · unfold Reader.take
        rw [hp]
        dsimp only
        rw [he]
      rw [horderly, iff_false_right hnot]
      rcases tunes_of_finished hr hp with ⟨ht, hstart⟩ | ⟨tune, tunes, ht, -, -, hstart⟩
      · exact ⟨fun _ => ⟨⟨_, rfl⟩, ht⟩, fun _ => hstart⟩
      · refine ⟨fun h => absurd hstart h, fun h => ?_⟩
        exact absurd (ht.symm.trans h.2) (List.cons_ne_nil _ _)
    | nil =>
      rw [iff_true_right he] at horderly
      rcases tunes_of_finished hr hp with ⟨ht, hstart⟩ | ⟨tune, tunes, ht, haddress, hlt, hstart⟩
      · refine Or.inr ⟨r', .trap, ?_, ?_⟩
        · unfold Reader.take
          rw [hp]
          dsimp only
          rw [he, ht, deleteTunes_nil]
          rfl
        · rw [horderly]
          refine ⟨fun h => absurd h hstart, ?_⟩
          rintro ⟨⟨mesg, h⟩, -⟩
          cases h
      · exact Or.inl ⟨{ r' with tunes := [] }, tune, take_of_finished hp he ht, haddress, hlt, rfl,
          horderly.mpr hstart⟩
  · have hgrown := parse_grown r.clear cs
    rw [hp] at hgrown
    refine Or.inr ⟨r', halt, ?_, ?_⟩
    · unfold Reader.take
      rw [hp]
    rw [orderly_of_halted hp, hgrown.tunes_eq_nil_iff hr, sum_starts_eq_zero_iff]

/-- One call, with the callbacks that its parse makes. -/
inductive Call
  | read (cs : List Callback)
  | readTune (cs : List Callback)

namespace Call

def callbacks : Call → List Callback
  | .read cs => cs
  | .readTune cs => cs

def exec (r : Reader) : Call → Reader
  | .read cs => (r.read cs).1
  | .readTune cs => (r.readTune cs).1

/-- What is made of a tune started since `r` leaves no tune, and so does an exception. Nothing holds
outside of the defined language. -/
def CleanOutcome {α : Type} (r : Reader) : Reader × Outcome α → Prop
  | (r', .returned tune _) =>
    (r.allocated ≤ tune.address ∧ tune.address < r'.allocated) ∧ r'.tunes = []
  | (r', .halted (.throw _)) => r'.tunes = []
  | (_, .halted .trap) => False

def Clean (r : Reader) : Call → Prop
  | .read cs => CleanOutcome r (r.read cs)
  | .readTune cs => CleanOutcome r (r.readTune cs)

theorem cleanOutcome_halted {α : Type} (halt : Halt) :
    CleanOutcome (α := α) r (r', .halted halt) ↔ (∃ mesg, halt = .throw mesg) ∧ r'.tunes = [] := by
  cases halt with
  | throw mesg => exact ⟨fun h => ⟨⟨mesg, rfl⟩, h⟩, fun h => h.2⟩
  | trap =>
    refine ⟨False.elim, ?_⟩
    rintro ⟨⟨mesg, h⟩, -⟩
    cases h

/-- Of a reader without tunes, a call is clean exactly when its parse is orderly. -/
theorem clean_iff (hr : r.tunes = []) (call : Call) : call.Clean r ↔ Orderly r call.callbacks := by
  cases call with
  | read cs =>
    change CleanOutcome r (r.read cs) ↔ Orderly r cs
    unfold Reader.read
    rcases take_cases hr cs with ⟨r', tune, he, haddress, hlt, ht, horderly⟩ | ⟨r', halt, he, hiff⟩
    · rw [he, iff_true_right horderly]
      dsimp only
      cases tune.track (if tune.tracks.length > 1 then 2 else 1) with
      | error mesg => exact ht
      | ok pattern => exact ⟨⟨haddress.ge, haddress.trans_lt hlt⟩, ht⟩
    · rw [he, hiff]
      exact cleanOutcome_halted halt
  | readTune cs =>
    change CleanOutcome r (r.readTune cs) ↔ Orderly r cs
    unfold Reader.readTune
    rcases take_cases hr cs with ⟨r', tune, he, haddress, hlt, ht, horderly⟩ | ⟨r', halt, he, hiff⟩
    · rw [he, iff_true_right horderly]
      exact ⟨⟨haddress.ge, haddress.trans_lt hlt⟩, ht⟩
    · rw [he, hiff]
      exact cleanOutcome_halted halt

theorem tunes_of_cleanOutcome {α : Type} {result : Reader × Outcome α}
    (h : CleanOutcome r result) : result.1.tunes = [] := by
  obtain ⟨r', _ | mesg | _⟩ := result
  · exact h.2
  · exact h
  · exact h.elim

theorem tunes_of_clean {call : Call} (h : call.Clean r) : (call.exec r).tunes = [] := by
  cases call with
  | read cs => exact tunes_of_cleanOutcome h
  | readTune cs => exact tunes_of_cleanOutcome h

/-- The calls of a reader are all clean exactly when all their parses are orderly. -/
theorem always_clean_iff (ticksPerQuarter ticksPerBeat activeTrack : ℕ) (calls : List Call) :
    Transition.Always exec (fun r call => call.Clean r)
        (Reader.new ticksPerQuarter ticksPerBeat activeTrack) calls ↔
      Transition.Always exec (fun r call => Orderly r call.callbacks)
        (Reader.new ticksPerQuarter ticksPerBeat activeTrack) calls := by
  exact Transition.always_congr (I := fun r => r.tunes = []) (R := fun _ _ => True)
    (fun r call hr _ => clean_iff hr call) (fun r call _ _ h => tunes_of_clean h) rfl
    (Transition.always_of_forall fun _ _ => trivial)

/-- An error is reported, and the tune is written all the same. -/
def misplacedPart : List Callback :=
  [.addError ⟨"P: field in header should go after K: field", 0, 0⟩, .startSequence 1 480,
    .startTrack 0]

/-- The first call throws and leaves its tune, which the second call returns. -/
theorem not_always_clean :
    let s := (readTune misplacedPart).exec (Reader.new 0 0 0)
    ¬ Transition.Always exec (fun r call => call.Clean r) (Reader.new 0 0 0)
      [.readTune misplacedPart, .readTune [.startSequence 1 480, .startTrack 0]] ∧
    s.allocated = 1 ∧ ∃ r' tune,
      s.readTune [.startSequence 1 480, .startTrack 0] = (r', .returned tune tune) ∧
        tune.address = 0 := by
  intro s
  refine ⟨?_, rfl, ?_⟩
  · rintro ⟨h, -⟩
    cases h
  · let u := (s.clear.parse [.startSequence 1 480, .startTrack 0]).1
    refine ⟨{ u with tunes := [] }, ⟨0, [], none, [[]]⟩, ?_, rfl⟩
    unfold Reader.readTune
    have htake : s.take [.startSequence 1 480, .startTrack 0] =
        ({ u with tunes := [] }, .returned ⟨0, [], none, [[]]⟩ ()) := take_of_finished rfl rfl rfl
    rw [htake]

end Call

end Bipscript.Abc
