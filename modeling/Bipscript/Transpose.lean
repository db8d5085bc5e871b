import Bipscript.Connect
import Bipscript.MidiSink

/-! Transposing a pattern: a loop over its notes whose calls may throw. -/
namespace Bipscript

namespace Outcome

variable {σ τ α : Type*}

def map (f : σ → τ) : Outcome σ → Outcome τ
  | returned s => returned (f s)
  | thrown s what => thrown (f s) what
  | undefined => undefined

/-- A loop over elements that `call` changes in place; what throws ends it. -/
def forEach (call : α → Outcome α) : List α → Outcome (List α)
  | [] => returned []
  | x :: xs =>
    match call x with
    | returned y => (forEach call xs).map (y :: ·)
    | thrown y what => thrown (y :: xs) what
    | undefined => undefined

/-- Up to the first call that does not return, all elements have been changed. -/
theorem forEach_append {call : α → Outcome α} {f : α → α} {before : List α}
    (h : ∀ x ∈ before, call x = returned (f x)) (xs : List α) :
    forEach call (before ++ xs) = (forEach call xs).map (before.map f ++ ·) := by
  induction before with
  | nil => cases hc : forEach call xs <;> simp [map, hc]
  | cons x before ih =>
    have hx := h x List.mem_cons_self
    have hrest := ih fun x hx => h x (List.mem_cons_of_mem _ hx)
    rw [List.cons_append, forEach, hx]
    dsimp only
    rw [hrest]
    cases forEach call xs <;> rfl

end Outcome

namespace Midi

/-- `Note::transpose`. A sum that is no `int` is undefined. -/
def Note.transpose (amount : Int32) (note : Note) : Outcome Note :=
  let newval := note.value + amount.toInt
  if newval < -2 ^ 31 ∨ 2 ^ 31 ≤ newval then .undefined
  else if newval < 0 then .thrown note "Cannot transpose this note that low"
  else if newval > 127 then .thrown note "Cannot transpose this note that high"
  else .returned { note with value := newval }

/-- One round of the loop of `Pattern::transpose`. -/
def PatternNote.transpose (amount : Int32) (it : PatternNote) : Outcome PatternNote :=
  (it.note.transpose amount).map fun note => { it with note := note }

def Pattern.transpose (amount : Int32) (noteList : List PatternNote) :
    Outcome (List PatternNote) :=
  Outcome.forEach (PatternNote.transpose amount) noteList

namespace PatternNote

def pitch (it : PatternNote) : ℤ := it.note.value

/-- The note `amount` above. -/
def shifted (amount : Int32) (it : PatternNote) : PatternNote :=
  { it with note := { it.note with value := it.pitch + amount.toInt } }

def Fits (amount : Int32) (it : PatternNote) : Prop :=
  0 ≤ it.pitch + amount.toInt ∧ it.pitch + amount.toInt ≤ 127

variable {amount : Int32} {it : PatternNote}

instance : Decidable (it.Fits amount) := inferInstanceAs (Decidable (_ ∧ _))

/-- The sum is an `int`, but no pitch. -/
def Refused (amount : Int32) (it : PatternNote) : Prop :=
  -2 ^ 31 ≤ it.pitch + amount.toInt ∧ it.pitch + amount.toInt < 2 ^ 31 ∧ ¬ it.Fits amount

theorem transpose_of_fits (h : it.Fits amount) :
    it.transpose amount = .returned (it.shifted amount) := by
  obtain ⟨hlow, hhigh⟩ := h
  unfold pitch at hlow hhigh
  unfold transpose Note.transpose
  dsimp only
  rw [if_neg (by omega), if_neg (by omega), if_neg (by omega)]
  rfl

theorem transpose_of_refused (h : it.Refused amount) :
    ∃ what, it.transpose amount = .thrown it what := by
  obtain ⟨hint, hint', hno⟩ := h
  unfold Fits at hno
  unfold pitch at hint hint' hno
  unfold transpose Note.transpose
  dsimp only
  rw [if_neg (by omega)]
  split
  · exact ⟨_, rfl⟩
  · rw [if_pos (by omega)]
    exact ⟨_, rfl⟩

theorem transpose_of_overflow (hf : ¬ it.Fits amount) (hr : ¬ it.Refused amount) :
    it.transpose amount = .undefined := by
  unfold Refused at hr
  unfold Fits at hr hf
  unfold pitch at hr hf
  unfold transpose Note.transpose
  dsimp only
  rw [if_pos (by omega)]
  rfl

theorem shifted_eq_self_iff : it.shifted amount = it ↔ amount.toInt = 0 := by
  obtain ⟨⟨value, vel, duration⟩, position⟩ := it
  simp only [shifted, pitch, mk.injEq, Note.mk.injEq, and_true]
  omega

end PatternNote

namespace Pattern

/-- Every note is shifted, or the call throws and no note is changed. -/
def Atomic (amount : Int32) (noteList : List PatternNote) : Prop :=
  transpose amount noteList = .returned (noteList.map (PatternNote.shifted amount)) ∨
    ∃ what, transpose amount noteList = .thrown noteList what

variable {amount : Int32}

theorem transpose_of_fits {noteList : List PatternNote}
    (h : ∀ it ∈ noteList, it.Fits amount) :
    transpose amount noteList = .returned (noteList.map (PatternNote.shifted amount)) := by
  have happend := Outcome.forEach_append (fun it hit => PatternNote.transpose_of_fits (h it hit)) []
  rw [List.append_nil] at happend
  unfold transpose
  rw [happend, Outcome.forEach, Outcome.map, List.append_nil]

variable {before after : List PatternNote} {it : PatternNote}

/-- What the first note that does not fit leaves, where its sum is an `int`. -/
theorem transpose_of_refused (after : List PatternNote) (h : ∀ it ∈ before, it.Fits amount)
    (hit : it.Refused amount) : ∃ what, transpose amount (before ++ it :: after) =
      .thrown (before.map (PatternNote.shifted amount) ++ it :: after) what := by
  obtain ⟨what, hthrow⟩ := PatternNote.transpose_of_refused hit
  refine ⟨what, ?_⟩
  unfold transpose
  rw [Outcome.forEach_append fun it hit => PatternNote.transpose_of_fits (h it hit),
    Outcome.forEach, hthrow]
  rfl

theorem transpose_of_overflow (after : List PatternNote) (h : ∀ it ∈ before, it.Fits amount)
    (hfits : ¬ it.Fits amount) (hit : ¬ it.Refused amount) :
    transpose amount (before ++ it :: after) = .undefined := by
  unfold transpose
  rw [Outcome.forEach_append fun it hit => PatternNote.transpose_of_fits (h it hit),
    Outcome.forEach, PatternNote.transpose_of_overflow hfits hit]
  rfl

/-- A refusal changes nothing when it is that of the first note, or when there is nothing to
change. -/
theorem atomic_of_refused_iff (h : ∀ it ∈ before, it.Fits amount) (hit : it.Refused amount) :
    Atomic amount (before ++ it :: after) ↔ before = [] ∨ amount.toInt = 0 := by
  obtain ⟨what, hthrow⟩ := transpose_of_refused after h hit
  unfold Atomic
  rw [hthrow]
  constructor
  · rintro (hreturn | ⟨what', hsame⟩)
    · cases hreturn
    · have hlist : before.map (PatternNote.shifted amount) ++ it :: after =
          before ++ it :: after := (Outcome.thrown.inj hsame).1
      have hbefore := (List.append_cancel_right hlist)
      cases before with
      | nil => exact Or.inl rfl
      | cons first before =>
        rw [List.map_cons, List.cons.injEq] at hbefore
        exact Or.inr (PatternNote.shifted_eq_self_iff.mp hbefore.1)
  · rintro (rfl | hzero)
    · exact Or.inr ⟨what, rfl⟩
    · have hsame : before.map (PatternNote.shifted amount) = before := by
        conv_rhs => rw [← List.map_id before]
        exact List.map_congr_left fun it _ => PatternNote.shifted_eq_self_iff.mpr hzero
      rw [hsame]
      exact Or.inr ⟨what, rfl⟩

/-- The first note throws iff the one that does not fit is the first. -/
theorem exists_head_refused_iff (h : ∀ it ∈ before, it.Fits amount) :
    (∃ first, (before ++ it :: after).head? = some first ∧ first.Refused amount) ↔
      before = [] ∧ it.Refused amount := by
  cases before with
  | nil => simp
  | cons first before =>
    have hfits := h first List.mem_cons_self
    apply iff_of_false
    · rintro ⟨_, ⟨⟩, hrefused⟩
      exact hrefused.2.2 hfits
    · rintro ⟨⟨⟩, -⟩

/-- By nothing, only a note that is no pitch already is refused. -/
theorem refused_of_zero (hzero : amount.toInt = 0) (hint : -2 ^ 31 ≤ it.pitch ∧ it.pitch < 2 ^ 31)
    (hno : ¬ it.Fits amount) : it.Refused amount := by
  unfold PatternNote.Refused
  rw [hzero, Int.add_zero]
  exact ⟨hint.1, hint.2, hno⟩

/-- With a note that does not fit behind some that do. -/
theorem atomic_append_iff (h : ∀ it ∈ before, it.Fits amount) (hno : ¬ it.Fits amount)
    (hint : -2 ^ 31 ≤ it.pitch ∧ it.pitch < 2 ^ 31) :
    Atomic amount (before ++ it :: after) ↔
      amount.toInt = 0 ∨ before = [] ∧ it.Refused amount := by
  by_cases hit : it.Refused amount
  · rw [atomic_of_refused_iff h hit, or_comm, and_iff_left hit]
  · have hundefined := transpose_of_overflow after h hno hit
    apply iff_of_false
    · unfold Atomic
      rw [hundefined]
      rintro (hc | ⟨what, hc⟩) <;> cases hc
    · rintro (hzero | ⟨-, hrefused⟩)
      · exact hit (refused_of_zero hzero hint hno)
      · exact hit hrefused

/-- A pattern of `int` pitches is transposed as a whole or not at all iff all its notes fit, the
amount is zero, or its first note is the one that throws. -/
theorem atomic_iff {noteList : List PatternNote}
    (hint : ∀ it ∈ noteList, -2 ^ 31 ≤ it.pitch ∧ it.pitch < 2 ^ 31) :
    Atomic amount noteList ↔ (∀ it ∈ noteList, it.Fits amount) ∨ amount = 0 ∨
      ∃ first, noteList.head? = some first ∧ first.Refused amount := by
  have hzero : amount.toInt = 0 ↔ amount = 0 := by
    rw [← Int32.toInt_inj]
    rfl
  cases hfind : noteList.find? fun it => !decide (it.Fits amount) with
  | none =>
    have hfits : ∀ it ∈ noteList, it.Fits amount := by
      intro it hit
      simpa using List.find?_eq_none.mp hfind it hit
    exact iff_of_true (Or.inl (transpose_of_fits hfits)) (Or.inl hfits)
  | some it =>
    obtain ⟨hno, before, after, rfl, hbefore⟩ := List.find?_eq_some_iff_append.mp hfind
    have hno' : ¬ it.Fits amount := by simpa using hno
    have hbefore' : ∀ it ∈ before, it.Fits amount := by simpa using hbefore
    have hmem : it ∈ before ++ it :: after := List.mem_append_right _ List.mem_cons_self
    have hnotall : ¬ ∀ note ∈ before ++ it :: after, note.Fits amount := fun h => hno' (h it hmem)
    rw [atomic_append_iff hbefore' hno' (hint it hmem), hzero, exists_head_refused_iff hbefore']
    exact (or_iff_right hnotall).symm

/-- A quarter note on the first beat. -/
def quarter (value : ℤ) : PatternNote := ⟨⟨value, 100, ⟨0, 1, 4⟩⟩, ⟨⟨1, 0, 4⟩, Position.four_pos⟩⟩

/-- An octave up. -/
theorem atomic_chord : Atomic 12 [quarter 60, quarter 64] :=
  (atomic_iff (by simp [quarter, PatternNote.pitch])).mpr (Or.inl (by decide))

/-- The last pitch there is cannot go up; the note before it has. -/
theorem not_atomic : ¬ Atomic 1 [quarter 60, quarter 127] := by
  have hthrow : transpose 1 [quarter 60, quarter 127] =
      .thrown [quarter 61, quarter 127] "Cannot transpose this note that high" := rfl
  unfold Atomic
  rw [hthrow]
  rintro (h | ⟨what, h⟩)
  · cases h
  · have hlist : [quarter 61, quarter 127] = [quarter 60, quarter 127] :=
      (Outcome.thrown.inj h).1
    have hpitch : (61 : ℤ) = 60 := congrArg PatternNote.pitch (List.cons.inj hlist).1
    omega

end Pattern

end Midi

end Bipscript
