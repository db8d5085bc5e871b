import Bipscript.Mixer
import Bipscript.Library.Run

/-! `Mixer::connect` on the script thread while `Mixer::doProcess` runs on the process thread. -/
namespace Bipscript.Audio.Mixing

variable {P : Type*}

/-- Where the script thread is: before one of the increments of a `connect`, with the connections
still to be stored (none outside of `connect`), or between an increment and its store. -/
inductive ScriptPC (P : Type*)
  | connecting (rest : List (AudioConnection P))
  | storing (i : ℕ) (conn : AudioConnection P) (rest : List (AudioConnection P))

/-- Where `doProcess` is: before the test of the loop over the inputs, before the load of a
connector or the use of what was loaded; before the test of the loop over the frames, the inputs or
the outputs, or the read of `audio[i][frame]`. -/
inductive ProcessPC (P : Type*)
  | idle
  | collecting (i : ℕ)
  | loading (i : ℕ)
  | loaded (i : ℕ) (conn : Option (AudioConnection P))
  | frame (frame : ℕ)
  | input (frame i : ℕ)
  | output (frame i o : ℕ)
  | sample (frame i o : ℕ)

/-- `size` is the value of `connectedInputs` that the array `audio` was sized with. -/
structure State (P : Type*) where
  mixer : Mixer P
  script : ScriptPC P
  engine : ProcessPC P
  size : ℕ
  nframes : ℕ

inductive Act (P : Type*)
  | connect (connections : List (AudioConnection P))
  | setGain (input output : ℕ) (value : ℚ)
  | increment
  | setConnection (refused : Bool)
  | reposition
  | doProcess (nframes : ℕ)
  | advance

namespace State

def initial (inputs outputs : ℕ) : State P where
  mixer := .new inputs outputs
  script := .connecting []
  engine := .idle
  size := 0
  nframes := 0

/-- The steps of the two threads. The two overloads of `connect` differ in what they check and in
the gains they set before their loop; gains are written by both threads. No step of `doProcess`
follows the load of a null connector, and none of `connect` an increment past the last connector. -/
inductive Step (s : State P) : Act P → State P → Prop
  | connect {connections} (hs : s.script = .connecting []) :
      Step s (.connect connections) { s with script := .connecting connections }
  | setGain {input output value} :
      Step s (.setGain input output value)
        { s with mixer := { s.mixer with gain := s.mixer.gain.set input output value } }
  | increment {conn rest} (hs : s.script = .connecting (conn :: rest))
      (hi : s.mixer.connectedInputs < s.mixer.audioInputCount) :
      Step s .increment
        { s with
          mixer := { s.mixer with connectedInputs := s.mixer.connectedInputs + 1 }
          script := .storing s.mixer.connectedInputs conn rest }
  | stored {i conn rest} (hs : s.script = .storing i conn rest) :
      Step s (.setConnection false)
        { s with
          mixer := { s.mixer with
            audioInput := Function.update s.mixer.audioInput i (some conn) }
          script := .connecting rest }
  | refused {i conn rest} (hs : s.script = .storing i conn rest) :
      Step s (.setConnection true) { s with script := .connecting [] }
  | reposition (he : s.engine = .idle) : Step s .reposition { s with mixer := s.mixer.reposition }
  | doProcess {nframes} (he : s.engine = .idle) :
      Step s (.doProcess nframes)
        { s with engine := .collecting 0, size := s.mixer.connectedInputs, nframes := nframes }
  | connected {i} (he : s.engine = .collecting i) (hi : i < s.mixer.connectedInputs) :
      Step s .advance { s with engine := .loading i }
  | collected {i} (he : s.engine = .collecting i) (hi : s.mixer.connectedInputs ≤ i) :
      Step s .advance { s with engine := .frame 0 }
  | getConnection {i} (he : s.engine = .loading i) :
      Step s .advance { s with engine := .loaded i (s.mixer.audioInput i) }
  | getAudio {i conn} (he : s.engine = .loaded i (some conn)) :
      Step s .advance { s with engine := .collecting (i + 1) }
  | nextFrame {frame} (he : s.engine = .frame frame) (hf : frame < s.nframes) :
      Step s .advance { s with engine := .input frame 0 }
  | processed {frame} (he : s.engine = .frame frame) (hf : s.nframes ≤ frame) :
      Step s .advance { s with engine := .idle }
  | nextInput {frame i} (he : s.engine = .input frame i) (hi : i < s.mixer.connectedInputs) :
      Step s .advance { s with engine := .output frame i 0 }
  | lastInput {frame i} (he : s.engine = .input frame i) (hi : s.mixer.connectedInputs ≤ i) :
      Step s .advance { s with engine := .frame (frame + 1) }
  | muted {frame i o} (he : s.engine = .output frame i o) (ho : o < s.mixer.audioOutputCount)
      (hg : s.mixer.gain i o = 0) : Step s .advance { s with engine := .output frame i (o + 1) }
  | heard {frame i o} (he : s.engine = .output frame i o) (ho : o < s.mixer.audioOutputCount)
      (hg : s.mixer.gain i o ≠ 0) : Step s .advance { s with engine := .sample frame i o }
  | lastOutput {frame i o} (he : s.engine = .output frame i o)
      (ho : s.mixer.audioOutputCount ≤ o) :
      Step s .advance { s with engine := .input frame (i + 1) }
  | sample {frame i o} (he : s.engine = .sample frame i o) :
      Step s .advance { s with engine := .output frame i (o + 1) }

/-- `doProcess` is about to dereference what it loaded from a connector that held no connection. -/
def NullConnection (s : State P) : Prop := ∃ i, s.engine = .loaded i none

/-- `doProcess` is about to read `audio[i]` past the size of `audio`. -/
def Overrun (s : State P) : Prop := ∃ frame i o, s.engine = .sample frame i o ∧ s.size ≤ i

/-- Each connector below `connectedInputs` holds a connection. -/
def Whole (s : State P) : Prop := ∀ i < s.mixer.connectedInputs, s.mixer.audioInput i ≠ none

/-- `connectedInputs` is not read again before `doProcess` returns. -/
def Outside (s : State P) : Prop :=
  s.engine = .idle ∨ ∃ frame, s.engine = .frame frame ∧ s.nframes ≤ frame

/-- In the loop over the frames. -/
def Mixes (s : State P) : Prop :=
  (∃ frame, s.engine = .frame frame) ∨ (∃ frame i, s.engine = .input frame i) ∨
    (∃ frame i o, s.engine = .output frame i o) ∨ ∃ frame i o, s.engine = .sample frame i o

/-- `doProcess` begins when every connector counted holds a connection, and an input is counted only
when `doProcess` does not look any more, or, once the mix has begun, without a gain; it is left
without one until then. -/
def Apart (s : State P) : Act P → Prop
  | .doProcess _ => s.Whole
  | .increment => s.Outside ∨
      (s.Mixes ∧ ∀ o < s.mixer.audioOutputCount, s.mixer.gain s.mixer.connectedInputs o = 0)
  | .setGain input _ value =>
      s.Outside ∨ input < s.size ∨ s.mixer.connectedInputs ≤ input ∨ value = 0
  | _ => True

/-- The inputs counted since `audio` was sized have no gains. -/
def Muted (s : State P) : Prop :=
  ∀ i o, s.size ≤ i → i < s.mixer.connectedInputs → o < s.mixer.audioOutputCount →
    s.mixer.gain i o = 0

/-- What holds at each point of `doProcess`. -/
def Invariant (s : State P) : Prop :=
  match s.engine with
  | .idle => True
  | .collecting _ => s.Whole ∧ s.mixer.connectedInputs = s.size
  | .loading i => s.Whole ∧ s.mixer.connectedInputs = s.size ∧ i < s.size
  | .loaded _ conn => s.Whole ∧ s.mixer.connectedInputs = s.size ∧ conn ≠ none
  | .frame frame => frame < s.nframes → s.Muted
  | .input _ _ => s.Muted
  | .output _ i _ => s.Muted ∧ i < s.mixer.connectedInputs
  | .sample _ i _ => s.Muted ∧ i < s.mixer.connectedInputs ∧ i < s.size

section Steps

variable {s t : State P} {a : Act P}

theorem invariant_idle (he : s.engine = .idle) : s.Invariant := by
  simp [Invariant, he]

theorem Whole.store {i : ℕ} {conn : AudioConnection P} (h : s.Whole) :
    Whole { s with
      mixer := { s.mixer with
        audioInput := Function.update s.mixer.audioInput i (some conn) } } := by
  intro j hj
  by_cases hji : j = i
  · simp [hji]
  · simpa [hji] using h j hj

theorem Muted.setGain {input output : ℕ} {value : ℚ} (h : s.Muted)
    (hg : input < s.size ∨ s.mixer.connectedInputs ≤ input ∨ value = 0) :
    Muted { s with mixer := { s.mixer with gain := s.mixer.gain.set input output value } } := by
  intro i o hsize hi ho
  by_cases hcell : (i, o) = (input, output)
  · cases hcell
    rcases hg with hg | hg | rfl
    · exact absurd hsize (not_le.mpr hg)
    · exact absurd hi (not_lt.mpr hg)
    · exact Gains.set_same _ _ _ 0
  · exact (Gains.set_other _ _ hcell).trans (h i o hsize hi ho)

theorem Muted.increment (h : s.Muted)
    (hg : ∀ o < s.mixer.audioOutputCount, s.mixer.gain s.mixer.connectedInputs o = 0) :
    Muted { s with
      mixer := { s.mixer with connectedInputs := s.mixer.connectedInputs + 1 } } := by
  intro i o hsize hi ho
  rcases Nat.lt_succ_iff_lt_or_eq.mp hi with hi | rfl
  · exact h i o hsize hi ho
  · exact hg o ho

/-- A connector holds the connection it is given. -/
theorem invariant_stored {i : ℕ} {conn : AudioConnection P} {script : ScriptPC P}
    (hi : s.Invariant) :
    Invariant { s with
      mixer := { s.mixer with audioInput := Function.update s.mixer.audioInput i (some conn) }
      script := script } := by
  cases he : s.engine with
  | idle => trivial
  | collecting j | loading j | loaded j c =>
    simp only [Invariant, he] at hi ⊢
    exact ⟨hi.1.store, hi.2⟩
  | frame frame | input frame j | output frame j o | sample frame j o =>
    simp only [Invariant, he] at hi ⊢
    exact hi

theorem invariant_setGain {input output : ℕ} {value : ℚ} (hi : s.Invariant)
    (ha : s.Apart (.setGain input output value)) :
    Invariant
      { s with mixer := { s.mixer with gain := s.mixer.gain.set input output value } } := by
  cases he : s.engine with
  | idle => trivial
  | collecting j | loading j | loaded j c =>
    simp only [Invariant, he] at hi ⊢
    exact hi
  | frame frame =>
    simp only [Invariant, he] at hi ⊢
    intro hf
    rcases ha with (hidle | ⟨frame', hframe, hpast⟩) | hg
    · cases he.symm.trans hidle
    · cases he.symm.trans hframe
      omega
    · exact (hi hf).setGain hg
  | input frame j =>
    simp only [Invariant, he] at hi ⊢
    refine hi.setGain (ha.resolve_left ?_)
    simp [Outside, he]
  | output frame j o | sample frame j o =>
    simp only [Invariant, he] at hi ⊢
    refine ⟨hi.1.setGain (ha.resolve_left ?_), hi.2⟩
    simp [Outside, he]

theorem invariant_increment {script : ScriptPC P} (hi : s.Invariant) (ha : s.Apart .increment) :
    Invariant { s with
      mixer := { s.mixer with connectedInputs := s.mixer.connectedInputs + 1 }
      script := script } := by
  cases he : s.engine with
  | idle => trivial
  | collecting j | loading j | loaded j c => simp [Apart, Outside, Mixes, he] at ha
  | frame frame =>
    simp only [Invariant, he] at hi ⊢
    intro hf
    rcases ha with (hidle | ⟨frame', hframe, hpast⟩) | ⟨-, hg⟩
    · cases he.symm.trans hidle
    · cases he.symm.trans hframe
      omega
    · exact (hi hf).increment hg
  | input frame j =>
    simp only [Invariant, he] at hi ⊢
    have hg := (ha.resolve_left (by simp [Outside, he])).2
    exact hi.increment hg
  | output frame j o =>
    simp only [Invariant, he] at hi ⊢
    have hg := (ha.resolve_left (by simp [Outside, he])).2
    exact ⟨hi.1.increment hg, by omega⟩
  | sample frame j o =>
    simp only [Invariant, he] at hi ⊢
    have hg := (ha.resolve_left (by simp [Outside, he])).2
    exact ⟨hi.1.increment hg, by omega, hi.2.2⟩

theorem invariant_step (hi : s.Invariant) (ha : s.Apart a) (h : Step s a t) : t.Invariant := by
  cases h with
  | connect | refused => exact hi
  | setGain => exact invariant_setGain hi ha
  | increment => exact invariant_increment hi ha
  | stored => exact invariant_stored hi
  | reposition he => exact invariant_idle he
  | doProcess => exact ⟨ha, rfl⟩
  | connected he hlt =>
    simp only [Invariant, he] at hi
    exact ⟨hi.1, hi.2, hi.2 ▸ hlt⟩
  | collected he hge =>
    simp only [Invariant, he] at hi
    intro _ i o hsize hlt
    exact absurd hlt (not_lt.mpr (hi.2.le.trans hsize))
  | getConnection he =>
    simp only [Invariant, he] at hi
    exact ⟨hi.1, hi.2.1, hi.1 _ (hi.2.1 ▸ hi.2.2)⟩
  | getAudio he =>
    simp only [Invariant, he] at hi
    exact ⟨hi.1, hi.2.1⟩
  | nextFrame he hf =>
    simp only [Invariant, he] at hi
    exact hi hf
  | processed => trivial
  | nextInput he hlt =>
    simp only [Invariant, he] at hi
    exact ⟨hi, hlt⟩
  | lastInput he =>
    simp only [Invariant, he] at hi
    exact fun _ => hi
  | muted he =>
    simp only [Invariant, he] at hi
    exact hi
  | @heard frame i o he ho hg =>
    simp only [Invariant, he] at hi
    -- an input with a gain was counted when `audio` was sized
    have hsize : i < s.size := by
      by_contra hge
      exact hg (hi.1 i o (not_lt.mp hge) hi.2 ho)
    exact ⟨hi.1, hi.2, hsize⟩
  | lastOutput he =>
    simp only [Invariant, he] at hi
    exact hi.1
  | sample he =>
    simp only [Invariant, he] at hi
    exact ⟨hi.1, hi.2.1⟩

theorem Invariant.safe (hi : s.Invariant) : ¬ s.NullConnection ∧ ¬ s.Overrun := by
  constructor
  · rintro ⟨i, he⟩
    simp only [Invariant, he] at hi
    exact hi.2.2 rfl
  · rintro ⟨frame, i, o, he, hsize⟩
    simp only [Invariant, he] at hi
    omega

/-- Along a run in which each step keeps the two threads apart, `doProcess` uses no null connection
and stays inside `audio`. -/
theorem doProcess_safe {inputs outputs : ℕ} {as : List (Act P)}
    (h : Transition.Run (Transition.restrict Apart Step) (initial inputs outputs) as t) :
    ¬ t.NullConnection ∧ ¬ t.Overrun := by
  have hinv : t.Invariant :=
    h.invariant_restrict (I := Invariant) invariant_step (invariant_idle rfl)
  exact hinv.safe

end Steps

/-- The connection of a mono source. -/
def mono : AudioConnection ℕ := ⟨1, 0⟩

/-- The source is connected before the period begins, and its audio is read. -/
theorem doProcess_safe_mono :
    ∃ as, ∃ t : State ℕ, Transition.Run (Transition.restrict Apart Step) (initial 1 1) as t ∧
      t.engine = .sample 0 0 0 ∧ ¬ t.NullConnection ∧ ¬ t.Overrun := by
  have hrun : ∃ as, ∃ t : State ℕ,
      Transition.Run (Transition.restrict Apart Step) (initial 1 1) as t ∧
        t.engine = .sample 0 0 0 := by
    refine ⟨[.connect [mono], .setGain 0 0 1, .increment, .setConnection false, .doProcess 1,
      .advance, .advance, .advance, .advance, .advance, .advance, .advance], _,
      .stepL ⟨trivial, .connect rfl⟩
      (.stepL ⟨.inl (.inl rfl), .setGain⟩
      (.stepL ⟨.inl (.inl rfl), .increment rfl Nat.zero_lt_one⟩
      (.stepL ⟨trivial, .stored rfl⟩
      (.stepL ⟨?_, .doProcess rfl⟩
      (.stepL ⟨trivial, .connected rfl Nat.zero_lt_one⟩
      (.stepL ⟨trivial, .getConnection rfl⟩
      (.stepL ⟨trivial, .getAudio rfl⟩
      (.stepL ⟨trivial, .collected rfl le_rfl⟩
      (.stepL ⟨trivial, .nextFrame rfl Nat.zero_lt_one⟩
      (.stepL ⟨trivial, .nextInput rfl Nat.zero_lt_one⟩
      (.single ⟨trivial, .heard rfl Nat.zero_lt_one one_ne_zero⟩))))))))))), rfl⟩
    intro i hi
    cases Nat.lt_one_iff.mp hi
    exact Option.some_ne_none mono
  obtain ⟨as, t, hrun, he⟩ := hrun
  exact ⟨as, t, hrun, he, doProcess_safe hrun⟩

/-- An input is counted before its connection is stored, and before `audio` is sized. -/
theorem null_connection :
    ∃ as, ∃ t : State ℕ, Transition.Run Step (initial 1 1) as t ∧ t.NullConnection :=
  ⟨[.connect [mono], .setGain 0 0 1, .increment, .doProcess 1, .advance, .advance], _,
    .stepL (.connect rfl)
    (.stepL .setGain
    (.stepL (.increment rfl Nat.zero_lt_one)
    (.stepL (.doProcess rfl)
    (.stepL (.connected rfl Nat.zero_lt_one)
    (.single (.getConnection rfl)))))), 0, rfl⟩

/-- An input is counted after `audio` is sized. -/
theorem overrun :
    ∃ as, ∃ t : State ℕ, Transition.Run Step (initial 1 1) as t ∧ t.Overrun :=
  ⟨[.connect [mono], .setGain 0 0 1, .doProcess 1, .advance, .advance, .increment, .advance,
      .advance], _,
    .stepL (.connect rfl)
    (.stepL .setGain
    (.stepL (.doProcess rfl)
    (.stepL (.collected rfl le_rfl)
    (.stepL (.nextFrame rfl Nat.zero_lt_one)
    (.stepL (.increment rfl Nat.zero_lt_one)
    (.stepL (.nextInput rfl Nat.zero_lt_one)
    (.single (.heard rfl Nat.zero_lt_one one_ne_zero)))))))), 0, 0, 0, rfl, le_rfl⟩

theorem doProcess_unsafe :
    (∃ as, ∃ t : State ℕ, Transition.Run Step (initial 1 1) as t ∧ t.NullConnection) ∧
      ∃ as, ∃ t : State ℕ, Transition.Run Step (initial 1 1) as t ∧ t.Overrun :=
  ⟨null_connection, overrun⟩

end State

end Bipscript.Audio.Mixing
