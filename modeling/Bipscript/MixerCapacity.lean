import Bipscript.ConnectErrors

/-! The free inputs that the two overloads of `Mixer::connect` ask for. -/
namespace Bipscript

open Audio

variable {P : Type*}

def Outcome.Accepts {σ : Type*} (o : Outcome σ) : Prop := ∃ s, o = .returned s

def Outcome.Rejects {σ : Type*} (o : Outcome σ) : Prop := ∃ s what, o = .thrown s what

namespace Audio.Mixer

/-- The connectors of the last loop, `audioInput[connectedInputs++]`. -/
def connectorInputs (m : Mixer P) (outputs : ℕ) : List ℕ :=
  (List.range outputs).map (m.connectedInputs + ·)

/-- The inputs that the overload with one gain indexes `gain` and then `audioInput` with, for a
source of so many outputs. -/
def scalarInputs (m : Mixer P) (outputs : ℕ) : Outcome (List ℕ) :=
  if outputs = 0 then .thrown [] "input has no audio outputs"
  else if m.connectedInputs + outputs > m.audioInputCount then
    .thrown [] "not enough inputs available"
  else if m.audioOutputCount = 0 then .undefined -- a remainder by zero
  else .returned
    ((List.range (max outputs m.audioOutputCount)).map (m.connectedInputs + · % outputs) ++
      m.connectorInputs outputs)

/-- Those of the overload with an array of gains. -/
def arrayInputs (m : Mixer P) (outputs : ℕ) (gains : List ScriptValue) : Outcome (List ℕ) :=
  if gains.length ≠ outputs then
    .thrown [] "gains array has different length than input count"
  else
    let indexed := (numbers (m.cells 0 gains)).map Prod.fst
    match failure (m.cells 0 gains) with
    | some what => .thrown indexed what
    | none => .returned (indexed ++ m.connectorInputs outputs)

/-- A number, or a number for each output. -/
def GainEntry (m : Mixer P) (val : ScriptValue) : Prop :=
  val.number? ≠ none ∨
    ∃ values, val = .array values ∧ values.length = m.audioOutputCount ∧
      ∀ gainValue ∈ values, gainValue.number? ≠ none

/-- An entry for each output of the source. -/
structure GainsFor (m : Mixer P) (outputs : ℕ) (gains : List ScriptValue) : Prop where
  length : gains.length = outputs
  entries : ∀ val ∈ gains, m.GainEntry val

/-- What a call has indexed with. -/
def Indexed (o : Outcome (List ℕ)) (input : ℕ) : Prop :=
  match o with
  | .returned inputs | .thrown inputs _ => input ∈ inputs
  | .undefined => False

/-- The two overloads accept and reject alike, and index inside the mixer. -/
structure SameCapacity (m : Mixer P) (outputs : ℕ) (gains : List ScriptValue) : Prop where
  accepts : (m.scalarInputs outputs).Accepts ↔ (m.arrayInputs outputs gains).Accepts
  rejects : (m.scalarInputs outputs).Rejects ↔ (m.arrayInputs outputs gains).Rejects
  scalar : ∀ input, Indexed (m.scalarInputs outputs) input → input < m.audioInputCount
  array : ∀ input, Indexed (m.arrayInputs outputs gains) input → input < m.audioInputCount

variable {m : Mixer P} {outputs : ℕ} {gains : List ScriptValue}

theorem failure_append {a b : List Cell} (ha : failure a = none) :
    failure (a ++ b) = failure b := by
  induction a with
  | nil => rfl
  | cons c a ih =>
    obtain ⟨i, j, what | x⟩ := c
    · cases ha
    · exact ih ha

theorem failure_rowCells (input j : ℕ) {values : List ScriptValue}
    (h : ∀ gainValue ∈ values, gainValue.number? ≠ none) :
    failure (rowCells input j values) = none := by
  induction values generalizing j with
  | nil => rfl
  | cons v rest ih =>
    obtain ⟨hv, hrest⟩ := List.forall_mem_cons.mp h
    obtain ⟨x, hx⟩ := Option.ne_none_iff_exists'.mp hv
    simp only [rowCells, hx]
    exact ih (j + 1) hrest

theorem failure_entryCells (input : ℕ) {val : ScriptValue} (h : m.GainEntry val) :
    failure (m.entryCells input val) = none := by
  rcases h with h | ⟨values, rfl, hlength, hnumbers⟩
  · have hall : ∀ gainValue ∈ List.replicate m.audioOutputCount val,
        gainValue.number? ≠ none := by
      intro gainValue hmem
      rwa [List.eq_of_mem_replicate hmem]
    cases val with
    | integer x => exact failure_rowCells input 0 hall
    | float x => exact failure_rowCells input 0 hall
    | array values => exact absurd rfl h
    | other => exact absurd rfl h
  · simp only [entryCells, hlength, ne_eq, not_true, if_false]
    exact failure_rowCells input 0 hnumbers

theorem failure_cells (i : ℕ) (h : ∀ val ∈ gains, m.GainEntry val) :
    failure (m.cells i gains) = none := by
  induction gains generalizing i with
  | nil => rfl
  | cons val rest ih =>
    obtain ⟨hval, hrest⟩ := List.forall_mem_cons.mp h
    rw [cells, failure_append (failure_entryCells _ hval)]
    exact ih (i + 1) hrest

/-- The cells of an array begin at the first free input and end before the last it has entries
for. -/
theorem input_lt_of_mem_cells {i : ℕ} {c : Cell} (h : c ∈ m.cells i gains) :
    c.input < m.connectedInputs + i + gains.length := by
  induction gains generalizing i with
  | nil => cases h
  | cons val rest ih =>
    rw [List.length_cons]
    rcases List.mem_append.mp h with h | h
    · have hinput := (m.entryCells_spec (m.connectedInputs + i) val).1 c h
      omega
    · have hlt := ih h
      omega

theorem input_lt_of_mem_numbers {input : ℕ}
    (h : input ∈ (numbers (m.cells 0 gains)).map Prod.fst) :
    input < m.connectedInputs + gains.length := by
  obtain ⟨n, hn, rfl⟩ := List.mem_map.mp h
  have hmem := (numbers_sublist _).mem (List.mem_map_of_mem (f := fun c => (c.1, c.2.1)) hn)
  obtain ⟨c, hc, heq⟩ := List.mem_map.mp hmem
  have hlt := input_lt_of_mem_cells hc
  rw [Prod.mk.inj heq |>.1] at hlt
  exact hlt

theorem mem_connectorInputs {input : ℕ} :
    input ∈ m.connectorInputs outputs ↔
      m.connectedInputs ≤ input ∧ input < m.connectedInputs + outputs := by
  unfold connectorInputs
  rw [List.mem_map]
  constructor
  · rintro ⟨i, hi, rfl⟩
    have hlt := List.mem_range.mp hi
    omega
  · rintro ⟨hle, hlt⟩
    exact ⟨input - m.connectedInputs, List.mem_range.mpr (by omega), by omega⟩

/-- Nothing is refused in an array of the right shape, however few inputs are free. -/
theorem arrayInputs_of_gains (h : m.GainsFor outputs gains) :
    m.arrayInputs outputs gains = .returned
      ((numbers (m.cells 0 gains)).map Prod.fst ++ m.connectorInputs outputs) := by
  unfold arrayInputs
  rw [if_neg (not_not.mpr h.length), failure_cells 0 h.entries]

theorem scalarInputs_of_free (hout : outputs ≠ 0) (hmix : m.audioOutputCount ≠ 0)
    (hfit : m.connectedInputs + outputs ≤ m.audioInputCount) :
    m.scalarInputs outputs = .returned
      ((List.range (max outputs m.audioOutputCount)).map (m.connectedInputs + · % outputs) ++
        m.connectorInputs outputs) := by
  unfold scalarInputs
  rw [if_neg hout, if_neg (not_lt.mpr hfit), if_neg hmix]

theorem scalarInputs_accepts_iff :
    (m.scalarInputs outputs).Accepts ↔
      outputs ≠ 0 ∧ m.audioOutputCount ≠ 0 ∧
        m.connectedInputs + outputs ≤ m.audioInputCount := by
  constructor
  · rintro ⟨inputs, haccepted⟩
    unfold scalarInputs at haccepted
    split at haccepted
    · cases haccepted
    · rename_i hout
      split at haccepted
      · cases haccepted
      · rename_i hfit
        split at haccepted
        · cases haccepted
        · rename_i hmix
          exact ⟨hout, hmix, not_lt.mp hfit⟩
  · rintro ⟨hout, hmix, hfit⟩
    exact ⟨_, scalarInputs_of_free hout hmix hfit⟩

/-- The array overload has a rule of its own: it takes any source whose number of outputs is that of
the entries. The two agree where the source has outputs, the mixer has outputs and enough inputs are
free. -/
theorem sameCapacity_iff (h : m.GainsFor outputs gains) :
    m.SameCapacity outputs gains ↔
      outputs ≠ 0 ∧ m.audioOutputCount ≠ 0 ∧
        m.connectedInputs + outputs ≤ m.audioInputCount := by
  constructor
  · intro hsame
    exact scalarInputs_accepts_iff.mp (hsame.accepts.mpr ⟨_, arrayInputs_of_gains h⟩)
  · rintro ⟨hout, hmix, hfit⟩
    have hscalar := scalarInputs_of_free hout hmix hfit
    have harray := arrayInputs_of_gains h
    refine ⟨?_, ?_, ?_, ?_⟩
    · rw [hscalar, harray]
      exact iff_of_true ⟨_, rfl⟩ ⟨_, rfl⟩
    · rw [hscalar, harray]
      exact iff_of_false nofun nofun
    · intro input hi
      rw [hscalar] at hi
      rcases List.mem_append.mp hi with hi | hi
      · obtain ⟨counter, -, rfl⟩ := List.mem_map.mp hi
        have hlt := Nat.mod_lt counter (Nat.pos_of_ne_zero hout)
        omega
      · have hlt := (mem_connectorInputs.mp hi).2
        omega
    · intro input hi
      rw [harray] at hi
      rcases List.mem_append.mp hi with hi | hi
      · have hlt := input_lt_of_mem_numbers hi
        have hlength := h.length
        omega
      · have hlt := (mem_connectorInputs.mp hi).2
        omega

/-- Two numbers for a stereo source. -/
theorem gainsFor_pair {x y : ScriptValue} (hx : x.number? ≠ none) (hy : y.number? ≠ none) :
    m.GainsFor 2 [x, y] := by
  refine ⟨rfl, fun val hval => .inl ?_⟩
  rcases List.mem_pair.mp hval with rfl | rfl
  · exact hx
  · exact hy

theorem sameCapacity_stereo : (Mixer.new 2 2 : Mixer ℕ).SameCapacity 2 [.integer 1, .float 1] :=
  (sameCapacity_iff (gainsFor_pair (by simp [ScriptValue.number?])
    (by simp [ScriptValue.number?]))).mpr ⟨by decide, by decide, by decide⟩

/-- A mixer with a single input: the overload with one gain rejects a stereo source, and that with
an array takes it, and indexes past its one row and its one connector. -/
theorem not_sameCapacity :
    let m : Mixer ℕ := .new 1 1
    m.GainsFor 2 [.integer 1, .integer 1] ∧ ¬ m.SameCapacity 2 [.integer 1, .integer 1] ∧
      m.scalarInputs 2 = .thrown [] "not enough inputs available" ∧
      m.arrayInputs 2 [.integer 1, .integer 1] = .returned [0, 1, 0, 1] := by
  refine ⟨gainsFor_pair (by simp [ScriptValue.number?]) (by simp [ScriptValue.number?]),
    fun hsame => ?_, rfl, rfl⟩
  have hlt := hsame.array 1 (List.mem_cons_of_mem _ List.mem_cons_self)
  exact absurd hlt (by decide)

end Audio.Mixer

namespace Graph

variable [DecidableEq P] {g : Graph P} {p source : P} {m : Mixer P}
  {conns : List (AudioConnection P)}

/-- The overload with one gain ends as `scalarInputs` says before its loop over the connectors. -/
theorem mixerConnect_inputs (hm : g p = .mixer m)
    (hc : (g source).audioConnections source = some conns) (depth : ℕ) (initialGain : ℚ) :
    g.mixerConnect depth p source initialGain =
      match m.scalarInputs conns.length with
      | .returned _ => connectInputs depth p conns
          (Function.update g p (.mixer { m with
            gain := m.distributeGain conns.length initialGain }))
      | .thrown _ what => .thrown g what
      | .undefined => .undefined := by
  simp only [mixerConnect, hm, hc, Mixer.scalarInputs]
  by_cases hout : conns.length = 0
  · rw [if_pos hout, if_pos hout]
  · rw [if_neg hout, if_neg hout]
    by_cases hfit : m.connectedInputs + conns.length > m.audioInputCount
    · rw [if_pos hfit, if_pos hfit]
    · rw [if_neg hfit, if_neg hfit]
      by_cases hmix : m.audioOutputCount = 0
      · rw [if_pos hmix, if_pos hmix]
      · rw [if_neg hmix, if_neg hmix]

end Graph

end Bipscript
