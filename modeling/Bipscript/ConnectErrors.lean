import Bipscript.Connect

/-! What a call of `Mixer::connect` that throws has already changed. -/
namespace Bipscript

open Audio

variable {P : Type*}

/-- If the call throws, it leaves the state it was made in. -/
def Outcome.KeepsOnError {σ : Type*} (o : Outcome σ) (s : σ) : Prop :=
  ∀ s' what, o = .thrown s' what → s' = s

namespace Audio.Mixer

/-- A gain the array overload comes to: its cell, and the number to write or the error to throw. -/
structure Cell where
  input : ℕ
  output : ℕ
  value : Except String ℚ

/-- The cells of one row of values, from output `j` on. -/
def rowCells (input : ℕ) : ℕ → List ScriptValue → List Cell
  | _, [] => []
  | j, gainValue :: rest =>
    ⟨input, j, match gainValue.number? with
      | some x => .ok x
      | none => .error "gain value should be a number"⟩ :: rowCells input (j + 1) rest

/-- The cells of one entry of the gains array. -/
def entryCells (m : Mixer P) (input : ℕ) : ScriptValue → List Cell
  | .array values =>
    if values.length ≠ m.audioOutputCount then
      [⟨input, 0, .error ("gain subarray should be length " ++ toString m.audioOutputCount)⟩]
    else rowCells input 0 values
  | .integer x => rowCells input 0 (List.replicate m.audioOutputCount (.integer x))
  | .float x => rowCells input 0 (List.replicate m.audioOutputCount (.float x))
  | .other => [⟨input, 0, .error "each gain array entry should be a number or subarray"⟩]

/-- The cells of the gains array in the order of the loops, from its element `i` on. -/
def cells (m : Mixer P) : ℕ → List ScriptValue → List Cell
  | _, [] => []
  | i, val :: rest => m.entryCells (m.connectedInputs + i) val ++ cells m (i + 1) rest

/-- The numbers before the first error. -/
def numbers : List Cell → List (ℕ × ℕ × ℚ)
  | ⟨i, j, .ok x⟩ :: rest => (i, j, x) :: numbers rest
  | _ => []

/-- The first error. -/
def failure : List Cell → Option String
  | ⟨_, _, .ok _⟩ :: rest => failure rest
  | ⟨_, _, .error what⟩ :: _ => some what
  | [] => none

def setAll (gain : Gains) (numbers : List (ℕ × ℕ × ℚ)) : Gains :=
  numbers.foldl (fun gain c => gain.set c.1 c.2.1 c.2.2) gain

/-- A number lands outside the matrix, which the language leaves undefined. -/
def Outside (m : Mixer P) (gains : List ScriptValue) : Prop :=
  ∃ c ∈ numbers (m.cells 0 gains), m.audioInputCount ≤ c.1

/-- Every number before the first error is the gain its cell has already. -/
def Rewrites (m : Mixer P) (gains : List ScriptValue) : Prop :=
  ∀ c ∈ numbers (m.cells 0 gains), m.gain c.1 c.2.1 = c.2.2

/-- Cell by cell, until a number lands outside the matrix or an error is thrown. -/
def writeCells (m : Mixer P) : List Cell → Gains → Outcome Gains
  | [], gain => .returned gain
  | ⟨i, j, .ok x⟩ :: rest, gain =>
    if i < m.audioInputCount then writeCells m rest (gain.set i j x) else .undefined
  | ⟨_, _, .error what⟩ :: _, gain => .thrown gain what

theorem writeCells_append (m : Mixer P) (a b : List Cell) (gain : Gains) :
    m.writeCells (a ++ b) gain = (m.writeCells a gain).andThen (m.writeCells b) := by
  induction a generalizing gain with
  | nil => rfl
  | cons c a ih =>
    obtain ⟨i, j, x | x⟩ := c
    · rfl
    · simp only [List.cons_append, writeCells]
      by_cases hi : i < m.audioInputCount
      · rw [if_pos hi, if_pos hi]
        exact ih _
      · rw [if_neg hi, if_neg hi]
        rfl

theorem rowGains_eq (m : Mixer P) (input j : ℕ) (values : List ScriptValue) (gain : Gains) :
    m.rowGains input j values gain = m.writeCells (rowCells input j values) gain := by
  induction values generalizing j gain with
  | nil => rfl
  | cons v rest ih =>
    simp only [rowGains, rowCells]
    cases v.number? with
    | none => rfl
    | some x => simp only [writeCells, ih]

/-- The loop over the gains array writes its cells. -/
theorem arrayGains_eq (m : Mixer P) (i : ℕ) (gains : List ScriptValue) (gain : Gains) :
    m.arrayGains i gains gain = m.writeCells (m.cells i gains) gain := by
  induction gains generalizing i gain with
  | nil => rfl
  | cons val rest ih =>
    have hnext : m.arrayGains (i + 1) rest = m.writeCells (m.cells (i + 1) rest) := funext (ih _)
    simp only [arrayGains, cells, writeCells_append, hnext]
    congr 1
    cases val with
    | integer x => exact rowGains_eq m _ _ _ _
    | float x => exact rowGains_eq m _ _ _ _
    | array values =>
      simp only [entryCells]
      by_cases hlen : values.length ≠ m.audioOutputCount
      · rw [if_pos hlen, if_pos hlen]
        rfl
      · rw [if_neg hlen, if_neg hlen]
        exact rowGains_eq m _ _ _ _
    | other => rfl

/-- How the loops end: by what comes first, a number outside the matrix or an error. -/
theorem writeCells_cases (m : Mixer P) (l : List Cell) (gain : Gains) :
    ((∃ c ∈ numbers l, m.audioInputCount ≤ c.1) ∧ m.writeCells l gain = .undefined) ∨
    (∀ c ∈ numbers l, c.1 < m.audioInputCount) ∧
      ((∃ what, failure l = some what ∧
        m.writeCells l gain = .thrown (setAll gain (numbers l)) what) ∨
      (failure l = none ∧ m.writeCells l gain = .returned (setAll gain (numbers l)))) := by
  induction l generalizing gain with
  | nil => exact Or.inr ⟨by simp [numbers], Or.inr ⟨rfl, rfl⟩⟩
  | cons c l ih =>
    obtain ⟨i, j, what | x⟩ := c
    · exact Or.inr ⟨by simp [numbers], Or.inl ⟨what, rfl, rfl⟩⟩
    · simp only [numbers, failure, writeCells, List.mem_cons, exists_eq_or_imp, forall_eq_or_imp]
      by_cases hi : i < m.audioInputCount
      · rw [if_pos hi]
        rcases ih (gain.set i j x) with ⟨hout, hu⟩ | ⟨hin, h⟩
        · exact Or.inl ⟨Or.inr hout, hu⟩
        · exact Or.inr ⟨⟨hi, hin⟩, h⟩
      · exact Or.inl ⟨Or.inl (by omega), if_neg hi⟩

/-- One cell comes before another in the order of the loops. -/
def before (a b : ℕ × ℕ × ℚ) : Prop := a.1 < b.1 ∨ a.1 = b.1 ∧ a.2.1 < b.2.1

theorem setAll_of_not_mem {gain : Gains} {l : List (ℕ × ℕ × ℚ)} {i j : ℕ}
    (h : ∀ c ∈ l, (i, j) ≠ (c.1, c.2.1)) : setAll gain l i j = gain i j := by
  induction l generalizing gain with
  | nil => rfl
  | cons c l ih =>
    obtain ⟨hc, hl⟩ := List.forall_mem_cons.mp h
    exact (ih hl).trans (Gains.set_other gain _ hc)

/-- Writes to different cells leave the gains as they were iff each writes what is there. -/
theorem setAll_eq_iff {gain : Gains} {l : List (ℕ × ℕ × ℚ)} (hl : l.Pairwise before) :
    setAll gain l = gain ↔ ∀ c ∈ l, gain c.1 c.2.1 = c.2.2 := by
  induction l generalizing gain with
  | nil => simp [setAll]
  | cons c l ih =>
    obtain ⟨hc, hrest⟩ := List.pairwise_cons.mp hl
    have hne : ∀ d ∈ l, (c.1, c.2.1) ≠ (d.1, d.2.1) := by
      intro d hd he
      obtain ⟨h1, h2⟩ := Prod.mk.inj he
      rcases hc d hd with h | ⟨-, h⟩ <;> omega
    have hset : gain c.1 c.2.1 = c.2.2 → gain.set c.1 c.2.1 c.2.2 = gain := by
      intro he
      funext i o
      by_cases hio : (i, o) = (c.1, c.2.1)
      · obtain ⟨rfl, rfl⟩ := Prod.mk.inj hio
        rw [Gains.set_same, he]
      · exact Gains.set_other gain _ hio
    rw [List.forall_mem_cons]
    constructor
    · intro h
      have hhead : gain c.1 c.2.1 = c.2.2 := by
        have happly := congrFun (congrFun h c.1) c.2.1
        rw [← happly]
        exact (setAll_of_not_mem hne).trans (Gains.set_same gain _ _ _)
      have htail : setAll (gain.set c.1 c.2.1 c.2.2) l = gain := h
      rw [hset hhead] at htail
      exact ⟨hhead, (ih hrest).mp htail⟩
    · rintro ⟨hhead, htail⟩
      change setAll (gain.set c.1 c.2.1 c.2.2) l = gain
      rw [hset hhead]
      exact (ih hrest).mpr htail

theorem numbers_sublist (l : List Cell) :
    ((numbers l).map fun c => (c.1, c.2.1)).Sublist (l.map fun c => (c.input, c.output)) := by
  induction l with
  | nil => exact .refl _
  | cons c l ih =>
    obtain ⟨i, j, what | x⟩ := c
    · exact List.nil_sublist _
    · exact ih.cons_cons _

theorem mem_rowCells {input j : ℕ} {values : List ScriptValue} {c : Cell}
    (h : c ∈ rowCells input j values) : c.input = input ∧ j ≤ c.output := by
  induction values generalizing j with
  | nil => cases h
  | cons v rest ih =>
    rcases List.mem_cons.mp h with rfl | h
    · exact ⟨rfl, le_rfl⟩
    · exact ⟨(ih h).1, by have := (ih h).2; omega⟩

theorem rowCells_pairwise (input j : ℕ) (values : List ScriptValue) :
    (rowCells input j values).Pairwise fun a b => a.output < b.output := by
  induction values generalizing j with
  | nil => exact .nil
  | cons v rest ih =>
    refine List.pairwise_cons.mpr ⟨fun c hc => ?_, ih (j + 1)⟩
    exact (mem_rowCells hc).2

theorem entryCells_spec (m : Mixer P) (input : ℕ) (val : ScriptValue) :
    (∀ c ∈ m.entryCells input val, c.input = input) ∧
      (m.entryCells input val).Pairwise fun a b => a.output < b.output := by
  have hrow : ∀ values, (∀ c ∈ rowCells input 0 values, c.input = input) ∧
      (rowCells input 0 values).Pairwise fun a b => a.output < b.output := fun values =>
    ⟨fun c hc => (mem_rowCells hc).1, rowCells_pairwise _ _ _⟩
  cases val with
  | integer x => exact hrow _
  | float x => exact hrow _
  | array values =>
    simp only [entryCells]
    split
    · simp
    · exact hrow _
  | other => simp [entryCells]

theorem cells_pairwise (m : Mixer P) (i : ℕ) (gains : List ScriptValue) :
    (∀ c ∈ m.cells i gains, m.connectedInputs + i ≤ c.input) ∧
      (m.cells i gains).Pairwise
        fun a b => a.input < b.input ∨ a.input = b.input ∧ a.output < b.output := by
  induction gains generalizing i with
  | nil => exact ⟨by simp [cells], .nil⟩
  | cons val rest ih =>
    obtain ⟨hrow, hsorted⟩ := m.entryCells_spec (m.connectedInputs + i) val
    obtain ⟨hle, hrest⟩ := ih (i + 1)
    constructor
    · intro c hc
      rcases List.mem_append.mp hc with hc | hc
      · exact (hrow c hc).ge
      · have := hle c hc
        omega
    · refine List.pairwise_append.mpr ⟨?_, hrest, ?_⟩
      · exact hsorted.imp_of_mem fun ha hb h => Or.inr ⟨(hrow _ ha).trans (hrow _ hb).symm, h⟩
      · intro a ha b hb
        have h1 := hrow a ha
        have h2 := hle b hb
        exact Or.inl (by omega)

theorem numbers_pairwise (m : Mixer P) (gains : List ScriptValue) :
    (numbers (m.cells 0 gains)).Pairwise before := by
  have hcells := (m.cells_pairwise 0 gains).2
  have hmap : ((m.cells 0 gains).map fun c => (c.input, c.output)).Pairwise
      fun a b => a.1 < b.1 ∨ a.1 = b.1 ∧ a.2 < b.2 := List.pairwise_map.mpr hcells
  have hnumbers := hmap.sublist (numbers_sublist _)
  rw [List.pairwise_map] at hnumbers
  exact hnumbers

/-- Without an error the first entry has a number for each output. -/
theorem exists_number {m : Mixer P} {val : ScriptValue} {rest : List ScriptValue}
    (hout : m.audioOutputCount ≠ 0) (h : failure (m.cells 0 (val :: rest)) = none) :
    ∃ c ∈ numbers (m.cells 0 (val :: rest)), c.1 = m.connectedInputs := by
  have hrow : ∀ (values : List ScriptValue) (tail : List Cell), values.length ≠ 0 →
      failure (rowCells m.connectedInputs 0 values ++ tail) = none →
      ∃ c ∈ numbers (rowCells m.connectedInputs 0 values ++ tail), c.1 = m.connectedInputs := by
    intro values tail hlen hf
    cases values with
    | nil => exact absurd rfl hlen
    | cons v values =>
      simp only [rowCells, List.cons_append] at hf ⊢
      cases hv : v.number? with
      | none => simp [hv, failure] at hf
      | some x => exact ⟨_, List.mem_cons_self, rfl⟩
  simp only [cells, Nat.add_zero] at h ⊢
  cases val with
  | integer x => exact hrow _ _ (by simpa using hout) h
  | float x => exact hrow _ _ (by simpa using hout) h
  | array values =>
    simp only [entryCells] at h ⊢
    by_cases hlen : values.length ≠ m.audioOutputCount
    · rw [if_pos hlen] at h
      cases h
    · rw [if_neg hlen] at h ⊢
      exact hrow _ _ (by omega) h
  | other => cases h

end Audio.Mixer

namespace Graph

/-- The ports of a stereo input are audio input ports. -/
def PortsTyped (g : Graph P) : Prop :=
  ∀ p portLeft portRight, g p = .audioStereoInput portLeft portRight →
    g portLeft = .audioInputPort ∧ g portRight = .audioInputPort

theorem firstTrue_ne_true {α : Type*} {f : α → Option Bool} (h : ∀ x, f x ≠ some true)
    (l : List α) : firstTrue f l ≠ some true := by
  induction l with
  | nil => simp [firstTrue]
  | cons x rest ih =>
    have hx := h x
    simp only [firstTrue]
    split
    · simp
    · rename_i ht
      exact absurd ht hx
    · exact ih

/-- `connectsTo` descends to the sources of sources, and compares none of them. -/
theorem connectsTo_ne_true (g : Graph P) (depth : ℕ) (p source : P) :
    g.connectsTo depth p source ≠ some true := by
  induction depth generalizing p with
  | zero => simp [connectsTo]
  | succ depth ih =>
    simp only [connectsTo]
    split
    · apply firstTrue_ne_true
      intro i
      split
      · simp
      · exact ih _
    · exact firstTrue_ne_true (fun q => ih q) _
    · simp

variable [DecidableEq P]

/-- So only a processor's own connections are refused. -/
theorem setConnection_not_thrown {depth : ℕ} {g stored s' : Graph P} {connSource source : P}
    {what : String} (hne : connSource ≠ source) :
    setConnection depth g connSource source stored ≠ .thrown s' what := by
  simp only [setConnection, refuses, if_neg hne]
  cases hc : g.connectsTo depth connSource source with
  | none => simp
  | some b =>
    cases b with
    | false => simp
    | true => exact absurd hc (connectsTo_ne_true g depth connSource source)

theorem connectInputs_not_thrown {depth : ℕ} {p : P} {conns : List (AudioConnection P)}
    {g s' : Graph P} {what : String} (h : ∀ conn ∈ conns, conn.source ≠ p) :
    connectInputs depth p conns g ≠ .thrown s' what := by
  induction conns generalizing g with
  | nil => simp [connectInputs]
  | cons conn rest ih =>
    obtain ⟨hconn, hrest⟩ := List.forall_mem_cons.mp h
    simp only [connectInputs]
    split
    · split
      · intro hthrown
        cases hs : setConnection depth _ conn.source p _ with
        | returned s =>
          rw [hs] at hthrown
          exact ih hrest hthrown
        | thrown s what' => exact setConnection_not_thrown hconn hs
        | undefined =>
          rw [hs] at hthrown
          cases hthrown
      · simp
    · simp

/-- A connection of the mixer's own is refused when its connector has been counted. -/
theorem connectInputs_own (depth : ℕ) {p : P} {conn : AudioConnection P}
    (rest : List (AudioConnection P)) {g : Graph P} {m : Mixer P} (hm : g p = .mixer m)
    (hconn : conn.source = p) (hi : m.connectedInputs < m.audioInputCount) :
    connectInputs depth p (conn :: rest) g = .thrown
      (Function.update g p (.mixer { m with connectedInputs := m.connectedInputs + 1 }))
      "Cannot connect infinite loop" := by
  simp only [connectInputs, hm, if_pos hi, setConnection, refuses, if_pos hconn]
  rfl

omit [DecidableEq P] in
/-- The connections of another source are not the mixer's. -/
theorem source_ne {g : Graph P} {p source : P} {m : Mixer P} {conns : List (AudioConnection P)}
    (hports : g.PortsTyped) (hm : g p = .mixer m)
    (hc : (g source).audioConnections source = some conns) (hne : source ≠ p) :
    ∀ conn ∈ conns, conn.source ≠ p := by
  intro conn hconn
  have hown : conn.source = source → conn.source ≠ p := fun he => he ▸ hne
  cases hs : g source with
  | audioStereoInput portLeft portRight =>
    obtain ⟨hl, hr⟩ := hports _ _ _ hs
    rw [hs] at hc
    cases hc
    simp only [List.mem_cons, List.not_mem_nil, or_false] at hconn
    rintro rfl
    rcases hconn with rfl | rfl
    · cases hl.symm.trans hm
    · cases hr.symm.trans hm
  | audioInputPort =>
    rw [hs] at hc
    cases hc
    obtain rfl := List.mem_singleton.mp hconn
    exact hown rfl
  | mixer m' =>
    rw [hs] at hc
    cases hc
    obtain ⟨i, -, rfl⟩ := List.mem_map.mp hconn
    exact hown rfl
  | plugin pl =>
    rw [hs] at hc
    cases hc
    obtain ⟨i, -, rfl⟩ := List.mem_map.mp hconn
    exact hown rfl
  | _ =>
    rw [hs] at hc
    cases hc

/-- When the scalar overload leaves the graph as it was if it throws: the source is not the mixer
itself, or the call ends before its loop over the outputs. -/
def KeptScalar (p source : P) (m : Mixer P) : Prop :=
  source ≠ p ∨ m.audioOutputCount = 0 ∨
    m.audioInputCount < m.connectedInputs + m.audioOutputCount

/-- When the array overload does: the numbers before its first error change nothing, or there is
none and the source is not the mixer itself. -/
def KeptArray (p source : P) (m : Mixer P) (outputs : ℕ) (gains : List ScriptValue) : Prop :=
  gains.length ≠ outputs ∨ m.Outside gains ∨
    match Mixer.failure (m.cells 0 gains) with
    | some _ => m.Rewrites gains
    | none => source ≠ p ∨ m.audioOutputCount = 0

omit [DecidableEq P] in
theorem own_connections {g : Graph P} {p : P} {m : Mixer P} {conns : List (AudioConnection P)}
    (hm : g p = .mixer m) (hc : (g p).audioConnections p = some conns) :
    conns.length = m.audioOutputCount ∧ ∀ conn ∈ conns, conn.source = p := by
  rw [hm] at hc
  cases hc
  refine ⟨by simp, fun conn hconn => ?_⟩
  obtain ⟨i, -, rfl⟩ := List.mem_map.mp hconn
  rfl

/-- A count that has moved is a change. -/
theorem update_count_ne {g g₀ : Graph P} {p : P} {m m' : Mixer P} (hm : g p = .mixer m)
    (h : m'.connectedInputs ≠ m.connectedInputs) : Function.update g₀ p (.mixer m') ≠ g := by
  intro he
  have hp := congrFun he p
  rw [Function.update_self, hm] at hp
  cases hp
  exact h rfl

section Calls

variable {g : Graph P} {p source : P} {m : Mixer P} {conns : List (AudioConnection P)}

omit [DecidableEq P] in
theorem keepsOnError_thrown {g s : Graph P} {what : String} :
    (Outcome.thrown s what).KeepsOnError g ↔ s = g := by
  constructor
  · exact fun h => h s what rfl
  · rintro h s' what' he
    cases he
    exact h

omit [DecidableEq P] in
theorem keepsOnError_of_ne {g : Graph P} {o : Outcome (Graph P)}
    (h : ∀ s what, o ≠ .thrown s what) : o.KeepsOnError g :=
  fun s what he => absurd he (h s what)

omit [DecidableEq P] in
theorem keepsOnError_undefined {g : Graph P} : Outcome.undefined.KeepsOnError g :=
  keepsOnError_of_ne fun _ _ => nofun

/-- Once the gains are written, the loop over the outputs throws for the mixer's own only, whose
first has been counted by then. -/
theorem connectInputs_keeps_iff (hports : g.PortsTyped) (hm : g p = .mixer m)
    (hc : (g source).audioConnections source = some conns) (depth : ℕ) (gain : Gains)
    (hfirst : m.audioOutputCount ≠ 0 → source = p → m.connectedInputs < m.audioInputCount) :
    (connectInputs depth p conns
      (Function.update g p (.mixer { m with gain := gain }))).KeepsOnError g ↔
        source ≠ p ∨ m.audioOutputCount = 0 := by
  by_cases hs : source = p
  · subst hs
    obtain ⟨hlen, hown⟩ := own_connections hm hc
    cases conns with
    | nil => exact iff_of_true (keepsOnError_of_ne fun _ _ => nofun) (Or.inr hlen.symm)
    | cons conn rest =>
      have hne : m.audioOutputCount ≠ 0 := by
        rw [← hlen]
        simp
      have hcounted := connectInputs_own depth rest (m := { m with gain := gain })
        (Function.update_self _ _ g) (hown conn List.mem_cons_self) (hfirst hne rfl)
      rw [hcounted, keepsOnError_thrown]
      refine iff_of_false (update_count_ne hm (by simp)) ?_
      rintro (h | h)
      · exact h rfl
      · exact hne h
  · refine iff_of_true (keepsOnError_of_ne fun _ _ => ?_) (Or.inl hs)
    exact connectInputs_not_thrown (source_ne hports hm hc hs)

theorem scalar_keeps_iff (hports : g.PortsTyped) (hm : g p = .mixer m)
    (hc : (g source).audioConnections source = some conns) (depth : ℕ) (initialGain : ℚ) :
    (g.mixerConnect depth p source initialGain).KeepsOnError g ↔ KeptScalar p source m := by
  have hown : source = p → conns.length = m.audioOutputCount := by
    rintro rfl
    exact (own_connections hm hc).1
  simp only [mixerConnect, hm, hc, KeptScalar]
  by_cases hlen : conns.length = 0
  · rw [if_pos hlen, keepsOnError_thrown]
    refine iff_of_true rfl (or_iff_not_imp_left.mpr fun hs => Or.inl ?_)
    rw [← hown (not_not.mp hs), hlen]
  rw [if_neg hlen]
  by_cases hfit : m.connectedInputs + conns.length > m.audioInputCount
  · rw [if_pos hfit, keepsOnError_thrown]
    refine iff_of_true rfl (or_iff_not_imp_left.mpr fun hs => Or.inr ?_)
    rwa [← hown (not_not.mp hs)]
  rw [if_neg hfit]
  by_cases hout : m.audioOutputCount = 0
  · rw [if_pos hout]
    exact iff_of_true keepsOnError_undefined (Or.inr (Or.inl hout))
  rw [if_neg hout, connectInputs_keeps_iff hports hm hc depth _ fun _ _ => by omega]
  refine or_congr_right' fun hs => (or_iff_left ?_).symm
  rw [← hown (not_not.mp hs)]
  omega

theorem array_keeps_iff (hports : g.PortsTyped) (hm : g p = .mixer m)
    (hc : (g source).audioConnections source = some conns) (depth : ℕ)
    (gains : List ScriptValue) :
    (g.mixerConnectGains depth p source gains).KeepsOnError g ↔
      KeptArray p source m conns.length gains := by
  simp only [mixerConnectGains, hm, hc, KeptArray]
  by_cases hlen : gains.length ≠ conns.length
  · rw [if_pos hlen, keepsOnError_thrown]
    exact iff_of_true rfl (Or.inl hlen)
  rw [if_neg hlen, Mixer.arrayGains_eq]
  simp only [hlen, false_or]
  have hinside : (∀ c ∈ Mixer.numbers (m.cells 0 gains), c.1 < m.audioInputCount) →
      ¬ m.Outside gains := by
    rintro hin ⟨c, hc, hle⟩
    exact absurd (hin c hc) (by omega)
  rcases m.writeCells_cases (m.cells 0 gains) m.gain with
    ⟨hout, hw⟩ | ⟨hin, ⟨what, hf, hw⟩ | ⟨hf, hw⟩⟩
  · rw [hw]
    exact iff_of_true keepsOnError_undefined (Or.inl hout)
  · -- an error: what was written before it stays
    simp only [hw, hf, hinside hin, false_or, Mixer.Rewrites]
    rw [keepsOnError_thrown, ← Mixer.setAll_eq_iff (m.numbers_pairwise gains)]
    constructor
    · intro he
      have hp := congrFun he p
      rw [Function.update_self, hm] at hp
      exact congrArg Mixer.gain (Node.mixer.inj hp)
    · intro he
      rw [he, ← hm]
      exact Function.update_eq_self p g
  · simp only [hw, hf, hinside hin, false_or]
    refine connectInputs_keeps_iff hports hm hc depth _ ?_
    rintro hne rfl
    obtain ⟨hlen', -⟩ := own_connections hm hc
    cases gains with
    | nil =>
      have hnone : conns.length = 0 := (not_not.mp hlen).symm
      exact absurd (hlen'.symm.trans hnone) hne
    | cons val tail =>
      obtain ⟨c, hc, he⟩ := Mixer.exists_number hne hf
      exact he ▸ hin c hc

end Calls

/-- A call of either overload that throws leaves every gain, count and connection as it was exactly
when nothing was written before what it throws. -/
theorem connect_keeps_iff {g : Graph P} {p source : P} {m : Mixer P}
    {conns : List (AudioConnection P)} (hports : g.PortsTyped) (hm : g p = .mixer m)
    (hc : (g source).audioConnections source = some conns) (depth : ℕ) :
    (∀ initialGain, (g.mixerConnect depth p source initialGain).KeepsOnError g ↔
      KeptScalar p source m) ∧
    ∀ gains, (g.mixerConnectGains depth p source gains).KeepsOnError g ↔
      KeptArray p source m conns.length gains :=
  ⟨scalar_keeps_iff hports hm hc depth, array_keeps_iff hports hm hc depth⟩

/-- A mixer of two inputs and one output, a stereo input, and its ports. -/
def stereoIntoMixer : Graph ℕ := fun p =>
  if p = 0 then .mixer (.new 2 1) else if p = 1 then .audioStereoInput 2 3 else .audioInputPort

theorem stereoIntoMixer_typed : stereoIntoMixer.PortsTyped := by
  intro p portLeft portRight h
  simp only [stereoIntoMixer] at h
  split at h
  · cases h
  · split at h
    · cases h
      exact ⟨rfl, rfl⟩
    · cases h

/-- Gains of which the first is no number: nothing has been written. -/
theorem connect_keeps_other :
    (stereoIntoMixer.mixerConnectGains 4 0 1 [.other, .integer 1]).KeepsOnError stereoIntoMixer :=
  ((connect_keeps_iff (g := stereoIntoMixer) (p := 0) stereoIntoMixer_typed rfl rfl
    4).2 [.other, .integer 1]).mpr
    (Or.inr (Or.inr (fun _ hc => absurd hc List.not_mem_nil)))

/-- The second gain is no number, and the first stays written. The mixer is connected to itself,
which is refused, and the connector stays counted. -/
theorem connect_changes :
    ¬ (stereoIntoMixer.mixerConnectGains 4 0 1 [.integer 1, .other]).KeepsOnError stereoIntoMixer ∧
      ¬ (stereoIntoMixer.mixerConnect 4 0 0 1).KeepsOnError stereoIntoMixer := by
  have hm : stereoIntoMixer 0 = .mixer (.new 2 1) := rfl
  constructor
  · intro h
    have hp := congrFun (h _ _ rfl) 0
    rw [Function.update_self, hm] at hp
    have hgain := congrFun (congrFun (congrArg Mixer.gain (Node.mixer.inj hp)) 0) 0
    exact absurd hgain (by decide)
  · intro h
    exact update_count_ne hm (by decide) (h _ _ rfl)

end Graph

end Bipscript
