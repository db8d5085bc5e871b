import Bipscript.Graph
import Bipscript.Library.Run

/-! The calls that connect mixers and plugins, and the cycles they let in. -/
namespace Bipscript

open Audio

/-- How a call ends. What the language leaves undefined (a null pointer dereferenced, an index out
of bounds, a stack too deep) is not a state. -/
inductive Outcome (σ : Type*)
  | returned (s : σ)
  | thrown (s : σ) (what : String)
  | undefined

/-- The call returns or throws, and leaves `s`. -/
inductive Outcome.Ends {σ : Type*} : Outcome σ → σ → Prop
  | returned (s : σ) : Ends (.returned s) s
  | thrown (s : σ) (what : String) : Ends (.thrown s what) s

theorem Outcome.Ends.unique {σ : Type*} {o : Outcome σ} {s t : σ} (h : o.Ends s) (h' : o.Ends t) :
    s = t := by
  cases h with
  | returned s =>
    cases h'
    rfl
  | thrown s what =>
    cases h'
    rfl

/-- What follows a call that returns. -/
def Outcome.andThen {σ : Type*} (next : σ → Outcome σ) : Outcome σ → Outcome σ
  | returned s => next s
  | thrown s what => thrown s what
  | undefined => undefined

theorem Outcome.ends_andThen {σ : Type*} {next : σ → Outcome σ} {o : Outcome σ} {t : σ}
    (h : (o.andThen next).Ends t) : o.Ends t ∨ ∃ s, o.Ends s ∧ (next s).Ends t := by
  cases o with
  | returned s => exact Or.inr ⟨s, .returned s, h⟩
  | thrown s what =>
    cases h
    exact Or.inl (.thrown _ what)
  | undefined => cases h

/-- A value of an array passed from the script. -/
inductive ScriptValue
  | integer (value : ℤ)
  | float (value : ℚ)
  | array (values : List ScriptValue)
  | other

def ScriptValue.number? : ScriptValue → Option ℚ
  | integer value => some value
  | float value => some value
  | _ => none

variable {P : Type*}

namespace Audio.Mixer

/-- The loop over one row: `gain[input][j]` from the values given. -/
def rowGains (m : Mixer P) (input : ℕ) : ℕ → List ScriptValue → Gains → Outcome Gains
  | _, [], gain => .returned gain
  | j, gainValue :: rest, gain =>
    match gainValue.number? with
    | some x =>
      if input < m.audioInputCount then rowGains m input (j + 1) rest (gain.set input j x)
      else .undefined
    | none => .thrown gain "gain value should be a number"

/-- The loop over the gains array, from its element `i` on. -/
def arrayGains (m : Mixer P) : ℕ → List ScriptValue → Gains → Outcome Gains
  | _, [], gain => .returned gain
  | i, val :: rest, gain =>
    let row : Outcome Gains := match val with
      | .array values =>
        if values.length ≠ m.audioOutputCount then
          .thrown gain ("gain subarray should be length " ++ toString m.audioOutputCount)
        else m.rowGains (m.connectedInputs + i) 0 values gain
      | .integer _ | .float _ =>
        m.rowGains (m.connectedInputs + i) 0 (List.replicate m.audioOutputCount val) gain
      | .other => .thrown gain "each gain array entry should be a number or subarray"
    row.andThen (arrayGains m (i + 1) rest)

/-- Default gains, distributed across outputs. -/
def distributeGain (inputOutputCount : ℕ) (initialGain : ℚ) (m : Mixer P) : Gains :=
  (List.range (max inputOutputCount m.audioOutputCount)).foldl (fun gain counter =>
    gain.set (m.connectedInputs + counter % inputOutputCount) (counter % m.audioOutputCount)
      initialGain) m.gain

end Audio.Mixer

namespace Graph

/-- The calls: a receiver and what it is given. -/
inductive Connect (P : Type*)
  | mixer (receiver source : P) (gain : ℚ)
  | mixerGains (receiver source : P) (gains : List ScriptValue)
  | plugin (receiver source : P)
  | pluginChannel (receiver : P) (connection : AudioConnection P) (channel : ℕ)
  | pluginMidi (receiver source : P)

variable [DecidableEq P]

/-- `setConnection`: the check, and then the graph with the connection stored. -/
def setConnection (depth : ℕ) (g : Graph P) (connSource source : P) (stored : Graph P) :
    Outcome (Graph P) :=
  match g.refuses depth connSource source with
  | none => .undefined
  | some true => .thrown g "Cannot connect infinite loop"
  | some false => .returned stored

/-- The loop `audioInput[connectedInputs++].setConnection(...)` of a mixer. -/
def connectInputs (depth : ℕ) (p : P) : List (AudioConnection P) → Graph P → Outcome (Graph P)
  | [], g => .returned g
  | conn :: rest, g =>
    match g p with
    | .mixer m =>
      let i := m.connectedInputs
      let m := { m with connectedInputs := i + 1 }
      if i < m.audioInputCount then
        (setConnection depth (Function.update g p (.mixer m)) conn.source p
          (Function.update g p (.mixer { m with
            audioInput := Function.update m.audioInput i (some conn) }))).andThen
          (connectInputs depth p rest)
      else .undefined
    | _ => .undefined

def mixerConnect (depth : ℕ) (p source : P) (initialGain : ℚ) (g : Graph P) :
    Outcome (Graph P) :=
  match g p, (g source).audioConnections source with
  | .mixer m, some connections =>
    if connections.length = 0 then .thrown g "input has no audio outputs"
    else if m.connectedInputs + connections.length > m.audioInputCount then
      .thrown g "not enough inputs available"
    else if m.audioOutputCount = 0 then .undefined -- a remainder by zero
    else connectInputs depth p connections
      (Function.update g p (.mixer { m with
        gain := m.distributeGain connections.length initialGain }))
  | _, _ => .undefined

def mixerConnectGains (depth : ℕ) (p source : P) (gains : List ScriptValue) (g : Graph P) :
    Outcome (Graph P) :=
  match g p, (g source).audioConnections source with
  | .mixer m, some connections =>
    if gains.length ≠ connections.length then
      .thrown g "gains array has different length than input count"
    else
      match m.arrayGains 0 gains m.gain with
      | .returned gain => connectInputs depth p connections
          (Function.update g p (.mixer { m with gain := gain }))
      | .thrown gain what => .thrown (Function.update g p (.mixer { m with gain := gain })) what
      | .undefined => .undefined
  | _, _ => .undefined

/-- `audioInput[i].setConnection(...)` of a plugin, for the indices from `i` on. -/
def connectChannels (depth : ℕ) (p : P) : ℕ → List (AudioConnection P) → Graph P →
    Outcome (Graph P)
  | _, [], g => .returned g
  | i, conn :: rest, g =>
    match g p with
    | .plugin pl =>
      (setConnection depth g conn.source p (Function.update g p (.plugin { pl with
        audioInput := Function.update pl.audioInput i (some conn) }))).andThen
        (connectChannels depth p (i + 1) rest)
    | _ => .undefined

def pluginConnect (depth : ℕ) (p source : P) (g : Graph P) : Outcome (Graph P) :=
  match g p, (g source).audioConnections source with
  | .plugin pl, some connections =>
    if pl.audioInputCount = 0 then .thrown g "cannot connect: this plugin has no audio inputs"
    else if pl.audioInputCount = 2 ∧ connections.length = 1 then -- mono to stereo
      connectChannels depth p 0 (connections ++ connections) g
    else if pl.audioInputCount = connections.length then
      connectChannels depth p 0 connections g
    else .thrown g "cannot connect: different number of input/output connections"
  | _, _ => .undefined

def pluginConnectChannel (depth : ℕ) (p : P) (connection : AudioConnection P) (channel : ℕ)
    (g : Graph P) : Outcome (Graph P) :=
  match g p with
  | .plugin pl =>
    if channel = 0 then .thrown g "cannot connect: there is no channel zero"
    else if channel > pl.audioInputCount then .thrown g "cannot connect: channel too high"
    else connectChannels depth p (channel - 1) [connection] g
  | _ => .undefined

def pluginConnectMidi (depth : ℕ) (p source : P) (g : Graph P) : Outcome (Graph P) :=
  match g p, (g source).midiConnections source with
  | .plugin _, some [] => .thrown g "cannot connect: the source has no MIDI outputs"
  | .plugin pl, some (conn :: _) =>
    match pl.midiInputList with
    | [] => .thrown g "cannot connect: this plugin has no MIDI inputs"
    | _ :: rest => setConnection depth g conn.source p
        (Function.update g p (.plugin { pl with midiInputList := some conn :: rest }))
  | _, _ => .undefined

def perform (depth : ℕ) (g : Graph P) : Connect P → Outcome (Graph P)
  | .mixer receiver source gain => g.mixerConnect depth receiver source gain
  | .mixerGains receiver source gains => g.mixerConnectGains depth receiver source gains
  | .plugin receiver source => g.pluginConnect depth receiver source
  | .pluginChannel receiver connection channel =>
    g.pluginConnectChannel depth receiver connection channel
  | .pluginMidi receiver source => g.pluginConnectMidi depth receiver source

/-- The processor a call connects. -/
def Connect.receiver : Connect P → P
  | mixer receiver _ _ | mixerGains receiver _ _ | plugin receiver _ | pluginChannel receiver _ _
  | pluginMidi receiver _ => receiver

/-- The owners of the connections a call would store. -/
def offered (g : Graph P) : Connect P → List P
  | .mixer _ source _ | .mixerGains _ source _ | .plugin _ source =>
    (((g source).audioConnections source).getD []).map AudioConnection.source
  | .pluginChannel _ connection _ => [connection.source]
  | .pluginMidi _ source =>
    (((g source).midiConnections source).getD []).map MidiConnection.source

/-- Nothing offered leads back to the receiver over stored connections, unless it is the receiver
itself, which is refused. -/
def Safe (g : Graph P) (c : Connect P) : Prop :=
  ∀ q ∈ g.offered c, q ≠ c.receiver → ¬ Relation.ReflTransGen g.Stores q c.receiver

/-- `g'` differs from `g` in the node of `p` only, which stores connections of `S` besides. -/
structure ExtendsAt (p : P) (S : List P) (g g' : Graph P) : Prop where
  others : ∀ x, x ≠ p → g' x = g x
  stores : ∀ y, g'.Stores p y → g.Stores p y ∨ (y ∈ S ∧ y ≠ p)

variable {p : P} {S : List P} {g g' g'' : Graph P} {depth : ℕ}

omit [DecidableEq P] in
theorem ExtendsAt.refl (p : P) (S : List P) (g : Graph P) : ExtendsAt p S g g :=
  ⟨fun _ _ => rfl, fun _ h => Or.inl h⟩

omit [DecidableEq P] in
theorem ExtendsAt.trans (h : ExtendsAt p S g g') (h' : ExtendsAt p S g' g'') :
    ExtendsAt p S g g'' := by
  refine ⟨fun x hx => (h'.others x hx).trans (h.others x hx), fun y hy => ?_⟩
  rcases h'.stores y hy with hy | hy
  · exact h.stores y hy
  · exact Or.inr hy

theorem extendsAt_update {n : Node P} (h : ∀ y, n.Stores y → (g p).Stores y ∨ (y ∈ S ∧ y ≠ p)) :
    ExtendsAt p S g (Function.update g p n) := by
  refine ⟨fun x hx => Function.update_of_ne hx _ _, fun y hy => ?_⟩
  simp only [Stores, Function.update_self] at hy
  exact h y hy

/-- What `setConnection` lets through is not the receiver's own. -/
theorem setConnection_ends {connSource : P} {g₁ stored : Graph P}
    (h : (setConnection depth g₁ connSource p stored).Ends g') (hthrown : ExtendsAt p S g g₁)
    (hstored : connSource ≠ p → ExtendsAt p S g stored) : ExtendsAt p S g g' := by
  simp only [setConnection] at h
  cases hr : g₁.refuses depth connSource p with
  | none =>
    simp only [hr] at h
    cases h
  | some refused =>
    simp only [hr] at h
    cases refused with
    | true =>
      cases h
      exact hthrown
    | false =>
      cases h
      refine hstored ?_
      rintro rfl
      simp [refuses] at hr

theorem update_eq_some {β : Type*} {f : ℕ → Option β} {i j : ℕ} {a b : β}
    (h : Function.update f i (some a) j = some b) : f j = some b ∨ b = a := by
  by_cases hij : j = i
  · subst hij
    rw [Function.update_self] at h
    exact Or.inr (Option.some.inj h).symm
  · rw [Function.update_of_ne hij] at h
    exact Or.inl h

/-- A mixer with one connector set stores one connection more. -/
theorem extendsAt_mixer {m : Mixer P} (m' : Mixer P) {q : P} (hg : g p = .mixer m) (hS : q ∈ S)
    (hne : q ≠ p)
    (ha : ∀ i conn, m'.audioInput i = some conn → m.audioInput i = some conn ∨ conn.source = q)
    (hc : m'.controlConnections = m.controlConnections) :
    ExtendsAt p S g (Function.update g p (.mixer m')) := by
  refine extendsAt_update fun y hy => ?_
  rw [hg]
  rcases hy with ⟨i, conn, hi, rfl⟩ | hy
  · rcases ha i conn hi with hi | rfl
    · exact Or.inl (Or.inl ⟨i, conn, hi, rfl⟩)
    · exact Or.inr ⟨hS, hne⟩
  · rw [hc] at hy
    exact Or.inl (Or.inr hy)

/-- A mixer whose connectors are left alone stores what it did. -/
theorem extendsAt_mixer_same {m : Mixer P} (m' : Mixer P) (hg : g p = .mixer m)
    (hm : m'.audioInput = m.audioInput) (hc : m'.controlConnections = m.controlConnections) :
    ExtendsAt p S g (Function.update g p (.mixer m')) := by
  refine extendsAt_update fun y hy => Or.inl ?_
  rw [hg]
  simpa only [Node.Stores, hm, hc] using hy

/-- A plugin with one connector of either kind set stores one connection more. -/
theorem extendsAt_plugin {pl : Plugin P} (pl' : Plugin P) {q : P} (hg : g p = .plugin pl)
    (hS : q ∈ S) (hne : q ≠ p)
    (hm : ∀ conn, some conn ∈ pl'.midiInputList → some conn ∈ pl.midiInputList ∨ conn.source = q)
    (ha : ∀ i conn, pl'.audioInput i = some conn → pl.audioInput i = some conn ∨ conn.source = q)
    (hc : pl'.controlConnections = pl.controlConnections) :
    ExtendsAt p S g (Function.update g p (.plugin pl')) := by
  refine extendsAt_update fun y hy => ?_
  rw [hg]
  rcases hy with ⟨conn, hconn, rfl⟩ | ⟨i, conn, hi, rfl⟩ | hy
  · rcases hm conn hconn with hconn | rfl
    · exact Or.inl (Or.inl ⟨conn, hconn, rfl⟩)
    · exact Or.inr ⟨hS, hne⟩
  · rcases ha i conn hi with hi | rfl
    · exact Or.inl (Or.inr (Or.inl ⟨i, conn, hi, rfl⟩))
    · exact Or.inr ⟨hS, hne⟩
  · rw [hc] at hy
    exact Or.inl (Or.inr (Or.inr hy))

theorem connectInputs_ends {conns : List (AudioConnection P)}
    (hS : ∀ conn ∈ conns, conn.source ∈ S) (h : (connectInputs depth p conns g).Ends g') :
    ExtendsAt p S g g' := by
  induction conns generalizing g with
  | nil =>
    cases h
    exact .refl p S _
  | cons conn rest ih =>
    obtain ⟨hconn, hrest⟩ := List.forall_mem_cons.mp hS
    cases hg : g p with
    | mixer m =>
      simp only [connectInputs, hg] at h
      by_cases hi : m.connectedInputs < m.audioInputCount
      · simp only [if_pos hi] at h
        -- whether it is refused or stored, the connector has been counted
        have hone := fun t (ht : (setConnection depth _ conn.source p _).Ends t) =>
          setConnection_ends ht
            (extendsAt_mixer_same { m with connectedInputs := m.connectedInputs + 1 } hg rfl rfl)
            (fun hne => extendsAt_mixer { m with
              connectedInputs := m.connectedInputs + 1
              audioInput := Function.update m.audioInput m.connectedInputs (some conn) }
              hg hconn hne (fun _ _ hj => (update_eq_some hj).imp_right (congrArg _)) rfl)
        rcases Outcome.ends_andThen h with h | ⟨g₁, h₁, h⟩
        · exact hone g' h
        · exact (hone g₁ h₁).trans (ih hrest h)
      · simp only [if_neg hi] at h
        cases h
    | _ =>
      simp only [connectInputs, hg] at h
      cases h

theorem connectChannels_ends {i : ℕ} {conns : List (AudioConnection P)}
    (hS : ∀ conn ∈ conns, conn.source ∈ S) (h : (connectChannels depth p i conns g).Ends g') :
    ExtendsAt p S g g' := by
  induction conns generalizing g i with
  | nil =>
    cases h
    exact .refl p S _
  | cons conn rest ih =>
    obtain ⟨hconn, hrest⟩ := List.forall_mem_cons.mp hS
    cases hg : g p with
    | plugin pl =>
      simp only [connectChannels, hg] at h
      have hone := fun t (ht : (setConnection depth g conn.source p _).Ends t) =>
        setConnection_ends ht (.refl p S g) fun hne =>
          extendsAt_plugin { pl with audioInput := Function.update pl.audioInput i (some conn) }
            hg hconn hne (fun _ => Or.inl)
            (fun _ _ hj => (update_eq_some hj).imp_right (congrArg _)) rfl
      rcases Outcome.ends_andThen h with h | ⟨g₁, h₁, h⟩
      · exact hone g' h
      · exact (hone g₁ h₁).trans (ih hrest h)
    | _ =>
      simp only [connectChannels, hg] at h
      cases h

omit [DecidableEq P] in
theorem source_mem_offered {source : P} {connections : List (AudioConnection P)}
    (hc : (g source).audioConnections source = some connections) :
    ∀ conn ∈ connections,
      conn.source ∈ (((g source).audioConnections source).getD []).map AudioConnection.source := by
  intro conn hconn
  rw [hc]
  exact List.mem_map_of_mem hconn

theorem mixerConnect_ends {source : P} {gain : ℚ}
    (h : (g.mixerConnect depth p source gain).Ends g') :
    ExtendsAt p (g.offered (.mixer p source gain)) g g' := by
  simp only [mixerConnect] at h
  split at h
  · rename_i m connections hm hc
    split at h
    · cases h
      exact .refl _ _ _
    · split at h
      · cases h
        exact .refl _ _ _
      · split at h
        · cases h
        · have hext := connectInputs_ends (source_mem_offered hc) h
          exact (extendsAt_mixer_same { m with
            gain := m.distributeGain connections.length gain } hm rfl rfl).trans hext
  · cases h

theorem mixerConnectGains_ends {source : P} {gains : List ScriptValue}
    (h : (g.mixerConnectGains depth p source gains).Ends g') :
    ExtendsAt p (g.offered (.mixerGains p source gains)) g g' := by
  simp only [mixerConnectGains] at h
  split at h
  · rename_i m connections hm hc
    split at h
    · cases h
      exact .refl _ _ _
    · split at h
      · rename_i gain _
        have hext := connectInputs_ends (source_mem_offered hc) h
        exact (extendsAt_mixer_same { m with gain := gain } hm rfl rfl).trans hext
      · cases h
        exact extendsAt_mixer_same _ hm rfl rfl
      · cases h
  · cases h

theorem pluginConnect_ends {source : P} (h : (g.pluginConnect depth p source).Ends g') :
    ExtendsAt p (g.offered (.plugin p source)) g g' := by
  simp only [pluginConnect] at h
  split at h
  · rename_i pl connections hpl hc
    split at h
    · cases h
      exact .refl _ _ _
    · split at h
      · refine connectChannels_ends ?_ h
        intro conn hconn
        exact source_mem_offered hc conn ((List.mem_append.mp hconn).elim id id)
      · split at h
        · exact connectChannels_ends (source_mem_offered hc) h
        · cases h
          exact .refl _ _ _
  · cases h

theorem pluginConnectChannel_ends {connection : AudioConnection P} {channel : ℕ}
    (h : (g.pluginConnectChannel depth p connection channel).Ends g') :
    ExtendsAt p (g.offered (.pluginChannel p connection channel)) g g' := by
  simp only [pluginConnectChannel] at h
  split at h
  · split at h
    · cases h
      exact .refl _ _ _
    · split at h
      · cases h
        exact .refl _ _ _
      · exact connectChannels_ends (by simp [offered]) h
  · cases h

theorem pluginConnectMidi_ends {source : P} (h : (g.pluginConnectMidi depth p source).Ends g') :
    ExtendsAt p (g.offered (.pluginMidi p source)) g g' := by
  simp only [pluginConnectMidi] at h
  split at h
  · cases h
    exact .refl _ _ _
  · rename_i pl conn tail hpl hc
    split at h
    · cases h
      exact .refl _ _ _
    · rename_i first rest hlist
      refine setConnection_ends h (.refl _ _ _) fun hne => ?_
      refine extendsAt_plugin _ hpl (by simp [offered, hc]) hne ?_ (fun _ _ => Or.inl) rfl
      intro c hin
      rcases List.mem_cons.mp hin with he | hin
      · cases he
        exact Or.inr rfl
      · exact Or.inl (hlist ▸ List.mem_cons_of_mem _ hin)
  · cases h

/-- A call changes its receiver only, which stores connections of what was offered besides. -/
theorem perform_ends {c : Connect P} (h : (g.perform depth c).Ends g') :
    ExtendsAt c.receiver (g.offered c) g g' := by
  cases c with
  | mixer receiver source gain => exact mixerConnect_ends h
  | mixerGains receiver source gains => exact mixerConnectGains_ends h
  | plugin receiver source => exact pluginConnect_ends h
  | pluginChannel receiver connection channel => exact pluginConnectChannel_ends h
  | pluginMidi receiver source => exact pluginConnectMidi_ends h

/-- A call that ends was made on a mixer or a plugin. -/
theorem perform_receiver {c : Connect P} (h : (g.perform depth c).Ends g') :
    (∃ m, g c.receiver = .mixer m) ∨ ∃ pl, g c.receiver = .plugin pl := by
  cases c with
  | mixer receiver source gain =>
    simp only [perform, mixerConnect] at h
    split at h
    · exact Or.inl ⟨_, ‹_›⟩
    · cases h
  | mixerGains receiver source gains =>
    simp only [perform, mixerConnectGains] at h
    split at h
    · exact Or.inl ⟨_, ‹_›⟩
    · cases h
  | plugin receiver source =>
    simp only [perform, pluginConnect] at h
    split at h
    · exact Or.inr ⟨_, ‹_›⟩
    · cases h
  | pluginChannel receiver connection channel =>
    simp only [perform, pluginConnectChannel] at h
    split at h
    · exact Or.inr ⟨_, ‹_›⟩
    · cases h
  | pluginMidi receiver source =>
    simp only [perform, pluginConnectMidi] at h
    split at h
    · exact Or.inr ⟨_, ‹_›⟩
    · exact Or.inr ⟨_, ‹_›⟩
    · cases h

/-- One call, seen as a step of the graph. -/
def Step (depth : ℕ) (g : Graph P) (c : Connect P) (g' : Graph P) : Prop :=
  (g.perform depth c).Ends g'

theorem terminating_step {c : Connect P} (hg : Digraph.Terminating g.Stores) (hs : g.Safe c)
    (h : Step depth g c g') : Digraph.Terminating g'.Stores := by
  obtain ⟨hothers, hstores⟩ := perform_ends h
  refine hg.of_edgesFrom (a := c.receiver) ?_ ?_
  · intro x y hxy
    by_cases hx : x = c.receiver
    · exact Or.inr hx
    · simp only [Stores, hothers x hx] at hxy
      exact Or.inl hxy
  · intro y hy hn
    obtain ⟨hin, hne⟩ := (hstores y hy).resolve_left hn
    exact hs y hin hne

/-- In every run of safe calls the stored connections have no cycle, and every chain of `process`
calls ends. -/
theorem run_acyclic {g₀ : Graph P} {calls : List (Connect P)} (hf : g₀.Fresh)
    (h : Transition.Run (Transition.restrict Safe (Step depth)) g₀ calls g) :
    (∀ p, ¬ Relation.TransGen g.Stores p p) ∧ ∀ p, g.ProcessFinite p := by
  have hg : Digraph.Terminating g.Stores :=
    h.invariant_restrict (I := fun g => Digraph.Terminating g.Stores) terminating_step
      hf.terminating
  refine ⟨hg.acyclic, ?_⟩
  rintro p ⟨chain, -, hchain⟩
  exact hg.no_infinite_path ⟨chain, fun n => stores_of_calls (hchain n)⟩

/-- A plugin with one audio input and one audio output. -/
def effect (audioInput : ℕ → Option (AudioConnection ℕ)) : Node ℕ :=
  .plugin ⟨[], 0, 1, audioInput, 1, []⟩

/-- Two of them, unconnected, and ports. -/
def twoPlugins : Graph ℕ := fun p => if p < 2 then effect fun _ => none else .audioInputPort

theorem twoPlugins_fresh : twoPlugins.Fresh := by
  intro p
  by_cases hp : p < 2 <;> simp [twoPlugins, effect, hp]

/-- The graph once one plugin is connected to a source, by a call that is not refused. -/
def connected (p source : ℕ) (g : Graph ℕ) : Graph ℕ :=
  Function.update g p (effect (Function.update (fun _ => none) 0 (some ⟨source, 0⟩)))

theorem connected_step_port :
    Step 4 twoPlugins (.plugin 0 2) (twoPlugins.connected 0 2) := .returned _

theorem connected_step : Step 4 twoPlugins (.plugin 0 1) (twoPlugins.connected 0 1) := .returned _

theorem connected_step_back :
    Step 4 (twoPlugins.connected 0 1) (.plugin 1 0) ((twoPlugins.connected 0 1).connected 1 0) :=
  .returned _

theorem run_acyclic_port :
    (∀ p, ¬ Relation.TransGen (twoPlugins.connected 0 2).Stores p p) ∧
      ∀ p, (twoPlugins.connected 0 2).ProcessFinite p := by
  refine run_acyclic twoPlugins_fresh (.single ⟨?_, connected_step_port⟩)
  intro q hq _ hreach
  obtain rfl : q = 2 := List.mem_singleton.mp hq
  -- a port stores nothing, so nothing is reached from it
  rcases hreach.cases_head with h | ⟨_, hs, _⟩
  · cases h
  · exact hs

/-- Each of two plugins is connected to the other, and neither call is refused. -/
theorem run_cyclic :
    twoPlugins.Fresh ∧ ∃ g, Transition.Run (Step 4) twoPlugins [.plugin 0 1, .plugin 1 0] g ∧
      Relation.TransGen g.Stores 0 0 := by
  refine ⟨twoPlugins_fresh, _, .stepL connected_step (.single connected_step_back), ?_⟩
  refine .head (b := 1) ?_ (.single ?_)
  · exact Or.inr (Or.inl ⟨0, ⟨1, 0⟩, rfl, rfl⟩)
  · exact Or.inr (Or.inl ⟨0, ⟨0, 0⟩, rfl, rfl⟩)

end Graph

end Bipscript
