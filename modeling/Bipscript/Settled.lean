import Bipscript.MessageBytes
import Bipscript.Library.Yields

/-! What `doProcess` leaves in a processor: the same whatever has run before it, where no byte is
read that a MIDI message does not have. -/
namespace Bipscript

open Audio Program

namespace Contents

variable {P S : Type}

/-- What a processor may leave on a MIDI output. -/
def Delivers (C : Cycle P S) (p : P) (index : ℕ) (l : List LV2.Message) : Processor P S → Prop
  | .midiInputPort _ _ => l = C.midiBuffer p
  | .plugin _ => l = [] ∨ ∃ inst ports, l = (C.run p inst ports).midiOutput index
  | _ => l = []

/-- Every message that the connection may carry in the period. -/
def Carries (C : Cycle P S) (s : Memory P S) (c : MidiConnection P) (K : LV2.Message → Prop) :
    Prop :=
  ∀ l, Delivers C c.source c.index l (s.processors c.source) → ∀ m ∈ l, K m

/-- The processor reads every byte of its messages and events, and no others. -/
def Clean (C : Cycle P S) (s : Memory P S) : Processor P S → Prop
  | .mixer m => ∀ c ∈ m.controlConnections, Carries C s c.2.connection LV2.Message.Controls
  | .plugin plugin =>
    (∀ input ∈ plugin.midiInputList,
      (∀ c, input.connection = some c → Carries C s c LV2.Message.Packs) ∧
      ∀ e ∈ (input.eventBuffer.takeDue C.mul C.rolling C.pos C.nframes
        (input.eventBuffer.pending.length + 1)).1, e.data.type ≠ 0xC0) ∧
    ∀ c ∈ plugin.controlConnections, Carries C s c.2.connection LV2.Message.Controls
  | _ => True

/-- A period from `start`, with what the processors reached in it end it with. -/
structure Setting (P S : Type) where
  cycle : Cycle P S
  start : Memory P S
  reached : P → Prop
  solution : P → Processor P S

/-- A call of `doProcess`: the calls of `process` that it makes, and what has run before it. -/
structure Call (P S : Type) where
  u : Unspecified P
  process : P → M P S PUnit
  known : Set P

namespace Setting

variable {T : Setting P S} {known K : Set P} {s : Memory P S} {p q : P}

/-- The processors that have run, and those they call, hold what they end the period with; the
others are as they were. -/
structure Holds (T : Setting P S) (known : Set P) (s : Memory P S) : Prop where
  done : ∀ q, T.cycle.time ≤ s.processedUntil q → T.reached q ∧
    s.processors q = T.solution q ∧
    (∀ index, Delivers T.cycle q index ((T.solution q).messages index) (T.start.processors q)) ∧
    ∀ r, T.start.graph.Calls q r → T.cycle.time ≤ s.processedUntil r
  rest : ∀ q, s.processedUntil q < T.cycle.time → s.processors q = T.start.processors q
  known : ∀ q ∈ known, T.cycle.time ≤ s.processedUntil q

/-- Within `doProcess` of `p`: its calls of `process` do what they should, and those of `K` have
returned. -/
def At (T : Setting P S) (p : P) (K : Set P) (i : Call P S) (s : Memory P S) : Prop :=
  (∀ q, T.start.graph.Calls p q → ∀ known,
    Ends (T.Holds known) (i.process q) fun _ => T.Holds (known ∪ {q})) ∧
  T.Holds (i.known ∪ K) s

theorem Holds.unpacked (h : T.Holds known s) (lastEvent : MidiConnection P → Midi.Event) :
    T.Holds known { s with lastEvent := lastEvent } :=
  ⟨h.done, h.rest, h.known⟩

theorem Holds.mono {known' : Set P} (h : T.Holds known s) (hk : known' ⊆ known) :
    T.Holds known' s :=
  ⟨h.done, h.rest, fun q hq => h.known q (hk hq)⟩

theorem At.mono {K' : Set P} {i : Call P S} (h : T.At p K i s) (hK : K' ⊆ K) : T.At p K' i s :=
  ⟨h.1, h.2.mono (Set.union_subset_union_right _ hK)⟩

theorem At.done {i : Call P S} (h : T.At p K i s) (hq : q ∈ K) :
    s.processors q = T.solution q ∧
      ∀ index, Delivers T.cycle q index ((T.solution q).messages index) (T.start.processors q) := by
  obtain ⟨-, hsol, hdelivers, -⟩ := h.2.done q (h.2.known q (Or.inr hq))
  exact ⟨hsol, hdelivers⟩

theorem process_yields (hq : T.start.graph.Calls p q) (K : Set P) :
    Yields (T.At p K) (fun i => i.process q) ⟨⟩ (T.At p (K ∪ {q})) := by
  rintro i s ⟨hi, hs⟩
  obtain ⟨a, t, hx, ht⟩ := hi q hq _ s hs
  refine ⟨a, t, hx, rfl, hi, ?_⟩
  rwa [Set.union_assoc] at ht

theorem messages_yields {c : MidiConnection P} (hc : c.source ∈ K) :
    Yields (T.At p K) (fun _ => messages c) ((T.solution c.source).messages c.index)
      (T.At p K) := by
  intro i s hs
  exact ⟨_, s, rfl, by rw [(hs.done hc).1], hs⟩

theorem getAudio_yields {c : AudioConnection P} (hc : c.source ∈ K) :
    Yields (T.At p K) (fun _ => getAudio c) ((T.solution c.source).audio c.index) (T.At p K) := by
  intro i s hs
  exact ⟨_, s, rfl, by rw [(hs.done hc).1], hs⟩

theorem getEventCount_yields {c : MidiConnection P} (hc : c.source ∈ K) :
    Yields (T.At p K) (fun _ => getEventCount c)
      ((T.solution c.source).messages c.index).length (T.At p K) :=
  (messages_yields hc).bind (Yields.pure fun _ _ hs => hs)

variable [DecidableEq P]

theorem unpack_ends (c : MidiConnection P) (m : LV2.Message) (i : Call P S) :
    Ends (T.At p K i) (unpack c m) fun e s => (∃ lastEvent, e = m.over lastEvent) ∧ T.At p K i s :=
  fun s hs => ⟨_, _, rfl, ⟨s.lastEvent c, rfl⟩, hs.1, hs.2.unpacked _⟩

theorem unpacked_yields (c : MidiConnection P) (m : LV2.Message) :
    Yields (T.At p K) (fun _ => discard (unpack c m)) ⟨⟩ (T.At p K) := by
  intro i s hs
  exact ⟨_, _, rfl, rfl, hs.1, hs.2.unpacked _⟩

/-- The event fetched is that of the message, over what was there. -/
theorem getEvent_ends {c : MidiConnection P} (hc : c.source ∈ K) (n : ℕ) (i : Call P S) :
    Ends (T.At p K i) (getEvent c n) fun e s =>
      (∃ lastEvent, e = (((T.solution c.source).messages c.index)[n]?).map fun m =>
        m.over lastEvent) ∧ T.At p K i s := by
  refine (messages_yields hc i).bind fun ms => ?_
  rintro t ⟨rfl, ht⟩
  cases hm : ((T.solution c.source).messages c.index)[n]? with
  | none => exact ⟨none, t, rfl, ⟨blank, rfl⟩, ht⟩
  | some m =>
    refine (unpack_ends c m i).bind (fun e => ?_) t ht
    rintro t' ⟨⟨lastEvent, rfl⟩, ht'⟩
    exact ⟨_, t', rfl, ⟨lastEvent, rfl⟩, ht'⟩

theorem unpackAll_yields (c : MidiConnection P) (messages : List LV2.Message) :
    Yields (T.At p K) (fun _ => messages.forM fun m => discard (unpack c m)) ⟨⟩ (T.At p K) := by
  have h := Yields.forM (I := fun _ : Set P => T.At p K) (f := fun _ m => discard (unpack c m))
    (l := messages) (fun _ => ∅) (fun m _ _ => unpacked_yields c m) ∅
  exact h

theorem fireEvents_yields (c : MidiConnection P) (messages : List LV2.Message)
    (handlerDefined : Bool) :
    Yields (T.At p K) (fun _ => fireEvents c messages handlerDefined) ⟨⟩ (T.At p K) := by
  cases handlerDefined with
  | false => exact Yields.pure fun _ _ hs => hs
  | true => exact unpackAll_yields c messages

theorem fireAll_yields (n : ℕ) (messages : ℕ → List LV2.Message) (handlerDefined : ℕ → Bool) :
    Yields (T.At p K)
      (fun _ => (List.range n).forM fun i => fireEvents ⟨p, i⟩ (messages i) (handlerDefined i)) ⟨⟩
      (T.At p K) := by
  have h := Yields.forM (I := fun _ : Set P => T.At p K) (l := List.range n)
    (f := fun _ i => fireEvents ⟨p, i⟩ (messages i) (handlerDefined i)) (fun _ => ∅)
    (fun i _ _ => fireEvents_yields ⟨p, i⟩ (messages i) (handlerDefined i)) ∅
  exact h

/-! The mixer -/

/-- What the sources hold at the end of the period. -/
def sources (T : Setting P S) : Sources P where
  getAudio := fun conn => (T.solution conn.source).audio conn.index
  getEvents := fun c => ((T.solution c.source).messages c.index).map fun m => m.over blank

theorem getEvent_control {c : MidiConnection P} (hc : c.source ∈ K)
    (hcarries : Carries T.cycle T.start c LV2.Message.Controls) (n : ℕ) (i : Call P S) :
    Ends (T.At p K i) (getEvent c n) fun e s =>
      Option.Rel LV2.SameControl e ((T.sources.getEvents c)[n]?) ∧ T.At p K i s := by
  intro s hs
  have hcontrols := hcarries _ ((hs.done hc).2 c.index)
  obtain ⟨e, t, hx, ⟨lastEvent, rfl⟩, ht⟩ := getEvent_ends hc n i s hs
  refine ⟨_, t, hx, ?_, ht⟩
  rw [sources, List.getElem?_map]
  cases hm : ((T.solution c.source).messages c.index)[n]? with
  | none => exact .none
  | some m => exact .some ((hcontrols m (List.mem_of_getElem? hm)).sameControl lastEvent blank)

theorem pull_yields {c : MidiConnection P} (hc : c.source ∈ K)
    (hcarries : Carries T.cycle T.start c LV2.Message.Controls)
    (mappings : List MixerControlMapping) (eventCount frame fuel : ℕ)
    {nextEvent nextEvent' : Option Midi.Event}
    (he : Option.Rel LV2.SameControl nextEvent nextEvent') (eventIndex : ℕ) (gain : Gains) :
    Yields (T.At p K)
      (fun _ => pull mappings c eventCount frame fuel nextEvent eventIndex gain)
      (MixerControlConnection.pull mappings (T.sources.getEvents c) eventCount frame fuel nextEvent'
        eventIndex gain)
      (T.At p K) := by
  induction fuel generalizing nextEvent nextEvent' eventIndex gain with
  | zero => exact Yields.pure fun _ _ hs => hs
  | succ fuel ih =>
    cases he with
    | none => exact Yields.pure fun _ _ hs => hs
    | some he =>
      simp only [pull, MixerControlConnection.pull, he.frameOffset, he.applyMappings_eq]
      split
      · split
        · exact Yields.bind_of (getEvent_control hc hcarries eventIndex) fun e he => ih he _ _
        · exact Yields.pure fun _ _ hs => hs
      · exact Yields.pure fun _ _ hs => hs

theorem updateGains_yields {c : MixerControlConnection P} (hc : c.connection.source ∈ K)
    (hcarries : Carries T.cycle T.start c.connection LV2.Message.Controls) (frame : ℕ)
    (gain : Gains) :
    Yields (T.At p K) (fun _ => updateGains frame c gain)
      (c.updateGains (T.sources.getEvents c.connection) frame gain) (T.At p K) := by
  simp only [updateGains, MixerControlConnection.updateGains]
  split
  · refine Yields.bind_of (getEvent_control hc hcarries c.eventIndex) fun e he => ?_
    exact (pull_yields hc hcarries _ _ _ _ he _ _).bind (Yields.pure fun _ _ hs => hs)
  · exact Yields.pure fun _ _ hs => hs

/-- The connections are of processors that have run, and carry whole control changes. -/
def Controlled (T : Setting P S) (K : Set P) (l : List (MidiConnection P)) : Prop :=
  ∀ c ∈ l, c.source ∈ K ∧ Carries T.cycle T.start c LV2.Message.Controls

theorem updateAllGains_yields {l : List (ℕ × MixerControlConnection P)}
    (hl : T.Controlled K (l.map fun c => c.2.connection)) (frame : ℕ) (gain : Gains) :
    Yields (T.At p K) (fun _ => updateAllGains frame l gain)
      (Mixer.updateGains T.sources frame l gain) (T.At p K) := by
  induction l generalizing gain with
  | nil => exact Yields.pure fun _ _ hs => hs
  | cons c l ih =>
    obtain ⟨⟨hc, hcarries⟩, hl⟩ := List.forall_mem_cons.mp hl
    exact (updateGains_yields hc hcarries frame gain).bind
      ((ih hl _).bind (Yields.pure fun _ _ hs => hs))

theorem frameStep_yields {audio : List (AudioConnection P)}
    (haudio : ∀ conn ∈ audio, conn.source ∈ K) {s : MixerPeriod P}
    (hs : T.Controlled K (s.mixer.controlConnections.map fun c => c.2.connection)) (frame : ℕ) :
    Yields (T.At p K) (fun _ => frameStep T.cycle audio s frame)
      (Mixer.frameStep T.cycle.mul T.cycle.rolling T.cycle.pos T.cycle.nframes T.sources audio s
        frame) (T.At p K) := by
  refine (updateAllGains_yields hs frame s.mixer.gain).bind ?_
  intro i memory hm
  refine ⟨_, memory, rfl, ?_, hm⟩
  simp only [Mixer.frameStep]
  rw [Mixer.mix_congr]
  intro conn hconn
  change (memory.processors conn.source).audio conn.index = _
  rw [(hm.done (haudio conn hconn)).1]
  rfl

omit [DecidableEq P] in
theorem frameStep_controlled {C : Cycle P S} {audio : List (AudioConnection P)} {s : MixerPeriod P}
    (hs : T.Controlled K (s.mixer.controlConnections.map fun c => c.2.connection)) (frame : ℕ) :
    T.Controlled K ((Mixer.frameStep C.mul C.rolling C.pos C.nframes T.sources audio s
      frame).mixer.controlConnections.map fun c => c.2.connection) := by
  simp only [Mixer.frameStep, Mixer.mix, Mixer.applyEvents_controlConnections,
    Mixer.updateGains_connections]
  exact hs

omit [DecidableEq P] in
theorem controlProcess_yields {c : MixerControlConnection P}
    (hc : T.start.graph.Calls p c.connection.source) (K : Set P) :
    Yields (T.At p K) (fun i => MixerControlConnection.process i.process c)
      (c.process (T.sources.getEvents c.connection)) (T.At p (K ∪ {c.connection.source})) := by
  have hlength : (T.sources.getEvents c.connection).length =
      ((T.solution c.connection.source).messages c.connection.index).length := List.length_map _
  rw [Audio.MixerControlConnection.process, hlength]
  refine (process_yields hc K).bind ?_
  refine (getEventCount_yields (Set.mem_union_right K (Set.mem_singleton _))).bind ?_
  exact Yields.pure fun _ _ hs => hs

omit [DecidableEq P] in
theorem calls_iff {l : List P} (h : (T.start.processors p).node.pulls = some l) :
    T.start.graph.Calls p q ↔ q ∈ l := by
  have hpulls : (T.start.graph p).pulls = some l := h
  simp [Graph.Calls, hpulls]

/-- What a mixer has called once its audio and its control connections have been asked. -/
def mixerSources (m : Mixer P) (audio : List (AudioConnection P)) : Set P :=
  ∅ ∪ (⋃ conn ∈ audio, {conn.source}) ∪
    ⋃ c ∈ m.pullMappings.controlConnections, {c.2.connection.source}

omit [DecidableEq P] in
/-- A mapping pulled in changes what a control connection does, not what it is to. -/
theorem mixer_calls {m : Mixer P} (hp : T.start.processors p = .mixer m)
    {audio : List (AudioConnection P)} (haudio : m.connections = some audio) :
    {q | T.start.graph.Calls p q} = mixerSources m audio := by
  have hpulls : (T.start.processors p).node.pulls = some (audio.map AudioConnection.source ++
      (m.controlConnections.map fun c => c.2.connection).map MidiConnection.source) := by
    simp [hp, Processor.node, Node.pulls, haudio]
  ext q
  rw [Set.mem_ofPred_eq, calls_iff hpulls, ← m.pullMappings_connections]
  simp [mixerSources, eq_comm]

omit [DecidableEq P] in
/-- The connections `l` are those of `l'`, to sources that have been called. -/
theorem controlled_of_carries {X : Type} {connection : X → MidiConnection P} {l l' : List X}
    (h : l.map connection = l'.map connection)
    (hcarries : ∀ c ∈ l', Carries T.cycle T.start (connection c) LV2.Message.Controls) (K : Set P) :
    T.Controlled (K ∪ ⋃ c ∈ l, {(connection c).source}) (l.map connection) := by
  intro conn hconn
  constructor
  · obtain ⟨c, hc, rfl⟩ := List.mem_map.mp hconn
    exact Or.inr (Set.mem_biUnion hc rfl)
  · rw [h] at hconn
    obtain ⟨c, hc, rfl⟩ := List.mem_map.mp hconn
    exact hcarries c hc

/-- A mixer ends the period as one whose sources have already been processed. -/
theorem mixer_yields {m : Mixer P} (hp : T.start.processors p = .mixer m) {period : MixerPeriod P}
    (hperiod : m.doProcess T.cycle.mul T.cycle.rolling T.cycle.pos T.cycle.nframes T.sources =
      some period)
    (hclean : ∀ c ∈ m.controlConnections,
      Carries T.cycle T.start c.2.connection LV2.Message.Controls) :
    Yields (T.At p ∅) (fun i => Mixer.doProcess T.cycle i.process m) period.mixer
      (T.At p {q | T.start.graph.Calls p q}) := by
  obtain ⟨audio, haudio, rfl⟩ := Option.map_eq_some_iff.mp hperiod
  have hcalls := mixer_calls hp haudio
  have hcontrolled : T.Controlled (mixerSources m audio) _ :=
    controlled_of_carries m.pullMappings_connections hclean _
  have haudioMem : ∀ conn ∈ audio, conn.source ∈ mixerSources m audio := fun conn hconn =>
    Or.inl (Or.inr (Set.mem_biUnion hconn rfl))
  -- the audio sources, the control connections, and the frames
  have haudioRun := Yields.forM (I := T.At p) (f := fun i conn => i.process conn.source)
    (fun conn : AudioConnection P => {conn.source})
    (fun conn hconn K => process_yields (hcalls.ge (haudioMem conn hconn)) K) ∅
  have hcontrolRun := Yields.mapM (I := T.At p)
    (f := fun i c => do return (c.1, ← MixerControlConnection.process i.process c.2))
    (g := fun c => (c.1, c.2.process (T.sources.getEvents c.2.connection)))
    (fun c : ℕ × MixerControlConnection P => {c.2.connection.source})
    (fun c hc K => by
      have hmem := (hcontrolled _ (List.mem_map_of_mem hc)).1
      refine (controlProcess_yields (hcalls.ge hmem) K).bind ?_
      exact Yields.pure fun _ _ hs => hs)
    (∅ ∪ ⋃ conn ∈ audio, {conn.source})
  have hbegin : T.Controlled (mixerSources m audio) ((m.beginPeriod T.cycle.mul T.cycle.rolling
      T.cycle.pos T.cycle.nframes T.sources).mixer.controlConnections.map fun c =>
        c.2.connection) := by
    simp only [Mixer.beginPeriod, Mixer.getNextEvent, List.map_map, Function.comp_def]
    exact hcontrolled
  have hframes := Yields.foldlM (I := fun _ : Set P => T.At p (mixerSources m audio))
    (l := List.range T.cycle.nframes) (f := fun _ => frameStep T.cycle audio) (fun _ => ∅)
    (fun s => T.Controlled (mixerSources m audio)
      (s.mixer.controlConnections.map fun c => c.2.connection))
    (fun frame _ _ s hs => ⟨frameStep_controlled hs frame, frameStep_yields haudioMem hs frame⟩) ∅
    hbegin
  rw [hcalls]
  refine (Yields.lift haudio).bind ?_
  refine haudioRun.bind ?_
  refine hcontrolRun.bind ?_
  refine hframes.bind ?_
  exact Yields.pure fun i s hs => hs

/-! The plugin -/

theorem fetched_yields {c : MidiConnection P} (hc : c.source ∈ K) (n : ℕ) :
    Yields (T.At p K) (fun _ => discard (getEvent c n)) ⟨⟩ (T.At p K) := by
  intro i s hs
  obtain ⟨_, t, hx, _, -, ht⟩ := (getEvent_ends hc n i).discard s hs
  exact ⟨⟨⟩, t, hx, rfl, ht⟩

theorem fetchAll_yields {c : MidiConnection P} (hc : c.source ∈ K) (fetches : List ℕ) :
    Yields (T.At p K) (fun _ => fetches.forM fun n => discard (getEvent c n : M P S _)) ⟨⟩
      (T.At p K) := by
  have h := Yields.forM (I := fun _ : Set P => T.At p K) (l := fetches)
    (f := fun _ n => discard (getEvent c n)) (fun _ => ∅) (fun n _ _ => fetched_yields hc n) ∅
  exact h

theorem controlConnection_yields {c : LV2.ControlConnection P}
    (hc : T.start.graph.Calls p c.connection.source)
    (hcarries : Carries T.cycle T.start c.connection LV2.Message.Controls) (K : Set P)
    (ports : ℕ → ℚ) :
    Yields (T.At p K) (fun i => ControlConnection.process i.process c ports)
      ((List.range ((T.solution c.connection.source).messages c.connection.index).length).foldl
        (fun ports n => ((T.sources.getEvents c.connection)[n]?).elim ports fun e =>
          c.update e ports) ports)
      (T.At p (K ∪ {c.connection.source})) := by
  have hmem : c.connection.source ∈ K ∪ {c.connection.source} :=
    Set.mem_union_right K (Set.mem_singleton _)
  refine (process_yields hc K).bind ?_
  refine (getEventCount_yields hmem).bind ?_
  refine Yields.foldlM (I := fun _ : Set P => T.At p _) (fun _ => ∅) (fun _ => True) ?_ ∅ trivial
  refine fun n _ _ ports _ => ⟨trivial, ?_⟩
  refine Yields.bind_of (getEvent_control hmem hcarries n) fun e he => ?_
  refine (fetched_yields hmem n).bind ?_
  generalize (T.sources.getEvents c.connection)[n]? = e' at he
  cases he with
  | none => exact Yields.pure fun _ _ hs => hs
  | some he =>
    simp only [Option.elim_some, he.update_eq]
    exact Yields.pure fun _ _ hs => hs

/-- The messages on the connection of a MIDI input at the end of the period. -/
def inputMessages (T : Setting P S) (connection : Option (MidiConnection P)) : List LV2.Message :=
  connection.elim [] fun c => (T.solution c.source).messages c.index

/-- The source of an optional connection. -/
def midiSource (connection : Option (MidiConnection P)) : Set P :=
  {q | ∃ c, connection = some c ∧ c.source = q}

theorem fetch_ends {connection : Option (MidiConnection P)}
    (hcalls : ∀ c, connection = some c → T.start.graph.Calls p c.source)
    (hcarries : ∀ c, connection = some c → Carries T.cycle T.start c LV2.Message.Packs)
    (K : Set P) (i : Call P S) :
    Ends (T.At p K i) (MidiInput.fetch i.process connection) fun r s =>
      (r.2 = T.inputMessages connection ∧ ∀ m ∈ r.2, m.Packs) ∧
        T.At p (K ∪ midiSource connection) i s := by
  intro s hs
  cases connection with
  | none =>
    have hempty : K ∪ midiSource (none : Option (MidiConnection P)) = K := by simp [midiSource]
    rw [hempty]
    exact ⟨_, s, rfl, ⟨rfl, by simp⟩, hs⟩
  | some c =>
    have hK : K ∪ {c.source} = K ∪ midiSource (some c) := by simp [midiSource]
    have hmem : c.source ∈ K ∪ {c.source} := Set.mem_union_right K (Set.mem_singleton _)
    refine (process_yields (hcalls c rfl) K i).bind (fun u => ?_) s hs
    rintro s₁ ⟨-, hs₁⟩
    refine (messages_yields hmem i).bind (fun ms => ?_) s₁ hs₁
    rintro s₂ ⟨rfl, hs₂⟩
    obtain ⟨u', s₃, hx, -, hs₃⟩ := unpackAll_yields c
      ((T.solution c.source).messages c.index) i s₂ hs₂
    have hpacks := hcarries c rfl _ ((hs₂.done hmem).2 c.index)
    refine ⟨(s₂.lastEvent c, (T.solution c.source).messages c.index), s₃, ?_, ⟨rfl, hpacks⟩,
      hK ▸ hs₃⟩
    beta_reduce at hx
    change ((((T.solution c.source).messages c.index).forM fun m => discard (unpack c m)) s₂).bind
      (fun r => some ((s₂.lastEvent c, _), r.2)) = _
    rw [hx]
    rfl

/-- What a MIDI input ends the period with. -/
def settled (T : Setting P S) (input : LV2.MidiInput P) : LV2.MidiInput P :=
  let due := input.eventBuffer.takeDue T.cycle.mul T.cycle.rolling T.cycle.pos T.cycle.nframes
    (input.eventBuffer.pending.length + 1)
  { input with
    eventBuffer := due.2
    localRolling := T.cycle.rolling
    atomSequence := LV2.MidiInput.process LV2.MidiInput.ROOM (fun _ => 0) T.cycle.rolling
      input.localRolling due.1 blank (T.inputMessages input.connection) }

theorem midiInput_yields {input : LV2.MidiInput P}
    (hcalls : ∀ c, input.connection = some c → T.start.graph.Calls p c.source)
    (hcarries : ∀ c, input.connection = some c → Carries T.cycle T.start c LV2.Message.Packs)
    (hdue : ∀ e ∈ (input.eventBuffer.takeDue T.cycle.mul T.cycle.rolling T.cycle.pos
      T.cycle.nframes (input.eventBuffer.pending.length + 1)).1, e.data.type ≠ 0xC0)
    (unset : Call P S → ℕ → UInt8) (K : Set P) :
    Yields (T.At p K) (fun i => MidiInput.process T.cycle (unset i) i.process input)
      (T.settled input) (T.At p (K ∪ midiSource input.connection)) := by
  refine Yields.bind_of (fetch_ends hcalls hcarries K) ?_
  rintro ⟨lastEvent, messages⟩ ⟨rfl, hpacks⟩ i s hs
  refine ⟨_, s, rfl, ?_, hs⟩
  rw [LV2.MidiInput.process_congr (unset i) (fun _ => 0) _ _ lastEvent blank hdue hpacks]
  rfl

/-- The source of an optional connection. -/
def audioSource (connection : Option (AudioConnection P)) : Set P :=
  {q | ∃ c, connection = some c ∧ c.source = q}

omit [DecidableEq P] in
theorem inputBuffer_yields {connection : Option (AudioConnection P)}
    (hcalls : ∀ c, connection = some c → T.start.graph.Calls p c.source) (K : Set P) :
    Yields (T.At p K) (fun i => inputBuffer T.cycle i.process connection)
      (connection.elim T.cycle.dummyBuffer fun c => (T.solution c.source).audio c.index)
      (T.At p (K ∪ audioSource connection)) := by
  cases connection with
  | none => exact Yields.pure fun _ _ hs => hs.mono (by simp [audioSource])
  | some c =>
    have hK : K ∪ {c.source} = K ∪ audioSource (some c) := by simp [audioSource]
    rw [← hK]
    refine (process_yields (hcalls c rfl) K).bind ?_
    exact getAudio_yields (Set.mem_union_right K (Set.mem_singleton _))

/-- The control ports of a plugin when it runs. -/
def settledPorts (T : Setting P S) (plugin : LV2.Plugin P S) : ℕ → ℚ :=
  let due := plugin.controlBuffer.takeDue T.cycle.mul T.cycle.rolling T.cycle.pos T.cycle.nframes
    (plugin.controlBuffer.pending.length + 1)
  plugin.pullMappings.controlConnections.foldl (fun ports c =>
    (List.range ((T.solution c.2.connection.source).messages c.2.connection.index).length).foldl
      (fun ports n => ((T.sources.getEvents c.2.connection)[n]?).elim ports fun e =>
        c.2.update e ports) ports)
    (due.1.foldl (fun ports evt => Function.update ports evt.data.port evt.data.value) plugin.ports)

/-- What a run of the plugin leaves. -/
def played (T : Setting P S) (p : P) (plugin : LV2.Plugin P S) : LV2.Played S :=
  T.cycle.run p plugin.inst
    { midiInput := (plugin.midiInputList.zipIdx.map fun input => T.settled input.1).map
        LV2.MidiInput.atomSequence
      audioInput := (List.range plugin.audioInputCount).map fun n =>
        (plugin.audioInput n).elim T.cycle.dummyBuffer fun c =>
          (T.solution c.source).audio c.index
      control := T.settledPorts plugin
      audioOutput := plugin.audioOutput }

/-- What a plugin ends the period with. -/
def settledPlugin (T : Setting P S) (p : P) (plugin : LV2.Plugin P S) : LV2.Plugin P S :=
  { plugin.pullMappings with
    inst := (T.played p plugin).inst
    midiInputList := plugin.midiInputList.zipIdx.map fun input => T.settled input.1
    midiOutputList := (List.range plugin.midiOutputList.length).map (T.played p plugin).midiOutput
    audioOutput := (T.played p plugin).audioOutput
    controlBuffer := (plugin.controlBuffer.takeDue T.cycle.mul T.cycle.rolling T.cycle.pos
      T.cycle.nframes (plugin.controlBuffer.pending.length + 1)).2
    ports := T.settledPorts plugin }

/-- What a plugin has called once all its inputs have been asked. -/
def pluginSources (plugin : LV2.Plugin P S) : Set P :=
  ∅ ∪ (⋃ input ∈ plugin.midiInputList.zipIdx, midiSource input.1.connection) ∪
      (⋃ n ∈ List.range plugin.audioInputCount, audioSource (plugin.audioInput n)) ∪
    ⋃ c ∈ plugin.pullMappings.controlConnections, {c.2.connection.source}

omit [DecidableEq P] in
theorem plugin_calls {plugin : LV2.Plugin P S} (hp : T.start.processors p = .plugin plugin) :
    {q | T.start.graph.Calls p q} = pluginSources plugin := by
  have hpulls : (T.start.processors p).node.pulls = some
      ((plugin.midiInputList.map LV2.MidiInput.connection).reduceOption.map MidiConnection.source ++
      ((List.range plugin.audioInputCount).filterMap plugin.audioInput).map
        AudioConnection.source ++
      (plugin.controlConnections.map fun c => c.2.connection).map MidiConnection.source) := by
    simp only [hp, Processor.node, Node.pulls, Bipscript.Plugin.audioSources]
  ext q
  rw [Set.mem_ofPred_eq, calls_iff hpulls, ← plugin.pullMappings_connections]
  simp only [pluginSources, midiSource, audioSource, List.mem_append, List.mem_map,
    List.reduceOption_mem_iff, List.mem_filterMap, Set.mem_union, Set.mem_iUnion, exists_prop,
    Set.mem_empty_iff_false, false_or]
  constructor
  · rintro ((⟨c, ⟨input, hinput, hc⟩, rfl⟩ | ⟨c, ⟨n, hn, hc⟩, rfl⟩) | ⟨_, ⟨c, hc, rfl⟩, rfl⟩)
    · obtain ⟨n, hn⟩ := List.mem_iff_getElem?.mp hinput
      exact Or.inl (Or.inl ⟨(input, n), List.mk_mem_zipIdx_iff_getElem?.mpr hn, c, hc, rfl⟩)
    · exact Or.inl (Or.inr ⟨n, hn, c, hc, rfl⟩)
    · exact Or.inr ⟨c, hc, rfl⟩
  · rintro ((⟨input, hinput, c, hc, rfl⟩ | ⟨n, hn, c, hc, rfl⟩) | ⟨c, hc, rfl⟩)
    · exact Or.inl (Or.inl ⟨c, ⟨input.1, List.fst_mem_of_mem_zipIdx hinput, hc⟩, rfl⟩)
    · exact Or.inl (Or.inr ⟨c, ⟨n, hn, hc⟩, rfl⟩)
    · exact Or.inr ⟨_, ⟨c, hc, rfl⟩, rfl⟩

/-- A plugin runs on the same inputs and ports whatever has run before it. -/
theorem plugin_yields {plugin : LV2.Plugin P S} (hp : T.start.processors p = .plugin plugin)
    (hclean : Clean T.cycle T.start (.plugin plugin)) :
    Yields (T.At p ∅) (fun i => Plugin.doProcess T.cycle (i.u.unset p) i.process p plugin)
      (T.settledPlugin p plugin) (T.At p {q | T.start.graph.Calls p q}) := by
  obtain ⟨hinputs, hcontrols⟩ := hclean
  have hcalls := plugin_calls hp
  have hcontrolled : T.Controlled (pluginSources plugin) _ :=
    controlled_of_carries plugin.pullMappings_connections hcontrols _
  have hmidi := Yields.mapM (I := T.At p) (l := plugin.midiInputList.zipIdx)
    (f := fun i input => MidiInput.process T.cycle (i.u.unset p input.2) i.process input.1)
    (g := fun input => T.settled input.1) (fun input => midiSource input.1.connection)
    (fun input hinput K => by
      obtain ⟨hcarries, hdue⟩ := hinputs _ (List.fst_mem_of_mem_zipIdx hinput)
      refine midiInput_yields (fun c hc => hcalls.ge ?_) hcarries hdue _ K
      exact Or.inl (Or.inl (Or.inr (Set.mem_biUnion hinput ⟨c, hc, rfl⟩)))) ∅
  have haudio := Yields.mapM (I := T.At p) (l := List.range plugin.audioInputCount)
    (f := fun i n => inputBuffer T.cycle i.process (plugin.audioInput n))
    (g := fun n => (plugin.audioInput n).elim T.cycle.dummyBuffer fun c =>
      (T.solution c.source).audio c.index) (fun n => audioSource (plugin.audioInput n))
    (fun n hn K => by
      refine inputBuffer_yields (fun c hc => hcalls.ge ?_) K
      exact Or.inl (Or.inr (Set.mem_biUnion hn ⟨c, hc, rfl⟩)))
    (∅ ∪ ⋃ input ∈ plugin.midiInputList.zipIdx, midiSource input.1.connection)
  have hcontrolRun := Yields.foldlM (I := T.At p) (l := plugin.pullMappings.controlConnections)
    (f := fun i ports connection => ControlConnection.process i.process connection.2 ports)
    (fun c => {c.2.connection.source}) (fun _ => True)
    (fun c hc K ports _ => by
      obtain ⟨hmem, hcarries⟩ := hcontrolled _ (List.mem_map_of_mem hc)
      exact ⟨trivial, controlConnection_yields (hcalls.ge hmem) hcarries K ports⟩)
    (∅ ∪ (⋃ input ∈ plugin.midiInputList.zipIdx, midiSource input.1.connection) ∪
      ⋃ n ∈ List.range plugin.audioInputCount, audioSource (plugin.audioInput n)) trivial
    (b := (plugin.controlBuffer.takeDue T.cycle.mul T.cycle.rolling T.cycle.pos T.cycle.nframes
      (plugin.controlBuffer.pending.length + 1)).1.foldl
        (fun ports evt => Function.update ports evt.data.port evt.data.value) plugin.ports)
  rw [hcalls]
  refine hmidi.bind ?_
  refine haudio.bind ?_
  refine hcontrolRun.bind ?_
  refine (fireAll_yields _ _ _).bind ?_
  exact Yields.pure fun i s hs => hs

omit [DecidableEq P] in
theorem settledPlugin_delivers (p : P) (plugin : LV2.Plugin P S) (index : ℕ) :
    Delivers T.cycle p index (Processor.messages (.plugin (T.settledPlugin p plugin)) index)
      (.plugin plugin) := by
  simp only [Processor.messages, settledPlugin, List.getElem?_map]
  by_cases h : index < plugin.midiOutputList.length
  · rw [List.getElem?_range h]
    exact Or.inr ⟨_, _, rfl⟩
  · rw [List.getElem?_eq_none (by simpa using h)]
    exact Or.inl rfl

/-! All processors -/

omit [DecidableEq P] in
/-- Only one source is called. -/
theorem called_yields {a : Processor P S} {x : Call P S → M P S (Processor P S)} {source : P}
    (h : (T.start.processors p).node.pulls = some [source])
    (hx : Yields (T.At p (∅ ∪ {source})) x a (T.At p (∅ ∪ {source}))) :
    Yields (T.At p ∅) (fun i => do i.process source; x i) a
      (T.At p {q | T.start.graph.Calls p q}) := by
  refine (process_yields ((calls_iff h).mpr (List.mem_singleton_self _)) ∅).bind ?_
  refine hx.mono (fun _ _ hs => hs) fun i s hs => hs.mono fun q hq => ?_
  exact Or.inr (List.mem_singleton.mp ((calls_iff h).mp hq))

omit [DecidableEq P] in
theorem uncalled_yields {a : Processor P S} {x : Call P S → M P S (Processor P S)}
    (h : (T.start.processors p).node.pulls = some []) (hx : Yields (T.At p ∅) x a (T.At p ∅)) :
    Yields (T.At p ∅) x a (T.At p {q | T.start.graph.Calls p q}) := by
  refine hx.mono (fun _ _ hs => hs) fun i s hs => hs.mono fun q hq => ?_
  cases (calls_iff h).mp hq

/-- What a processor ends the period with: its own `doProcess`, on what its sources end the period
with. -/
def flow (T : Setting P S) (p : P) : Processor P S → Processor P S
  | .audioInputPort _ => .audioInputPort (T.cycle.audioBuffer p)
  | .audioOutputPort none buffer =>
    .audioOutputPort none fun i => if i < T.cycle.nframes then 0 else buffer i
  | .audioOutputPort (some connection) buffer =>
    .audioOutputPort (some connection) fun i =>
      if i < T.cycle.nframes then (T.solution connection.source).audio connection.index i
      else buffer i
  | .midiInputPort _ handlerDefined => .midiInputPort (T.cycle.midiBuffer p) handlerDefined
  | .mixer m =>
    match m.doProcess T.cycle.mul T.cycle.rolling T.cycle.pos T.cycle.nframes T.sources with
    | none => .mixer m
    | some period => .mixer period.mixer
  | .plugin plugin => .plugin (T.settledPlugin p plugin)
  | processor => processor

omit [DecidableEq P] in
theorem flow_delivers (p : P) (a : Processor P S) (index : ℕ) :
    Delivers T.cycle p index (Processor.messages (T.flow p a) index) a := by
  cases a with
  | audioInputPort | audioStereoInput | midiInputPort | audioListener | midiListener
  | endpoint => rfl
  | audioOutputPort audioInput => cases audioInput <;> rfl
  | mixer m =>
    simp only [flow]
    split <;> rfl
  | plugin plugin => exact settledPlugin_delivers p plugin index

/-- `doProcess` leaves the same in a processor whatever has run before it, and in whatever order. -/
theorem doProcess_flows (hdefined : (T.start.graph p).pulls ≠ none)
    (hclean : Clean T.cycle T.start (T.start.processors p)) :
    Yields (T.At p ∅) (fun i => doProcess T.cycle i.u i.process p (T.start.processors p))
      (T.flow p (T.start.processors p)) (T.At p {q | T.start.graph.Calls p q}) := by
  cases hp : T.start.processors p with
  | audioInputPort buffer =>
    refine uncalled_yields ?_ (Yields.pure fun _ _ hs => hs)
    rw [hp]
    rfl
  | audioStereoInput portLeft portRight =>
    have hcalls : ∀ q, T.start.graph.Calls p q ↔ q ∈ [portLeft, portRight] := fun q =>
      calls_iff (by rw [hp]; rfl)
    refine (process_yields ((hcalls portLeft).mpr (by simp)) ∅).bind ?_
    refine (process_yields ((hcalls portRight).mpr (by simp)) _).bind ?_
    refine Yields.pure fun i s hs => hs.mono fun q hq => ?_
    simpa [or_comm] using (hcalls q).mp hq
  | audioOutputPort audioInput buffer =>
    cases audioInput with
    | none =>
      refine uncalled_yields ?_ (Yields.pure fun _ _ hs => hs)
      rw [hp]
      rfl
    | some connection =>
      refine called_yields ?_ ?_
      · rw [hp]
        rfl
      · refine (getAudio_yields (Set.mem_union_right _ (Set.mem_singleton _))).bind ?_
        exact Yields.pure fun _ _ hs => hs
  | midiInputPort buffer handlerDefined =>
    refine uncalled_yields ?_ ?_
    · rw [hp]
      rfl
    · refine (fireEvents_yields ⟨p, 0⟩ _ handlerDefined).bind ?_
      exact Yields.pure fun _ _ hs => hs
  | mixer m =>
    rw [hp] at hclean
    cases hperiod : m.doProcess T.cycle.mul T.cycle.rolling T.cycle.pos T.cycle.nframes
      T.sources with
    | none =>
      have haudio : m.connections = none := Option.map_eq_none_iff.mp hperiod
      have hpulls : (T.start.graph p).pulls = none := by
        simp [Memory.graph, hp, Processor.node, Node.pulls, haudio]
      exact absurd hpulls hdefined
    | some period =>
      have hflow : T.flow p (.mixer m) = .mixer period.mixer := by simp only [flow, hperiod]
      rw [hflow]
      refine (mixer_yields hp hperiod hclean).bind ?_
      exact Yields.pure fun _ _ hs => hs
  | plugin plugin =>
    rw [hp] at hclean
    refine (plugin_yields hp hclean).bind ?_
    exact Yields.pure fun _ _ hs => hs
  | audioListener audioInput =>
    cases audioInput with
    | none =>
      refine uncalled_yields ?_ (Yields.pure fun _ _ hs => hs)
      rw [hp]
      rfl
    | some connection =>
      refine called_yields ?_ (Yields.pure fun _ _ hs => hs)
      rw [hp]
      rfl
  | midiListener midiInput =>
    cases midiInput with
    | none =>
      refine uncalled_yields ?_ (Yields.pure fun _ _ hs => hs)
      rw [hp]
      rfl
    | some connection =>
      refine called_yields ?_ ?_
      · rw [hp]
        rfl
      · refine Yields.bind (fun i => fetchAll_yields ?_ (i.u.fetches p) i) ?_
        · exact Set.mem_union_right _ (Set.mem_singleton _)
        · exact Yields.pure fun _ _ hs => hs
  | endpoint =>
    refine uncalled_yields ?_ (Yields.pure fun _ _ hs => hs)
    rw [hp]
    rfl

end Setting

end Contents

end Bipscript
