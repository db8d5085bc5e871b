import Bipscript.Contents
import Bipscript.Library.Yields

/-! A period over what the processors hold runs the processors that the engine's period runs: the
contents decide neither which of them run, nor whether the period ends. -/
namespace Bipscript.Contents

open Audio Program

variable {P S : Type}

/-- The processors that a processor calls are those that the graph has for it, and the two agree on
what has run. -/
structure Tracks (g : Graph P) (s : Memory P S) (t : Progress P) : Prop where
  pulls : ∀ p, (s.graph p).pulls = (g p).pulls
  processedUntil : s.processedUntil = t.processedUntil

section Quiet

variable {g : Graph P} {call : P → Progress P → Option (Progress P)}

theorem messages_makes (c : MidiConnection P) :
    Makes (Tracks g) call (messages c : M P S _) [] fun _ => True :=
  fun _ _ hs => .some ⟨trivial, hs⟩

theorem getAudio_makes (c : AudioConnection P) :
    Makes (Tracks g) call (getAudio c : M P S _) [] fun _ => True :=
  fun _ _ hs => .some ⟨trivial, hs⟩

theorem getEventCount_makes (c : MidiConnection P) :
    Makes (Tracks g) call (getEventCount c : M P S _) [] fun _ => True :=
  fun _ _ hs => .some ⟨trivial, hs⟩

variable [DecidableEq P]

theorem unpack_makes (c : MidiConnection P) (m : LV2.Message) :
    Makes (Tracks g) call (unpack c m : M P S _) [] fun _ => True :=
  fun _ _ hs => .some ⟨trivial, hs.pulls, hs.processedUntil⟩

theorem getEvent_makes (c : MidiConnection P) (i : ℕ) :
    Makes (Tracks g) call (getEvent c i : M P S _) [] fun _ => True := by
  refine (messages_makes c).bind fun ms _ => ?_
  cases ms[i]? with
  | none => exact Makes.pure trivial
  | some m => exact (unpack_makes c m).bind fun _ _ => Makes.pure trivial

theorem fired_makes (c : MidiConnection P) (messages : List LV2.Message) :
    Makes (Tracks g) call (messages.forM fun m => discard (unpack c m : M P S _)) []
      fun _ => True :=
  Makes.forM_quiet fun m _ => (unpack_makes c m).discard

theorem fireEvents_makes (c : MidiConnection P) (messages : List LV2.Message)
    (handlerDefined : Bool) :
    Makes (Tracks g) call (fireEvents c messages handlerDefined : M P S _) [] fun _ => True := by
  cases handlerDefined with
  | false => exact Makes.pure trivial
  | true => exact fired_makes c messages

end Quiet

/-! The mixer -/

/-- The connections of the mixer are still those. -/
structure SameSources (m m' : Mixer P) : Prop where
  connectedInputs : m'.connectedInputs = m.connectedInputs
  audioInput : m'.audioInput = m.audioInput
  controlConnections : (m'.controlConnections.map fun c => c.2.connection) =
    m.controlConnections.map fun c => c.2.connection

theorem SameSources.pulls {m m' : Mixer P} (h : SameSources m m') :
    (Node.mixer m').pulls = (Node.mixer m).pulls := by
  have hcontrol : (m'.controlConnections.map fun c => c.2.connection.source) =
      m.controlConnections.map fun c => c.2.connection.source := by
    have hsources := congrArg (List.map MidiConnection.source) h.controlConnections
    rwa [List.map_map, List.map_map] at hsources
  simp only [Node.pulls, Mixer.connections, h.connectedInputs, h.audioInput, hcontrol]

section Mixer

variable [DecidableEq P] {C : Cycle P S} {g : Graph P}
  {call : P → Progress P → Option (Progress P)}

theorem pull_makes (mappings : List MixerControlMapping) (c : MidiConnection P)
    (eventCount frame fuel : ℕ) (nextEvent : Option Midi.Event) (eventIndex : ℕ) (gain : Gains) :
    Makes (Tracks g) call
      (pull mappings c eventCount frame fuel nextEvent eventIndex gain : M P S _) []
      fun _ => True := by
  induction fuel generalizing nextEvent eventIndex gain with
  | zero => exact Makes.pure trivial
  | succ fuel ih =>
    cases nextEvent with
    | none => exact Makes.pure trivial
    | some e =>
      simp only [pull]
      split
      · split
        · exact (getEvent_makes c eventIndex).bind fun e _ => ih e _ _
        · exact Makes.pure trivial
      · exact Makes.pure trivial

theorem updateGains_makes (frame : ℕ) (c : MixerControlConnection P) (gain : Gains) :
    Makes (Tracks g) call (updateGains frame c gain : M P S _) []
      fun r => r.1.connection = c.connection := by
  simp only [updateGains]
  split
  · refine (getEvent_makes c.connection c.eventIndex).bind fun e _ => ?_
    exact (pull_makes _ _ _ _ _ e _ _).bind fun _ _ => Makes.pure rfl
  · exact Makes.pure rfl

theorem updateAllGains_makes (frame : ℕ) (l : List (ℕ × MixerControlConnection P))
    (gain : Gains) :
    Makes (Tracks g) call (updateAllGains frame l gain : M P S _) []
      fun r => (r.1.map fun c => c.2.connection) = l.map fun c => c.2.connection := by
  induction l generalizing gain with
  | nil => exact Makes.pure rfl
  | cons c l ih =>
    refine (updateGains_makes frame c.2 gain).bind fun r hr => ?_
    refine (ih r.2).bind fun s hs => Makes.pure ?_
    rw [List.map_cons, List.map_cons, hr, hs]

theorem frameStep_makes {m : Mixer P} (audio : List (AudioConnection P)) {s : MixerPeriod P}
    (h : SameSources m s.mixer) (frame : ℕ) :
    Makes (Tracks g) call (frameStep C audio s frame) [] fun t => SameSources m t.mixer := by
  refine (updateAllGains_makes frame _ _).bind fun r hr => ?_
  intro memory t ht
  refine .some ⟨?_, ht⟩
  obtain ⟨gain, gainEventBuffer, happly⟩ := Mixer.applyEvents_mixer C.mul C.rolling C.pos C.nframes
    frame (s.mixer.gainEventBuffer.pending.length + 2)
    { s with mixer := { s.mixer with controlConnections := r.1, gain := r.2 } }
  simp only [Mixer.mix, happly]
  exact ⟨h.connectedInputs, h.audioInput, hr.trans h.controlConnections⟩

variable {process : P → M P S PUnit}

omit [DecidableEq P] in
theorem controlProcess_makes
    (hprocess : ∀ q, Makes (Tracks g) call (process q) [q] fun _ => True)
    (c : MixerControlConnection P) :
    Makes (Tracks g) call (MixerControlConnection.process process c) [c.connection.source]
      fun c' => c'.connection = c.connection := by
  refine (hprocess c.connection.source).bind fun _ _ => ?_
  exact (getEventCount_makes c.connection).bind fun _ _ => Makes.pure rfl

theorem mixer_makes (hprocess : ∀ q, Makes (Tracks g) call (process q) [q] fun _ => True)
    {m : Mixer P} {audio : List (AudioConnection P)} (haudio : m.connections = some audio) :
    Makes (Tracks g) call (Mixer.doProcess C process m)
      (audio.map AudioConnection.source ++
        m.controlConnections.map fun c => c.2.connection.source) (SameSources m) := by
  have hcalls : audio.map AudioConnection.source ++
      (m.controlConnections.map fun c => c.2.connection.source) =
      [] ++ (audio.flatMap (fun conn => [conn.source]) ++
        (m.pullMappings.controlConnections.flatMap (fun c => [c.2.connection.source]) ++
          ([] ++ []))) := by
    have hsources := congrArg (List.map MidiConnection.source) m.pullMappings_connections
    rw [List.map_map, List.map_map] at hsources
    rw [List.nil_append, List.append_nil, List.append_nil, ← List.map_eq_flatMap,
      ← List.map_eq_flatMap]
    exact congrArg _ hsources.symm
  rw [hcalls]
  refine (Makes.lift haudio).bind ?_
  rintro audio rfl
  refine (Makes.forM _ fun conn _ => hprocess conn.source).bind fun _ _ => ?_
  refine (Makes.mapM (v := fun c => c.2.connection) (w := fun c => c.2.connection) _
    fun c _ => ?_).bind fun controlConnections hcontrol => ?_
  · exact (controlProcess_makes hprocess c.2).bind fun _ hc => Makes.pure hc
  · refine (Makes.foldlM_quiet (fun frame _ s hs => frameStep_makes audio hs frame) ?_).bind
      fun s hs => Makes.pure hs
    exact ⟨rfl, rfl, hcontrol.trans m.pullMappings_connections⟩

end Mixer

/-! The plugin -/

section Plugin

variable [DecidableEq P] {C : Cycle P S} {g : Graph P}
  {call : P → Progress P → Option (Progress P)} {process : P → M P S PUnit}

theorem controlConnection_makes
    (hprocess : ∀ q, Makes (Tracks g) call (process q) [q] fun _ => True)
    (c : LV2.ControlConnection P) (ports : ℕ → ℚ) :
    Makes (Tracks g) call (ControlConnection.process process c ports) [c.connection.source]
      fun _ => True := by
  refine (hprocess c.connection.source).bind fun _ _ => ?_
  refine (getEventCount_makes c.connection).bind fun eventCount _ => ?_
  refine Makes.foldlM_quiet (fun i _ ports _ => ?_) trivial
  refine (getEvent_makes c.connection i).bind fun nextEvent _ => ?_
  exact (getEvent_makes c.connection i).discard.bind fun _ _ => Makes.pure trivial

theorem midiInput_makes (hprocess : ∀ q, Makes (Tracks g) call (process q) [q] fun _ => True)
    (unset : ℕ → UInt8) (input : LV2.MidiInput P) :
    Makes (Tracks g) call (MidiInput.process C unset process input)
      (input.connection.toList.map MidiConnection.source)
      fun input' => input'.connection = input.connection := by
  have hfetch : Makes (Tracks g) call (MidiInput.fetch process input.connection)
      (input.connection.toList.map MidiConnection.source) fun _ => True := by
    cases input.connection with
    | none => exact Makes.pure trivial
    | some c =>
      refine (hprocess c.source).bind fun _ _ => ?_
      refine (messages_makes c).bind fun messages _ => ?_
      refine Makes.get.bind fun s _ => ?_
      exact (fired_makes c messages).bind fun _ _ => Makes.pure trivial
  rw [← List.append_nil (input.connection.toList.map _)]
  exact hfetch.bind fun _ _ => Makes.pure rfl

omit [DecidableEq P] in
theorem inputBuffer_makes (hprocess : ∀ q, Makes (Tracks g) call (process q) [q] fun _ => True)
    (connection : Option (AudioConnection P)) :
    Makes (Tracks g) call (inputBuffer C process connection)
      (connection.toList.map AudioConnection.source) fun _ => True := by
  cases connection with
  | none => exact Makes.pure trivial
  | some c => exact (hprocess c.source).bind fun _ _ => getAudio_makes c

omit [DecidableEq P] in
/-- The sources of a plugin, in the order of its three loops. -/
theorem pluginNode_pulls (plugin : LV2.Plugin P S) :
    (Processor.plugin plugin).node.pulls = some
      (plugin.midiInputList.zipIdx.flatMap (fun input =>
          input.1.connection.toList.map MidiConnection.source) ++
        ((List.range plugin.audioInputCount).flatMap (fun i =>
            (plugin.audioInput i).toList.map AudioConnection.source) ++
          (plugin.pullMappings.controlConnections.flatMap (fun c => [c.2.connection.source]) ++
            ([] ++ [])))) := by
  have hmidi : plugin.midiInputList.zipIdx.flatMap (fun input =>
      input.1.connection.toList.map MidiConnection.source) =
      (plugin.midiInputList.map LV2.MidiInput.connection).reduceOption.map
        MidiConnection.source := by
    rw [List.reduceOption, List.filterMap_eq_flatMap_toList, List.map_flatMap, List.flatMap_map]
    conv_rhs => rw [← List.zipIdx_map_fst 0 plugin.midiInputList, List.flatMap_map]
    rfl
  have haudio : (List.range plugin.audioInputCount).flatMap (fun i =>
      (plugin.audioInput i).toList.map AudioConnection.source) =
      ((List.range plugin.audioInputCount).filterMap plugin.audioInput).map
        AudioConnection.source := by
    rw [List.filterMap_eq_flatMap_toList, List.map_flatMap]
  have hcontrol := congrArg (List.map MidiConnection.source) plugin.pullMappings_connections
  rw [List.map_map, List.map_map] at hcontrol
  rw [hmidi, haudio, ← List.map_eq_flatMap, List.append_nil, List.append_nil, ← List.append_assoc]
  simp only [Processor.node, Node.pulls, Bipscript.Plugin.audioSources, List.map_map]
  rw [← hcontrol]
  rfl

theorem plugin_makes (hprocess : ∀ q, Makes (Tracks g) call (process q) [q] fun _ => True)
    (unset : ℕ → ℕ → UInt8) (p : P) {plugin : LV2.Plugin P S} {l : List P}
    (hl : (Processor.plugin plugin).node.pulls = some l) :
    Makes (Tracks g) call (Plugin.doProcess C unset process p plugin) l
      fun plugin' => (Processor.plugin plugin').node.pulls = some l := by
  have hpulls := hl
  rw [pluginNode_pulls] at hl
  obtain rfl := Option.some.inj hl
  refine (Makes.mapM (v := LV2.MidiInput.connection) (w := fun input => input.1.connection) _
    fun input _ => midiInput_makes hprocess (unset input.2) input.1).bind
      fun midiInputList hmidi => ?_
  refine (Makes.mapM (v := fun _ => PUnit.unit) (w := fun _ => PUnit.unit) _ fun i _ =>
    (inputBuffer_makes hprocess (plugin.audioInput i)).mono fun _ _ => rfl).bind
      fun audioInput _ => ?_
  refine (Makes.foldlM (fun c : ℕ × LV2.ControlConnection P => [c.2.connection.source])
    (fun c _ ports _ => controlConnection_makes hprocess c.2 ports) trivial).bind fun ports _ => ?_
  refine (Makes.forM_quiet fun i _ => fireEvents_makes _ _ _).bind fun _ _ => Makes.pure ?_
  rw [← hpulls]
  have hsame : midiInputList.map LV2.MidiInput.connection =
      plugin.midiInputList.map LV2.MidiInput.connection := by
    rw [hmidi]
    conv_rhs => rw [← List.zipIdx_map_fst 0 plugin.midiInputList, List.map_map]
    rfl
  simp only [Processor.node, Node.pulls, hsame, plugin.pullMappings_connections]
  rfl

end Plugin

/-! All processors -/

section Processors

variable [DecidableEq P] {C : Cycle P S} {g : Graph P} {u : Unspecified P}
  {call : P → Progress P → Option (Progress P)} {process : P → M P S PUnit}

/-- A null connector that a mixer reads ends the period before anything else. -/
theorem doProcess_undefined (p : P) {n : Processor P S} (hn : n.node.pulls = none)
    (s : Memory P S) : doProcess C u process p n s = none := by
  cases n with
  | mixer m =>
    have hnone : m.pullMappings.connections = none := Option.map_eq_none_iff.mp hn
    have hmixer : Mixer.doProcess C process m s = none := by
      simp only [Mixer.doProcess]
      change (StateT.lift m.pullMappings.connections s).bind _ = none
      rw [hnone]
      rfl
    change (Mixer.doProcess C process m s).bind _ = none
    rw [hmixer]
    rfl
  | audioOutputPort audioInput buffer => cases hn
  | _ => cases hn

theorem doProcess_makes (hprocess : ∀ q, Makes (Tracks g) call (process q) [q] fun _ => True)
    (p : P) {n : Processor P S} {l : List P} (hl : n.node.pulls = some l) :
    Makes (Tracks g) call (doProcess C u process p n) l fun n' => n'.node.pulls = some l := by
  cases n with
  | audioInputPort buffer =>
    cases hl
    exact Makes.pure rfl
  | audioStereoInput portLeft portRight =>
    cases hl
    exact (hprocess portLeft).bind fun _ _ => (hprocess portRight).bind fun _ _ => Makes.pure rfl
  | audioOutputPort audioInput buffer =>
    cases hl
    cases audioInput with
    | none => exact Makes.pure rfl
    | some c =>
      refine (hprocess c.source).bind fun _ _ => ?_
      exact (getAudio_makes c).bind fun _ _ => Makes.pure rfl
  | midiInputPort buffer handlerDefined =>
    cases hl
    exact (fireEvents_makes _ _ _).bind fun _ _ => Makes.pure rfl
  | mixer m =>
    obtain ⟨audio, haudio, rfl⟩ := Option.map_eq_some_iff.mp hl
    rw [← List.append_nil (_ ++ _)]
    refine (mixer_makes hprocess haudio).bind fun m' hm' => Makes.pure ?_
    rw [List.append_nil, ← hl]
    exact hm'.pulls
  | plugin plugin =>
    rw [← List.append_nil l]
    refine (plugin_makes hprocess (u.unset p) p hl).bind fun plugin' h => Makes.pure ?_
    rw [List.append_nil]
    exact h
  | audioListener audioInput =>
    cases hl
    cases audioInput with
    | none => exact Makes.pure rfl
    | some c => exact (hprocess c.source).bind fun _ _ => Makes.pure rfl
  | midiListener midiInput =>
    cases hl
    cases midiInput with
    | none => exact Makes.pure rfl
    | some c =>
      refine (hprocess c.source).bind fun _ _ => ?_
      refine (Makes.forM_quiet fun i _ => (getEvent_makes c i).discard).bind fun _ _ => ?_
      exact Makes.pure rfl
  | endpoint =>
    cases hl
    exact Makes.pure rfl

end Processors

/-! The period -/

section Period

variable [DecidableEq P] {g : Graph P}

theorem Tracks.store {s : Memory P S} {t : Progress P} {p : P} {contents : Processor P S}
    (h : Tracks g s t) (hc : contents.node.pulls = (g p).pulls) (time : ℕ) :
    Tracks g { s with
        processors := Function.update s.processors p contents
        processedUntil := Function.update s.processedUntil p time }
      { t with processedUntil := Function.update t.processedUntil p time } where
  pulls := by
    intro q
    by_cases hq : q = p
    · subst hq
      simpa [Memory.graph] using hc
    · simpa [Memory.graph, hq] using h.pulls q
  processedUntil := by rw [h.processedUntil]

/-- With the contents forgotten, `process` is the engine's. -/
theorem process_makes (C : Cycle P S) (u : Unspecified P) (g : Graph P) (depth : ℕ) (p : P) :
    Makes (Tracks g) (Bipscript.process g C.time depth) (process C u depth p) [p]
      fun _ => True := by
  induction depth generalizing p with
  | zero => exact Makes.of_call fun _ _ _ => .none
  | succ depth ih =>
    refine Makes.of_call fun s t hs => ?_
    rw [process]
    change Option.Rel _ ((if s.processedUntil p ≥ C.time then (Pure.pure ⟨⟩ : M P S PUnit)
      else _) s) _
    rw [Bipscript.process, ← congrFun hs.processedUntil p]
    by_cases hp : s.processedUntil p ≥ C.time
    · rw [if_pos hp, if_pos hp]
      exact .some ⟨trivial, hs⟩
    rw [if_neg hp, if_neg hp]
    have hpulls : (s.processors p).node.pulls = (g p).pulls := hs.pulls p
    change Option.Rel _ ((doProcess C u (process C u depth) p (s.processors p) s).bind _) _
    cases hl : (g p).pulls with
    | none =>
      rw [doProcess_undefined p (hpulls.trans hl)]
      exact .none
    | some l =>
      have hrun := doProcess_makes (C := C) (u := u) ih p (hpulls.trans hl) s
        { t with executed := t.executed ++ [p] } ⟨hs.pulls, hs.processedUntil⟩
      generalize doProcess C u (process C u depth) p (s.processors p) s = r at hrun ⊢
      change Option.Rel _ _ ((l.foldlM (fun t q => Bipscript.process g C.time depth q t)
        { t with executed := t.executed ++ [p] }).bind _)
      generalize l.foldlM (fun t q => Bipscript.process g C.time depth q t)
        { t with executed := t.executed ++ [p] } = r' at hrun ⊢
      cases hrun with
      | none => exact .none
      | some h => exact .some ⟨trivial, h.2.store (h.1.trans hl.symm) C.time⟩

theorem period_makes (C : Cycle P S) (u : Unspecified P) (g : Graph P) (depth : ℕ)
    (deletedProcessors activeProcessors : List P) :
    Makes (Tracks g) (Bipscript.process g C.time depth)
      (period C u depth deletedProcessors activeProcessors)
      (activeProcessors.diff deletedProcessors) fun _ => True := by
  have h := Makes.forM (l := activeProcessors.diff deletedProcessors) (fun p => [p])
    fun p _ => process_makes C u g depth p
  rwa [List.flatMap_singleton'] at h

/-- Whatever the processors hold, a period over an acyclic arrangement without null connectors ends,
and runs what the engine's period runs, each at most once. -/
theorem period_runs (C : Cycle P S) (u : Unspecified P) (layout : Layout P) {s : Memory P S}
    (hs : s.graph = layout.graph) {depth : ℕ} {deletedProcessors activeProcessors : List P}
    (hdepth : ∀ p ∈ activeProcessors, layout.rank p < depth) :
    ∃ new t, period C u depth deletedProcessors activeProcessors s = some (⟨⟩, t) ∧
      Runs layout.rank depth C.time (activeProcessors.diff deletedProcessors)
        ⟨s.processedUntil, []⟩ new ∧
      Tracks layout.graph t (Progress.mark new C.time ⟨s.processedUntil, []⟩) := by
  obtain ⟨new, hengine, hnew⟩ : ∃ new, (activeProcessors.diff deletedProcessors).foldlM
      (fun t p => Bipscript.process layout.graph C.time depth p t) ⟨s.processedUntil, []⟩ =
        some (Progress.mark new C.time ⟨s.processedUntil, []⟩) ∧
      Runs layout.rank depth C.time (activeProcessors.diff deletedProcessors)
        ⟨s.processedUntil, []⟩ new := by
    refine runs_foldlM (fun p hp t => ?_) _
    have hlt := hdepth p ((List.diff_sublist _ _).subset hp)
    obtain ⟨new, hrun, hnew⟩ := process_runs layout C.time hlt t
    exact ⟨new, hrun, hnew.mono hlt⟩
  have hrun := period_makes C u layout.graph depth deletedProcessors activeProcessors s
    ⟨s.processedUntil, []⟩ ⟨fun p => by rw [hs], rfl⟩
  rw [hengine] at hrun
  generalize hr : period C u depth deletedProcessors activeProcessors s = r at hrun
  cases hrun with
  | some h => exact ⟨new, _, rfl, hnew, h.2⟩

end Period

end Bipscript.Contents
