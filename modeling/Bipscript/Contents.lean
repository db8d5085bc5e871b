import Bipscript.AudioEngine
import Bipscript.MidiInput

/-! What the processors hold, and a period of the engine over it: each `doProcess` in the order of
its statements, with the calls of `process` where it makes them. -/
namespace Bipscript

open Audio

/-- `getNextEvent` until it returns none: the events in turn, and the buffer left. -/
def EventBuffer.takeDue {α : Type} (mul : ℕ → ℕ → ℕ) (rolling : Bool) (pos : JackPosition)
    (nframes : ℕ) : ℕ → EventBuffer α → List (Event α) × EventBuffer α
  | 0, b => ([], b)
  | fuel + 1, b =>
    let r := b.getNextEvent mul rolling pos nframes
    match r.event with
    | none => ([], r.buffer)
    | some e =>
      let rest := takeDue mul rolling pos nframes fuel r.buffer
      (e :: rest.1, rest.2)

namespace LV2

/-- What a `ControlEvent` adds to an `Event`. -/
structure ControlChange where
  port : ℕ
  value : ℚ

structure ControlMapping where
  cc : UInt8
  port : ℕ
  minimum : ℚ
  maximum : ℚ

def ControlMapping.getScaled (midiValue : UInt8) (m : ControlMapping) : ℚ :=
  m.minimum + (m.maximum - m.minimum) * midiValue.toNat / 127

def ControlMapping.update (cc value : UInt8) (m : ControlMapping) (ports : ℕ → ℚ) : ℕ → ℚ :=
  if m.cc = cc then Function.update ports m.port (m.getScaled value) else ports

structure ControlConnection (P : Type) where
  mappings : List ControlMapping
  connection : MidiConnection P

def ControlConnection.addMapping {P : Type} (mapping : ControlMapping) (c : ControlConnection P) :
    ControlConnection P :=
  { c with mappings := mapping :: c.mappings }

/-- The check of all mappings against one event. -/
def ControlConnection.update {P : Type} (e : Midi.Event) (c : ControlConnection P)
    (ports : ℕ → ℚ) : ℕ → ℚ :=
  if Midi.matchesType e Midi.TYPE_CONTROL then
    c.mappings.foldl (fun ports mapping => mapping.update e.data.databyte1 e.data.databyte2 ports)
      ports
  else ports

structure MidiInput (P : Type) where
  connection : Option (MidiConnection P)
  eventBuffer : EventBuffer Midi.EventData
  localRolling : Bool
  atomSequence : List AtomEvent

/-- An atom sequence of 1024 bytes has room for this many events with a body of three bytes. -/
def MidiInput.ROOM : ℕ := 42

/-- A plugin: `midiOutputList` holds the MIDI events of each output sequence, `ports` the values of
the control ports. -/
structure Plugin (P S : Type) where
  inst : S
  midiInputList : List (MidiInput P)
  midiOutputList : List (List Message)
  /-- `handlerDefined` of each MIDI output -/
  handlerDefined : ℕ → Bool
  audioInputCount : ℕ
  audioInput : ℕ → Option (AudioConnection P)
  audioOutputCount : ℕ
  audioOutput : ℕ → ℕ → ℚ
  controlBuffer : EventBuffer ControlChange
  ports : ℕ → ℚ
  /-- fresh mappings, each with the address of its control connection -/
  newControlMappingsQueue : List (ℕ × ControlMapping)
  controlConnections : List (ℕ × ControlConnection P)

/-- What the ports of a plugin are connected to when it runs. -/
structure Ports where
  midiInput : List (List AtomEvent)
  audioInput : List (ℕ → ℚ)
  control : ℕ → ℚ
  audioOutput : ℕ → ℕ → ℚ

/-- What a plugin leaves when it has run, and its worker has responded. -/
structure Played (S : Type) where
  inst : S
  midiOutput : ℕ → List Message
  audioOutput : ℕ → ℕ → ℚ

/-- New control mappings are pulled in. -/
def Plugin.pullMappings {P S : Type} (p : Plugin P S) : Plugin P S :=
  { p with
    newControlMappingsQueue := []
    controlConnections := p.newControlMappingsQueue.foldl (fun connections freshMapping =>
      connections.map fun c =>
        if c.1 = freshMapping.1 then (c.1, c.2.addMapping freshMapping.2) else c)
      p.controlConnections }

/-- Mappings change no connection. -/
theorem Plugin.pullMappings_connections {P S : Type} (p : Plugin P S) :
    (p.pullMappings.controlConnections.map fun c => c.2.connection) =
      p.controlConnections.map fun c => c.2.connection := by
  refine Mixer.map_foldl_eq (fun l x => ?_) _ _
  rw [List.map_map]
  refine List.map_congr_left fun c _ => ?_
  simp only [Function.comp_apply]
  split <;> rfl

end LV2

namespace Contents

variable {P S : Type}

/-- A new event, with nothing unpacked into it. -/
def blank : Midi.Event := ⟨⟨⟨1, 0, 1⟩, Nat.zero_lt_one⟩, 0, ⟨0, 0, 0, 0⟩⟩

/-- A processor, with what it holds. -/
inductive Processor (P S : Type)
  | audioInputPort (buffer : ℕ → ℚ)
  | audioStereoInput (portLeft portRight : P)
  | audioOutputPort (audioInput : Option (AudioConnection P)) (buffer : ℕ → ℚ)
  | midiInputPort (buffer : List LV2.Message) (handlerDefined : Bool)
  | mixer (m : Mixer P)
  | plugin (plugin : LV2.Plugin P S)
  /-- `audio::BeatTracker` and `OnsetDetector` -/
  | audioListener (audioInput : Option (AudioConnection P))
  /-- `midi::BeatTracker` -/
  | midiListener (midiInput : Option (MidiConnection P))
  /-- `MidiOutputPort`, `Transport` and `osc::Output` -/
  | endpoint

namespace Processor

/-- The connectors alone. -/
def node : Processor P S → Node P
  | audioInputPort _ => .audioInputPort
  | audioStereoInput portLeft portRight => .audioStereoInput portLeft portRight
  | audioOutputPort audioInput _ | audioListener audioInput => .audioListener audioInput
  | midiInputPort _ _ => .midiInputPort
  | mixer m => .mixer m
  | plugin p => .plugin {
      midiInputList := p.midiInputList.map LV2.MidiInput.connection
      midiOutputCount := p.midiOutputList.length
      audioInputCount := p.audioInputCount
      audioInput := p.audioInput
      audioOutputCount := p.audioOutputCount
      controlConnections := p.controlConnections.map fun c => c.2.connection }
  | midiListener midiInput => .midiListener midiInput
  | endpoint => .endpoint

/-- The audio buffer of each output. -/
def audio : Processor P S → ℕ → ℕ → ℚ
  | audioInputPort buffer, _ | audioOutputPort _ buffer, _ => buffer
  | mixer m, index => m.audioOutput index
  | plugin p, index => p.audioOutput index
  | _, _ => fun _ => 0

/-- The MIDI messages of each output. -/
def messages : Processor P S → ℕ → List LV2.Message
  | midiInputPort buffer _, _ => buffer
  | plugin p, index => (p.midiOutputList[index]?).getD []
  | _, _ => []

end Processor

/-- The processors by their addresses, and the event that each MIDI connection unpacks its messages
into. -/
structure Memory (P S : Type) where
  processors : P → Processor P S
  processedUntil : P → ℕ
  lastEvent : MidiConnection P → Midi.Event

def Memory.graph (s : Memory P S) : Graph P := fun p => (s.processors p).node

/-- What JACK delivers in a period, and the code of the plugins. -/
structure Cycle (P S : Type) where
  rolling : Bool
  pos : JackPosition
  nframes : ℕ
  time : ℕ
  /-- the cross products of positions -/
  mul : ℕ → ℕ → ℕ
  audioBuffer : P → ℕ → ℚ
  midiBuffer : P → List LV2.Message
  dummyBuffer : ℕ → ℚ
  run : P → S → LV2.Ports → LV2.Played S

/-- What the state of the processors does not decide. -/
structure Unspecified (P : Type) where
  /-- what the stack holds where `pack` does not write, by plugin, MIDI input and pass -/
  unset : P → ℕ → ℕ → UInt8
  /-- the events that each MIDI beat tracker fetches, which its tempo and count-in decide -/
  fetches : P → List ℕ

/-- The process thread in a period; none when a null pointer is dereferenced. -/
abbrev M (P S : Type) := StateT (Memory P S) Option

def messages (c : MidiConnection P) : M P S (List LV2.Message) := do
  return ((← get).processors c.source).messages c.index

def getAudio (c : AudioConnection P) : M P S (ℕ → ℚ) := do
  return ((← get).processors c.source).audio c.index

def getEventCount (c : MidiConnection P) : M P S ℕ := do
  return (← messages c).length

variable [DecidableEq P]

/-- The message is unpacked into the event of the connection. -/
def unpack (c : MidiConnection P) (m : LV2.Message) : M P S Midi.Event := do
  let s ← get
  let e := Midi.setFrameOffset m.time (Midi.unpack (s.lastEvent c) m.bytes)
  set { s with lastEvent := Function.update s.lastEvent c e }
  return e

def getEvent (c : MidiConnection P) (i : ℕ) : M P S (Option Midi.Event) := do
  match (← messages c)[i]? with
  | none => return none
  | some m => return some (← unpack c m)

/-- `fireEvents` of a connection with these messages; the closures are not followed. -/
def fireEvents (c : MidiConnection P) (messages : List LV2.Message) (handlerDefined : Bool) :
    M P S PUnit :=
  if handlerDefined then messages.forM fun m => discard (unpack c m) else return ⟨⟩

/-! `MixerControlConnection` and `Mixer` -/

def MixerControlConnection.process (process : P → M P S PUnit) (c : MixerControlConnection P) :
    M P S (MixerControlConnection P) := do
  process c.connection.source
  let eventCount ← getEventCount c.connection
  return { c with eventCount := eventCount, eventIndex := 0 }

/-- The `while` loop of `updateGains`. -/
def pull (mappings : List MixerControlMapping) (c : MidiConnection P) (eventCount frame : ℕ) :
    ℕ → Option Midi.Event → ℕ → Gains → M P S (ℕ × Gains)
  | fuel + 1, some nextEvent, eventIndex, gain =>
    if nextEvent.frameOffset = frame then
      let gain := applyMappings mappings gain nextEvent
      -- pull up next event
      if eventIndex < eventCount then do
        let nextEvent ← getEvent c eventIndex
        pull mappings c eventCount frame fuel nextEvent (eventIndex + 1) gain
      else pull mappings c eventCount frame fuel none eventIndex gain
    else return (eventIndex, gain)
  | _, _, eventIndex, gain => return (eventIndex, gain)

def updateGains (frame : ℕ) (c : MixerControlConnection P) (gain : Gains) :
    M P S (MixerControlConnection P × Gains) :=
  if c.eventCount ≠ 0 ∧ c.eventIndex < c.eventCount then do
    let nextEvent ← getEvent c.connection c.eventIndex
    let r ← pull c.mappings c.connection c.eventCount frame (c.eventCount + 2) nextEvent
      c.eventIndex gain
    return ({ c with eventIndex := r.1 }, r.2)
  else return (c, gain)

/-- `updateGains` of each control connection in turn. -/
def updateAllGains (frame : ℕ) : List (ℕ × MixerControlConnection P) → Gains →
    M P S (List (ℕ × MixerControlConnection P) × Gains)
  | [], gain => return ([], gain)
  | connection :: rest, gain => do
    let r ← updateGains frame connection.2 gain
    let s ← updateAllGains frame rest r.2
    return ((connection.1, r.1) :: s.1, s.2)

/-- One pass of the loop over frames. -/
def frameStep (C : Cycle P S) (audio : List (AudioConnection P)) (s : MixerPeriod P) (frame : ℕ) :
    M P S (MixerPeriod P) := do
  let r ← updateAllGains frame s.mixer.controlConnections s.mixer.gain
  let s := { s with mixer := { s.mixer with controlConnections := r.1, gain := r.2 } }
  let s := Mixer.applyEvents C.mul C.rolling C.pos C.nframes frame
    (s.mixer.gainEventBuffer.pending.length + 2) s
  let memory ← get
  let S : Sources P :=
    { getAudio := fun conn => (memory.processors conn.source).audio conn.index
      getEvents := fun _ => [] }
  return { s with mixer := Mixer.mix S audio frame s.mixer }

def Mixer.doProcess (C : Cycle P S) (process : P → M P S PUnit) (m : Mixer P) :
    M P S (Mixer P) := do
  let m := m.pullMappings
  -- get audio from input connections
  let audio ← StateT.lift m.connections
  audio.forM fun conn => process conn.source
  -- zero out all output channels
  let m := { m with audioOutput := fun _ _ => 0 }
  let controlConnections ← m.controlConnections.mapM fun c => do
    return (c.1, ← MixerControlConnection.process process c.2)
  let m := { m with controlConnections := controlConnections }
  -- grab first gain event
  let s := Mixer.getNextEvent C.mul C.rolling C.pos C.nframes
    { mixer := m, event := none, handedOut := [], written := [], recycled := [], dropped := [] }
  let s ← (List.range C.nframes).foldlM (frameStep C audio) s
  return s.mixer

/-! `ControlConnection`, `MidiInput` and `Plugin` -/

/-- Every event is fetched twice, and read the first time. -/
def ControlConnection.process (process : P → M P S PUnit) (c : LV2.ControlConnection P)
    (ports : ℕ → ℚ) : M P S (ℕ → ℚ) := do
  process c.connection.source
  let eventCount ← getEventCount c.connection
  (List.range eventCount).foldlM (fun ports eventIndex => do
    let nextEvent ← getEvent c.connection eventIndex
    let ports := nextEvent.elim ports fun e => c.update e ports
    discard (getEvent c.connection eventIndex : M P S _)
    return ports) ports

/-- The event and the messages of the connection; the loop fetches every message. -/
def MidiInput.fetch (process : P → M P S PUnit) :
    Option (MidiConnection P) → M P S (Midi.Event × List LV2.Message)
  | none => return (blank, [])
  | some connection => do
    process connection.source
    let messages ← messages connection
    let s ← get
    messages.forM fun m => discard (unpack connection m)
    return (s.lastEvent connection, messages)

def MidiInput.process (C : Cycle P S) (unset : ℕ → UInt8) (process : P → M P S PUnit)
    (input : LV2.MidiInput P) : M P S (LV2.MidiInput P) := do
  let (lastEvent, messages) ← MidiInput.fetch process input.connection
  let due := input.eventBuffer.takeDue C.mul C.rolling C.pos C.nframes
    (input.eventBuffer.pending.length + 1)
  return { input with
    eventBuffer := due.2
    localRolling := C.rolling
    atomSequence := LV2.MidiInput.process LV2.MidiInput.ROOM unset C.rolling input.localRolling
      due.1 lastEvent messages }

/-- The buffer that an audio input is connected to: nothing changes what it holds before the plugin
runs. -/
def inputBuffer (C : Cycle P S) (process : P → M P S PUnit) :
    Option (AudioConnection P) → M P S (ℕ → ℚ)
  | none => return C.dummyBuffer
  | some connection => do
    process connection.source
    getAudio connection

def Plugin.doProcess (C : Cycle P S) (unset : ℕ → ℕ → UInt8) (process : P → M P S PUnit) (p : P)
    (plugin : LV2.Plugin P S) : M P S (LV2.Plugin P S) := do
  let plugin := plugin.pullMappings
  -- process MIDI inputs
  let midiInputList ← plugin.midiInputList.zipIdx.mapM fun input =>
    MidiInput.process C (unset input.2) process input.1
  -- process and connect audio inputs
  let audioInput ← (List.range plugin.audioInputCount).mapM fun i =>
    inputBuffer C process (plugin.audioInput i)
  -- update control port values from scheduled control events
  let due := plugin.controlBuffer.takeDue C.mul C.rolling C.pos C.nframes
    (plugin.controlBuffer.pending.length + 1)
  let ports := due.1.foldl (fun ports evt => Function.update ports evt.data.port evt.data.value)
    plugin.ports
  let ports ← plugin.controlConnections.foldlM
    (fun ports connection => ControlConnection.process process connection.2 ports) ports
  -- run the plugin
  let played := C.run p plugin.inst
    { midiInput := midiInputList.map LV2.MidiInput.atomSequence
      audioInput := audioInput
      control := ports
      audioOutput := plugin.audioOutput }
  -- fire MIDI events
  (List.range plugin.midiOutputList.length).forM fun i =>
    fireEvents ⟨p, i⟩ (played.midiOutput i) (plugin.handlerDefined i)
  return { plugin with
    inst := played.inst
    midiInputList := midiInputList
    midiOutputList := (List.range plugin.midiOutputList.length).map played.midiOutput
    audioOutput := played.audioOutput
    controlBuffer := due.2
    ports := ports }

/-! The period -/

/-- `doProcess` of a processor, and what it then holds. -/
def doProcess (C : Cycle P S) (u : Unspecified P) (process : P → M P S PUnit) (p : P) :
    Processor P S → M P S (Processor P S)
  | .audioInputPort _ => return .audioInputPort (C.audioBuffer p)
  | .audioStereoInput portLeft portRight => do
    process portLeft
    process portRight
    return .audioStereoInput portLeft portRight
  | .audioOutputPort none buffer =>
    return .audioOutputPort none fun i => if i < C.nframes then 0 else buffer i
  | .audioOutputPort (some connection) buffer => do
    process connection.source
    let audio ← getAudio connection
    return .audioOutputPort (some connection) fun i => if i < C.nframes then audio i else buffer i
  | .midiInputPort _ handlerDefined => do
    fireEvents ⟨p, 0⟩ (C.midiBuffer p) handlerDefined
    return .midiInputPort (C.midiBuffer p) handlerDefined
  | .mixer m => return .mixer (← Mixer.doProcess C process m)
  | .plugin plugin => return .plugin (← Plugin.doProcess C (u.unset p) process p plugin)
  | .audioListener none => return .audioListener none
  | .audioListener (some connection) => do
    process connection.source
    return .audioListener (some connection)
  | .midiListener none => return .midiListener none
  | .midiListener (some connection) => do
    process connection.source
    (u.fetches p).forM fun i => discard (getEvent connection i : M P S _)
    return .midiListener (some connection)
  | .endpoint => return .endpoint

/-- `Processor::process`, with the depth of recursion that the stack allows. -/
def process (C : Cycle P S) (u : Unspecified P) : ℕ → P → M P S PUnit
  | 0, _ => StateT.lift none
  | depth + 1, p => do
    let s ← get
    if s.processedUntil p ≥ C.time then return ⟨⟩
    let contents ← doProcess C u (process C u depth) p (s.processors p)
    modify fun s =>
      { s with
        processors := Function.update s.processors p contents
        processedUntil := Function.update s.processedUntil p C.time }

/-- `AudioEngine::process`. -/
def period (C : Cycle P S) (u : Unspecified P) (depth : ℕ)
    (deletedProcessors activeProcessors : List P) : M P S PUnit :=
  (activeProcessors.diff deletedProcessors).forM (process C u depth)

end Contents

end Bipscript
