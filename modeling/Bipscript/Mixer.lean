import Bipscript.MixerControl

/-! The mixer, and one period of it: gain changes frame by frame, and the mix. -/
namespace Bipscript.Audio

/-- What a `MixerGainEvent` adds to an `Event`. -/
structure GainChange where
  input : ℕ
  output : ℕ
  value : ℚ
deriving DecidableEq

abbrev MixerGainEvent := Event GainChange

/-- A pointer is the address of what it points to; a connector holds none until it is set. -/
structure Mixer (P : Type*) where
  gain : Gains
  connectedInputs : ℕ
  audioInputCount : ℕ
  audioInput : ℕ → Option (AudioConnection P)
  audioOutputCount : ℕ
  /-- the buffer of each output connection -/
  audioOutput : ℕ → ℕ → ℚ
  /-- fresh mappings, each with the address of its control connection -/
  newControlMappingsQueue : List (ℕ × MixerControlMapping)
  controlConnections : List (ℕ × MixerControlConnection P)
  gainEventBuffer : EventBuffer GainChange

/-- What the sources hold once they have been processed for the period. -/
structure Sources (P : Type*) where
  getAudio : AudioConnection P → ℕ → ℚ
  getEvents : MidiConnection P → List Midi.Event

/-- A period of a mixer: its state, the gain event it holds, and the record of its gain events. -/
structure MixerPeriod (P : Type*) where
  mixer : Mixer P
  event : Option MixerGainEvent
  /-- what `getNextEvent` returned -/
  handedOut : List MixerGainEvent
  /-- the frames and events of the writes to the gains -/
  written : List (ℕ × MixerGainEvent)
  /-- what the period recycled, and what `getNextEvent` did -/
  recycled : List MixerGainEvent
  dropped : List MixerGainEvent

namespace Mixer

variable {P : Type*}

/-- The constructor. -/
def new (inputs outputs : ℕ) : Mixer P where
  gain := fun _ _ => 0
  connectedInputs := 0
  audioInputCount := inputs
  audioInput := fun _ => none
  audioOutputCount := outputs
  audioOutput := fun _ _ => 0
  newControlMappingsQueue := []
  controlConnections := []
  gainEventBuffer := .empty

def validateInputChannel (input : ℕ) (m : Mixer P) : Except String Unit :=
  if input = 0 then .error "There is no input channel zero"
  else if input > m.audioInputCount then .error "No such input on this mixer"
  else .ok ()

def validateOutputChannel (output : ℕ) (m : Mixer P) : Except String Unit :=
  if output = 0 then .error "There is no output channel zero"
  else if output > m.audioOutputCount then .error "No such output on this mixer"
  else .ok ()

/-- `scheduleGain` up to the push of its event: the event, or the error thrown. -/
def scheduleGain (input output : ℕ) (gain : ℚ) (bar position division : ℕ) (m : Mixer P) :
    Except String MixerGainEvent := do
  m.validateInputChannel input
  m.validateOutputChannel output
  if division = 0 then throw "division cannot be zero!"
  match Position.ofBar bar position division with
  | none => throw "there is no zero bar"
  | some pos => return ⟨pos, 0, ⟨input - 1, output - 1, gain⟩⟩

/-- New control mappings are pulled in. -/
def pullMappings (m : Mixer P) : Mixer P :=
  { m with
    newControlMappingsQueue := []
    controlConnections := m.newControlMappingsQueue.foldl (fun connections freshMapping =>
      connections.map fun c =>
        if c.1 = freshMapping.1 then (c.1, c.2.addMapping freshMapping.2) else c)
      m.controlConnections }

theorem map_foldl_eq {α β γ : Type*} {f : List α → β → List α} {g : α → γ}
    (h : ∀ l x, (f l x).map g = l.map g) (xs : List β) (l : List α) :
    (xs.foldl f l).map g = l.map g := by
  induction xs generalizing l with
  | nil => rfl
  | cons x xs ih => exact (ih (f l x)).trans (h l x)

/-- Mappings change no connection. -/
theorem pullMappings_connections (m : Mixer P) :
    (m.pullMappings.controlConnections.map fun c => c.2.connection) =
      m.controlConnections.map fun c => c.2.connection := by
  refine map_foldl_eq (fun l x => ?_) _ _
  rw [List.map_map]
  refine List.map_congr_left fun c _ => ?_
  simp only [Function.comp_apply]
  split <;> rfl

/-- The connections below `connectedInputs`; none when a connector holds no connection. -/
def connections (m : Mixer P) : Option (List (AudioConnection P)) :=
  (List.range m.connectedInputs).mapM m.audioInput

theorem exists_of_mem_mapM {α β : Type*} {f : α → Option β} {l : List α} {r : List β}
    (h : l.mapM f = some r) {y : β} (hy : y ∈ r) : ∃ x ∈ l, f x = some y := by
  induction l generalizing r with
  | nil =>
    cases h
    cases hy
  | cons x rest ih =>
    simp only [List.mapM_cons, Option.bind_eq_bind, Option.pure_def, Option.bind_eq_some_iff,
      Option.some.injEq] at h
    obtain ⟨z, hz, zs, hzs, rfl⟩ := h
    rcases List.mem_cons.mp hy with rfl | hy
    · exact ⟨x, List.mem_cons_self, hz⟩
    · obtain ⟨w, hw, he⟩ := ih hzs hy
      exact ⟨w, List.mem_cons_of_mem _ hw, he⟩

/-- `updateGains` of each control connection in turn. -/
def updateGains (S : Sources P) (frame : ℕ) :
    List (ℕ × MixerControlConnection P) → Gains → List (ℕ × MixerControlConnection P) × Gains
  | [], gain => ([], gain)
  | connection :: rest, gain =>
    let r := connection.2.updateGains (S.getEvents connection.2.connection) frame gain
    let s := updateGains S frame rest r.2
    ((connection.1, r.1) :: s.1, s.2)

def addSample (o frame : ℕ) (x : ℚ) (buffers : ℕ → ℕ → ℚ) : ℕ → ℕ → ℚ :=
  fun o' f => if o' = o ∧ f = frame then buffers o' f + x else buffers o' f

/-- The loops over inputs and outputs: `audio[i][frame]` on each output it has a gain for. -/
def mix (S : Sources P) (audio : List (AudioConnection P)) (frame : ℕ) (m : Mixer P) : Mixer P :=
  { m with
    audioOutput := (List.range m.connectedInputs).foldl (fun buffers i =>
      (List.range m.audioOutputCount).foldl (fun buffers o =>
        match audio[i]? with
        | some conn =>
          if m.gain i o ≠ 0 then addSample o frame (S.getAudio conn frame * m.gain i o) buffers
          else buffers
        | none => buffers) buffers) m.audioOutput }

/-- The mix reads the connections listed only. -/
theorem mix_congr {S S' : Sources P} {audio : List (AudioConnection P)}
    (h : ∀ conn ∈ audio, S.getAudio conn = S'.getAudio conn) (frame : ℕ) (m : Mixer P) :
    mix S audio frame m = mix S' audio frame m := by
  simp only [mix]
  congr 2
  funext buffers i
  congr 1
  funext buffers o
  cases hi : audio[i]? with
  | none => rfl
  | some conn => simp only [h conn (List.mem_of_getElem? hi)]

theorem updateGains_connections (S : Sources P) (frame : ℕ)
    (l : List (ℕ × MixerControlConnection P)) (gain : Gains) :
    ((updateGains S frame l gain).1.map fun c => c.2.connection) =
      l.map fun c => c.2.connection := by
  induction l generalizing gain with
  | nil => rfl
  | cons c l ih =>
    simp only [updateGains, List.map_cons, ih, List.cons.injEq, and_true]
    unfold MixerControlConnection.updateGains
    split <;> rfl

/-- `event = gainEventBuffer.getNextEvent(rolling, pos, nframes)`. -/
def getNextEvent (mul : ℕ → ℕ → ℕ) (rolling : Bool) (pos : JackPosition) (nframes : ℕ)
    (s : MixerPeriod P) : MixerPeriod P :=
  let r := s.mixer.gainEventBuffer.getNextEvent mul rolling pos nframes
  { s with
    mixer := { s.mixer with gainEventBuffer := r.buffer }
    event := r.event
    handedOut := s.handedOut ++ r.event.toList
    dropped := s.dropped ++ r.recycled }

/-- The gain is updated, and the event recycled. -/
def applyEvent (frame : ℕ) (event : MixerGainEvent) (s : MixerPeriod P) : MixerPeriod P :=
  { s with
    mixer := { s.mixer with
      gain := s.mixer.gain.set event.data.input event.data.output event.data.value }
    written := s.written ++ [(frame, event)]
    recycled := s.recycled ++ [event] }

/-- The `while` loop over the scheduled events of one frame. -/
def applyEvents (mul : ℕ → ℕ → ℕ) (rolling : Bool) (pos : JackPosition) (nframes frame : ℕ) :
    ℕ → MixerPeriod P → MixerPeriod P
  | 0, s => s
  | fuel + 1, s =>
    match s.event with
    | none => s
    | some event =>
      if event.frameOffset = frame then
        applyEvents mul rolling pos nframes frame fuel
          (getNextEvent mul rolling pos nframes (applyEvent frame event s))
      else s

/-- The scheduled events change gains only. -/
theorem applyEvents_mixer (mul : ℕ → ℕ → ℕ) (rolling : Bool) (pos : JackPosition)
    (nframes frame fuel : ℕ) (s : MixerPeriod P) :
    ∃ gain gainEventBuffer, (applyEvents mul rolling pos nframes frame fuel s).mixer =
      { s.mixer with gain := gain, gainEventBuffer := gainEventBuffer } := by
  induction fuel generalizing s with
  | zero => exact ⟨_, _, rfl⟩
  | succ fuel ih =>
    unfold applyEvents
    split
    · exact ⟨_, _, rfl⟩
    · split
      · exact ih _
      · exact ⟨_, _, rfl⟩

theorem applyEvents_controlConnections {mul : ℕ → ℕ → ℕ} {rolling : Bool} {pos : JackPosition}
    {nframes frame : ℕ} (fuel : ℕ) (s : MixerPeriod P) :
    (applyEvents mul rolling pos nframes frame fuel s).mixer.controlConnections =
      s.mixer.controlConnections := by
  obtain ⟨_, _, h⟩ := applyEvents_mixer mul rolling pos nframes frame fuel s
  rw [h]

/-- One pass of the loop over frames. -/
def frameStep (mul : ℕ → ℕ → ℕ) (rolling : Bool) (pos : JackPosition) (nframes : ℕ)
    (S : Sources P) (audio : List (AudioConnection P)) (s : MixerPeriod P) (frame : ℕ) :
    MixerPeriod P :=
  let r := updateGains S frame s.mixer.controlConnections s.mixer.gain
  let s := { s with mixer := { s.mixer with controlConnections := r.1, gain := r.2 } }
  let s := applyEvents mul rolling pos nframes frame
    (s.mixer.gainEventBuffer.pending.length + 2) s
  { s with mixer := mix S audio frame s.mixer }

/-- The period up to the loop over frames. -/
def beginPeriod (mul : ℕ → ℕ → ℕ) (rolling : Bool) (pos : JackPosition) (nframes : ℕ)
    (S : Sources P) (m : Mixer P) : MixerPeriod P :=
  getNextEvent mul rolling pos nframes
    { mixer := { m.pullMappings with
        audioOutput := fun _ _ => 0
        controlConnections := m.pullMappings.controlConnections.map fun c =>
          (c.1, c.2.process (S.getEvents c.2.connection)) }
      event := none, handedOut := [], written := [], recycled := [], dropped := [] }

/-- The period, once the sources have been processed; none when a connector below
`connectedInputs` holds no connection and is dereferenced. -/
def doProcess (mul : ℕ → ℕ → ℕ) (rolling : Bool) (pos : JackPosition) (nframes : ℕ)
    (S : Sources P) (m : Mixer P) : Option (MixerPeriod P) :=
  m.connections.map fun audio =>
    (List.range nframes).foldl (frameStep mul rolling pos nframes S audio)
      (m.beginPeriod mul rolling pos nframes S)

def reposition (m : Mixer P) : Mixer P :=
  { m with
    controlConnections := []
    gainEventBuffer := m.gainEventBuffer.recycleRemaining.1
    newControlMappingsQueue := []
    connectedInputs := 0 }

end Mixer

end Bipscript.Audio
