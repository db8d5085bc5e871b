import Bipscript.Connect

/-! What `reposition` and `restore` leave of a mixer's history when it is handed to the next run. -/
namespace Bipscript.Audio

open Transition

/-- A mixer with what the script thread keeps of it: the addresses of its control connections, and
how many have been allocated. -/
structure ScriptMixer (P : Type*) extends Mixer P where
  controlConnectionMap : MidiConnection P → Option ℕ
  allocated : ℕ

variable {P : Type*}

namespace Mixer

/-- The loop `audioInput[connectedInputs++].setConnection(...)`; `refused` is whether the source of
a connection is reached from this mixer. -/
def connectInputs (refused : AudioConnection P → Bool) :
    List (AudioConnection P) → Mixer P → Outcome (Mixer P)
  | [], m => .returned m
  | conn :: rest, m =>
    let i := m.connectedInputs
    let m := { m with connectedInputs := i + 1 }
    if i < m.audioInputCount then
      if refused conn then .thrown m "Cannot connect infinite loop"
      else connectInputs refused rest
        { m with audioInput := fun j => if j = i then some conn else m.audioInput j }
    else .undefined

/-- `connect` with one gain for the outputs of a source. -/
def connect (refused : AudioConnection P → Bool) (connections : List (AudioConnection P))
    (initialGain : ℚ) (m : Mixer P) : Outcome (Mixer P) :=
  if connections.length = 0 then .thrown m "input has no audio outputs"
  else if m.connectedInputs + connections.length > m.audioInputCount then
    .thrown m "not enough inputs available"
  else if m.audioOutputCount = 0 then .undefined -- a remainder by zero
  else connectInputs refused connections
    { m with gain := m.distributeGain connections.length initialGain }

/-- `connect` with an array of gains. -/
def connectGains (refused : AudioConnection P → Bool) (connections : List (AudioConnection P))
    (gainsArray : List ScriptValue) (m : Mixer P) : Outcome (Mixer P) :=
  if gainsArray.length ≠ connections.length then
    .thrown m "gains array has different length than input count"
  else
    match m.arrayGains 0 gainsArray m.gain with
    | .returned gain => connectInputs refused connections { m with gain := gain }
    | .thrown gain what => .thrown { m with gain := gain } what
    | .undefined => .undefined

/-- The checks of `addGainController`. -/
def checkController (cc input output : ℕ) (m : Mixer P) : Except String Unit := do
  if cc = 0 then throw "There is no MIDI control number zero"
  if cc > 127 then throw "MIDI control number cannot be greater than 127"
  m.validateInputChannel input
  m.validateOutputChannel output

end Mixer

namespace ScriptMixer

/-- The constructor. -/
def new (inputs outputs : ℕ) : ScriptMixer P :=
  { Mixer.new inputs outputs with controlConnectionMap := fun _ => none, allocated := 0 }

variable [DecidableEq P]

/-- The control connection that is in the map for a MIDI connection, or a new one. -/
def controlConnection (connection : MidiConnection P) (m : ScriptMixer P) : ℕ × ScriptMixer P :=
  match m.controlConnectionMap connection with
  | some address => (address, m)
  | none =>
    -- push new connection
    (m.allocated, { m with
      controlConnectionMap := Function.update m.controlConnectionMap connection (some m.allocated)
      controlConnections := (m.allocated, ⟨[], connection, 0, 0⟩) :: m.controlConnections
      allocated := m.allocated + 1 })

/-- `addGainController` with its checks passed; `connection` is the source's
`getMidiConnection(0)`. -/
def pushController (connection : MidiConnection P) (cc input output : ℕ) (m : ScriptMixer P) :
    ScriptMixer P :=
  let r := m.controlConnection connection
  { r.2 with newControlMappingsQueue :=
    r.2.newControlMappingsQueue ++ [(r.1, ⟨cc, input - 1, output - 1⟩)] }

def addGainController (connection : MidiConnection P) (cc input output : ℕ) (m : ScriptMixer P) :
    Except String (ScriptMixer P) :=
  (m.toMixer.checkController cc input output).map fun _ =>
    m.pushController connection cc input output

def restore (m : ScriptMixer P) : ScriptMixer P :=
  { m with controlConnectionMap := fun _ => none }

def reposition (m : ScriptMixer P) : ScriptMixer P := { m with toMixer := m.toMixer.reposition }

end ScriptMixer

/-- The calls made on a mixer. -/
inductive MixerCall (P : Type*)
  | connect (refused : AudioConnection P → Bool) (connections : List (AudioConnection P))
      (initialGain : ℚ)
  | connectGains (refused : AudioConnection P → Bool) (connections : List (AudioConnection P))
      (gainsArray : List ScriptValue)
  | addGainController (connection : MidiConnection P) (cc input output : ℕ)
  | scheduleGain (input output : ℕ) (gain : ℚ) (bar position division : ℕ)
  | doProcess (rolling : Bool) (pos : JackPosition) (nframes : ℕ) (S : Sources P)
  | reposition
  | restore

namespace ScriptMixer

variable [DecidableEq P]

/-- The capacity of `newControlMappingsQueue`. -/
def MAPPINGS : ℕ := 16

/-- A call returns or throws. A push to a full queue is tried until the process thread has made
room, so that it ends in a queue that holds what was pushed. -/
inductive Step : ScriptMixer P → MixerCall P → ScriptMixer P → Prop
  | connect {m : ScriptMixer P} {refused connections initialGain t}
      (h : (m.toMixer.connect refused connections initialGain).Ends t) :
      Step m (.connect refused connections initialGain) { m with toMixer := t }
  | connectGains {m : ScriptMixer P} {refused connections gainsArray t}
      (h : (m.toMixer.connectGains refused connections gainsArray).Ends t) :
      Step m (.connectGains refused connections gainsArray) { m with toMixer := t }
  | addGainController {m t : ScriptMixer P} {connection cc input output}
      (h : m.addGainController connection cc input output = .ok t)
      (hroom : t.newControlMappingsQueue.length ≤ MAPPINGS) :
      Step m (.addGainController connection cc input output) t
  | addGainControllerThrows {m : ScriptMixer P} {connection cc input output what}
      (h : m.addGainController connection cc input output = .error what) :
      Step m (.addGainController connection cc input output) m
  | scheduleGain {m : ScriptMixer P} {input output gain bar position division evt b}
      (h : m.scheduleGain input output gain bar position division = .ok evt)
      (hadd : m.gainEventBuffer.addEvent evt = some b) :
      Step m (.scheduleGain input output gain bar position division)
        { m with gainEventBuffer := b }
  | scheduleGainThrows {m : ScriptMixer P} {input output gain bar position division what}
      (h : m.scheduleGain input output gain bar position division = .error what) :
      Step m (.scheduleGain input output gain bar position division) m
  | doProcess {m : ScriptMixer P} {rolling pos nframes S period}
      (h : m.toMixer.doProcess mul32 rolling pos nframes S = some period) :
      Step m (.doProcess rolling pos nframes S) { m with toMixer := period.mixer }
  | reposition {m : ScriptMixer P} : Step m .reposition m.reposition
  | restore {m : ScriptMixer P} : Step m .restore m.restore

/-- What no call changes. -/
def SameShape (m t : Mixer P) : Prop :=
  t.audioInputCount = m.audioInputCount ∧ t.audioOutputCount = m.audioOutputCount

omit [DecidableEq P] in
theorem sameShape_connectInputs {refused : AudioConnection P → Bool}
    {connections : List (AudioConnection P)} {m t : Mixer P}
    (h : (m.connectInputs refused connections).Ends t) : SameShape m t := by
  induction connections generalizing m with
  | nil =>
    cases h
    exact ⟨rfl, rfl⟩
  | cons conn rest ih =>
    simp only [Mixer.connectInputs] at h
    split at h
    · split at h
      · cases h
        exact ⟨rfl, rfl⟩
      · have hrest := ih h
        exact hrest
    · cases h

omit [DecidableEq P] in
theorem sameShape_connect {refused : AudioConnection P → Bool}
    {connections : List (AudioConnection P)} {initialGain : ℚ} {m t : Mixer P}
    (h : (m.connect refused connections initialGain).Ends t) : SameShape m t := by
  unfold Mixer.connect at h
  split at h
  · cases h
    exact ⟨rfl, rfl⟩
  · split at h
    · cases h
      exact ⟨rfl, rfl⟩
    · split at h
      · cases h
      · have hrest := sameShape_connectInputs h
        exact hrest

omit [DecidableEq P] in
theorem sameShape_connectGains {refused : AudioConnection P → Bool}
    {connections : List (AudioConnection P)} {gainsArray : List ScriptValue} {m t : Mixer P}
    (h : (m.connectGains refused connections gainsArray).Ends t) : SameShape m t := by
  unfold Mixer.connectGains at h
  split at h
  · cases h
    exact ⟨rfl, rfl⟩
  · split at h
    · have hrest := sameShape_connectInputs h
      exact hrest
    · cases h
      exact ⟨rfl, rfl⟩
    · cases h

theorem sameShape_addGainController {connection : MidiConnection P} {cc input output : ℕ}
    {m t : ScriptMixer P} (h : m.addGainController connection cc input output = .ok t) :
    SameShape m.toMixer t.toMixer := by
  unfold addGainController at h
  cases hc : m.checkController cc input output with
  | error what =>
    rw [hc] at h
    cases h
  | ok u =>
    rw [hc] at h
    cases h
    unfold pushController controlConnection
    split <;> exact ⟨rfl, rfl⟩

section Period

variable {mul : ℕ → ℕ → ℕ} {rolling : Bool} {pos : JackPosition} {nframes : ℕ} {S : Sources P}

omit [DecidableEq P] in
theorem sameShape_applyEvents (frame fuel : ℕ) (s : MixerPeriod P) :
    SameShape s.mixer (Mixer.applyEvents mul rolling pos nframes frame fuel s).mixer := by
  induction fuel generalizing s with
  | zero => exact ⟨rfl, rfl⟩
  | succ fuel ih =>
    unfold Mixer.applyEvents
    split
    · exact ⟨rfl, rfl⟩
    · split
      · exact ih (Mixer.getNextEvent mul rolling pos nframes (Mixer.applyEvent frame _ s))
      · exact ⟨rfl, rfl⟩

omit [DecidableEq P] in
theorem sameShape_doProcess {m : Mixer P} {period : MixerPeriod P}
    (h : m.doProcess mul rolling pos nframes S = some period) : SameShape m period.mixer := by
  obtain ⟨audio, -, rfl⟩ := Option.map_eq_some_iff.mp h
  have hframes : ∀ (frames : List ℕ) (s : MixerPeriod P), SameShape s.mixer
      (frames.foldl (Mixer.frameStep mul rolling pos nframes S audio) s).mixer := by
    intro frames
    induction frames with
    | nil => exact fun s => ⟨rfl, rfl⟩
    | cons frame rest ih =>
      intro s
      have hframe : SameShape s.mixer
          (Mixer.frameStep mul rolling pos nframes S audio s frame).mixer :=
        sameShape_applyEvents frame _ _
      have hrest := ih (Mixer.frameStep mul rolling pos nframes S audio s frame)
      exact ⟨hrest.1.trans hframe.1, hrest.2.trans hframe.2⟩
  exact hframes _ (m.beginPeriod mul rolling pos nframes S)

end Period

theorem sameShape_step {m t : ScriptMixer P} {c : MixerCall P} (h : Step m c t) :
    SameShape m.toMixer t.toMixer := by
  cases h with
  | connect h => exact sameShape_connect h
  | connectGains h => exact sameShape_connectGains h
  | addGainController h hroom => exact sameShape_addGainController h
  | addGainControllerThrows h => exact ⟨rfl, rfl⟩
  | scheduleGain h hadd => exact ⟨rfl, rfl⟩
  | scheduleGainThrows h => exact ⟨rfl, rfl⟩
  | doProcess h => exact sameShape_doProcess h
  | reposition => exact ⟨rfl, rfl⟩
  | restore => exact ⟨rfl, rfl⟩

/-- A mixer that a new one of its shape cannot be told from by the script or in the mix. -/
structure AsNew (inputs outputs : ℕ) (m : ScriptMixer P) : Prop where
  inputCount : m.audioInputCount = inputs
  outputCount : m.audioOutputCount = outputs
  connectedInputs : m.connectedInputs = 0
  gain : ∀ i < inputs, ∀ o < outputs, m.gain i o = 0
  gainEvents : m.gainEventBuffer = .empty
  controlConnections : m.controlConnections = []
  mappings : m.newControlMappingsQueue = []
  map : ∀ connection, m.controlConnectionMap connection = none

/-- After any history `reposition` and `restore` leave a mixer as new iff its gains were all zero:
of what the calls touch, they forget the gain matrix alone. -/
theorem reused_asNew_iff {inputs outputs : ℕ} {calls : List (MixerCall P)} {m : ScriptMixer P}
    (h : Run Step (new inputs outputs) calls m) :
    AsNew inputs outputs m.reposition.restore ↔ ∀ i < inputs, ∀ o < outputs, m.gain i o = 0 := by
  have hshape : m.audioInputCount = inputs ∧ m.audioOutputCount = outputs := by
    have hinv := h.invariant (I := fun t : ScriptMixer P =>
      t.audioInputCount = inputs ∧ t.audioOutputCount = outputs)
    apply hinv _ ⟨rfl, rfl⟩
    rintro s c t hstep ⟨hin, hout⟩
    obtain ⟨hin', hout'⟩ := sameShape_step hstep
    exact ⟨hin'.trans hin, hout'.trans hout⟩
  constructor
  · exact fun hnew => hnew.gain
  · intro hgain
    exact ⟨hshape.1, hshape.2, rfl, hgain, rfl, rfl, rfl, fun _ => rfl⟩

/-- A number, or an array of numbers, all of them zero. -/
def Zeros : ScriptValue → Prop
  | .array values => ∀ val ∈ values, ∀ x, val.number? = some x → x = 0
  | val => ∀ x, val.number? = some x → x = 0

/-- A control change that gives no cell a gain: to zero, or on a controller that no mapping has. -/
def Mute (mappings : List MixerControlMapping) (e : Midi.Event) : Prop :=
  Midi.matchesType e Midi.TYPE_CONTROL = true →
    e.data.databyte2 = 0 ∨ ∀ mapping ∈ mappings, mapping.cc ≠ e.data.databyte1.toNat

/-- A gain change that is to zero, or not due in the period. -/
def Idle (rolling : Bool) (pos : JackPosition) (nframes : ℕ) (e : MixerGainEvent) : Prop :=
  e.data.value = 0 ∨
    e.getBar ≠ 0 ∧ (rolling = false ∨ e.frame pos < -256 ∨ (nframes : ℤ) ≤ e.frame pos)

/-- A call that gives no cell a gain. -/
def Silent (m : ScriptMixer P) : MixerCall P → Prop
  | .connect _ connections initialGain =>
    initialGain = 0 ∨ connections.length = 0 ∨
      m.connectedInputs + connections.length > m.audioInputCount
  | .connectGains _ connections gainsArray =>
    (∀ val ∈ gainsArray, Zeros val) ∨ gainsArray.length ≠ connections.length
  | .doProcess rolling pos nframes S =>
    (∀ e ∈ m.gainEventBuffer.pending, Idle rolling pos nframes e) ∧
    ∀ c ∈ m.pullMappings.controlConnections, ∀ e ∈ S.getEvents c.2.connection, Mute c.2.mappings e
  | .addGainController .. | .scheduleGain .. | .reposition | .restore => True

/-- All gains are zero. -/
def Quiet (m : Mixer P) : Prop := ∀ i o, m.gain i o = 0

theorem set_zero {gain : Gains} (h : ∀ i o, gain i o = 0) (input output : ℕ) :
    ∀ i o, gain.set input output 0 i o = 0 := by
  intro i o
  unfold Gains.set
  split
  · rfl
  · exact h i o

omit [DecidableEq P] in
theorem rowGains_zero {m : Mixer P} {input j : ℕ} {values : List ScriptValue} {gain gain' : Gains}
    (hv : ∀ val ∈ values, ∀ x, val.number? = some x → x = 0) (h : ∀ i o, gain i o = 0)
    (he : (m.rowGains input j values gain).Ends gain') : ∀ i o, gain' i o = 0 := by
  induction values generalizing j gain with
  | nil =>
    cases he
    exact h
  | cons val rest ih =>
    simp only [Mixer.rowGains] at he
    split at he
    · rename_i x hx
      obtain rfl := hv val List.mem_cons_self x hx
      split at he
      · exact ih (fun v hmem => hv v (List.mem_cons_of_mem _ hmem)) (set_zero h input j) he
      · cases he
    · cases he
      exact h

omit [DecidableEq P] in
theorem arrayGains_zero {m : Mixer P} {i : ℕ} {gainsArray : List ScriptValue} {gain gain' : Gains}
    (hv : ∀ val ∈ gainsArray, Zeros val) (h : ∀ i o, gain i o = 0)
    (he : (m.arrayGains i gainsArray gain).Ends gain') : ∀ i o, gain' i o = 0 := by
  induction gainsArray generalizing i gain with
  | nil =>
    cases he
    exact h
  | cons val rest ih =>
    have hval := hv val List.mem_cons_self
    -- a row leaves zeros, so the rows after it start from zeros
    have hthen : ∀ row : Outcome Gains, (∀ g, row.Ends g → ∀ i o, g i o = 0) →
        (row.andThen (m.arrayGains (i + 1) rest)).Ends gain' → ∀ i o, gain' i o = 0 := by
      intro row hrow hends
      rcases Outcome.ends_andThen hends with hends | ⟨g, hg, hends⟩
      · exact hrow gain' hends
      · exact ih (fun v hmem => hv v (List.mem_cons_of_mem val hmem)) (hrow g hg) hends
    have hthrown : ∀ what g, (Outcome.thrown gain what).Ends g → ∀ i o, g i o = 0 := by
      intro what g hg
      cases hg
      exact h
    have hnumber : (∀ x, val.number? = some x → x = 0) → ∀ g,
        (m.rowGains (m.connectedInputs + i) 0 (List.replicate m.audioOutputCount val) gain).Ends g →
        ∀ i o, g i o = 0 := by
      intro hzero g hg
      refine rowGains_zero (fun v hmem => ?_) h hg
      rw [List.eq_of_mem_replicate hmem]
      exact hzero
    cases val with
    | array values =>
      simp only [Mixer.arrayGains] at he
      split at he
      · exact hthen _ (hthrown _) he
      · exact hthen _ (fun g hg => rowGains_zero hval h hg) he
    | integer value => exact hthen _ (hnumber hval) he
    | float value => exact hthen _ (hnumber hval) he
    | other => exact hthen _ (hthrown _) he

omit [DecidableEq P] in
theorem distributeGain_zero {m : Mixer P} (n : ℕ) (h : ∀ i o, m.gain i o = 0) :
    ∀ i o, m.distributeGain n 0 i o = 0 := by
  have hfold : ∀ (counters : List ℕ) (gain : Gains), (∀ i o, gain i o = 0) →
      ∀ i o, counters.foldl (fun gain counter => gain.set (m.connectedInputs + counter % n)
        (counter % m.audioOutputCount) 0) gain i o = 0 := by
    intro counters
    induction counters with
    | nil => exact fun gain hg => hg
    | cons counter rest ih => exact fun gain hg => ih _ (set_zero hg _ _)
  exact hfold _ m.gain h

omit [DecidableEq P] in
/-- The loop over connections touches neither gains, events nor controllers. -/
theorem quiet_connectInputs {refused : AudioConnection P → Bool}
    {connections : List (AudioConnection P)} {m t : Mixer P} (hm : Quiet m)
    (h : (m.connectInputs refused connections).Ends t) : Quiet t := by
  induction connections generalizing m with
  | nil =>
    cases h
    exact hm
  | cons conn rest ih =>
    simp only [Mixer.connectInputs] at h
    split at h
    · split at h
      · cases h
        exact hm
      · refine ih ?_ h
        exact hm
    · cases h

omit [DecidableEq P] in
theorem quiet_connect {refused : AudioConnection P → Bool}
    {connections : List (AudioConnection P)} {initialGain : ℚ} {m t : Mixer P} (hm : Quiet m)
    (hzero : initialGain = 0 ∨ connections.length = 0 ∨
      m.connectedInputs + connections.length > m.audioInputCount)
    (h : (m.connect refused connections initialGain).Ends t) : Quiet t := by
  unfold Mixer.connect at h
  split at h
  · cases h
    exact hm
  · rename_i hempty
    split at h
    · cases h
      exact hm
    · rename_i hroom
      split at h
      · cases h
      · obtain rfl : initialGain = 0 := by
          rcases hzero with hzero | hzero | hzero
          · exact hzero
          · exact absurd hzero hempty
          · exact absurd hzero hroom
        refine quiet_connectInputs ?_ h
        exact distributeGain_zero _ hm

omit [DecidableEq P] in
theorem quiet_connectGains {refused : AudioConnection P → Bool}
    {connections : List (AudioConnection P)} {gainsArray : List ScriptValue} {m t : Mixer P}
    (hm : Quiet m)
    (hzero : (∀ val ∈ gainsArray, Zeros val) ∨ gainsArray.length ≠ connections.length)
    (h : (m.connectGains refused connections gainsArray).Ends t) : Quiet t := by
  unfold Mixer.connectGains at h
  split at h
  · cases h
    exact hm
  · rename_i hlength
    have hv := hzero.resolve_right hlength
    cases hg : m.arrayGains 0 gainsArray m.gain with
    | returned gain =>
      rw [hg] at h
      refine quiet_connectInputs ?_ h
      exact arrayGains_zero hv hm (hg ▸ Outcome.Ends.returned gain)
    | thrown gain what =>
      rw [hg] at h
      cases h
      exact arrayGains_zero hv hm (hg ▸ Outcome.Ends.thrown gain what)
    | undefined =>
      rw [hg] at h
      cases h

theorem applyMappings_zero {mappings : List MixerControlMapping} {gain : Gains} {e : Midi.Event}
    (he : Mute mappings e) (h : ∀ i o, gain i o = 0) :
    ∀ i o, applyMappings mappings gain e i o = 0 := by
  intro i o
  unfold applyMappings
  split
  · rename_i htype
    rw [MixerControlConnection.foldl_mappings]
    split
    · rename_i hmapped
      obtain ⟨mapping, hmem, hcc, -⟩ := hmapped
      rcases he htype with hvalue | hnone
      · simp [hvalue]
      · exact absurd hcc (hnone mapping hmem)
    · exact h i o
  · exact h i o

theorem pull_zero {mappings : List MixerControlMapping} {events : List Midi.Event}
    {eventCount frame fuel eventIndex : ℕ} {nextEvent : Option Midi.Event} {gain : Gains}
    (hevents : ∀ e ∈ events, Mute mappings e) (hnext : ∀ e ∈ nextEvent, Mute mappings e)
    (h : ∀ i o, gain i o = 0) :
    ∀ i o, (MixerControlConnection.pull mappings events eventCount frame fuel nextEvent eventIndex
      gain).2 i o = 0 := by
  induction fuel generalizing nextEvent eventIndex gain with
  | zero => exact h
  | succ fuel ih =>
    cases nextEvent with
    | none => exact h
    | some e =>
      have happlied := applyMappings_zero (hnext e rfl) h
      unfold MixerControlConnection.pull
      split
      · split
        · refine ih (fun x hx => hevents x ?_) happlied
          exact List.mem_of_getElem? hx
        · exact ih (fun x hx => by cases hx) happlied
      · exact h

omit [DecidableEq P] in
/-- Controllers whose messages are mute set gains to zero at most. -/
theorem updateGains_zero {S : Sources P} (frame : ℕ) {l : List (ℕ × MixerControlConnection P)}
    {gain : Gains}
    (hl : ∀ c ∈ l, ∀ e ∈ S.getEvents c.2.connection, Mute c.2.mappings e)
    (h : ∀ i o, gain i o = 0) :
    (∀ i o, (Mixer.updateGains S frame l gain).2 i o = 0) ∧
      ∀ c ∈ (Mixer.updateGains S frame l gain).1,
        ∀ e ∈ S.getEvents c.2.connection, Mute c.2.mappings e := by
  induction l generalizing gain with
  | nil => exact ⟨h, nofun⟩
  | cons c rest ih =>
    obtain ⟨hc, hrest⟩ := List.forall_mem_cons.mp hl
    let r := c.2.updateGains (S.getEvents c.2.connection) frame gain
    have hr : (∀ i o, r.2 i o = 0) ∧ r.1.connection = c.2.connection ∧
        r.1.mappings = c.2.mappings := by
      simp only [r, MixerControlConnection.updateGains]
      split
      · refine ⟨pull_zero hc (fun e he => hc e ?_) h, rfl, rfl⟩
        exact List.mem_of_getElem? he
      · exact ⟨h, rfl, rfl⟩
    obtain ⟨hgain, hconnection, hmappings⟩ := hr
    obtain ⟨hgains, hrest⟩ := ih hrest hgain
    refine ⟨hgains, List.forall_mem_cons.mpr ⟨?_, hrest⟩⟩
    change ∀ e ∈ S.getEvents r.1.connection, Mute r.1.mappings e
    rwa [hconnection, hmappings]

section Period

variable {mul : ℕ → ℕ → ℕ} {rolling : Bool} {pos : JackPosition} {nframes : ℕ} {S : Sources P}

/-- During a period: the event held, if any, is a change to zero, and so are those still to be
handed out. -/
structure QuietPeriod (rolling : Bool) (pos : JackPosition) (nframes : ℕ) (S : Sources P)
    (s : MixerPeriod P) : Prop where
  quiet : Quiet s.mixer
  idle : ∀ e ∈ s.mixer.gainEventBuffer.pending, Idle rolling pos nframes e
  mute : ∀ c ∈ s.mixer.controlConnections, ∀ e ∈ S.getEvents c.2.connection, Mute c.2.mappings e
  event : ∀ e ∈ s.event, e.data.value = 0

omit [DecidableEq P] in
theorem quiet_getNextEvent {s : MixerPeriod P} (hs : Quiet s.mixer)
    (hidle : ∀ e ∈ s.mixer.gainEventBuffer.pending, Idle rolling pos nframes e)
    (hmute : ∀ c ∈ s.mixer.controlConnections,
      ∀ e ∈ S.getEvents c.2.connection, Mute c.2.mappings e) :
    QuietPeriod rolling pos nframes S (Mixer.getNextEvent mul rolling pos nframes s) := by
  refine ⟨hs, ?_, hmute, ?_⟩
  · intro e he
    obtain ⟨y, hy, hpos, hdata⟩ := EventBuffer.mem_getNextEvent he
    have hidle' := hidle y hy
    unfold Idle Event.frame Event.getBar at hidle' ⊢
    rwa [hpos, hdata]
  · intro e he
    obtain ⟨y, hy, hpos, hdata⟩ := EventBuffer.event_of_getNextEvent he
    rcases hidle y hy with hzero | ⟨hbar, hidle'⟩
    · rw [hdata]
      exact hzero
    · -- it would not have been handed out
      exfalso
      have hbar' : e.getBar ≠ 0 := by
        unfold Event.getBar at hbar ⊢
        rwa [hpos]
      obtain ⟨hrolling, -, hlate, hdue⟩ := EventBuffer.due_of_getNextEvent hbar' he
      have hframe : e.frame pos = y.frame pos := by simp only [Event.frame, hpos]
      rw [hframe] at hlate hdue
      rcases hidle' with hstopped | hpast | hahead
      · rw [hrolling] at hstopped
        cases hstopped
      · exact absurd hpast (not_lt.mpr hlate)
      · exact absurd hdue (not_lt.mpr hahead)

variable (mul) in
omit [DecidableEq P] in
theorem quiet_applyEvents (frame fuel : ℕ) {s : MixerPeriod P}
    (hs : QuietPeriod rolling pos nframes S s) :
    QuietPeriod rolling pos nframes S
      (Mixer.applyEvents mul rolling pos nframes frame fuel s) := by
  induction fuel generalizing s with
  | zero => exact hs
  | succ fuel ih =>
    cases he : s.event with
    | none => simpa only [Mixer.applyEvents, he] using hs
    | some event =>
      simp only [Mixer.applyEvents, he]
      split
      · apply ih
        refine quiet_getNextEvent ?_ hs.idle hs.mute
        have hzero : event.data.value = 0 := hs.event event he
        simp only [Quiet, Mixer.applyEvent, hzero]
        exact set_zero hs.quiet _ _
      · exact hs

omit [DecidableEq P] in
theorem quiet_frameStep (audio : List (AudioConnection P)) (frame : ℕ) {s : MixerPeriod P}
    (hs : QuietPeriod rolling pos nframes S s) :
    QuietPeriod rolling pos nframes S
      (Mixer.frameStep mul rolling pos nframes S audio s frame) := by
  obtain ⟨hgain, hmute⟩ := updateGains_zero frame hs.mute hs.quiet
  have happlied := quiet_applyEvents mul frame
    (s.mixer.gainEventBuffer.pending.length + 2)
    (s := { s with mixer := { s.mixer with
      controlConnections := (Mixer.updateGains S frame s.mixer.controlConnections s.mixer.gain).1
      gain := (Mixer.updateGains S frame s.mixer.controlConnections s.mixer.gain).2 } })
    ⟨hgain, hs.idle, hmute, hs.event⟩
  exact ⟨happlied.quiet, happlied.idle, happlied.mute, happlied.event⟩

omit [DecidableEq P] in
theorem quiet_doProcess {m : Mixer P} {period : MixerPeriod P} (hm : Quiet m)
    (hidle : ∀ e ∈ m.gainEventBuffer.pending, Idle rolling pos nframes e)
    (hmute : ∀ c ∈ m.pullMappings.controlConnections,
      ∀ e ∈ S.getEvents c.2.connection, Mute c.2.mappings e)
    (h : m.doProcess mul rolling pos nframes S = some period) : Quiet period.mixer := by
  obtain ⟨audio, -, rfl⟩ := Option.map_eq_some_iff.mp h
  have hbegin : QuietPeriod rolling pos nframes S (m.beginPeriod mul rolling pos nframes S) := by
    refine quiet_getNextEvent hm hidle ?_
    intro c hc
    obtain ⟨d, hd, rfl⟩ := List.mem_map.mp hc
    exact hmute d hd
  have hframes : ∀ (frames : List ℕ) (s : MixerPeriod P), QuietPeriod rolling pos nframes S s →
      QuietPeriod rolling pos nframes S
        (frames.foldl (Mixer.frameStep mul rolling pos nframes S audio) s) := by
    intro frames
    induction frames with
    | nil => exact fun s hs => hs
    | cons frame rest ih => exact fun s hs => ih _ (quiet_frameStep audio frame hs)
  exact (hframes _ _ hbegin).quiet

end Period

theorem quiet_addGainController {connection : MidiConnection P} {cc input output : ℕ}
    {m t : ScriptMixer P} (hm : Quiet m.toMixer)
    (h : m.addGainController connection cc input output = .ok t) : Quiet t.toMixer := by
  unfold addGainController at h
  cases hc : m.checkController cc input output with
  | error what =>
    rw [hc] at h
    cases h
  | ok u =>
    rw [hc] at h
    cases h
    unfold pushController controlConnection
    split <;> exact hm

theorem quiet_step {m t : ScriptMixer P} {c : MixerCall P} (hm : Quiet m.toMixer)
    (hc : Silent m c) (h : Step m c t) : Quiet t.toMixer := by
  cases h with
  | connect h => exact quiet_connect hm hc h
  | connectGains h => exact quiet_connectGains hm hc h
  | addGainController h hroom => exact quiet_addGainController hm h
  | addGainControllerThrows h => exact hm
  | scheduleGain h hadd => exact hm
  | scheduleGainThrows h => exact hm
  | doProcess h => exact quiet_doProcess hm hc.1 hc.2 h
  | reposition => exact hm
  | restore => exact hm

/-- After calls that give no cell a gain a mixer is as new, however it has been used. -/
theorem reused_asNew {inputs outputs : ℕ} {calls : List (MixerCall P)} {m : ScriptMixer P}
    (h : Run (restrict Silent Step) (new inputs outputs) calls m) :
    AsNew inputs outputs m.reposition.restore := by
  have hnew : Quiet (new inputs outputs : ScriptMixer P).toMixer := fun _ _ => rfl
  have hquiet : Quiet m.toMixer :=
    h.invariant_restrict (I := fun t : ScriptMixer P => Quiet t.toMixer) quiet_step hnew
  exact (reused_asNew_iff h.of_restrict).mpr fun i _ o _ => hquiet i o

/-- A source of one output, connected with gain 1 to a mixer of one input and one output. -/
def connectOne : MixerCall Unit := .connect (fun _ => false) [⟨(), 0⟩] 1

/-- The mixer after that call. -/
def connectedOne : ScriptMixer Unit :=
  { (new 1 1 : ScriptMixer Unit) with
    gain := Gains.set (fun _ _ => 0) 0 0 1
    connectedInputs := 1
    audioInput := fun j => if j = 0 then some ⟨(), 0⟩ else none }

theorem run_connectOne : Run Step (new 1 1) [connectOne] connectedOne := by
  apply Run.single
  exact .connect (.returned _)

/-- A control change to zero on the controller mapped. -/
def turnedDown : Sources Unit := ⟨fun _ _ => 0, fun _ => [MixerControlConnection.controlAt 3 0]⟩

/-- A source connected with gain 0, a controller, a gain change for bar 5 and a period in bar 1. -/
def usedCalls : List (MixerCall Unit) :=
  [.connect (fun _ => false) [⟨(), 0⟩] 0, .addGainController ⟨(), 0⟩ 7 1 1,
    .scheduleGain 1 1 (1 / 2) 5 0 1, .doProcess true barOne.toJackPosition 64 turnedDown]

theorem run_usedCalls :
    ∃ m, Run (restrict Silent Step) (new 1 1 : ScriptMixer Unit) usedCalls m ∧
      m.connectedInputs = 1 ∧ m.controlConnections.length = 1 ∧
        m.gainEventBuffer.pending.length = 1 := by
  refine ⟨_, .stepL ⟨Or.inl rfl, .connect (.returned _)⟩
    (.stepL ⟨trivial, .addGainController rfl (by decide)⟩
      (.stepL ⟨trivial, .scheduleGain rfl rfl⟩
        (.stepL ⟨⟨?_, ?_⟩, .doProcess rfl⟩ .refl))), ?_, ?_, ?_⟩
  · intro e he
    refine Or.inr ?_
    revert e
    decide +kernel
  · intro c hc e he hcontrol
    obtain rfl := List.mem_singleton.mp he
    exact Or.inl rfl
  · decide +kernel
  · decide +kernel
  · decide +kernel

/-- It has a connection, a controller and a gain change waiting, and comes back as new. -/
theorem reused_asNew_used :
    ∃ m, Run (restrict Silent Step) (new 1 1 : ScriptMixer Unit) usedCalls m ∧
      m.connectedInputs = 1 ∧ m.controlConnections.length = 1 ∧
      m.gainEventBuffer.pending.length = 1 ∧ AsNew 1 1 m.reposition.restore := by
  obtain ⟨m, hrun, hinputs, hcontrols, hevents⟩ := run_usedCalls
  exact ⟨m, hrun, hinputs, hcontrols, hevents, reused_asNew hrun⟩

/-- The gain of the connection is still there for the next run. -/
theorem reused_keeps_gain :
    Run Step (new 1 1) [connectOne] connectedOne ∧
      ¬ AsNew 1 1 connectedOne.reposition.restore := by
  refine ⟨run_connectOne, fun hnew => ?_⟩
  have hgain := hnew.gain 0 (by decide) 0 (by decide)
  change Gains.set (fun _ _ => 0) 0 0 1 0 0 = 0 at hgain
  rw [Gains.set_same] at hgain
  exact one_ne_zero hgain

end ScriptMixer

end Bipscript.Audio
