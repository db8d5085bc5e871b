import Bipscript.Library.Run
import Mathlib.Logic.Function.Basic
import Mathlib.Data.List.Basic

/-! Control connections and the mappings on their way to them, over the steps of both threads. -/
namespace Bipscript.Controllers

open Transition

/-- The two classes that take controllers. Only a mixer's `reposition` empties its mapping queue. -/
inductive Owner
  | mixer | plugin
deriving DecidableEq

/-- Where the script thread is: between calls, or in `addController` or `addGainController` with a
new connection or its mapping to push. -/
inductive ScriptPC (M : Type*)
  | idle
  | adding (connection : ℕ) (mapping : M)
  | pushing (connection : ℕ) (mapping : M)

/-- Where the process thread is: in `doProcess`, popping mappings or in `getFirst`, or in
`reposition`, in `getFirst`, recycling connections or dropping mappings. -/
inductive ProcessPC
  | idle
  | pulling | fetching
  | collecting | recycling | discarding
deriving DecidableEq

/-- `K` are the MIDI connections that the map is keyed by, `M` what a mapping holds besides its
connection. A connection is numbered when it is allocated; `freshConnections` is the queue of the
list of connections, `mappings` are those that each connection has been given. -/
structure State (K M : Type*) where
  script : ScriptPC M
  process : ProcessPC
  controlConnectionMap : K → Option ℕ
  freshConnections : List ℕ
  controlConnections : List ℕ
  mappings : ℕ → List M
  newControlMappingsQueue : List (ℕ × M)
  recycled : List ℕ
  allocated : ℕ

inductive Act (K M : Type*)
  | addController (key : K) (mapping : M)
  | pushConnection | pushMapping | restore
  | doProcess | popMapping | popped | fetch | fetched
  | reposition | collect | collected | recycle | recycledAll | discard | discarded

/-- The capacities of the two queues. -/
def CONNECTIONS : ℕ := 4
def MAPPINGS : ℕ := 16

variable {K M : Type*} [DecidableEq K]

/-- The steps of both threads. A push to a full queue is tried again, so it is not a step. -/
inductive Step (o : Owner) : State K M → Act K M → State K M → Prop
  /-- the checks passed, and there is a connection under the key -/
  | found {s : State K M} {key : K} {mapping : M} {c : ℕ} (hs : s.script = .idle)
      (hc : s.controlConnectionMap key = some c) :
      Step o s (.addController key mapping) { s with script := .pushing c mapping }
  | notFound {s : State K M} {key : K} {mapping : M} (hs : s.script = .idle)
      (hc : s.controlConnectionMap key = none) :
      Step o s (.addController key mapping) { s with
        script := .adding s.allocated mapping
        controlConnectionMap := Function.update s.controlConnectionMap key (some s.allocated)
        allocated := s.allocated + 1 }
  | pushConnection {s : State K M} {c : ℕ} {mapping : M} (hs : s.script = .adding c mapping)
      (hroom : s.freshConnections.length < CONNECTIONS) :
      Step o s .pushConnection { s with
        script := .pushing c mapping, freshConnections := s.freshConnections ++ [c] }
  | pushMapping {s : State K M} {c : ℕ} {mapping : M} (hs : s.script = .pushing c mapping)
      (hroom : s.newControlMappingsQueue.length < MAPPINGS) :
      Step o s .pushMapping { s with
        script := .idle
        newControlMappingsQueue := s.newControlMappingsQueue ++ [(c, mapping)] }
  | restore {s : State K M} (hs : s.script = .idle) :
      Step o s .restore { s with controlConnectionMap := fun _ => none }
  | doProcess {s : State K M} (hp : s.process = .idle) :
      Step o s .doProcess { s with process := .pulling }
  | popMapping {s : State K M} {c : ℕ} {mapping : M} {rest : List (ℕ × M)}
      (hp : s.process = .pulling) (hq : s.newControlMappingsQueue = (c, mapping) :: rest) :
      Step o s .popMapping { s with
        newControlMappingsQueue := rest
        mappings := Function.update s.mappings c (mapping :: s.mappings c) }
  | popped {s : State K M} (hp : s.process = .pulling) (hq : s.newControlMappingsQueue = []) :
      Step o s .popped { s with process := .fetching }
  | fetch {s : State K M} {c : ℕ} {rest : List ℕ} (hp : s.process = .fetching)
      (hq : s.freshConnections = c :: rest) :
      Step o s .fetch { s with
        freshConnections := rest, controlConnections := c :: s.controlConnections }
  | fetched {s : State K M} (hp : s.process = .fetching) (hq : s.freshConnections = []) :
      Step o s .fetched { s with process := .idle }
  | reposition {s : State K M} (hp : s.process = .idle) :
      Step o s .reposition { s with process := .collecting }
  | collect {s : State K M} {c : ℕ} {rest : List ℕ} (hp : s.process = .collecting)
      (hq : s.freshConnections = c :: rest) :
      Step o s .collect { s with
        freshConnections := rest, controlConnections := c :: s.controlConnections }
  | collected {s : State K M} (hp : s.process = .collecting) (hq : s.freshConnections = []) :
      Step o s .collected { s with process := .recycling }
  | recycle {s : State K M} {c : ℕ} {rest : List ℕ} (hp : s.process = .recycling)
      (hl : s.controlConnections = c :: rest) :
      Step o s .recycle { s with
        controlConnections := rest
        mappings := Function.update s.mappings c []
        recycled := c :: s.recycled }
  | recycledAll {s : State K M} (hp : s.process = .recycling) (hl : s.controlConnections = []) :
      Step o s .recycledAll { s with
        process := match o with
          | .mixer => .discarding
          | .plugin => .idle }
  | discard {s : State K M} {e : ℕ × M} {rest : List (ℕ × M)} (hp : s.process = .discarding)
      (hq : s.newControlMappingsQueue = e :: rest) :
      Step o s .discard { s with newControlMappingsQueue := rest }
  | discarded {s : State K M} (hp : s.process = .discarding)
      (hq : s.newControlMappingsQueue = []) :
      Step o s .discarded { s with process := .idle }

/-- An owner just constructed. -/
def initial : State K M where
  script := .idle
  process := .idle
  controlConnectionMap := fun _ => none
  freshConnections := []
  controlConnections := []
  mappings := fun _ => []
  newControlMappingsQueue := []
  recycled := []
  allocated := 0

/-- A mixer's `reposition` has started and will yet empty the mapping queue. -/
def Emptying (o : Owner) (s : State K M) : Prop :=
  o = .mixer ∧ (s.process = .collecting ∨ s.process = .recycling ∨ s.process = .discarding)

/-- A mapping is not pushed after its connection has been recycled, unless the queue is yet to be
emptied, and a plugin does not recycle a connection ahead of one of its mappings. -/
def Timely (o : Owner) (s : State K M) : Act K M → Prop
  | .pushMapping => ∀ c mapping, s.script = .pushing c mapping → c ∈ s.recycled → Emptying o s
  | .recycle => o = .plugin →
    ∀ c, s.controlConnections.head? = some c → ∀ e ∈ s.newControlMappingsQueue, e.1 ≠ c
  | _ => True

/-- No mapping in the queue is of a recycled connection, or the queue is yet to be emptied. -/
def Sound (o : Owner) (s : State K M) : Prop :=
  Emptying o s ∨ ∀ e ∈ s.newControlMappingsQueue, e.1 ∉ s.recycled

omit [DecidableEq K] in
theorem Sound.queue {o : Owner} {s : State K M} (h : Sound o s) (he : ¬ Emptying o s) :
    ∀ e ∈ s.newControlMappingsQueue, e.1 ∉ s.recycled := by
  rcases h with h | h
  · exact (he h).elim
  · exact h

omit [DecidableEq K] in
theorem not_emptying {o : Owner} {s : State K M}
    (hp : s.process = .idle ∨ s.process = .pulling ∨ s.process = .fetching) :
    ¬ Emptying o s := by
  rintro ⟨-, h⟩
  rcases hp with hp | hp | hp <;> simp [hp] at h

theorem sound_step {o : Owner} {s t : State K M} {a : Act K M} (h : Sound o s)
    (ht : Timely o s a) (hs : Step o s a t) : Sound o t := by
  cases hs with
  | found | notFound | pushConnection | restore => exact h
  | pushMapping hpc hroom =>
    rename_i c mapping
    by_cases he : Emptying o s
    · exact Or.inl he
    · refine Or.inr ?_
      intro e hmem
      rcases List.mem_append.mp hmem with hmem | hmem
      · exact h.queue he e hmem
      · rw [List.mem_singleton.mp hmem]
        intro hc
        exact he (ht c mapping hpc hc)
  | doProcess hp => exact Or.inr (h.queue (not_emptying (Or.inl hp)))
  | popMapping hp hq =>
    have hqueue := h.queue (not_emptying (Or.inr (Or.inl hp)))
    rw [hq] at hqueue
    exact Or.inr fun e he => hqueue e (List.mem_cons_of_mem _ he)
  | popped hp hq => exact Or.inr (h.queue (not_emptying (Or.inr (Or.inl hp))))
  | fetch hp hq => exact Or.inr (h.queue (not_emptying (Or.inr (Or.inr hp))))
  | fetched hp hq => exact Or.inr (h.queue (not_emptying (Or.inr (Or.inr hp))))
  | reposition hp => exact Or.inr (h.queue (not_emptying (Or.inl hp)))
  | collect hp hq =>
    rcases h with ⟨ho, -⟩ | h
    · exact Or.inl ⟨ho, Or.inl hp⟩
    · exact Or.inr h
  | collected hp hq =>
    rcases h with ⟨ho, -⟩ | h
    · exact Or.inl ⟨ho, Or.inr (Or.inl rfl)⟩
    · exact Or.inr h
  | recycle hp hl =>
    cases o with
    | mixer => exact Or.inl ⟨rfl, Or.inr (Or.inl hp)⟩
    | plugin =>
      have hqueue := h.queue fun he => Owner.noConfusion he.1
      refine Or.inr ?_
      intro e he hc
      rcases List.mem_cons.mp hc with hc | hc
      · exact ht rfl _ (by simp [hl]) e he hc
      · exact hqueue e he hc
  | recycledAll hp hl =>
    cases o with
    | mixer => exact Or.inl ⟨rfl, Or.inr (Or.inr rfl)⟩
    | plugin => exact Or.inr (h.queue fun he => Owner.noConfusion he.1)
  | discard hp hq =>
    rcases h with ⟨ho, -⟩ | h
    · exact Or.inl ⟨ho, Or.inr (Or.inr hp)⟩
    · refine Or.inr fun e he => h e ?_
      rw [hq]
      exact List.mem_cons_of_mem _ he
  | discarded hp hq =>
    refine Or.inr ?_
    intro e he
    have hempty : e ∈ ([] : List (ℕ × M)) := hq ▸ he
    cases hempty

omit [DecidableEq K] in
theorem sound_initial (o : Owner) : Sound o (initial : State K M) :=
  Or.inr fun _ he => (List.not_mem_nil he).elim

/-- The mapping that `doProcess` is about to pop, if any, is of a connection not recycled. -/
def PopsLive (s : State K M) : Prop :=
  s.process = .pulling → ∀ e ∈ s.newControlMappingsQueue.head?, e.1 ∉ s.recycled

omit [DecidableEq K] in
theorem Sound.popsLive {o : Owner} {s : State K M} (h : Sound o s) : PopsLive s := by
  intro hp e he
  have hqueue := h.queue (not_emptying (Or.inr (Or.inl hp)))
  exact hqueue e (List.mem_of_mem_head? he)

/-- A mapping of a recycled connection is queued. -/
def Stale (s : State K M) : Prop := ∃ e ∈ s.newControlMappingsQueue, e.1 ∈ s.recycled

/-- A run leads on to the pop of a mapping of a recycled connection. -/
def LeadsToStalePop (o : Owner) (s : State K M) : Prop :=
  ∃ as t, Run (Step o) s as t ∧ ¬ PopsLive t

theorem LeadsToStalePop.of_step {o : Owner} {s t : State K M} {a : Act K M} (hs : Step o s a t)
    (h : LeadsToStalePop o t) : LeadsToStalePop o s := by
  obtain ⟨as, u, hrun, hu⟩ := h
  exact ⟨a :: as, u, .stepL hs hrun, hu⟩

/-- The pops go on until the queue is empty, so one of them is of the stale mapping. -/
theorem stale_pulling {o : Owner} {s : State K M} (hp : s.process = .pulling) (h : Stale s) :
    LeadsToStalePop o s := by
  induction hq : s.newControlMappingsQueue generalizing s with
  | nil =>
    obtain ⟨e, he, -⟩ := h
    rw [hq] at he
    cases he
  | cons e rest ih =>
    by_cases hc : e.1 ∈ s.recycled
    · refine ⟨[], s, .refl, ?_⟩
      intro hlive
      exact hlive hp e (by simp [hq]) hc
    · refine .of_step (.popMapping hp hq) (ih hp ?_ rfl)
      obtain ⟨e', he', hc'⟩ := h
      rw [hq] at he'
      rcases List.mem_cons.mp he' with rfl | he'
      · exact (hc hc').elim
      · exact ⟨e', he', hc'⟩

theorem stale_idle {o : Owner} {s : State K M} (hp : s.process = .idle) (h : Stale s) :
    LeadsToStalePop o s :=
  .of_step (.doProcess hp) (stale_pulling rfl h)

theorem stale_fetching {o : Owner} {s : State K M} (hp : s.process = .fetching) (h : Stale s) :
    LeadsToStalePop o s := by
  induction hq : s.freshConnections generalizing s with
  | nil => exact .of_step (.fetched hp hq) (stale_idle rfl h)
  | cons c rest ih => exact .of_step (.fetch hp hq) (ih hp h rfl)

theorem stale_recycling {s : State K M} (hp : s.process = .recycling) (h : Stale s) :
    LeadsToStalePop .plugin s := by
  induction hl : s.controlConnections generalizing s with
  | nil => exact .of_step (.recycledAll hp hl) (stale_idle rfl h)
  | cons c rest ih =>
    obtain ⟨e, he, hc⟩ := h
    exact .of_step (.recycle hp hl) (ih hp ⟨e, he, List.mem_cons_of_mem c hc⟩ rfl)

theorem stale_collecting {s : State K M} (hp : s.process = .collecting) (h : Stale s) :
    LeadsToStalePop .plugin s := by
  induction hq : s.freshConnections generalizing s with
  | nil => exact .of_step (.collected hp hq) (stale_recycling rfl h)
  | cons c rest ih => exact .of_step (.collect hp hq) (ih hp h rfl)

/-- Only a mixer's `reposition` drops mappings. -/
theorem process_ne_discarding {as : List (Act K M)} {s : State K M}
    (h : Run (Step .plugin) initial as s) : s.process ≠ .discarding := by
  refine h.invariant (I := fun s => s.process ≠ .discarding) ?_ (by simp [initial])
  intro s a t hs hne
  cases hs with
  | discard hp hq => exact hne
  | found | notFound | pushConnection | pushMapping | restore => exact hne
  | popMapping hp hq => exact hne
  | fetch hp hq => exact hne
  | collect hp hq => exact hne
  | recycle hp hl => exact hne
  | doProcess | popped | fetched | reposition | collected | recycledAll | discarded =>
    exact ProcessPC.noConfusion

/-- A stale mapping that no emptying of the queue will drop gets popped. -/
theorem stale_popped {o : Owner} {s : State K M} {as : List (Act K M)}
    (hrun : Run (Step o) initial as s) (he : ¬ Emptying o s) (h : Stale s) :
    LeadsToStalePop o s := by
  cases hp : s.process with
  | idle => exact stale_idle hp h
  | pulling => exact stale_pulling hp h
  | fetching => exact stale_fetching hp h
  | collecting =>
    cases o with
    | mixer => exact (he ⟨rfl, Or.inl hp⟩).elim
    | plugin => exact stale_collecting hp h
  | recycling =>
    cases o with
    | mixer => exact (he ⟨rfl, Or.inr (Or.inl hp)⟩).elim
    | plugin => exact stale_recycling hp h
  | discarding =>
    cases o with
    | mixer => exact (he ⟨rfl, Or.inr (Or.inr hp)⟩).elim
    | plugin => exact (process_ne_discarding hrun hp).elim

/-- An untimely step leaves a stale mapping, and nothing that will drop it. -/
theorem stale_of_untimely {o : Owner} {s t : State K M} {a : Act K M} (hs : Step o s a t)
    (h : ¬ Timely o s a) : Stale t ∧ ¬ Emptying o t := by
  cases hs with
  | pushMapping hpc hroom =>
    rename_i c mapping
    simp only [Timely, not_forall] at h
    obtain ⟨_, _, hpc', hc, he⟩ := h
    rw [hpc] at hpc'
    cases hpc'
    exact ⟨⟨(c, mapping), by simp, hc⟩, he⟩
  | recycle hp hl =>
    simp only [Timely, not_forall] at h
    obtain ⟨ho, c, hc, e, he, hec⟩ := h
    rw [not_not] at hec
    rw [hl] at hc
    cases hc
    exact ⟨⟨e, he, by simp [hec]⟩, fun hem => by cases ho.symm.trans hem.1⟩
  | found | notFound | pushConnection | restore | doProcess | reposition => exact (h trivial).elim
  | popMapping | popped | fetch | fetched | collect | collected | recycledAll | discard |
    discarded =>
    exact (h trivial).elim

/-- As long as all steps are timely no mapping popped is of a recycled connection, and after the
first step that is not, a run goes on to one that is. -/
theorem popsLive_while_timely {o : Owner} {as : List (Act K M)} {s : State K M}
    (h : Run (restrict (Timely o) (Step o)) initial as s) :
    PopsLive s ∧
    ∀ a t, Step o s a t → ¬ Timely o s a → ∃ bs u, Run (Step o) t bs u ∧ ¬ PopsLive u := by
  constructor
  · have hsound : Sound o s :=
      h.invariant_restrict (fun hs ht hstep => sound_step hs ht hstep) (sound_initial o)
    exact hsound.popsLive
  · intro a t hs ht
    obtain ⟨hstale, he⟩ := stale_of_untimely hs ht
    exact stale_popped (h.of_restrict.append (.single hs)) he hstale

/-- A plugin repositioned between the pop of its first mapping and, restored, the next. -/
theorem popsLive_while_timely_readded :
    ∃ s : State ℕ ℕ, s.process = .pulling ∧ s.newControlMappingsQueue = [(1, 8)] ∧
      s.recycled = [0] ∧ PopsLive s := by
  have hrun : ∃ s : State ℕ ℕ, Run (restrict (Timely .plugin) (Step .plugin)) initial
      [.addController 0 7, .pushConnection, .pushMapping, .doProcess, .popMapping, .popped, .fetch,
        .fetched, .reposition, .collected, .recycle, .recycledAll, .restore, .addController 0 8,
        .pushConnection, .pushMapping, .doProcess] s ∧
      s.process = .pulling ∧ s.newControlMappingsQueue = [(1, 8)] ∧ s.recycled = [0] := by
    refine ⟨_, .stepL ⟨trivial, .notFound rfl rfl⟩ <|
      .stepL ⟨trivial, .pushConnection rfl (by decide)⟩ <|
      .stepL ⟨?_, .pushMapping rfl (by decide)⟩ <| .stepL ⟨trivial, .doProcess rfl⟩ <|
      .stepL ⟨trivial, .popMapping rfl rfl⟩ <| .stepL ⟨trivial, .popped rfl rfl⟩ <|
      .stepL ⟨trivial, .fetch rfl rfl⟩ <| .stepL ⟨trivial, .fetched rfl rfl⟩ <|
      .stepL ⟨trivial, .reposition rfl⟩ <| .stepL ⟨trivial, .collected rfl rfl⟩ <|
      .stepL ⟨?_, .recycle rfl rfl⟩ <| .stepL ⟨trivial, .recycledAll rfl rfl⟩ <|
      .stepL ⟨trivial, .restore rfl⟩ <| .stepL ⟨trivial, .notFound rfl rfl⟩ <|
      .stepL ⟨trivial, .pushConnection rfl (by decide)⟩ <|
      .stepL ⟨?_, .pushMapping rfl (by decide)⟩ <| .single ⟨trivial, .doProcess rfl⟩, rfl, rfl, rfl⟩
    · rintro c mapping - hc
      exact (List.not_mem_nil hc).elim
    · rintro - c - e he
      exact (List.not_mem_nil he).elim
    · rintro c mapping hpc hc
      cases hpc
      exact absurd hc (by decide)
  obtain ⟨s, hrun, hp, hq, hr⟩ := hrun
  exact ⟨s, hp, hq, hr, (popsLive_while_timely hrun).1⟩

/-- A plugin repositioned with a mapping still queued, and a mixer whose connections are looked up
after its reposition. -/
theorem popped_recycled :
    (¬ ∀ (as : List (Act ℕ ℕ)) (s : State ℕ ℕ), Run (Step .plugin) initial as s → PopsLive s) ∧
    ¬ ∀ (as : List (Act ℕ ℕ)) (s : State ℕ ℕ), Run (Step .mixer) initial as s → PopsLive s := by
  constructor
  · intro h
    have hlive := h [.addController 0 7, .pushConnection, .pushMapping, .reposition, .collect,
      .collected, .recycle, .recycledAll, .doProcess] _
      (.stepL (.notFound rfl rfl) <| .stepL (.pushConnection rfl (by decide)) <|
      .stepL (.pushMapping rfl (by decide)) <| .stepL (.reposition rfl) <|
      .stepL (.collect rfl rfl) <| .stepL (.collected rfl rfl) <| .stepL (.recycle rfl rfl) <|
      .stepL (.recycledAll rfl rfl) <| .single (.doProcess rfl))
    exact hlive rfl (0, 7) rfl (by decide)
  · intro h
    have hlive := h [.addController 0 7, .pushConnection, .pushMapping, .reposition, .collect,
      .collected, .recycle, .recycledAll, .discard, .discarded, .addController 0 8, .pushMapping,
      .doProcess] _
      (.stepL (.notFound rfl rfl) <| .stepL (.pushConnection rfl (by decide)) <|
      .stepL (.pushMapping rfl (by decide)) <| .stepL (.reposition rfl) <|
      .stepL (.collect rfl rfl) <| .stepL (.collected rfl rfl) <| .stepL (.recycle rfl rfl) <|
      .stepL (.recycledAll rfl rfl) <| .stepL (.discard rfl rfl) <| .stepL (.discarded rfl rfl) <|
      .stepL (.found rfl rfl) <| .stepL (.pushMapping rfl (by decide)) <|
      .single (.doProcess rfl))
    exact hlive rfl (0, 8) rfl (by decide)

end Bipscript.Controllers
