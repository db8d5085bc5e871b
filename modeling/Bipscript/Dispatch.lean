import Bipscript.EventBuffer
import Bipscript.Library.Run

/-! The two queues between the threads: events one way, dispatched methods the other way. -/
namespace Bipscript.Dispatch

/-- A method called when something happened, whose closure the process thread makes in its pool, or
one that the script scheduled, in an `AsyncClosure` of its own. -/
inductive Kind
  | handler
  | scheduled
deriving DecidableEq

/-- A closure, with the buffers that its function adds events to. -/
structure Closure (B : Type*) where
  kind : Kind
  function : List B

/-- What the script thread runs. -/
inductive Code
  | body
  | method (kind : Kind)

/-- Where the script thread is: in the script body or in a dispatched method, with the buffers it
has still to add events to, or in the loop of `waitForRestart`, before its `restartFlag.load()` or
before its next `MethodQueue::next`. -/
inductive ScriptPC (B : Type*)
  | running (code : Code) (rest : List B)
  | waiting
  | draining
  | done

/-- The process thread retries its push while it is in `dispatch`. -/
inductive ProcessPC (B : Type*)
  | running
  | dispatching (closure : Closure B)

/-- The length of each `eventQueue`, the scheduled functions that the transport has sorted, and the
closures of handlers: those that the pool holds, and those of them recycled. -/
structure State (B : Type*) where
  script : ScriptPC B
  engine : ProcessPC B
  restartFlag : Bool
  eventQueue : B → ℕ
  dispatchQueue : List (Closure B)
  sorted : ℕ
  pooled : ℕ
  recycled : ℕ

inductive Act (B : Type*)
  | addEvent (b : B)
  | fail
  | waitForRestart (activeObjects : Bool)
  | restart
  | drain
  | next
  | executed
  | sleep
  | rerun (body : List B)
  | pop (b : B)
  | popScheduled (b : B)
  | popOutput (b : B)
  | drop (sorted : ℕ)
  | dispatchHandler (function : List B)
  | dispatchScheduled (function : List B)
  | push
  | delete

/-- The capacity of `dispatchQueue`. -/
def CAPACITY : ℕ := 512

/-- The closures that the pool has room for. -/
def POOLED : ℕ := 409

variable {B : Type*}

/-- What the script thread adds before it looks into `dispatchQueue` again. -/
def ScriptPC.remaining : ScriptPC B → List B
  | running _ rest => rest
  | waiting | draining | done => []

/-- The closures of handlers that a returning method leaves to be deleted. -/
def Code.recycles : Code → ℕ
  | method .handler => 1
  | method .scheduled | body => 0

def ScriptPC.handlers : ScriptPC B → ℕ
  | running code _ => code.recycles
  | waiting | draining | done => 0

def ProcessPC.handlers : ProcessPC B → ℕ
  | dispatching closure => if closure.kind = .handler then 1 else 0
  | running => 0

namespace State

/-- The first run of a script body that adds to `body`. -/
def initial (body : List B) : State B where
  script := .running .body body
  engine := .running
  restartFlag := false
  eventQueue := fun _ => 0
  dispatchQueue := []
  sorted := 0
  pooled := 0
  recycled := 0

variable [DecidableEq B]

/-- The steps of the two threads, and the pops of the threads of OSC outputs, which empty the
buffers of `output`; `transport` is the transport's buffer. A push that finds its queue full is
tried again, and is no step. -/
inductive Step (output transport : B → Prop) (s : State B) : Act B → State B → Prop
  | addEvent {code b rest} (hs : s.script = .running code (b :: rest))
      (hq : s.eventQueue b < EventBuffer.CAPACITY) :
      Step output transport s (.addEvent b)
        { s with
          script := .running code rest
          eventQueue := Function.update s.eventQueue b (s.eventQueue b + 1) }
  | fail {rest} (hs : s.script = .running .body rest) :
      Step output transport s .fail { s with script := .done }
  | waitForRestart {activeObjects} (hs : s.script = .running .body []) :
      Step output transport s (.waitForRestart activeObjects)
        { s with script := if activeObjects then .waiting else .done }
  | drain (hs : s.script = .waiting) (hf : s.restartFlag = false) :
      Step output transport s .drain { s with script := .draining }
  | next {closure rest} (hs : s.script = .draining) (hq : s.dispatchQueue = closure :: rest) :
      Step output transport s .next
        { s with
          script := .running (.method closure.kind) closure.function
          dispatchQueue := rest }
  | executed {kind} (hs : s.script = .running (.method kind) []) :
      Step output transport s .executed
        { s with
          script := .draining
          recycled := s.recycled + (Code.method kind).recycles }
  | sleep (hs : s.script = .draining) (hq : s.dispatchQueue = []) :
      Step output transport s .sleep { s with script := .waiting }
  | rerun {body} (hs : s.script = .waiting) (hf : s.restartFlag = true) :
      Step output transport s (.rerun body)
        { s with script := .running .body body, restartFlag := false }
  | restart (he : s.engine = .running) :
      Step output transport s .restart { s with restartFlag := true }
  | pop {b n} (he : s.engine = .running) (ht : ¬ transport b) (hq : s.eventQueue b = n + 1) :
      Step output transport s (.pop b)
        { s with eventQueue := Function.update s.eventQueue b n }
  | popScheduled {b n} (he : s.engine = .running) (ht : transport b)
      (hq : s.eventQueue b = n + 1) :
      Step output transport s (.popScheduled b)
        { s with
          eventQueue := Function.update s.eventQueue b n
          sorted := s.sorted + 1 }
  | popOutput {b n} (ho : output b) (hq : s.eventQueue b = n + 1) :
      Step output transport s (.popOutput b)
        { s with eventQueue := Function.update s.eventQueue b n }
  -- late, or of before a relocation
  | drop {n} (he : s.engine = .running) (hn : n ≤ s.sorted) :
      Step output transport s (.drop n) { s with sorted := n }
  | dispatchHandler {function} (he : s.engine = .running) (hp : s.pooled < POOLED) :
      Step output transport s (.dispatchHandler function)
        { s with engine := .dispatching ⟨.handler, function⟩, pooled := s.pooled + 1 }
  | dispatchScheduled {function n} (he : s.engine = .running) (hs : s.sorted = n + 1) :
      Step output transport s (.dispatchScheduled function)
        { s with engine := .dispatching ⟨.scheduled, function⟩, sorted := n }
  | push {closure} (he : s.engine = .dispatching closure)
      (hq : s.dispatchQueue.length < CAPACITY) :
      Step output transport s .push
        { s with engine := .running, dispatchQueue := s.dispatchQueue ++ [closure] }
  | delete {m n} (he : s.engine = .running) (hr : s.recycled = m + 1) (hp : s.pooled = n + 1) :
      Step output transport s .delete { s with recycled := m, pooled := n }

omit [DecidableEq B] in
/-- The script thread retries a push on a full `eventQueue`. -/
def ScriptStuck (s : State B) : Prop :=
  ∃ code b rest, s.script = .running code (b :: rest) ∧ EventBuffer.CAPACITY ≤ s.eventQueue b

omit [DecidableEq B] in
/-- The process thread retries a push on the full `dispatchQueue`. -/
def ProcessStuck (s : State B) : Prop :=
  (∃ closure, s.engine = .dispatching closure) ∧ CAPACITY ≤ s.dispatchQueue.length

/-- Each `eventQueue` has room for everything that is still to be added to it. -/
def Fits (s : State B) (adds : List B) : Prop :=
  ∀ b, s.eventQueue b + adds.count b ≤ EventBuffer.CAPACITY

/-- The process thread begins to retry only when what the script thread has left to add fits, and
while it retries so does what a new run of the body adds. -/
def Roomy (s : State B) : Act B → Prop
  | .dispatchHandler _ | .dispatchScheduled _ =>
    CAPACITY ≤ s.dispatchQueue.length → s.Fits s.script.remaining
  | .rerun body => s.ProcessStuck → s.Fits body
  | _ => True

structure Invariant (s : State B) : Prop where
  events : ∀ b, s.eventQueue b ≤ EventBuffer.CAPACITY
  functions : s.dispatchQueue.length ≤ CAPACITY
  fits : s.ProcessStuck → s.Fits s.script.remaining

section Steps

variable {output transport : B → Prop} {s t : State B} {a : Act B}

theorem invariant_initial (body : List B) : Invariant (initial body) where
  events := fun b => Nat.zero_le _
  functions := Nat.zero_le _
  fits := by
    rintro ⟨⟨closure, he⟩, -⟩
    cases he

/-- An `addEvent` moves one event from what is left to add to the queue. -/
theorem fits_addEvent {b : B} {rest : List B} (script : ScriptPC B) :
    Fits { s with
      script := script
      eventQueue := Function.update s.eventQueue b (s.eventQueue b + 1) } rest ↔
        s.Fits (b :: rest) := by
  apply forall_congr'
  intro c
  by_cases hcb : c = b
  · subst hcb
    rw [List.count_cons_self]
    simp only [Function.update_self]
    omega
  · rw [List.count_cons_of_ne (Ne.symm hcb)]
    simp only [Function.update_of_ne hcb]

theorem Fits.pop {b : B} {n : ℕ} {adds : List B} (h : s.Fits adds) (hn : s.eventQueue b = n + 1) :
    Fits { s with eventQueue := Function.update s.eventQueue b n } adds := by
  intro c
  have hc := h c
  by_cases hcb : c = b
  · subst hcb
    simp only [Function.update_self]
    omega
  · simpa only [Function.update_of_ne hcb] using hc

theorem fits_nil (h : ∀ b, s.eventQueue b ≤ EventBuffer.CAPACITY) : s.Fits [] := by
  intro b
  simpa using h b

theorem events_step (hs : ∀ b, s.eventQueue b ≤ EventBuffer.CAPACITY)
    (h : Step output transport s a t) : ∀ b, t.eventQueue b ≤ EventBuffer.CAPACITY := by
  have hupdate : ∀ b n, n ≤ EventBuffer.CAPACITY →
      ∀ c, Function.update s.eventQueue b n c ≤ EventBuffer.CAPACITY := fun b n hn =>
    (Function.forall_update_iff s.eventQueue fun _ n => n ≤ EventBuffer.CAPACITY).mpr
      ⟨hn, fun c _ => hs c⟩
  cases h with
  | addEvent _ hq => exact hupdate _ _ hq
  | @pop b n _ _ hq | @popScheduled b n _ _ hq | @popOutput b n _ hq =>
    apply hupdate
    have hb := hs b
    omega
  | _ => exact hs

theorem functions_step (hs : Invariant s) (h : Step output transport s a t) :
    t.dispatchQueue.length ≤ CAPACITY := by
  have hlen := hs.functions
  cases h with
  | next _ hq =>
    simp only [hq, List.length_cons] at hlen
    exact Nat.le_of_succ_le hlen
  | push _ hq =>
    simp only [List.length_append, List.length_singleton]
    omega
  | _ => exact hlen

theorem fits_step (hs : Invariant s) (hr : s.Roomy a) (h : Step output transport s a t)
    (hp : t.ProcessStuck) : t.Fits t.script.remaining := by
  cases h with
  | @addEvent code b rest hscript =>
    have hfits := hs.fits hp
    rw [hscript] at hfits
    exact (fits_addEvent _).mpr hfits
  | fail | executed | sleep | drain => exact fits_nil hs.events
  | @waitForRestart activeObjects =>
    cases activeObjects <;> exact fits_nil hs.events
  | @next closure rest hscript hq =>
    -- the queue has room now
    have hlen := hs.functions
    have hfull : CAPACITY ≤ rest.length := hp.2
    simp only [hq, List.length_cons] at hlen
    omega
  | rerun => exact hr hp
  | restart he | pop he | popScheduled he | drop he | delete he => exact absurd (he ▸ hp.1) nofun
  | popOutput _ hq => exact (hs.fits hp).pop hq
  | dispatchHandler | dispatchScheduled => exact hr hp.2
  | push => exact absurd hp.1 nofun

theorem invariant_step (hs : Invariant s) (hr : s.Roomy a) (h : Step output transport s a t) :
    Invariant t where
  events := events_step hs.events h
  functions := functions_step hs h
  fits := fits_step hs hr h

theorem Invariant.not_both_stuck (hs : Invariant s) : ¬ (s.ScriptStuck ∧ s.ProcessStuck) := by
  rintro ⟨⟨code, b, rest, hscript, hfull⟩, hp⟩
  have hb := hs.fits hp b
  rw [hscript, ScriptPC.remaining, List.count_cons_self] at hb
  omega

/-- Along a run in which each step is roomy the two threads never both retry. -/
theorem never_both_stuck {body : List B} {as : List (Act B)}
    (h : Transition.Run (Transition.restrict Roomy (Step output transport)) (initial body) as t) :
    ¬ (t.ScriptStuck ∧ t.ProcessStuck) := by
  have hinv : Invariant t :=
    h.invariant_restrict (I := Invariant) invariant_step (invariant_initial body)
  exact hinv.not_both_stuck

/-- Once the process thread retries and something left to add does not fit, the script thread alone
runs into a full queue. -/
theorem stuck_of_not_fits {code : Code} {rest : List B} (hscript : s.script = .running code rest)
    (hp : s.ProcessStuck) (hevents : ∀ b, s.eventQueue b ≤ EventBuffer.CAPACITY)
    (hfits : ¬ s.Fits rest) :
    ∃ as t, Transition.Run (Step output transport) s as t ∧ t.ScriptStuck ∧ t.ProcessStuck := by
  induction rest generalizing s with
  | nil => exact absurd (fits_nil hevents) hfits
  | cons b rest ih =>
    by_cases hfull : EventBuffer.CAPACITY ≤ s.eventQueue b
    · exact ⟨[], s, .refl, ⟨code, b, rest, hscript, hfull⟩, hp⟩
    · have hroom : s.eventQueue b < EventBuffer.CAPACITY := by omega
      have hstep : Step output transport s (.addEvent b) _ := .addEvent hscript hroom
      obtain ⟨as, t, hrun, hstuck⟩ := ih (s := { s with
          script := .running code rest
          eventQueue := Function.update s.eventQueue b (s.eventQueue b + 1) })
        rfl hp (events_step hevents hstep) (fun h => hfits ((fits_addEvent _).mp h))
      exact ⟨.addEvent b :: as, t, .stepL hstep hrun, hstuck⟩

end Steps

/-! Handlers alone do not fill `dispatchQueue`. -/

omit [DecidableEq B] in
/-- The closures of handlers that wait or are being pushed, executed or deleted. -/
def handlers (s : State B) : ℕ :=
  s.dispatchQueue.countP (fun closure => closure.kind = .handler) + s.engine.handlers +
    s.script.handlers + s.recycled

/-- What is pushed without a scheduled function is in the pool. -/
structure Pooled (s : State B) : Prop where
  kinds : ∀ closure ∈ s.dispatchQueue, closure.kind = .handler
  engine : ∀ closure, s.engine = .dispatching closure → closure.kind = .handler
  handlers : s.handlers ≤ s.pooled
  pooled : s.pooled ≤ POOLED

/-- No scheduled function is dispatched. -/
def Unscheduled (_ : State B) : Act B → Prop
  | .dispatchScheduled _ => False
  | _ => True

section Handlers

variable {output transport : B → Prop} {s t : State B} {a : Act B}

omit [DecidableEq B] in
theorem pooled_initial (body : List B) : Pooled (initial body) where
  kinds := by simp [initial]
  engine := by simp [initial]
  handlers := by simp [initial, handlers, ScriptPC.handlers, ProcessPC.handlers, Code.recycles]
  pooled := Nat.zero_le _

theorem handlers_step (hs : Pooled s) (ha : Unscheduled s a) (h : Step output transport s a t) :
    t.handlers ≤ t.pooled := by
  have hle : s.dispatchQueue.countP (fun closure => closure.kind = .handler) + s.engine.handlers +
    s.script.handlers + s.recycled ≤ s.pooled := hs.handlers
  cases h with
  | addEvent hscript =>
    rw [hscript] at hle
    exact hle
  | executed hscript =>
    rw [hscript, ScriptPC.handlers] at hle
    simp only [handlers, ScriptPC.handlers]
    omega
  | fail hscript | drain hscript | sleep hscript =>
    simp only [handlers, ScriptPC.handlers]
    omega
  | @waitForRestart activeObjects =>
    cases activeObjects <;>
      simp only [handlers, ScriptPC.handlers, reduceIte, Bool.false_eq_true] <;>
      omega
  | rerun =>
    simp only [handlers, ScriptPC.handlers, Code.recycles]
    omega
  | @next closure rest hscript hq =>
    have hkind := hs.kinds closure (hq ▸ List.mem_cons_self)
    rw [hscript, hq, List.countP_cons_of_pos (by simpa using hkind)] at hle
    simp only [handlers, ScriptPC.handlers, hkind, Code.recycles] at hle ⊢
    omega
  | restart | pop | popScheduled | popOutput | drop => exact hle
  | dispatchHandler he =>
    rw [he] at hle
    simp only [handlers, ProcessPC.handlers, reduceIte] at hle ⊢
    omega
  | dispatchScheduled => exact ha.elim
  | @push closure he =>
    have hkind := hs.engine closure he
    rw [he] at hle
    simp only [handlers, ProcessPC.handlers, hkind, reduceIte, List.countP_append,
      List.countP_singleton, decide_true] at hle ⊢
    omega
  | delete he hr hp =>
    simp only [handlers]
    omega

theorem pooled_step (hs : Pooled s) (ha : Unscheduled s a) (h : Step output transport s a t) :
    Pooled t := by
  have hhandlers := handlers_step hs ha h
  have hpooled := hs.pooled
  cases h with
  | next _ hq =>
    exact ⟨fun closure hmem => hs.kinds closure (hq ▸ List.mem_cons_of_mem _ hmem), hs.engine,
      hhandlers, hpooled⟩
  | dispatchHandler _ hroom =>
    refine ⟨hs.kinds, ?_, hhandlers, hroom⟩
    rintro closure ⟨⟩
    rfl
  | dispatchScheduled => exact ha.elim
  | @push closure he =>
    refine ⟨fun closure' hmem => ?_, nofun, hhandlers, hpooled⟩
    rcases List.mem_append.mp hmem with hmem | hmem
    · exact hs.kinds closure' hmem
    · rw [List.mem_singleton.mp hmem]
      exact hs.engine closure he
  | delete _ _ hp => exact ⟨hs.kinds, hs.engine, hhandlers, by simp only; omega⟩
  | _ => exact ⟨hs.kinds, hs.engine, hhandlers, hpooled⟩

omit [DecidableEq B] in
theorem Pooled.length_le (hs : Pooled s) : s.dispatchQueue.length ≤ POOLED := by
  have hcount : s.dispatchQueue.countP (fun closure => closure.kind = .handler) =
      s.dispatchQueue.length :=
    List.countP_eq_length.mpr fun closure hmem => by simpa using hs.kinds closure hmem
  have hle : s.dispatchQueue.countP (fun closure => closure.kind = .handler) + s.engine.handlers +
    s.script.handlers + s.recycled ≤ s.pooled := hs.handlers
  have hpooled := hs.pooled
  omega

/-- Without scheduled functions the pool is used up before `dispatchQueue` is full. -/
theorem not_processStuck {body : List B} {as : List (Act B)}
    (h : Transition.Run (Transition.restrict Unscheduled (Step output transport)) (initial body)
      as t) : ¬ t.ProcessStuck := by
  have hinv : Pooled t :=
    h.invariant_restrict (I := Pooled) pooled_step (pooled_initial body)
  have hlength := hinv.length_le
  rintro ⟨-, hfull⟩
  exact absurd (hfull.trans hlength) (by decide)

end Handlers

/-! Scheduled functions do. -/

section Scheduled

variable (output transport : B → Prop) {s : State B} {b : B}

theorem run_addEvent {rest : List B} (n : ℕ)
    (hs : s.script = .running .body (List.replicate n b ++ rest))
    (hq : s.eventQueue b + n ≤ EventBuffer.CAPACITY) :
    ∃ as, Transition.Run (Transition.restrict Roomy (Step output transport)) s as
      { s with
        script := .running .body rest
        eventQueue := Function.update s.eventQueue b (s.eventQueue b + n) } := by
  induction n generalizing s with
  | zero =>
    refine ⟨[], ?_⟩
    have hscript : s.script = .running .body rest := hs
    rw [Nat.add_zero, Function.update_eq_self, ← hscript]
    exact .refl
  | succ n ih =>
    have hroom : s.eventQueue b < EventBuffer.CAPACITY := by omega
    obtain ⟨as, hrun⟩ := ih (s := { s with
        script := .running .body (List.replicate n b ++ rest)
        eventQueue := Function.update s.eventQueue b (s.eventQueue b + 1) }) rfl (by
      simp only [Function.update_self]
      omega)
    simp only [Function.update_self, Function.update_idem] at hrun
    refine ⟨.addEvent b :: as, .stepL ⟨trivial, .addEvent hs hroom⟩ ?_⟩
    rw [Nat.add_comm n 1, ← Nat.add_assoc]
    exact hrun

theorem run_popScheduled (n : ℕ) (he : s.engine = .running) (ht : transport b)
    (hq : s.eventQueue b = n) :
    ∃ as, Transition.Run (Transition.restrict Roomy (Step output transport)) s as
      { s with eventQueue := Function.update s.eventQueue b 0, sorted := s.sorted + n } := by
  induction n generalizing s with
  | zero =>
    refine ⟨[], ?_⟩
    rw [← hq, Function.update_eq_self, hq]
    exact .refl
  | succ n ih =>
    obtain ⟨as, hrun⟩ := ih (s := { s with
        eventQueue := Function.update s.eventQueue b n
        sorted := s.sorted + 1 }) he (Function.update_self ..)
    simp only [Function.update_idem] at hrun
    refine ⟨.popScheduled b :: as, .stepL ⟨trivial, .popScheduled he ht hq⟩ ?_⟩
    rw [Nat.add_comm n 1, ← Nat.add_assoc]
    exact hrun

theorem run_dispatchScheduled (n m : ℕ) (he : s.engine = .running) (hs : s.sorted = m + n)
    (hq : s.dispatchQueue.length + n ≤ CAPACITY) :
    ∃ as, Transition.Run (Transition.restrict Roomy (Step output transport)) s as
      { s with
        sorted := m
        dispatchQueue := s.dispatchQueue ++ List.replicate n ⟨.scheduled, []⟩ } := by
  induction n generalizing s with
  | zero =>
    obtain rfl : s.sorted = m := hs
    refine ⟨[], ?_⟩
    rw [List.replicate_zero, List.append_nil]
    exact .refl
  | succ n ih =>
    have hroom : s.dispatchQueue.length < CAPACITY := by omega
    obtain ⟨as, hrun⟩ := ih (s := { s with
        engine := .running
        sorted := m + n
        dispatchQueue := s.dispatchQueue ++ [⟨.scheduled, []⟩] }) rfl rfl (by
      simp only [List.length_append, List.length_singleton]
      omega)
    refine ⟨.dispatchScheduled [] :: .push :: as, .stepL ⟨fun hfull => ?_, .dispatchScheduled he hs⟩
      (.stepL ⟨trivial, .push rfl hroom⟩ ?_)⟩
    · omega
    · simpa [List.replicate_succ, he] using hrun

end Scheduled

/-- The transport's buffer, and that of a port. -/
inductive Buffer
  | transport
  | port
deriving DecidableEq

def noOutput (_ : Buffer) : Prop := False

/-- One function more is scheduled than `dispatchQueue` holds. -/
def scheduling (rest : List Buffer) : List Buffer :=
  List.replicate (CAPACITY + 1) .transport ++ rest

/-- All functions are due at once: one is left when the others have filled `dispatchQueue`. -/
theorem exists_filled (rest : List Buffer) :
    ∃ as s, Transition.Run (Transition.restrict Roomy (Step noOutput (· = .transport)))
        (initial (scheduling rest)) as s ∧
      s.script = .running .body rest ∧ s.engine = .running ∧ s.sorted = 1 ∧
      s.dispatchQueue.length = CAPACITY ∧ ∀ b, s.eventQueue b = 0 := by
  obtain ⟨as, hadd⟩ := run_addEvent noOutput (· = .transport)
    (s := initial (scheduling rest)) (b := .transport) (CAPACITY + 1) rfl
    (show 0 + (CAPACITY + 1) ≤ EventBuffer.CAPACITY by decide)
  obtain ⟨bs, hpop⟩ := run_popScheduled noOutput (· = .transport)
    (s := { initial (scheduling rest) with
      script := .running .body rest
      eventQueue := Function.update (fun _ => 0) .transport (CAPACITY + 1) })
    (b := .transport) (CAPACITY + 1) rfl rfl rfl
  obtain ⟨cs, hdispatch⟩ := run_dispatchScheduled noOutput (· = .transport)
    (s := { initial (scheduling rest) with
      script := .running .body rest
      eventQueue := Function.update (Function.update (fun _ => 0) .transport (CAPACITY + 1))
        .transport 0
      sorted := 0 + (CAPACITY + 1) }) CAPACITY 1 rfl rfl (Nat.zero_add _).le
  refine ⟨_, _, (hadd.append hpop).append hdispatch, rfl, rfl, rfl, ?_, ?_⟩
  · simp [initial]
  · intro b
    cases b <;> simp

/-- The last one is dispatched. -/
theorem exists_full (rest : List Buffer) :
    ∃ as s t, Transition.Run (Transition.restrict Roomy (Step noOutput (· = .transport)))
        (initial (scheduling rest)) as s ∧
      Step noOutput (· = .transport) s (.dispatchScheduled []) t ∧
      s.script.remaining = rest ∧ t.script = .running .body rest ∧ t.ProcessStuck ∧
      (∀ b, s.eventQueue b = 0) ∧ ∀ b, t.eventQueue b = 0 := by
  obtain ⟨as, s, hrun, hscript, he, hsorted, hlength, hevents⟩ := exists_filled rest
  refine ⟨as, s, _, hrun, .dispatchScheduled he hsorted, ?_, hscript, ⟨⟨_, rfl⟩, hlength.ge⟩,
    hevents, hevents⟩
  rw [hscript]
  rfl

/-- Two events are left to add, and the queue has room for them. -/
theorem never_both_stuck_full :
    ∃ as t, Transition.Run (Transition.restrict Roomy (Step noOutput (· = .transport)))
        (initial (scheduling [.port, .port])) as t ∧
      t.ProcessStuck ∧ ¬ (t.ScriptStuck ∧ t.ProcessStuck) := by
  obtain ⟨as, s, t, hrun, hstep, hrest, -, hp, hevents, -⟩ := exists_full [.port, .port]
  have hroomy : s.Roomy (.dispatchScheduled []) := by
    intro hfull b
    rw [hrest, hevents b]
    cases b <;> decide
  have hlast := hrun.append (.single ⟨hroomy, hstep⟩)
  exact ⟨_, t, hlast, hp, never_both_stuck hlast⟩

/-- One event more than an `eventQueue` holds is left to add. -/
theorem both_stuck :
    ∃ as t, Transition.Run (Step noOutput (· = .transport))
        (initial (scheduling (List.replicate (EventBuffer.CAPACITY + 1) .port))) as t ∧
      t.ScriptStuck ∧ t.ProcessStuck := by
  obtain ⟨as, s, t, hrun, hstep, -, hscript, hp, -, hevents⟩ :=
    exists_full (List.replicate (EventBuffer.CAPACITY + 1) .port)
  have hfull := hrun.of_restrict.append (.single hstep)
  have hfits : ¬ t.Fits (List.replicate (EventBuffer.CAPACITY + 1) .port) := by
    intro h
    have hcount := h .port
    rw [List.count_replicate_self] at hcount
    omega
  obtain ⟨bs, u, hstuck, hu⟩ := stuck_of_not_fits hscript hp
    (fun b => (hevents b).trans_le (Nat.zero_le _)) hfits
  exact ⟨_, u, hfull.append hstuck, hu⟩

end State

end Bipscript.Dispatch
