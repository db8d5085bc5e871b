import Bipscript.Dispatch
import Bipscript.MemoryPoolRuns
import Bipscript.ObjectCollector

/-! The closures of the process thread: made in its pool, executed by the script thread, and handed
back to be deleted. -/
namespace Bipscript.Closures

open Tlsf Transition

/-- The size of an `EventClosure` of some class, and the words its constructors write: the function,
its parameters, the tables of virtual functions. -/
structure Closure where
  size : ℕ
  fields : List ℕ
  positive : size ≠ 0
  small : size ≤ largestRequest
  room : 8 * fields.length ≤ size

/-- What a queue of closures points to: an `EventClosure`, which is in the pool, or an
`AsyncClosure` of the script thread. -/
inductive Entry
  | event (p : ℕ)
  | async (c : ℕ)

/-- Where the process thread is: between its steps; in the constructors of a closure, `written` of
whose words are written, or of one for which `malloc` returned null; before the push of `dispatch`;
in the loop of `ObjectCollector::free`, one object popped. -/
inductive ProcessPC
  | idle
  | constructing (p : ℕ) (c : Closure) (written : ℕ)
  | constructingNull
  | dispatching (e : Entry)
  | deleting (p : ℕ)

/-- Where the script thread is: in the loop of `waitForRestart` or elsewhere; before the call of
`execute`, or before the one of `recycle`. -/
inductive ScriptPC
  | idle
  | executing (e : Entry)
  | recycling (p : ℕ)

/-- `created` and `executed` keep account: the closures made and where, and those executed with the
words of the memory then. -/
structure State where
  pool : MemoryPool
  process : ProcessPC
  script : ScriptPC
  dispatchQueue : List Entry
  processCollector : ObjectCollector
  created : List (ℕ × Closure)
  executed : List (ℕ × (ℕ → ℕ))

/-- The nodes an `objectQueue` has from its start. -/
def NODES : ℕ := 4096

inductive Act
  | new (c : Closure)
  | construct
  | dispatchAsync (c : ℕ)
  | push
  | next
  | execute
  | recycle (accepted : Bool)
  | pop
  | delete

namespace State

/-- Once its nodes are used up, `objectQueue` allocates another for a push, or refuses it. -/
def mayRefuse (s : State) : Prop := NODES ≤ s.processCollector.objectQueue.length

/-- The steps of the two threads. A push that finds `dispatchQueue` full is tried again, and is no
step. -/
inductive Step (s : State) : Act → State → Prop
  | new {c p pool} (hs : s.process = .idle) (he : s.pool.exec (.malloc c.size) = some pool)
      (hp : pool.live = (p, c.size) :: s.pool.live) :
      Step s (.new c)
        { s with pool, process := .constructing p c 0, created := s.created ++ [(p, c)] }
  | newNull {c pool} (hs : s.process = .idle) (he : s.pool.exec (.malloc c.size) = some pool)
      (hp : pool.live = s.pool.live) :
      Step s (.new c) { s with pool, process := .constructingNull }
  | write {p c i v pool} (hs : s.process = .constructing p c i) (hv : c.fields[i]? = some v)
      (he : s.pool.exec (.store (p + 8 * i) v) = some pool) :
      Step s .construct { s with pool, process := .constructing p c (i + 1) }
  | written {p c} (hs : s.process = .constructing p c c.fields.length) :
      Step s .construct { s with process := .dispatching (.event p) }
  | dispatchAsync {c} (hs : s.process = .idle) :
      Step s (.dispatchAsync c) { s with process := .dispatching (.async c) }
  | push {e} (hs : s.process = .dispatching e)
      (hq : s.dispatchQueue.length < Dispatch.CAPACITY) :
      Step s .push { s with process := .idle, dispatchQueue := s.dispatchQueue ++ [e] }
  | next {e rest} (hs : s.script = .idle) (hq : s.dispatchQueue = e :: rest) :
      Step s .next { s with script := .executing e, dispatchQueue := rest }
  | execute {p} (hs : s.script = .executing (.event p)) :
      Step s .execute
        { s with script := .recycling p, executed := s.executed ++ [(p, s.pool.tlsf.words)] }
  | executeAsync {c} (hs : s.script = .executing (.async c)) :
      Step s .execute { s with script := .idle }
  | recycle {p accepted} (hs : s.script = .recycling p) (hr : accepted = false → s.mayRefuse) :
      Step s (.recycle accepted)
        { s with
          script := .idle
          processCollector := s.processCollector.exec (.recycle p accepted) }
  | pop {p rest} (hs : s.process = .idle) (hq : s.processCollector.objectQueue = p :: rest) :
      Step s .pop
        { s with
          process := .deleting p
          processCollector := { s.processCollector with objectQueue := rest } }
  | delete {p pool} (hs : s.process = .deleting p)
      (he : s.pool.exec (.free (some p)) = some pool) :
      Step s .delete
        { s with
          pool
          process := .idle
          processCollector :=
            { s.processCollector with freed := s.processCollector.freed ++ [p] } }

def initial (pool : MemoryPool) (next : ℕ → Option ℕ) : State where
  pool := pool
  process := .idle
  script := .idle
  dispatchQueue := []
  processCollector := .initial next
  created := []
  executed := []

end State

/-! Where the closures are that are not deleted. -/

def Entry.pointer : Entry → Option ℕ
  | event p => some p
  | async _ => none

/-- The closure a thread is about to delete. -/
def ProcessPC.leaving : ProcessPC → List ℕ
  | deleting p => [p]
  | _ => []

/-- The closure a thread has not put into `dispatchQueue` yet. -/
def ProcessPC.entering : ProcessPC → List ℕ
  | constructing p _ _ => [p]
  | dispatching e => e.pointer.toList
  | _ => []

def ScriptPC.ahead : ScriptPC → List ℕ
  | executing e => e.pointer.toList
  | _ => []

def ScriptPC.behind : ScriptPC → List ℕ
  | recycling p => [p]
  | _ => []

namespace State

/-- The closures not executed yet, in order. -/
def ahead (s : State) : List ℕ :=
  s.script.ahead ++ (s.dispatchQueue.filterMap Entry.pointer ++ s.process.entering)

/-- The closures executed and not deleted, in order. -/
def behind (s : State) : List ℕ :=
  s.process.leaving ++ (s.processCollector.objectQueue ++ s.script.behind)

/-- The closures made and not deleted. -/
def flying (s : State) : List (ℕ × Closure) := s.created.drop s.processCollector.freed.length

/-- How many words of a closure its constructors have written. -/
def written (s : State) (e : ℕ × Closure) : ℕ :=
  match s.process with
  | .constructing p _ i => if e.1 = p then i else e.2.fields.length
  | _ => e.2.fields.length

/-- What a closure is read as when it is executed is what was written. -/
def Reads (r : ℕ × (ℕ → ℕ)) (e : ℕ × Closure) : Prop :=
  r.1 = e.1 ∧ ∀ i v, e.2.fields[i]? = some v → r.2 (e.1 + 8 * i) = v

/-- Closures pass through the threads in one order, the pool holds those that are not deleted, and
none of them waits. -/
structure Flow (s : State) (base total : ℕ) : Prop where
  pool : ∃ row, s.pool.Sound base total row
  order : s.created.map Prod.fst = s.processCollector.freed ++ (s.behind ++ s.ahead)
  executed : s.executed.map Prod.fst = s.processCollector.freed ++ s.behind
  live : s.pool.live.Perm (s.flying.map fun e => (e.1, e.2.size))
  building : ∀ p c i, s.process = .constructing p c i → (p, c) ∈ s.flying ∧ i ≤ c.fields.length
  stored : ∀ e ∈ s.flying, ∀ i < s.written e, ∀ v, e.2.fields[i]? = some v →
    s.pool.stored (e.1 + 8 * i) = some v
  reads : List.Forall₂ Reads s.executed (s.created.take s.executed.length)
  waiting : s.processCollector.waitingList = .empty

variable {s t : State} {base total p i : ℕ} {c : Closure} {e e' : ℕ × Closure} {pool : MemoryPool}

theorem Flow.flying_map (h : s.Flow base total) :
    s.flying.map Prod.fst = s.behind ++ s.ahead := by
  unfold flying
  rw [List.map_drop, h.order, List.drop_left]

theorem Flow.length_le (h : s.Flow base total) :
    s.processCollector.freed.length ≤ s.executed.length ∧
      s.executed.length ≤ s.created.length := by
  have hexecuted := congrArg List.length h.executed
  have hcreated := congrArg List.length h.order
  simp only [List.length_map, List.length_append] at hexecuted hcreated
  omega

theorem Flow.mem_live (h : s.Flow base total) (he : e ∈ s.flying) :
    (e.1, e.2.size) ∈ s.pool.live :=
  h.live.mem_iff.mpr (List.mem_map.mpr ⟨e, he, rfl⟩)

theorem Flow.nodup (h : s.Flow base total) : (s.flying.map Prod.fst).Nodup := by
  obtain ⟨row, hsound⟩ := h.pool
  have hperm := h.live.map Prod.fst
  rw [List.map_map] at hperm
  exact hperm.nodup_iff.mp hsound.nodup

theorem Flow.unique (h : s.Flow base total) (he : e ∈ s.flying) (he' : e' ∈ s.flying)
    (heq : e.1 = e'.1) : e = e' :=
  List.inj_on_of_nodup_map h.nodup he he' heq

/-- A word of a closure lies in what was asked for it. -/
theorem Closure.word_lt {v : ℕ} (hv : c.fields[i]? = some v) : 8 * i + 8 ≤ c.size := by
  have hi := (List.getElem?_eq_some_iff.mp hv).1
  have hroom := c.room
  omega

/-- Words of two closures are apart. -/
theorem Flow.apart {q j v w : ℕ} {d : Closure} (h : s.Flow base total) (he : (p, c) ∈ s.flying)
    (he' : (q, d) ∈ s.flying) (hne : p ≠ q) (hv : c.fields[i]? = some v)
    (hw : d.fields[j]? = some w) : p + 8 * i ≠ q + 8 * j := by
  obtain ⟨row, hsound⟩ := h.pool
  have hi := Closure.word_lt hv
  have hj := Closure.word_lt hw
  rcases hsound.apart (h.mem_live he) (h.mem_live he') hne with hlt | hlt
  · simp only at hlt
    omega
  · simp only at hlt
    omega

/-- A step that moves no closure past another keeps the flow, if the words written stay. -/
theorem Flow.move (h : s.Flow base total) (hpool : ∃ row, t.pool.Sound base total row)
    (hlive : t.pool.live = s.pool.live) (hcreated : t.created = s.created)
    (hexecuted : t.executed = s.executed)
    (hfreed : t.processCollector.freed = s.processCollector.freed)
    (hwaiting : t.processCollector.waitingList = .empty) (hbehind : t.behind = s.behind)
    (hahead : t.ahead = s.ahead)
    (hbuilding : ∀ p c i, t.process = .constructing p c i →
      (p, c) ∈ s.flying ∧ i ≤ c.fields.length)
    (hstored : ∀ e ∈ s.flying, ∀ i < t.written e, ∀ v, e.2.fields[i]? = some v →
      t.pool.stored (e.1 + 8 * i) = some v) : t.Flow base total := by
  have hflying : t.flying = s.flying := by
    unfold flying
    rw [hcreated, hfreed]
  refine ⟨hpool, ?_, ?_, ?_, ?_, ?_, ?_, hwaiting⟩
  · rw [hcreated, hfreed, hbehind, hahead]
    exact h.order
  · rw [hexecuted, hfreed, hbehind]
    exact h.executed
  · rw [hlive, hflying]
    exact h.live
  · rw [hflying]
    exact hbuilding
  · rw [hflying]
    exact hstored
  · rw [hexecuted, hcreated]
    exact h.reads

/-- Where no closure is under construction at its place, all words of it are written. -/
theorem Flow.complete (h : s.Flow base total) (he : e ∈ s.flying)
    (hne : ∀ p c i, s.process = .constructing p c i → e.1 ≠ p) {v : ℕ}
    (hv : e.2.fields[i]? = some v) : s.pool.stored (e.1 + 8 * i) = some v := by
  refine h.stored e he i ?_ v hv
  have hi := (List.getElem?_eq_some_iff.mp hv).1
  unfold written
  split
  · rename_i p c j hs
    rwa [if_neg (hne p c j hs)]
  · exact hi

/-! The steps. -/

theorem Flow.newNull (h : s.Flow base total) (hs : s.process = .idle)
    (he : s.pool.exec (.malloc c.size) = some pool) (hp : pool.live = s.pool.live) :
    ({ s with pool, process := .constructingNull } : State).Flow base total := by
  have hpool : ∃ row, pool.Sound base total row := by
    obtain ⟨row, hsound⟩ := h.pool
    obtain ⟨t, row', he', -, hsound'⟩ := hsound.malloc c.small
    obtain rfl : pool = t := Option.some_inj.mp (he.symm.trans he')
    exact ⟨row', hsound'⟩
  refine h.move hpool hp rfl rfl rfl h.waiting ?_ ?_ ?_ ?_
  · simp [behind, hs, ProcessPC.leaving]
  · simp [ahead, hs, ProcessPC.entering]
  · rintro p c i ⟨⟩
  · intro e hmem i hi v hv
    rcases MemoryPool.exec_malloc he with ⟨-, hstored⟩ | ⟨p, hcons, -⟩
    · rw [hstored]
      exact h.complete hmem (by simp [hs]) hv
    · rw [hp] at hcons
      exact (List.cons_ne_self _ _ hcons.symm).elim

theorem Flow.new (h : s.Flow base total) (hs : s.process = .idle)
    (he : s.pool.exec (.malloc c.size) = some pool) (hp : pool.live = (p, c.size) :: s.pool.live) :
    ({ s with pool, process := .constructing p c 0, created := s.created ++ [(p, c)] } :
      State).Flow base total := by
  obtain ⟨row, hsound⟩ := h.pool
  obtain ⟨t, row', he', -, hsound'⟩ := hsound.malloc c.small
  obtain rfl : pool = t := Option.some_inj.mp (he.symm.trans he')
  obtain ⟨hle, hle'⟩ := h.length_le
  have hflying :
      ({ s with pool, process := .constructing p c 0, created := s.created ++ [(p, c)] } :
      State).flying = s.flying ++ [(p, c)] := by
    unfold flying
    exact List.drop_append_of_le_length (hle.trans hle')
  have hfresh : ∀ e ∈ s.flying, e.1 ≠ p ∧ (e.1 + e.2.size ≤ p ∨ p + c.size ≤ e.1) := by
    intro e hmem
    have hnodup := hsound'.nodup
    rw [hp, List.map_cons] at hnodup
    have hne : e.1 ≠ p := by
      rintro rfl
      exact (List.nodup_cons.mp hnodup).1 (List.mem_map.mpr ⟨_, h.mem_live hmem, rfl⟩)
    refine ⟨hne, hsound'.apart ?_ ?_ hne⟩
    · rw [hp]
      exact List.mem_cons_of_mem _ (h.mem_live hmem)
    · rw [hp]
      exact List.mem_cons_self
  refine ⟨⟨row', hsound'⟩, ?_, ?_, ?_, ?_, ?_, ?_, h.waiting⟩
  · have horder := h.order
    simp only [behind, ahead, hs, ProcessPC.leaving, ProcessPC.entering] at horder ⊢
    simp [horder]
  · have hexecuted := h.executed
    simp only [behind, hs, ProcessPC.leaving] at hexecuted ⊢
    exact hexecuted
  · rw [hflying, List.map_append, List.map_singleton]
    simp only [hp]
    exact (List.Perm.cons _ h.live).trans (List.perm_append_singleton _ _).symm
  · rintro q d i ⟨⟩
    rw [hflying]
    exact ⟨List.mem_append_right _ (List.mem_singleton_self _), Nat.zero_le _⟩
  · rw [hflying]
    intro e hmem i hi v hv
    rcases List.mem_append.mp hmem with hmem | hmem
    · obtain ⟨hne, hapart⟩ := hfresh e hmem
      have hold := h.complete hmem (by simp [hs]) hv
      have hword := Closure.word_lt hv
      rcases MemoryPool.exec_malloc he with ⟨hlive, -⟩ | ⟨q, hcons, hstored⟩
      · rw [hlive] at hp
        exact (List.cons_ne_self _ _ hp.symm).elim
      · obtain rfl : q = p := congrArg Prod.fst (List.head_eq_of_cons_eq (hcons.symm.trans hp))
        have hout : ¬ (q ≤ e.1 + 8 * i ∧ e.1 + 8 * i < q + c.size) := by omega
        simp only [hstored, if_neg hout]
        exact hold
    · rw [List.mem_singleton.mp hmem] at hi
      simp [written] at hi
  · have htake : (s.created ++ [(p, c)]).take s.executed.length =
        s.created.take s.executed.length := List.take_append_of_le_length hle'
    simp only [htake]
    exact h.reads

theorem Flow.write {v : ℕ} (h : s.Flow base total) (hs : s.process = .constructing p c i)
    (hv : c.fields[i]? = some v) (he : s.pool.exec (.store (p + 8 * i) v) = some pool) :
    ({ s with pool, process := .constructing p c (i + 1) } : State).Flow base total := by
  obtain ⟨hmem, -⟩ := h.building p c i hs
  have hword := Closure.word_lt hv
  obtain ⟨row, hsound⟩ := h.pool
  have hbounds := hsound.bounds (h.mem_live hmem)
  simp only at hbounds
  have hallowed : s.pool.Allowed (.store (p + 8 * i) v) :=
    ⟨by omega, p, c.size, h.mem_live hmem, by omega, by omega⟩
  obtain ⟨t, row', he', -, hsound'⟩ := hsound.exec hallowed
  obtain rfl : pool = t := Option.some_inj.mp (he.symm.trans he')
  obtain rfl := Option.some_inj.mp he
  refine h.move ⟨row', hsound'⟩ rfl rfl rfl rfl h.waiting ?_ ?_ ?_ ?_
  · simp [behind, hs, ProcessPC.leaving]
  · simp [ahead, hs, ProcessPC.entering]
  · rintro q d j ⟨⟩
    exact ⟨hmem, (List.getElem?_eq_some_iff.mp hv).1⟩
  · rintro ⟨q, d⟩ hmem' j hj w hw
    by_cases hqp : q = p
    · obtain rfl : q = p := hqp
      obtain rfl : d = c := congrArg Prod.snd (h.unique hmem' hmem rfl)
      have hj : j < i + 1 := by simpa [written] using hj
      by_cases hji : j = i
      · subst hji
        rw [Option.some_inj.mp (hw.symm.trans hv)]
        exact Function.update_self ..
      · have hne : q + 8 * j ≠ q + 8 * i := by omega
        refine (Function.update_of_ne hne ..).trans (h.stored _ hmem' j ?_ w hw)
        simp only [written, hs, if_true]
        omega
    · have hne : q + 8 * j ≠ p + 8 * i := h.apart hmem' hmem hqp hw hv
      refine (Function.update_of_ne hne ..).trans (h.complete hmem' ?_ hw)
      rintro p' c' i' hs'
      obtain ⟨rfl, -, -⟩ := ProcessPC.constructing.inj (hs.symm.trans hs')
      exact hqp

theorem Flow.written (h : s.Flow base total) (hs : s.process = .constructing p c c.fields.length) :
    ({ s with process := .dispatching (.event p) } : State).Flow base total := by
  obtain ⟨hmem, -⟩ := h.building p c _ hs
  refine h.move h.pool rfl rfl rfl rfl h.waiting ?_ ?_ ?_ ?_
  · simp [behind, hs, ProcessPC.leaving]
  · simp [ahead, hs, ProcessPC.entering, Entry.pointer]
  · rintro q d j ⟨⟩
  · intro e hmem' j hj w hw
    refine h.stored e hmem' j ?_ w hw
    have hj : j < e.2.fields.length := hj
    simp only [State.written, hs]
    split
    · rename_i heq
      obtain rfl := h.unique hmem' hmem heq
      exact hj
    · exact hj

theorem Flow.dispatchAsync (h : s.Flow base total) (hs : s.process = .idle) (a : ℕ) :
    ({ s with process := .dispatching (.async a) } : State).Flow base total := by
  refine h.move h.pool rfl rfl rfl rfl h.waiting ?_ ?_ ?_ ?_
  · simp [behind, hs, ProcessPC.leaving]
  · simp [ahead, hs, ProcessPC.entering, Entry.pointer]
  · rintro p c i ⟨⟩
  · intro e hmem j _ w hw
    exact h.complete hmem (by simp [hs]) hw

theorem Flow.push {e : Entry} (h : s.Flow base total) (hs : s.process = .dispatching e) :
    ({ s with process := .idle, dispatchQueue := s.dispatchQueue ++ [e] } : State).Flow
      base total := by
  refine h.move h.pool rfl rfl rfl rfl h.waiting ?_ ?_ ?_ ?_
  · simp [behind, hs, ProcessPC.leaving]
  · cases e with
    | event p => simp [ahead, hs, ProcessPC.entering, Entry.pointer]
    | async a => simp [ahead, hs, ProcessPC.entering, Entry.pointer]
  · rintro q d j ⟨⟩
  · intro e' hmem j _ w hw
    exact h.complete hmem (by simp [hs]) hw

theorem Flow.next {e : Entry} {rest : List Entry} (h : s.Flow base total) (hs : s.script = .idle)
    (hq : s.dispatchQueue = e :: rest) :
    ({ s with script := .executing e, dispatchQueue := rest } : State).Flow base total := by
  refine h.move h.pool rfl rfl rfl rfl h.waiting ?_ ?_ h.building h.stored
  · simp [behind, hs, ScriptPC.behind]
  · cases e with
    | event p => simp [ahead, hs, hq, ScriptPC.ahead, Entry.pointer]
    | async a => simp [ahead, hs, hq, ScriptPC.ahead, Entry.pointer, List.filterMap_cons]

theorem Flow.executeAsync {a : ℕ} (h : s.Flow base total) (hs : s.script = .executing (.async a)) :
    ({ s with script := .idle } : State).Flow base total := by
  refine h.move h.pool rfl rfl rfl rfl h.waiting ?_ ?_ h.building h.stored
  · simp [behind, hs, ScriptPC.behind]
  · simp [ahead, hs, ScriptPC.ahead, Entry.pointer]

theorem Flow.pop {rest : List ℕ} (h : s.Flow base total) (hs : s.process = .idle)
    (hq : s.processCollector.objectQueue = p :: rest) :
    ({ s with
      process := .deleting p
      processCollector := { s.processCollector with objectQueue := rest } } : State).Flow
        base total := by
  refine h.move h.pool rfl rfl rfl rfl h.waiting ?_ ?_ ?_ ?_
  · simp [behind, hs, hq, ProcessPC.leaving]
  · simp [ahead, hs, ProcessPC.entering]
  · rintro q d j ⟨⟩
  · intro e' hmem j _ w hw
    exact h.complete hmem (by simp [hs]) hw

theorem Flow.recycle (h : s.Flow base total) (hs : s.script = .recycling p) :
    ({ s with
      script := .idle
      processCollector := s.processCollector.exec (.recycle p true) } : State).Flow base total := by
  refine h.move h.pool rfl rfl rfl rfl h.waiting ?_ ?_ h.building h.stored
  · simp [behind, hs, ScriptPC.behind, ObjectCollector.exec, ObjectCollector.recycle,
      ObjectCollector.push]
  · simp [ahead, hs, ScriptPC.ahead]

/-- What the script thread reads of a closure is what the process thread wrote. -/
theorem Flow.execute (h : s.Flow base total) (hs : s.script = .executing (.event p)) :
    ({ s with script := .recycling p, executed := s.executed ++ [(p, s.pool.tlsf.words)] } :
      State).Flow base total := by
  obtain ⟨row, hsound⟩ := h.pool
  have hahead : s.ahead = p :: (s.dispatchQueue.filterMap Entry.pointer ++ s.process.entering) := by
    simp [ahead, hs, ScriptPC.ahead, Entry.pointer]
  have hbehind : s.behind = s.process.leaving ++ s.processCollector.objectQueue := by
    simp [behind, hs, ScriptPC.behind]
  -- the closure is the next one of those created
  have hsplit : s.created.map Prod.fst = s.executed.map Prod.fst ++ s.ahead := by
    rw [h.order, h.executed, List.append_assoc]
  have hnth : (s.created.map Prod.fst)[s.executed.length]? = some p := by
    rw [hsplit, List.getElem?_append_right (by simp), hahead]
    simp
  obtain ⟨⟨q, c⟩, hget, hq⟩ := List.getElem?_map.symm.trans hnth |> Option.map_eq_some_iff.mp
  obtain rfl : q = p := hq
  have hmem : (q, c) ∈ s.flying := by
    obtain ⟨hle, -⟩ := h.length_le
    refine List.mem_of_getElem? (i := s.executed.length - s.processCollector.freed.length) ?_
    unfold flying
    rw [List.getElem?_drop, Nat.add_sub_cancel' hle]
    exact hget
  have hbuilt : ∀ p' c' i, s.process = .constructing p' c' i → q ≠ p' := by
    rintro p' c' i hs' rfl
    have hnodup := h.nodup
    rw [h.flying_map, hahead, hs', ProcessPC.entering] at hnodup
    simp [List.nodup_append] at hnodup
  have hread : Reads (q, s.pool.tlsf.words) (q, c) := by
    refine ⟨rfl, fun i v hv => ?_⟩
    have hword : 8 * i + 8 ≤ c.size := Closure.word_lt hv
    have hbounds := hsound.bounds (h.mem_live hmem)
    simp only at hbounds ⊢
    exact hsound.stored q c.size (h.mem_live hmem) _ v (by omega) (by omega) (by omega)
      (h.complete hmem hbuilt hv)
  refine ⟨⟨row, hsound⟩, ?_, ?_, h.live, h.building, h.stored, ?_, h.waiting⟩
  · have horder := h.order
    rw [hbehind, hahead] at horder
    simp only [behind, ahead, ScriptPC.behind, ScriptPC.ahead]
    simp [horder]
  · have hexecuted := h.executed
    rw [hbehind] at hexecuted
    simp only [behind, ScriptPC.behind]
    simp [hexecuted]
  · have htake : s.created.take (s.executed ++ [(q, s.pool.tlsf.words)]).length =
        s.created.take s.executed.length ++ [(q, c)] := by
      rw [List.length_append, List.length_singleton, List.take_add_one, hget]
      rfl
    simp only [htake]
    exact List.rel_append h.reads (.cons hread .nil)

theorem Flow.delete (h : s.Flow base total) (hs : s.process = .deleting p) :
    ∃ pool, s.pool.exec (.free (some p)) = some pool ∧
      ({ s with
        pool
        process := .idle
        processCollector :=
          { s.processCollector with freed := s.processCollector.freed ++ [p] } } : State).Flow
            base total := by
  obtain ⟨row, hsound⟩ := h.pool
  have hbehind : s.behind = p :: (s.processCollector.objectQueue ++ s.script.behind) := by
    simp [behind, hs, ProcessPC.leaving]
  have hahead : s.ahead = s.script.ahead ++ s.dispatchQueue.filterMap Entry.pointer := by
    simp [ahead, hs, ProcessPC.entering]
  obtain ⟨c, rest, hflying⟩ : ∃ c rest, s.flying = (p, c) :: rest := by
    have hmap := h.flying_map
    rw [hbehind] at hmap
    obtain ⟨⟨q, c⟩, rest, hflying, rfl, -⟩ := List.map_eq_cons_iff.mp hmap
    exact ⟨c, rest, hflying⟩
  have hmem : (p, c) ∈ s.flying := by
    rw [hflying]
    exact List.mem_cons_self
  have hother : ∀ e ∈ rest, e.1 ≠ p := by
    have hnodup := h.nodup
    rw [hflying, List.map_cons] at hnodup
    rintro e he rfl
    exact (List.nodup_cons.mp hnodup).1 (List.mem_map.mpr ⟨e, he, rfl⟩)
  have hallowed : s.pool.Allowed (.free (some p)) := ⟨c.size, h.mem_live hmem⟩
  obtain ⟨pool, row', he, -, hsound'⟩ := hsound.exec hallowed
  obtain ⟨hlive, hstored⟩ := MemoryPool.exec_free he
  have hrest : s.created.drop (s.processCollector.freed ++ [p]).length = rest := by
    rw [List.length_append, List.length_singleton, ← List.drop_drop]
    exact congrArg (List.drop 1) hflying
  refine ⟨pool, he, ⟨row', hsound'⟩, ?_, ?_, ?_, ?_, ?_, h.reads, h.waiting⟩
  · have horder := h.order
    rw [hbehind, hahead] at horder
    simp only [behind, ahead, ProcessPC.leaving, ProcessPC.entering]
    simp [horder]
  · have hexecuted := h.executed
    rw [hbehind] at hexecuted
    simp only [behind, ProcessPC.leaving]
    simp [hexecuted]
  · unfold flying
    simp only [hrest, hlive]
    have hperm := h.live.filter fun e => e.1 ≠ p
    rw [hflying, List.map_cons, List.filter_cons_of_neg (by simp)] at hperm
    refine hperm.trans (List.Perm.of_eq (List.filter_eq_self.mpr ?_))
    intro e hmem'
    obtain ⟨e', he', rfl⟩ := List.mem_map.mp hmem'
    exact decide_eq_true (hother e' he')
  · rintro q d j ⟨⟩
  · unfold flying
    simp only [hrest, hstored]
    intro e hmem' j _ w hw
    refine h.complete ?_ (by simp [hs]) hw
    rw [hflying]
    exact List.mem_cons_of_mem _ hmem'

end State

end Bipscript.Closures
