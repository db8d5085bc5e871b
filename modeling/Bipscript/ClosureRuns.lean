import Bipscript.Closures

/-! What holds of the process thread's closures in every run of the two threads. -/
namespace Bipscript.Closures.State

open Tlsf Transition

variable {s t : State} {a : Act} {acts : List Act} {pool : MemoryPool} {mem bytes base total k : ℕ}
  {words : ℕ → ℕ} {next : ℕ → Option ℕ}

/-! Every step keeps the flow. -/

theorem Flow.length_eq (h : s.Flow base total) :
    s.pool.live.length = s.behind.length + s.ahead.length := by
  have hlive := h.live.length_eq
  have hflying := congrArg List.length h.flying_map
  simp only [List.length_map, List.length_append] at hlive hflying
  omega

/-- The pool holds too few closures to use up the nodes of `objectQueue`. -/
theorem Flow.not_mayRefuse {p : ℕ} (h : s.Flow base total) (htotal : total ≤ 32 * NODES)
    (hs : s.script = .recycling p) : ¬ s.mayRefuse := by
  intro hrefuse
  obtain ⟨row, hsound⟩ := h.pool
  have hroom := hsound.room (m := 0) fun _ _ _ => Nat.zero_le _
  have hlength := h.length_eq
  have hsize : 8 + max 0 24 = 32 := rfl
  rw [hsize] at hroom
  unfold mayRefuse at hrefuse
  simp only [behind, hs, ScriptPC.behind, List.length_append, List.length_singleton] at hlength
  omega

theorem Flow.step (h : s.Flow base total) (htotal : total ≤ 32 * NODES) (hstep : Step s a t) :
    t.Flow base total := by
  cases hstep with
  | new hs he hp => exact h.new hs he hp
  | newNull hs he hp => exact h.newNull hs he hp
  | write hs hv he => exact h.write hs hv he
  | written hs => exact h.written hs
  | dispatchAsync hs => exact h.dispatchAsync hs _
  | push hs hq => exact h.push hs
  | next hs hq => exact h.next hs hq
  | execute hs => exact h.execute hs
  | executeAsync hs => exact h.executeAsync hs
  | @recycle p accepted hs hr =>
    cases accepted with
    | true => exact h.recycle hs
    | false => exact (h.not_mayRefuse htotal hs (hr rfl)).elim
  | pop hs hq => exact h.pop hs hq
  | delete hs he =>
    obtain ⟨pool, he', hflow⟩ := h.delete hs
    obtain rfl := Option.some_inj.mp (he.symm.trans he')
    exact hflow

theorem flow_initial (h0 : 0 < mem) (hmem : mem % 8 = 0) (hmin : 24 ≤ poolBytes bytes)
    (hmax : 8 + poolBytes bytes ≤ 32 * NODES) (hs : MemoryPool.create mem bytes words = some pool) :
    (initial pool next).Flow (mem + 6528) (8 + poolBytes bytes) := by
  have hnodes : NODES = 4096 := rfl
  obtain ⟨pool', hs', hlive, hsound⟩ :=
    MemoryPool.create_sound words h0 hmem hmin (by omega)
  obtain rfl : pool = pool' := Option.some_inj.mp (hs.symm.trans hs')
  refine ⟨⟨_, hsound⟩, rfl, rfl, ?_, ?_, ?_, .nil, rfl⟩
  · exact List.Perm.of_eq hlive
  · rintro p c i ⟨⟩
  · intro e he
    cases he

/-- The flow in every run of a pool too small to use up the nodes of `objectQueue`. -/
theorem flow_of_run (h0 : 0 < mem) (hmem : mem % 8 = 0) (hmin : 24 ≤ poolBytes bytes)
    (hmax : 8 + poolBytes bytes ≤ 32 * NODES) (hs : MemoryPool.create mem bytes words = some pool)
    (hrun : Run Step (initial pool next) acts s) :
    s.Flow (mem + 6528) (8 + poolBytes bytes) :=
  hrun.invariant (I := fun s => s.Flow (mem + 6528) (8 + poolBytes bytes))
    (fun _ _ _ hstep h => h.step hmax hstep) (flow_initial h0 hmem hmin hmax hs)

/-! Nothing stops the threads but a full queue and a null pointer. -/

theorem Flow.construct_step {p i : ℕ} {c : Closure} (h : s.Flow base total)
    (hs : s.process = .constructing p c i) : ∃ t, Step s .construct t := by
  obtain ⟨-, hle⟩ := h.building p c i hs
  rcases Nat.lt_or_ge i c.fields.length with hi | hi
  · exact ⟨_, .write hs (List.getElem?_eq_getElem hi) rfl⟩
  · obtain rfl : i = c.fields.length := by omega
    exact ⟨_, .written hs⟩

theorem Flow.delete_step {p : ℕ} (h : s.Flow base total) (hs : s.process = .deleting p) :
    ∃ t, Step s .delete t := by
  obtain ⟨pool, he, -⟩ := h.delete hs
  exact ⟨_, .delete hs he⟩

/-! How much is left to do for the closures made so far. -/

def ProcessPC.left : ProcessPC → ℕ
  | .idle | .constructingNull => 0
  | .constructing _ c i => 7 + (c.fields.length - i)
  | .dispatching _ => 6
  | .deleting _ => 1

def ScriptPC.left : ScriptPC → ℕ
  | .idle => 0
  | .executing _ => 4
  | .recycling _ => 3

def left (s : State) : ℕ :=
  ProcessPC.left s.process + 5 * s.dispatchQueue.length + ScriptPC.left s.script +
    2 * s.processCollector.objectQueue.length

/-- The steps that bring in another closure. -/
def Enters : Act → Prop
  | .new _ | .dispatchAsync _ => True
  | _ => False

theorem Step.left_lt (hstep : Step s a t) (ha : ¬ Enters a) : t.left < s.left := by
  cases hstep with
  | new | newNull | dispatchAsync => exact (ha trivial).elim
  | write hs hv =>
    have hi := (List.getElem?_eq_some_iff.mp hv).1
    simp only [left, hs, ProcessPC.left]
    omega
  | written hs =>
    simp only [left, hs, ProcessPC.left]
    omega
  | push hs =>
    simp only [left, hs, ProcessPC.left, List.length_append, List.length_singleton]
    omega
  | next hs hq =>
    simp only [left, hs, hq, ScriptPC.left, List.length_cons]
    omega
  | execute hs =>
    simp only [left, hs, ScriptPC.left]
    omega
  | executeAsync hs =>
    simp only [left, hs, ScriptPC.left]
    omega
  | @recycle p accepted hs hr =>
    cases accepted with
    | true =>
      simp only [left, hs, ScriptPC.left, ObjectCollector.exec, ObjectCollector.recycle,
        ObjectCollector.push, List.length_append, List.length_singleton, if_true]
      omega
    | false =>
      simp only [left, hs, ScriptPC.left, ObjectCollector.exec, ObjectCollector.recycle,
        ObjectCollector.addWaiting, Bool.false_eq_true, if_false]
      omega
  | pop hs hq =>
    simp only [left, hs, hq, ProcessPC.left, List.length_cons]
    omega
  | delete hs =>
    simp only [left, hs, ProcessPC.left]
    omega

/-- Unless a null pointer stopped the process thread, something can be done as long as something is
left to do. -/
theorem Flow.exists_step (h : s.Flow base total) (hnull : s.process ≠ .constructingNull)
    (hleft : s.behind ++ s.ahead ≠ []) : ∃ a t, Step s a t ∧ ¬ Enters a := by
  cases hscript : s.script with
  | executing e =>
    cases e with
    | event p => exact ⟨_, _, .execute hscript, id⟩
    | async c => exact ⟨_, _, .executeAsync hscript, id⟩
  | recycling p => exact ⟨.recycle true, _, .recycle hscript (by rintro ⟨⟩), id⟩
  | idle =>
    cases hqueue : s.dispatchQueue with
    | cons e rest => exact ⟨_, _, .next hscript hqueue, id⟩
    | nil =>
      cases hprocess : s.process with
      | constructingNull => exact (hnull hprocess).elim
      | constructing p c i =>
        obtain ⟨t, hstep⟩ := h.construct_step hprocess
        exact ⟨_, t, hstep, id⟩
      | dispatching e =>
        have hroom : s.dispatchQueue.length < Dispatch.CAPACITY := by
          rw [hqueue]
          decide
        exact ⟨_, _, .push hprocess hroom, id⟩
      | deleting p =>
        obtain ⟨t, hstep⟩ := h.delete_step hprocess
        exact ⟨_, t, hstep, id⟩
      | idle =>
        cases hobjects : s.processCollector.objectQueue with
        | cons p rest => exact ⟨_, _, .pop hprocess hobjects, id⟩
        | nil =>
          simp [behind, ahead, hscript, hqueue, hprocess, hobjects, ProcessPC.leaving,
            ProcessPC.entering, ScriptPC.ahead, ScriptPC.behind] at hleft

theorem Step.process_ne_null (hstep : Step s a t) (ha : ¬ Enters a)
    (h : s.process ≠ .constructingNull) : t.process ≠ .constructingNull := by
  cases hstep with
  | new | newNull | dispatchAsync => exact (ha trivial).elim
  | write | written | push | pop | delete => simp
  | next | execute | executeAsync | recycle => exact h

theorem Step.created_eq (hstep : Step s a t) (ha : ¬ Enters a) : t.created = s.created := by
  cases hstep with
  | new | newNull | dispatchAsync => exact (ha trivial).elim
  | write | written | push | pop | delete | next | execute | executeAsync | recycle => rfl

/-! What the process thread does, and a run of it. -/

/-- Closures of no more than `k` bytes are made where few enough are not deleted yet. -/
def Roomy (k total : ℕ) (s : State) : Act → Prop
  | .new c => c.size ≤ k ∧
      s.flying.length * (k + 32) + (s.flying.length + 1) * (8 + k + k / 32) < total
  | _ => True

/-- What an `EventClosure` has besides its parameters: two tables, the function, the next one. -/
def SHARED : ℕ := 56

/-- Closures of the process thread alone are dispatched. -/
def Large : Act → Prop
  | .new c => SHARED ≤ c.size
  | .dispatchAsync _ => False
  | _ => True

/-- A closure of one word is made, executed and handed back; then it is deleted. -/
theorem run_one :
    ∃ pool c d t u, MemoryPool.create 16 8000 (fun _ => 0) = some pool ∧ c.fields = [7] ∧
      Run (restrict (fun s a => Roomy 104 (8 + poolBytes 8000) s a ∧ Large a) Step)
        (initial pool fun _ => none) [.new c, .construct, .construct] d ∧
      d.process = .dispatching (.event 6560) ∧
      Run Step d [.push, .next, .execute, .recycle true] t ∧ t.created = [(6560, c)] ∧
      t.executed.map Prod.fst = [6560] ∧ t.process = .idle ∧
      Run (restrict (fun _ a => ¬ Enters a) Step) t [.pop, .delete] u ∧ u.left = 0 := by
  obtain ⟨pool, pool₁, -, hpool, ⟨-, he⟩, hlive, -⟩ := MemoryPool.create_malloc_free
  have hstart : ∃ s, MemoryPool.create 16 8000 (fun _ => 0) = some s ∧ s.live = [] ∧
      s.Sound (16 + 6528) (8 + poolBytes 8000) [⟨poolBytes 8000, true⟩] :=
    MemoryPool.create_sound _ (by decide) rfl (by decide) (by decide)
  obtain ⟨pool', hpool', hempty, -⟩ := hstart
  obtain rfl : pool = pool' := Option.some_inj.mp (hpool.symm.trans hpool')
  have hsize : 100 ≠ 0 := by decide
  have hsmall : 100 ≤ largestRequest := by decide
  have hroom : 8 * [7].length ≤ 100 := by decide
  have hnew : pool₁.live = (6560, 100) :: pool.live := by rw [hlive, hempty]
  have hqueue : ([] : List Entry).length < Dispatch.CAPACITY := by decide
  have hroomy : Roomy 104 (8 + poolBytes 8000) (initial pool fun _ => none)
      (.new ⟨100, [7], hsize, hsmall, hroom⟩) := by
    have hbound : 100 ≤ 104 := by decide
    refine ⟨hbound, ?_⟩
    simp only [flying, initial]
    decide
  have hlarge : Large (.new ⟨100, [7], hsize, hsmall, hroom⟩) := show 56 ≤ 100 by decide
  have hrun : ∃ d t, Run (restrict (fun s a => Roomy 104 (8 + poolBytes 8000) s a ∧ Large a) Step)
      (initial pool fun _ => none) [.new ⟨100, [7], hsize, hsmall, hroom⟩, .construct, .construct]
        d ∧ d.process = .dispatching (.event 6560) ∧
      Run Step d [.push, .next, .execute, .recycle true] t ∧
      t.created = [(6560, ⟨100, [7], hsize, hsmall, hroom⟩)] ∧
      t.executed.map Prod.fst = [6560] ∧ t.process = .idle ∧
      t.processCollector.objectQueue = [6560] ∧ t.left = 2 := by
    refine ⟨_, _, .stepL ⟨⟨hroomy, hlarge⟩, .new rfl he hnew⟩ (.stepL ⟨⟨trivial, trivial⟩,
      .write rfl rfl rfl⟩ (.single ⟨⟨trivial, trivial⟩, .written rfl⟩)), rfl,
      .stepL (.push rfl hqueue) (.stepL (.next rfl rfl) (.stepL (.execute rfl)
        (.single (.recycle rfl ?_)))), rfl, rfl, rfl, rfl, rfl⟩
    rintro ⟨⟩
  obtain ⟨d, t, hmade, hdispatch, hrun, hcreated, hexecuted, hprocess, hobjects, hleft⟩ := hrun
  have hflow := flow_of_run (by decide) rfl (by decide) (by decide) hpool
    (hmade.of_restrict.append hrun)
  have hpop := Step.pop hprocess hobjects
  obtain ⟨u, hdelete⟩ := (hflow.step (by decide) hpop).delete_step rfl
  have h₁ := hpop.left_lt id
  have h₂ := hdelete.left_lt id
  exact ⟨pool, _, d, t, u, hpool, rfl, hmade, hdispatch, hrun, hcreated, hexecuted, hprocess,
    .stepL ⟨id, hpop⟩ (.single ⟨id, hdelete⟩), by omega⟩

/-! The statements about runs. -/

/-- Closures are executed in the order they were made, each with the words it was made with, and
deleted in that order once they were executed; the pool holds the others. -/
theorem run_order (h0 : 0 < mem) (hmem : mem % 8 = 0) (hmin : 24 ≤ poolBytes bytes)
    (hmax : 8 + poolBytes bytes ≤ 32 * NODES) (hs : MemoryPool.create mem bytes words = some pool)
    (hrun : Run Step (initial pool next) acts s) :
    s.processCollector.freed <+: s.executed.map Prod.fst ∧
      s.executed.map Prod.fst <+: s.created.map Prod.fst ∧
      List.Forall₂ Reads s.executed (s.created.take s.executed.length) ∧
      s.pool.live.Perm ((s.created.drop s.processCollector.freed.length).map fun e =>
        (e.1, e.2.size)) := by
  have h := flow_of_run h0 hmem hmin hmax hs hrun
  refine ⟨?_, ?_, h.reads, h.live⟩
  · rw [h.executed]
    exact List.prefix_append _ _
  · rw [h.executed, h.order, ← List.append_assoc]
    exact List.prefix_append _ _

theorem run_order_one :
    ∃ (pool : MemoryPool) (c : Closure) (t : State) (acts : List Act),
      MemoryPool.create 16 8000 (fun _ => 0) = some pool ∧ c.fields = [7] ∧
      Run Step (initial pool fun _ => none) acts t ∧
      ∃ w, t.executed = [(6560, w)] ∧ w 6560 = 7 := by
  obtain ⟨pool, c, d, t, -, hpool, hfields, hmade, -, hrun, hcreated, hexecuted, -⟩ := run_one
  have hall := hmade.of_restrict.append hrun
  obtain ⟨-, -, hreads, -⟩ := run_order (by decide) rfl (by decide) (by decide) hpool hall
  obtain ⟨⟨p, w⟩, hw, hp⟩ := List.map_eq_singleton_iff.mp hexecuted
  obtain rfl : p = 6560 := hp
  rw [hw, hcreated] at hreads
  obtain ⟨-, hread⟩ := (List.forall₂_cons.mp hreads).1
  exact ⟨pool, c, t, _, hpool, hfields, hall, w, hw, hread 0 7 (by rw [hfields]; rfl)⟩

/-- No closure is left in `waitingList`, from which nothing is ever pushed. -/
theorem run_waiting (h0 : 0 < mem) (hmem : mem % 8 = 0) (hmin : 24 ≤ poolBytes bytes)
    (hmax : 8 + poolBytes bytes ≤ 32 * NODES) (hs : MemoryPool.create mem bytes words = some pool)
    (hrun : Run Step (initial pool next) acts s) :
    s.processCollector.waitingList = .empty ∧ ∀ t, ¬ Step s (.recycle false) t := by
  have h := flow_of_run h0 hmem hmin hmax hs hrun
  refine ⟨h.waiting, fun t hstep => ?_⟩
  cases hstep with
  | recycle hs hr => exact h.not_mayRefuse hmax hs (hr rfl)

theorem run_waiting_one :
    ∃ pool t acts, MemoryPool.create 16 8000 (fun _ => 0) = some pool ∧
      Run Step (initial pool fun _ => none) acts t ∧ t.executed ≠ [] ∧
      t.processCollector.waitingList = .empty := by
  obtain ⟨pool, c, d, t, -, hpool, -, hmade, -, hrun, -, hexecuted, -⟩ := run_one
  have hall := hmade.of_restrict.append hrun
  refine ⟨pool, t, _, hpool, hall, ?_,
    (run_waiting (by decide) rfl (by decide) (by decide) hpool hall).1⟩
  intro hnil
  rw [hnil] at hexecuted
  cases hexecuted

/-- Whatever the two threads do next without making another closure ends, and does not end before
every closure made was executed and deleted, and the pool is empty. -/
theorem run_drain {acts' : List Act} (h0 : 0 < mem) (hmem : mem % 8 = 0)
    (hmin : 24 ≤ poolBytes bytes) (hmax : 8 + poolBytes bytes ≤ 32 * NODES)
    (hs : MemoryPool.create mem bytes words = some pool)
    (hrun : Run Step (initial pool next) acts s) (hnull : s.process ≠ .constructingNull)
    (hrest : Run (restrict (fun _ a => ¬ Enters a) Step) s acts' t) :
    acts'.length ≤ s.left ∧ ((∀ a u, Step t a u → Enters a) →
      t.pool.live = [] ∧ t.executed.map Prod.fst = s.created.map Prod.fst ∧
        t.processCollector.freed = s.created.map Prod.fst) := by
  have hleft : acts'.length + t.left ≤ s.left := by
    clear hrun hnull
    induction hrest with
    | refl => simp
    | stepL hstep _ ih =>
      have hlt := hstep.2.left_lt hstep.1
      rw [List.length_cons]
      omega
  have hkeeps : t.process ≠ .constructingNull ∧ t.created = s.created := by
    refine hrest.invariant_restrict
      (I := fun u => u.process ≠ .constructingNull ∧ u.created = s.created) ?_ ⟨hnull, rfl⟩
    rintro u a v ⟨hu, hcreated⟩ ha hstep
    exact ⟨hstep.process_ne_null ha hu, (hstep.created_eq ha).trans hcreated⟩
  have h := flow_of_run h0 hmem hmin hmax hs (hrun.append hrest.of_restrict)
  refine ⟨by omega, fun hend => ?_⟩
  have hempty : t.behind ++ t.ahead = [] := by
    by_contra hne
    obtain ⟨a, u, hstep, ha⟩ := h.exists_step hkeeps.1 hne
    exact ha (hend a u hstep)
  obtain ⟨hbehind, hahead⟩ := List.append_eq_nil_iff.mp hempty
  have horder := h.order
  have hexecuted := h.executed
  have hlength := h.length_eq
  rw [hbehind, List.append_nil] at hexecuted
  rw [hempty, List.append_nil, hkeeps.2] at horder
  rw [hbehind, hahead] at hlength
  exact ⟨List.length_eq_zero_iff.mp hlength, hexecuted.trans horder.symm, horder.symm⟩

theorem run_drain_one :
    ∃ pool s t acts acts', MemoryPool.create 16 8000 (fun _ => 0) = some pool ∧
      Run Step (initial pool fun _ => none) acts s ∧ s.executed ≠ [] ∧
      Run (restrict (fun _ a => ¬ Enters a) Step) s acts' t ∧ t.pool.live = [] ∧
        t.processCollector.freed = [6560] := by
  obtain ⟨pool, c, d, s, t, hpool, -, hmade, -, hrun, hcreated, hexecuted, hidle, hrest, hleft⟩ :=
    run_one
  have hall := hmade.of_restrict.append hrun
  have hend : ∀ a u, Step t a u → Enters a := by
    intro a u hstep
    by_contra ha
    have := hstep.left_lt ha
    omega
  obtain ⟨-, hdrain⟩ := run_drain (by decide) rfl (by decide) (by decide) hpool hall
    (by simp [hidle]) hrest
  obtain ⟨hlive, -, hfreed⟩ := hdrain hend
  rw [hcreated] at hfreed
  refine ⟨pool, s, t, _, _, hpool, hall, ?_, hrest, hlive, hfreed⟩
  intro hnil
  rw [hnil] at hexecuted
  cases hexecuted

/-- While few enough closures are on their way, `new` returns no null pointer. -/
theorem run_not_null (h0 : 0 < mem) (hmem : mem % 8 = 0) (hmin : 24 ≤ poolBytes bytes)
    (hmax : 8 + poolBytes bytes ≤ 32 * NODES) (hk : k % 8 = 0) (hk0 : 24 ≤ k)
    (hs : MemoryPool.create mem bytes words = some pool)
    (hrun : Run (restrict (Roomy k (8 + poolBytes bytes)) Step) (initial pool next) acts s) :
    s.process ≠ .constructingNull := by
  have hinv : s.Flow (mem + 6528) (8 + poolBytes bytes) ∧ (∀ e ∈ s.created, e.2.size ≤ k) ∧
      s.process ≠ .constructingNull := by
    refine hrun.invariant_restrict (I := fun s => s.Flow (mem + 6528) (8 + poolBytes bytes) ∧
      (∀ e ∈ s.created, e.2.size ≤ k) ∧ s.process ≠ .constructingNull) ?_
        ⟨flow_initial h0 hmem hmin hmax hs, by simp [initial], by simp [initial]⟩
    rintro s a t ⟨h, hsizes, hnull⟩ ha hstep
    refine ⟨h.step hmax hstep, ?_⟩
    by_cases henters : Enters a
    · cases hstep with
      | @new c p pool hs he hp =>
        refine ⟨?_, by simp⟩
        intro e hmem
        rcases List.mem_append.mp hmem with hmem | hmem
        · exact hsizes e hmem
        · rw [List.mem_singleton.mp hmem]
          exact ha.1
      | @newNull c pool hs he hp =>
        -- the request was served, as the pool had room for it
        exfalso
        obtain ⟨row, hsound⟩ := h.pool
        obtain ⟨hsize, hroom⟩ := ha
        have hlength : s.pool.live.length = s.flying.length := by
          rw [h.live.length_eq, List.length_map]
        rw [← hlength] at hroom
        have hlive : ∀ p m, (p, m) ∈ s.pool.live → m ≤ k := by
          intro p m hpm
          obtain ⟨e, hmem, he⟩ := List.mem_map.mp (h.live.mem_iff.mp hpm)
          cases he
          exact hsizes e (List.mem_of_mem_drop hmem)
        have hlimit : largestRequest = 4160749568 := rfl
        have hnodes : NODES = 4096 := rfl
        have hone := Nat.le_mul_of_pos_left (8 + k + k / 32) (Nat.succ_pos s.pool.live.length)
        rw [Nat.succ_eq_add_one] at hone
        obtain ⟨pool', p, he', hlive'⟩ := hsound.capacity hk hk0 (by omega) hlive c.positive hsize
          hroom
        obtain rfl : pool = pool' := Option.some_inj.mp (he.symm.trans he')
        rw [hp] at hlive'
        exact List.cons_ne_self _ _ hlive'.symm
      | dispatchAsync => exact ⟨hsizes, by simp⟩
      | write | written | push | pop | delete | next | execute | executeAsync | recycle =>
        exact henters.elim
    · rw [hstep.created_eq henters]
      exact ⟨hsizes, hstep.process_ne_null henters hnull⟩
  exact hinv.2.2

theorem run_not_null_one :
    ∃ pool d acts, MemoryPool.create 16 8000 (fun _ => 0) = some pool ∧
      Run (restrict (Roomy 104 (8 + poolBytes 8000)) Step) (initial pool fun _ => none) acts d ∧
      acts ≠ [] ∧
      d.process ≠ .constructingNull := by
  obtain ⟨pool, c, d, -, -, hpool, -, hmade, -⟩ := run_one
  have hroomy : Run (restrict (Roomy 104 (8 + poolBytes 8000)) Step) (initial pool fun _ => none)
      [.new c, .construct, .construct] d := hmade.mono fun _ _ _ hstep => ⟨hstep.1.1, hstep.2⟩
  exact ⟨pool, d, _, hpool, hroomy, by simp,
    run_not_null (by decide) rfl (by decide) (by decide) rfl (by decide) hpool hroomy⟩

/-- All entries are closures in the pool. -/
def Pooled (s : State) : Prop :=
  (∀ e ∈ s.dispatchQueue, e.pointer.isSome) ∧
    (∀ e, s.process = .dispatching e → e.pointer.isSome) ∧ ∀ e ∈ s.created, SHARED ≤ e.2.size

theorem Pooled.step (h : s.Pooled) (ha : Large a) (hstep : Step s a t) : t.Pooled := by
  obtain ⟨hqueue, hprocess, hsizes⟩ := h
  cases hstep with
  | new hs he hp =>
    refine ⟨hqueue, by simp, ?_⟩
    intro e hmem
    rcases List.mem_append.mp hmem with hmem | hmem
    · exact hsizes e hmem
    · rw [List.mem_singleton.mp hmem]
      exact ha
  | newNull | write | pop | delete => exact ⟨hqueue, by simp, hsizes⟩
  | written hs =>
    refine ⟨hqueue, ?_, hsizes⟩
    rintro e ⟨⟩
    rfl
  | dispatchAsync => exact ha.elim
  | @push e hs hq =>
    refine ⟨?_, by simp, hsizes⟩
    intro e' hmem
    rcases List.mem_append.mp hmem with hmem | hmem
    · exact hqueue e' hmem
    · rw [List.mem_singleton.mp hmem]
      exact hprocess e hs
  | @next e rest hs hq =>
    refine ⟨fun e' hmem => hqueue e' ?_, hprocess, hsizes⟩
    rw [hq]
    exact List.mem_cons_of_mem e hmem
  | execute | executeAsync | recycle => exact ⟨hqueue, hprocess, hsizes⟩

theorem length_filterMap_pointer {l : List Entry} (h : ∀ e ∈ l, e.pointer.isSome) :
    (l.filterMap Entry.pointer).length = l.length := by
  induction l with
  | nil => rfl
  | cons e l ih =>
    obtain ⟨p, hp⟩ := Option.isSome_iff_exists.mp (h e List.mem_cons_self)
    rw [List.filterMap_cons_some hp, List.length_cons, List.length_cons,
      ih fun e' he' => h e' (List.mem_cons_of_mem e he')]

/-- No closure is smaller than what all of them have. -/
def Sized : Act → Prop
  | .new c => SHARED ≤ c.size
  | _ => True

/-- The pool of the process thread never holds more closures than the dispatches of handlers count
on, whatever the script thread schedules. -/
theorem length_flying_le (h0 : 0 < mem) (hmem : mem % 8 = 0)
    (hs : MemoryPool.create mem 32768 words = some pool)
    (hrun : Run (restrict (fun _ => Sized) Step) (initial pool next) acts s) :
    s.flying.length ≤ Dispatch.POOLED := by
  have hlimit : Dispatch.POOLED = 409 := rfl
  have hbytes : poolBytes 32768 = 26216 := by decide
  have h := flow_of_run h0 hmem (by rw [hbytes]; decide) (by rw [hbytes]; decide) hs
    hrun.of_restrict
  have hsizes : ∀ e ∈ s.created, SHARED ≤ e.2.size := by
    refine hrun.invariant_restrict (I := fun s => ∀ e ∈ s.created, SHARED ≤ e.2.size) ?_ ?_
    · intro s a t hsizes ha hstep
      cases hstep with
      | new =>
        intro e hmem
        rcases List.mem_append.mp hmem with hmem | hmem
        · exact hsizes e hmem
        · rw [List.mem_singleton.mp hmem]
          exact ha
      | _ => exact hsizes
    · simp [initial]
  obtain ⟨row, hsound⟩ := h.pool
  have hroom := hsound.room (m := SHARED) fun p n hpn => by
    obtain ⟨e, hmem, he⟩ := List.mem_map.mp (h.live.mem_iff.mp hpn)
    cases he
    exact hsizes e (List.mem_of_mem_drop hmem)
  have hsize : 8 + max SHARED 24 = 64 := rfl
  have hlive := h.live.length_eq
  rw [List.length_map] at hlive
  rw [hsize, hbytes] at hroom
  omega

/-- Closures of the process thread alone never fill `dispatchQueue`: the pool is used up before, and
the process thread never tries a push again. -/
theorem run_push (h0 : 0 < mem) (hmem : mem % 8 = 0) (hmin : 24 ≤ poolBytes bytes)
    (hmax : 8 + poolBytes bytes ≤ 64 * Dispatch.CAPACITY)
    (hs : MemoryPool.create mem bytes words = some pool)
    (hrun : Run (restrict (fun _ => Large) Step) (initial pool next) acts s) {e : Entry}
    (he : s.process = .dispatching e) : ∃ t, Step s .push t := by
  have hnodes : NODES = 4096 := rfl
  have hcapacity : Dispatch.CAPACITY = 512 := rfl
  have h := flow_of_run h0 hmem hmin (by omega) hs hrun.of_restrict
  have hpooled : s.Pooled := by
    refine hrun.invariant_restrict (I := Pooled) (fun h ha hstep => h.step ha hstep) ?_
    exact ⟨by simp [initial], by simp [initial], by simp [initial]⟩
  obtain ⟨hqueue, hprocess, hsizes⟩ := hpooled
  obtain ⟨row, hsound⟩ := h.pool
  have hroom := hsound.room (m := SHARED) fun p n hpn => by
    obtain ⟨e, hmem, he⟩ := List.mem_map.mp (h.live.mem_iff.mp hpn)
    cases he
    exact hsizes e (List.mem_of_mem_drop hmem)
  have hsize : 8 + max SHARED 24 = 64 := rfl
  rw [hsize] at hroom
  obtain ⟨p, hp⟩ := Option.isSome_iff_exists.mp (hprocess e he)
  have hlength := h.length_eq
  simp only [ahead, he, ProcessPC.entering, hp, Option.toList_some, List.length_append,
    List.length_singleton, length_filterMap_pointer hqueue] at hlength
  exact ⟨_, .push he (by omega)⟩

theorem run_push_one :
    ∃ pool d acts, MemoryPool.create 16 8000 (fun _ => 0) = some pool ∧
      Run (restrict (fun _ => Large) Step) (initial pool fun _ => none) acts d ∧
      d.process = .dispatching (.event 6560) ∧ ∃ t, Step d .push t := by
  obtain ⟨pool, c, d, -, -, hpool, -, hmade, hdispatch, -⟩ := run_one
  have hlarge : Run (restrict (fun _ => Large) Step) (initial pool fun _ => none)
      [.new c, .construct, .construct] d := hmade.mono fun _ _ _ hstep => ⟨hstep.1.2, hstep.2⟩
  exact ⟨pool, d, _, hpool, hlarge, hdispatch,
    run_push (by decide) rfl (by decide) (by decide) hpool hlarge hdispatch⟩

end Bipscript.Closures.State
