import Bipscript.LinkedList
import Bipscript.Library.Run
import Mathlib.Data.List.Perm.Subperm

/-! An event buffer between its threads, with its cells in memory and the collector behind it. -/
namespace Bipscript.BufferRuns

open Chain Transition

variable {α : Type*}

/-- Where the process thread is: between calls, in `update`, in the loop over late events, or in
`recycleRemaining`. -/
inductive ProcessPC
  | idle
  | updating (rolling : Bool) (pos : JackPosition) (nframes : ℕ) (counter : ℕ)
  | dropping (pos : JackPosition) (nframes : ℕ)
  | recycling

/-- Objects are numbered as they are allocated; of each, its event and its `next` pointer. `others`
are the objects that the collector got from elsewhere, the last five fields only keep account. -/
structure State (α : Type*) where
  process : ProcessPC
  event : ℕ → Event α
  next : ℕ → Option ℕ
  allocated : ℕ
  eventQueue : List ℕ
  sortedEvents : LinkedList
  waitingList : LinkedList
  objectQueue : List ℕ
  added : List ℕ
  returned : List ℕ
  handed : List ℕ
  others : List ℕ
  freed : List ℕ

namespace State

/-- The elements of `sortedEvents`. -/
def sorted (s : State α) : List ℕ := nodes s.next s.allocated s.sortedEvents.first

/-- `ObjectCollector::recycle`, with the outcome of its push. -/
def recycle (pushed : Bool) (evt : ℕ) (s : State α) : State α :=
  if pushed then { s with objectQueue := s.objectQueue ++ [evt] }
  else { s with
    next := (LinkedList.add s.next evt s.waitingList).1
    waitingList := (LinkedList.add s.next evt s.waitingList).2 }

/-- The loop of `recycleAll` and `ObjectCollector::update`, of whose pushes the first `pushes`
succeed. -/
def pushWaiting : ℕ → State α → State α
  | 0, s => s
  | pushes + 1, s =>
    match s.waitingList.first with
    | none => s
    | some waiting => pushWaiting pushes { s with
        objectQueue := s.objectQueue ++ [waiting], waitingList := s.waitingList.pop s.next }

def recycleAll (pushes : ℕ) (list : LinkedList) (s : State α) : State α :=
  pushWaiting pushes { s with
    next := (LinkedList.addAll s.next list s.waitingList).1
    waitingList := (LinkedList.addAll s.next list s.waitingList).2 }

end State

inductive Act (α : Type*)
  | addEvent (evt : Event α)
  | getNextEvent (rolling : Bool) (pos : JackPosition) (nframes : ℕ)
  | insert | passThru | stopped | updated | dropLate (pushed : Bool) | fits | keep | none
  | recycleRemaining | recycleQueued (pushed : Bool) | recycleSorted (pushes : ℕ)
  | allocate | recycleOther (object : ℕ) (pushed : Bool) | update (pushes : ℕ) | free

/-- The loop of `update` is left. -/
def Updated (s : State α) (counter : ℕ) : Prop :=
  EventBuffer.UPDATE_MAX_EVENTS ≤ counter ∨ s.eventQueue = []

/-- The steps of both threads. A push to the full `eventQueue` is tried again, so it is not a step.
What the process thread does with memory of its own between two accesses to a queue is one step. -/
inductive Step (mul : ℕ → ℕ → ℕ) : State α → Act α → State α → Prop
  | addEvent {s : State α} {evt : Event α} (hroom : s.eventQueue.length < EventBuffer.CAPACITY) :
      Step mul s (.addEvent evt) { s with
        event := Function.update s.event s.allocated evt
        next := Function.update s.next s.allocated none
        allocated := s.allocated + 1
        eventQueue := s.eventQueue ++ [s.allocated]
        added := s.added ++ [s.allocated] }
  | getNextEvent {s : State α} {rolling : Bool} {pos : JackPosition} {nframes : ℕ}
      (hp : s.process = .idle) :
      Step mul s (.getNextEvent rolling pos nframes) { s with
        process := .updating rolling pos nframes 0 }
  | insert {s : State α} {rolling : Bool} {pos : JackPosition} {nframes counter freshEvent : ℕ}
      {rest : List ℕ} {next : ℕ → Option ℕ} {list : LinkedList}
      (hp : s.process = .updating rolling pos nframes counter)
      (hc : counter < EventBuffer.UPDATE_MAX_EVENTS) (hq : s.eventQueue = freshEvent :: rest)
      (hi : LinkedList.insert mul s.event s.allocated freshEvent s.next s.sortedEvents =
        some (next, list)) :
      Step mul s .insert { s with
        process := .updating rolling pos nframes (counter + 1)
        next := next, eventQueue := rest, sortedEvents := list }
  /-- pass thru zero bar events -/
  | passThru {s : State α} {rolling : Bool} {pos : JackPosition} {nframes counter first : ℕ}
      (hp : s.process = .updating rolling pos nframes counter) (hu : Updated s counter)
      (hf : s.sortedEvents.first = some first) (hbar : (s.event first).getBar = 0) :
      Step mul s .passThru { s with
        process := .idle
        sortedEvents := s.sortedEvents.pop s.next
        returned := s.returned ++ [first] }
  | stopped {s : State α} {pos : JackPosition} {nframes counter : ℕ}
      (hp : s.process = .updating false pos nframes counter) (hu : Updated s counter)
      (hbar : ∀ first ∈ s.sortedEvents.first, (s.event first).getBar ≠ 0) :
      Step mul s .stopped { s with process := .idle }
  | updated {s : State α} {pos : JackPosition} {nframes counter : ℕ}
      (hp : s.process = .updating true pos nframes counter) (hu : Updated s counter)
      (hbar : ∀ first ∈ s.sortedEvents.first, (s.event first).getBar ≠ 0) :
      Step mul s .updated { s with process := .dropping pos nframes }
  /-- drop events that have already passed -/
  | dropLate {s : State α} {pos : JackPosition} {nframes first : ℕ} {pushed : Bool}
      (hp : s.process = .dropping pos nframes) (hf : s.sortedEvents.first = some first)
      (hlate : (s.event first).frame pos < -256) :
      Step mul s (.dropLate pushed) (State.recycle pushed first { s with
        event := Function.update s.event first ((s.event first).updateFrameOffset pos)
        sortedEvents := s.sortedEvents.pop s.next
        handed := s.handed ++ [first] })
  /-- return the top event if it fits in this buffer -/
  | fits {s : State α} {pos : JackPosition} {nframes first : ℕ}
      (hp : s.process = .dropping pos nframes) (hf : s.sortedEvents.first = some first)
      (hlate : -256 ≤ (s.event first).frame pos) (hfits : (s.event first).frame pos < nframes) :
      Step mul s .fits { s with
        process := .idle
        event := Function.update s.event first ((s.event first).updateFrameOffset pos)
        sortedEvents := s.sortedEvents.pop s.next
        returned := s.returned ++ [first] }
  | keep {s : State α} {pos : JackPosition} {nframes first : ℕ}
      (hp : s.process = .dropping pos nframes) (hf : s.sortedEvents.first = some first)
      (hlate : -256 ≤ (s.event first).frame pos) (hfits : nframes ≤ (s.event first).frame pos) :
      Step mul s .keep { s with
        process := .idle
        event := Function.update s.event first ((s.event first).updateFrameOffset pos) }
  | none {s : State α} {pos : JackPosition} {nframes : ℕ}
      (hp : s.process = .dropping pos nframes) (hf : s.sortedEvents.first = none) :
      Step mul s .none { s with process := .idle }
  | recycleRemaining {s : State α} (hp : s.process = .idle) :
      Step mul s .recycleRemaining { s with process := .recycling }
  | recycleQueued {s : State α} {nextEvent : ℕ} {rest : List ℕ} {pushed : Bool}
      (hp : s.process = .recycling) (hq : s.eventQueue = nextEvent :: rest) :
      Step mul s (.recycleQueued pushed) (State.recycle pushed nextEvent { s with
        eventQueue := rest, handed := s.handed ++ [nextEvent] })
  | recycleSorted {s : State α} {pushes : ℕ} (hp : s.process = .recycling)
      (hq : s.eventQueue = []) :
      Step mul s (.recycleSorted pushes) (State.recycleAll pushes s.sortedEvents { s with
        process := .idle
        sortedEvents := s.sortedEvents.clear
        handed := s.handed ++ s.sorted })
  /-- any other object -/
  | allocate {s : State α} : Step mul s .allocate { s with
      next := Function.update s.next s.allocated none, allocated := s.allocated + 1 }
  /-- an object of others, or an event returned, by its caller; each once -/
  | recycleOther {s : State α} {object : ℕ} {pushed : Bool} (hp : s.process = .idle)
      (ha : object < s.allocated) (hq : object ∉ s.eventQueue) (hs : object ∉ s.sorted)
      (hr : object ∉ s.handed ++ s.others) :
      Step mul s (.recycleOther object pushed) (State.recycle pushed object { s with
        others := s.others ++ [object] })
  /-- `ObjectCollector::update` -/
  | update {s : State α} {pushes : ℕ} (hp : s.process = .idle) :
      Step mul s (.update pushes) (State.pushWaiting pushes s)
  /-- `ObjectCollector::free`, on the script thread -/
  | free {s : State α} {event : ℕ} {rest : List ℕ} (hq : s.objectQueue = event :: rest) :
      Step mul s .free { s with objectQueue := rest, freed := s.freed ++ [event] }

/-- An empty buffer and an empty collector, whatever is in the memory not allocated yet. -/
def initial (event : ℕ → Event α) (next : ℕ → Option ℕ) : State α where
  process := .idle
  event := event
  next := next
  allocated := 0
  eventQueue := []
  sortedEvents := .empty
  waitingList := .empty
  objectQueue := []
  added := []
  returned := []
  handed := []
  others := []
  freed := []

/-- Neither in the queue nor in the list. -/
def Dead (s : State α) (sorted : List ℕ) (a : ℕ) : Prop :=
  a < s.allocated ∧ a ∉ s.eventQueue ∧ a ∉ sorted

/-- What leaves the buffer's queue and list leaves what was out of use so. -/
theorem Dead.mono {s t : State α} {sorted sorted' : List ℕ} {a : ℕ} (h : Dead s sorted a)
    (hold : s.allocated ≤ t.allocated) (hq : t.eventQueue ⊆ s.eventQueue)
    (hs : sorted' ⊆ sorted) : Dead t sorted' a :=
  ⟨Nat.lt_of_lt_of_le h.1 hold, fun ha => h.2.1 (hq ha), fun ha => h.2.2 (hs ha)⟩

/-- `sorted` is in the buffer's list, `waiting` in the collector's. The `last` of the latter may be
that of an emptied list, but is never in use by the buffer. -/
structure Inv (s : State α) (sorted waiting : List ℕ) : Prop where
  holds : s.sortedEvents.Holds s.next sorted
  stale : ∀ a ∈ s.sortedEvents.last, a < s.allocated ∧ a ∉ s.eventQueue
  fresh : ∀ a ∈ s.eventQueue, s.next a = none
  perm : (s.eventQueue ++ sorted ++ s.returned ++ s.handed).Perm s.added
  nodup : s.added.Nodup
  old : ∀ a ∈ s.added, a < s.allocated
  linked : Linked s.next s.waitingList.first waiting
  waitingLast : ∀ a ∈ s.waitingList.last, Dead s sorted a
  recycled : ∀ a ∈ waiting ++ s.objectQueue, a ∈ s.handed ++ s.others
  others : ∀ a ∈ s.others, Dead s sorted a

variable {s : State α} {sorted waiting : List ℕ} {a : ℕ}

theorem inv_initial (event : ℕ → Event α) (next : ℕ → Option ℕ) :
    Inv (initial event next) [] [] where
  holds := ⟨rfl, by simp⟩
  stale := by simp [initial, LinkedList.empty]
  fresh := by simp [initial]
  perm := .refl _
  nodup := List.nodup_nil
  old := by simp [initial]
  linked := rfl
  waitingLast := by simp [initial, LinkedList.empty]
  recycled := by simp [initial]
  others := by simp [initial]

namespace Inv

theorem all_nodup (h : Inv s sorted waiting) :
    (s.eventQueue ++ sorted ++ s.returned ++ s.handed).Nodup :=
  h.perm.nodup_iff.mpr h.nodup

theorem all_old (h : Inv s sorted waiting)
    (ha : a ∈ s.eventQueue ++ sorted ++ s.returned ++ s.handed) : a < s.allocated :=
  h.old a (h.perm.mem_iff.mp ha)

theorem sorted_old (h : Inv s sorted waiting) (ha : a ∈ sorted) : a < s.allocated :=
  h.all_old (by simp [ha])

/-- The list ends well before the fuel. -/
theorem length_le (h : Inv s sorted waiting) : sorted.length ≤ s.allocated := by
  have hsub : sorted ⊆ List.range s.allocated := fun a ha => List.mem_range.mpr (h.sorted_old ha)
  have hlen := (List.subperm_of_subset h.holds.linked.nodup hsub).length_le
  simpa using hlen

theorem sorted_eq (h : Inv s sorted waiting) : s.sorted = sorted :=
  h.holds.linked.nodes_eq h.length_le

theorem handed_dead (h : Inv s sorted waiting) (ha : a ∈ s.handed) : Dead s sorted a := by
  have hnodup := h.all_nodup
  simp only [List.append_assoc, List.nodup_append] at hnodup
  refine ⟨h.all_old (by simp [ha]), ?_, ?_⟩
  · intro hq
    exact hnodup.2.2 a hq a (by simp [ha]) rfl
  · intro hs
    exact hnodup.2.1.2.2 a hs a (by simp [ha]) rfl

theorem recycled_dead (h : Inv s sorted waiting) (ha : a ∈ waiting ++ s.objectQueue) :
    Dead s sorted a := by
  rcases List.mem_append.mp (h.recycled a ha) with ha | ha
  · exact h.handed_dead ha
  · exact h.others a ha

theorem waiting_dead (h : Inv s sorted waiting) (ha : a ∈ waiting) : Dead s sorted a :=
  h.recycled_dead (List.mem_append_left _ ha)

theorem eq_cons (h : Inv s sorted waiting) (hf : s.sortedEvents.first = some a) :
    ∃ rest, sorted = a :: rest := by
  have hlinked := h.holds.linked
  rw [hf] at hlinked
  cases sorted with
  | nil => cases hlinked
  | cons b rest =>
    obtain rfl := Option.some_inj.mp hlinked.1
    exact ⟨rest, rfl⟩

/-- The front of the queue is nowhere else. -/
theorem front_new {rest : List ℕ} (h : Inv s sorted waiting) (hq : s.eventQueue = a :: rest) :
    a ∉ rest ∧ a ∉ sorted ∧ ∀ b ∈ rest, b ∉ sorted := by
  have hnodup := h.all_nodup
  simp only [hq, List.cons_append, List.append_assoc, List.nodup_cons] at hnodup
  refine ⟨fun hr => hnodup.1 (by simp [hr]), fun hs => hnodup.1 (by simp [hs]), ?_⟩
  intro b hb hs
  exact (List.nodup_append.mp hnodup.2).2.2 b hb b (by simp [hs]) rfl

/-- A write to an object out of use is none to the buffer's. -/
theorem holds_update (h : Inv s sorted waiting) (ha : Dead s sorted a) (p : Option ℕ) :
    s.sortedEvents.Holds (Function.update s.next a p) sorted :=
  ⟨(linked_update ha.2.2).mpr h.holds.linked, h.holds.last⟩

theorem fresh_update (h : Inv s sorted waiting) (ha : Dead s sorted a) (p : Option ℕ) :
    ∀ b ∈ s.eventQueue, Function.update s.next a p b = none := by
  intro b hb
  have hne : b ≠ a := fun he => ha.2.1 (he ▸ hb)
  rw [Function.update_of_ne hne]
  exact h.fresh b hb

/-- The first element leaves the list, to the caller or to the collector. -/
theorem pop {event : ℕ → Event α} {process : ProcessPC} {returned handed : List ℕ}
    (h : Inv s (a :: sorted) waiting)
    (hperm : (returned ++ handed).Perm (a :: (s.returned ++ s.handed)))
    (hsub : s.handed ⊆ handed) :
    Inv { s with
      process := process, event := event, sortedEvents := s.sortedEvents.pop s.next
      returned := returned, handed := handed } sorted waiting := by
  have hsorted : sorted ⊆ a :: sorted := List.subset_cons_self a sorted
  refine { h with
    holds := ⟨LinkedList.linked_pop h.holds.linked, ?_⟩, perm := ?_
    waitingLast := fun b hb => (h.waitingLast b hb).mono le_rfl (List.Subset.refl _) hsorted
    recycled := ?_
    others := fun b hb => (h.others b hb).mono le_rfl (List.Subset.refl _) hsorted }
  · intro b hb
    apply h.holds.last b
    cases sorted with
    | nil => cases hb
    | cons c rest => simpa using hb
  · have hall := h.perm
    refine List.Perm.trans ?_ hall
    simp only [List.append_assoc, List.cons_append]
    refine List.Perm.append_left _ ?_
    exact (List.Perm.append_left sorted hperm).trans List.perm_middle
  · intro b hb
    rcases List.mem_append.mp (h.recycled b hb) with hb | hb
    · exact List.mem_append_left _ (hsub hb)
    · exact List.mem_append_right _ hb

theorem returnFirst (h : Inv s (a :: sorted) waiting) (process : ProcessPC)
    (event : ℕ → Event α) :
    Inv { s with
      process := process, event := event, sortedEvents := s.sortedEvents.pop s.next
      returned := s.returned ++ [a] } sorted waiting := by
  apply h.pop _ (List.Subset.refl _)
  simp

theorem recycle (h : Inv s sorted waiting) (pushed : Bool) (ha : a ∈ s.handed ++ s.others)
    (hw : a ∉ waiting) : ∃ waiting', Inv (s.recycle pushed a) sorted waiting' := by
  have hdead : Dead s sorted a := by
    rcases List.mem_append.mp ha with ha | ha
    · exact h.handed_dead ha
    · exact h.others a ha
  cases pushed with
  | true =>
    refine ⟨waiting, { h with recycled := ?_ }⟩
    intro b hb
    simp only [State.recycle, if_true, ← List.append_assoc] at hb
    rcases List.mem_append.mp hb with hb | hb
    · exact h.recycled b hb
    · rw [List.mem_singleton.mp hb]
      exact ha
  | false =>
    refine ⟨a :: waiting, { h with
      holds := h.holds_update hdead _, fresh := h.fresh_update hdead _
      linked := LinkedList.linked_add h.linked hw, waitingLast := ?_, recycled := ?_ }⟩
    · intro b hb
      by_cases hfirst : s.waitingList.first = none
      · have hab : a = b := by simpa [State.recycle, LinkedList.add, hfirst] using hb
        exact hab ▸ hdead
      · have hlast : b ∈ s.waitingList.last := by
          simpa [State.recycle, LinkedList.add, hfirst] using hb
        exact h.waitingLast b hlast
    · intro b hb
      rcases List.mem_cons.mp hb with rfl | hb
      · exact ha
      · exact h.recycled b hb

theorem dropLate (h : Inv s (a :: sorted) waiting) (pushed : Bool) (event : ℕ → Event α) :
    ∃ waiting', Inv (State.recycle pushed a { s with
      event := event, sortedEvents := s.sortedEvents.pop s.next, handed := s.handed ++ [a] })
      sorted waiting' := by
  have hw : a ∉ waiting := fun hw => (h.waiting_dead hw).2.2 List.mem_cons_self
  have hperm : (s.returned ++ (s.handed ++ [a])).Perm (a :: (s.returned ++ s.handed)) := by
    rw [← List.append_assoc]
    exact List.perm_append_singleton a _
  exact (h.pop hperm (List.subset_append_left _ _)).recycle pushed (by simp) hw

theorem pushWaiting (h : Inv s sorted waiting) (pushes : ℕ) :
    ∃ waiting', Inv (s.pushWaiting pushes) sorted waiting' := by
  induction pushes generalizing s waiting with
  | zero => exact ⟨waiting, h⟩
  | succ pushes ih =>
    cases waiting with
    | nil =>
      have hfirst : s.waitingList.first = none := h.linked
      exact ⟨[], by simpa only [State.pushWaiting, hfirst] using h⟩
    | cons a waiting =>
      have hpopped : Inv { s with
          objectQueue := s.objectQueue ++ [a]
          waitingList := s.waitingList.pop s.next } sorted waiting := by
        refine { h with linked := LinkedList.linked_pop h.linked, recycled := ?_ }
        intro b hb
        apply h.recycled b
        simp only [List.mem_append, List.mem_cons, List.not_mem_nil, or_false] at hb ⊢
        tauto
      simp only [State.pushWaiting, h.linked.1]
      exact ih hpopped

theorem insert {mul : ℕ → ℕ → ℕ} {rest : List ℕ} {next : ℕ → Option ℕ} {list : LinkedList}
    (h : Inv s sorted waiting) (process : ProcessPC) (hq : s.eventQueue = a :: rest)
    (hi : LinkedList.insert mul s.event s.allocated a s.next s.sortedEvents = some (next, list)) :
    ∃ sorted', Inv { s with
      process := process, next := next, eventQueue := rest, sortedEvents := list }
      sorted' waiting ∧
    sorted'.map s.event = EventList.insert mul (s.event a) (sorted.map s.event) := by
  obtain ⟨hrest, hsorted, hdisj⟩ := h.front_new hq
  have hqueue : a ∈ s.eventQueue := by simp [hq]
  obtain ⟨next', list', sorted', hi', hholds, hperm, hmap, hframe⟩ :=
    LinkedList.insert_eq_some mul s.event h.holds hsorted (h.fresh a hqueue) h.length_le
  rw [hi'] at hi
  cases hi
  have hmem : ∀ b, b ∈ sorted' ↔ b = a ∨ b ∈ sorted := fun b => by
    rw [hperm.mem_iff, List.mem_cons]
  have hdead : ∀ b, Dead s sorted b → b < s.allocated ∧ b ∉ rest ∧ b ∉ sorted' := by
    rintro b ⟨hb, hbq, hbs⟩
    rw [hq] at hbq
    refine ⟨hb, fun hr => hbq (List.mem_cons_of_mem a hr), ?_⟩
    rw [hmem]
    rintro (rfl | hs)
    · exact hbq List.mem_cons_self
    · exact hbs hs
  refine ⟨sorted', { h with
    holds := hholds, stale := ?_, fresh := ?_, perm := ?_, linked := ?_
    waitingLast := fun b hb => hdead b (h.waitingLast b hb)
    others := fun b hb => hdead b (h.others b hb) }, hmap⟩
  · -- the new last element is in the list
    have hne : sorted' ≠ [] := fun he => by simpa [he] using hmem a
    have hlast := hholds.last _ (List.getLast?_eq_some_getLast hne)
    intro b hb
    obtain rfl : sorted'.getLast hne = b := Option.some_inj.mp (hlast.symm.trans hb)
    rcases (hmem _).mp (List.getLast_mem hne) with heq | hs
    · rw [heq]
      exact ⟨h.all_old (by simp [hq]), hrest⟩
    · exact ⟨h.sorted_old hs, fun hr => hdisj _ hr hs⟩
  · intro b hb
    have hne : b ≠ a := fun he => hrest (he ▸ hb)
    exact (hframe b hne (hdisj b hb)).trans (h.fresh b (by simp [hq, hb]))
  · have hall := h.perm
    rw [hq] at hall
    refine List.Perm.trans ?_ hall
    simp only [List.append_assoc, List.cons_append]
    refine (List.Perm.append_left rest (hperm.append_right _)).trans ?_
    exact List.perm_middle
  · refine (linked_congr ?_).mpr h.linked
    intro b hb
    obtain ⟨-, hbq, hbs⟩ := h.waiting_dead hb
    exact hframe b (fun he => hbq (he ▸ hqueue)) hbs

theorem allocate {event : ℕ → Event α} (h : Inv s sorted waiting) :
    Inv { s with
      event := event, next := Function.update s.next s.allocated none
      allocated := s.allocated + 1 } sorted waiting := by
  have hold : s.allocated ≤ s.allocated + 1 := Nat.le_succ _
  refine { h with
    holds := ⟨(linked_update ?_).mpr h.holds.linked, h.holds.last⟩
    stale := ?_, fresh := ?_, old := ?_, linked := (linked_update ?_).mpr h.linked
    waitingLast := fun b hb =>
      (h.waitingLast b hb).mono hold (List.Subset.refl _) (List.Subset.refl _)
    others := fun b hb => (h.others b hb).mono hold (List.Subset.refl _) (List.Subset.refl _) }
  · intro hs
    exact Nat.lt_irrefl _ (h.sorted_old hs)
  · intro b hb
    obtain ⟨hold, hq⟩ := h.stale b hb
    exact ⟨Nat.lt_succ_of_lt hold, hq⟩
  · intro b hb
    have hne : b ≠ s.allocated := by
      have hold : b < s.allocated := h.all_old (by simp [hb])
      omega
    exact (Function.update_of_ne hne _ _).trans (h.fresh b hb)
  · exact fun b hb => Nat.lt_succ_of_lt (h.old b hb)
  · intro hw
    exact Nat.lt_irrefl _ (h.waiting_dead hw).1

theorem addEvent {event : ℕ → Event α} (h : Inv s sorted waiting) :
    Inv { s with
      event := event, next := Function.update s.next s.allocated none
      allocated := s.allocated + 1, eventQueue := s.eventQueue ++ [s.allocated]
      added := s.added ++ [s.allocated] } sorted waiting := by
  have hnew : Inv { s with
      event := event, next := Function.update s.next s.allocated none
      allocated := s.allocated + 1 } sorted waiting := h.allocate
  -- nothing refers to the new event yet
  have hqueue : ∀ b, b < s.allocated → b ∉ s.eventQueue → b ∉ s.eventQueue ++ [s.allocated] := by
    intro b hb hq hmem
    rcases List.mem_append.mp hmem with hmem | hmem
    · exact hq hmem
    · have heq := List.mem_singleton.mp hmem
      omega
  have hdead : ∀ b, Dead s sorted b →
      b < s.allocated + 1 ∧ b ∉ s.eventQueue ++ [s.allocated] ∧ b ∉ sorted := by
    rintro b ⟨hb, hq, hs⟩
    exact ⟨by omega, hqueue b hb hq, hs⟩
  refine { hnew with
    stale := ?_, fresh := ?_, perm := ?_, nodup := ?_, old := ?_
    waitingLast := fun b hb => hdead b (h.waitingLast b hb)
    others := fun b hb => hdead b (h.others b hb) }
  · intro b hb
    obtain ⟨hold, hq⟩ := h.stale b hb
    exact ⟨Nat.lt_succ_of_lt hold, hqueue b hold hq⟩
  · intro b hb
    rcases List.mem_append.mp hb with hb | hb
    · exact hnew.fresh b hb
    · rw [List.mem_singleton.mp hb]
      exact Function.update_self _ _ _
  · have hall := h.perm.append_right [s.allocated]
    refine List.Perm.trans ?_ hall
    simp only [List.append_assoc]
    refine List.Perm.append_left _ ?_
    have hperm := @List.perm_append_comm _ [s.allocated] (sorted ++ (s.returned ++ s.handed))
    simpa using hperm
  · refine List.nodup_append.mpr ⟨h.nodup, List.nodup_singleton _, ?_⟩
    intro b hb c hc he
    have hold := h.old b hb
    have heq := List.mem_singleton.mp hc
    omega
  · intro b hb
    rcases List.mem_append.mp hb with hb | hb
    · exact Nat.lt_succ_of_lt (h.old b hb)
    · rw [List.mem_singleton.mp hb]
      exact Nat.lt_succ_self _

/-- The queue's front goes to the collector. -/
theorem dequeue {rest : List ℕ} (h : Inv s sorted waiting) (hq : s.eventQueue = a :: rest) :
    Inv { s with eventQueue := rest, handed := s.handed ++ [a] } sorted waiting := by
  have hqueue : rest ⊆ s.eventQueue := by
    rw [hq]
    exact List.subset_cons_self a rest
  refine { h with
    stale := fun b hb => ⟨(h.stale b hb).1, fun hr => (h.stale b hb).2 (hqueue hr)⟩
    fresh := fun b hb => h.fresh b (hqueue hb)
    perm := ?_
    waitingLast := fun b hb => (h.waitingLast b hb).mono le_rfl hqueue (List.Subset.refl _)
    recycled := ?_
    others := fun b hb => (h.others b hb).mono le_rfl hqueue (List.Subset.refl _) }
  · have hall := h.perm
    rw [hq] at hall
    refine List.Perm.trans ?_ hall
    rw [← List.append_assoc]
    simpa using List.perm_append_singleton a (rest ++ sorted ++ s.returned ++ s.handed)
  · intro b hb
    have hmem := h.recycled b hb
    simp only [List.mem_append] at hmem ⊢
    tauto

/-- The whole list goes to the collector. -/
theorem recycleAll {pushes : ℕ} {process : ProcessPC} (h : Inv s sorted waiting) :
    ∃ waiting', Inv (State.recycleAll pushes s.sortedEvents { s with
      process := process, sortedEvents := s.sortedEvents.clear
      handed := s.handed ++ s.sorted }) [] waiting' := by
  rw [h.sorted_eq]
  obtain ⟨joined, hjoined, hsub⟩ := LinkedList.exists_linked_addAll h.linked h.holds.linked
    fun b hb => (h.waitingLast b hb).2.2
  have hspliced : Inv { s with
      process := process, sortedEvents := s.sortedEvents.clear, handed := s.handed ++ sorted
      next := (LinkedList.addAll s.next s.sortedEvents s.waitingList).1
      waitingList := (LinkedList.addAll s.next s.sortedEvents s.waitingList).2 } [] joined := by
    refine { h with
      holds := ⟨rfl, by simp⟩, fresh := ?_, perm := ?_, linked := hjoined
      waitingLast := ?_, recycled := ?_
      others := fun b hb => (h.others b hb).mono le_rfl (List.Subset.refl _) (List.nil_subset _) }
    · intro b hb
      have hne : s.waitingList.last ≠ some b := fun he => (h.waitingLast b he).2.1 hb
      exact (LinkedList.addAll_next hne).trans (h.fresh b hb)
    · have hall := h.perm
      refine List.Perm.trans ?_ hall
      simp only [List.append_assoc, List.nil_append]
      refine List.Perm.append_left _ ?_
      have hperm := @List.perm_append_comm _ (s.returned ++ s.handed) sorted
      simpa using hperm
    · intro b hb
      have hlast : b ∈ s.sortedEvents.last := LinkedList.addAll_last ▸ hb
      obtain ⟨hold, hq⟩ := h.stale b hlast
      exact ⟨hold, hq, List.not_mem_nil⟩
    · intro b hb
      rcases List.mem_append.mp hb with hb | hb
      · rcases List.mem_append.mp (hsub hb) with hb | hb
        · have hmem := h.recycled b (List.mem_append_left _ hb)
          simp only [List.mem_append] at hmem ⊢
          tauto
        · simp [hb]
      · have hmem := h.recycled b (List.mem_append_right _ hb)
        simp only [List.mem_append] at hmem ⊢
        tauto
  exact hspliced.pushWaiting pushes

end Inv

variable {mul : ℕ → ℕ → ℕ} {t : State α} {act : Act α} {as : List (Act α)}

theorem inv_step (h : Inv s sorted waiting) (hs : Step mul s act t) :
    ∃ sorted' waiting', Inv t sorted' waiting' := by
  cases hs with
  | addEvent => exact ⟨_, _, h.addEvent⟩
  | getNextEvent | stopped | updated | keep | none | recycleRemaining =>
    exact ⟨sorted, waiting, { h with }⟩
  | insert hp hc hq hi =>
    obtain ⟨sorted', h', -⟩ := h.insert _ hq hi
    exact ⟨sorted', waiting, h'⟩
  | passThru hp hu hf hbar =>
    obtain ⟨rest, rfl⟩ := h.eq_cons hf
    exact ⟨rest, waiting, h.returnFirst _ _⟩
  | fits hp hf hlate hfits =>
    obtain ⟨rest, rfl⟩ := h.eq_cons hf
    exact ⟨rest, waiting, h.returnFirst _ _⟩
  | dropLate hp hf hlate =>
    obtain ⟨rest, rfl⟩ := h.eq_cons hf
    obtain ⟨waiting', h'⟩ := h.dropLate _ _
    exact ⟨rest, waiting', h'⟩
  | recycleQueued hp hq =>
    rename_i nextEvent rest pushed
    have hw : nextEvent ∉ waiting := fun hw => (h.waiting_dead hw).2.1 (by simp [hq])
    obtain ⟨waiting', h'⟩ := (h.dequeue hq).recycle pushed (by simp) hw
    exact ⟨sorted, waiting', h'⟩
  | recycleSorted hp hq =>
    obtain ⟨waiting', h'⟩ := h.recycleAll
    exact ⟨[], waiting', h'⟩
  | allocate => exact ⟨_, _, h.allocate⟩
  | recycleOther hp ha hq hs hr =>
    rename_i object pushed
    rw [h.sorted_eq] at hs
    have hw : object ∉ waiting := fun hw => hr (h.recycled object (List.mem_append_left _ hw))
    have hother : Inv { s with others := s.others ++ [object] } sorted waiting := by
      refine { h with recycled := ?_, others := ?_ }
      · intro b hb
        have hmem := h.recycled b hb
        simp only [List.mem_append] at hmem ⊢
        tauto
      · intro b hb
        rcases List.mem_append.mp hb with hb | hb
        · exact h.others b hb
        · rw [List.mem_singleton.mp hb]
          exact ⟨ha, hq, hs⟩
    obtain ⟨waiting', h'⟩ := hother.recycle pushed (by simp) hw
    exact ⟨sorted, waiting', h'⟩
  | update hp =>
    obtain ⟨waiting', h'⟩ := h.pushWaiting _
    exact ⟨sorted, waiting', h'⟩
  | free hq =>
    refine ⟨sorted, waiting, { h with recycled := ?_ }⟩
    intro b hb
    apply h.recycled b
    rw [hq]
    simp only [List.mem_append, List.mem_cons] at hb ⊢
    tauto

theorem inv_run {event : ℕ → Event α} {next : ℕ → Option ℕ}
    (h : Run (Step mul) (initial event next) as s) : ∃ sorted waiting, Inv s sorted waiting := by
  have hinv : ∀ (s : State α) act t, Step mul s act t →
      (∃ sorted waiting, Inv s sorted waiting) → ∃ sorted waiting, Inv t sorted waiting := by
    rintro s act t hs ⟨sorted, waiting, h⟩
    exact inv_step h hs
  exact h.invariant (I := fun s => ∃ sorted waiting, Inv s sorted waiting) hinv
    ⟨[], [], inv_initial event next⟩

/-- What `free` deletes the buffer no longer has. -/
theorem objectQueue_dead {event : ℕ → Event α} {next : ℕ → Option ℕ}
    (h : Run (Step mul) (initial event next) as s) (ha : a ∈ s.objectQueue) :
    a ∉ s.eventQueue ∧ a ∉ s.sorted := by
  obtain ⟨sorted, waiting, hinv⟩ := inv_run h
  rw [hinv.sorted_eq]
  exact (hinv.recycled_dead (List.mem_append_right waiting ha)).2

/-- The events added are, each once, in the queue, in the list, returned or handed to the collector,
and the list is a chain that ends. -/
structure Conserved (s : State α) : Prop where
  perm : (s.eventQueue ++ s.sorted ++ s.returned ++ s.handed).Perm s.added
  nodup : s.added.Nodup
  linked : Linked s.next s.sortedEvents.first s.sorted

theorem Inv.conserved (h : Inv s sorted waiting) : Conserved s where
  perm := h.sorted_eq ▸ h.perm
  nodup := h.nodup
  linked := h.sorted_eq ▸ h.holds.linked

@[simp] theorem recycle_returned (pushed : Bool) (s : State α) :
    (s.recycle pushed a).returned = s.returned := by
  cases pushed <;> rfl

@[simp] theorem pushWaiting_returned (pushes : ℕ) (s : State α) :
    (s.pushWaiting pushes).returned = s.returned := by
  induction pushes generalizing s with
  | zero => rfl
  | succ pushes ih =>
    rw [State.pushWaiting]
    split
    · rfl
    · exact ih _

/-- Only the first element of the list is ever returned. -/
theorem returned_step (hs : Step mul s act t) :
    t.returned = s.returned ∨
      ∃ a, s.sortedEvents.first = some a ∧ t.returned = s.returned ++ [a] := by
  cases hs with
  | passThru hp hu hf hbar => exact Or.inr ⟨_, hf, rfl⟩
  | fits hp hf hlate hfits => exact Or.inr ⟨_, hf, rfl⟩
  | dropLate | recycleQueued | recycleOther => exact Or.inl (recycle_returned _ _)
  | recycleSorted hp hq => exact Or.inl (pushWaiting_returned _ _)
  | update hp => exact Or.inl (pushWaiting_returned _ _)
  | addEvent | getNextEvent | insert | stopped | updated | keep | none | recycleRemaining
  | allocate | free => exact Or.inl rfl

/-- An event that is returned has been neither returned nor recycled before, by the buffer or by
others. -/
theorem Inv.returned_once (hinv : Inv s sorted waiting) (hs : Step mul s act t)
    (ht : t.returned = s.returned ++ [a]) : a ∉ s.returned ∧ a ∉ s.handed ∧ a ∉ s.others := by
  rcases returned_step hs with heq | ⟨b, hf, heq⟩
  · have hlen := congrArg List.length (heq.symm.trans ht)
    simp at hlen
  · obtain rfl : b = a := by simpa using heq.symm.trans ht
    obtain ⟨rest, rfl⟩ := hinv.eq_cons hf
    have hnodup := hinv.all_nodup
    simp only [List.append_assoc, List.nodup_append] at hnodup
    have hlive := hnodup.2.1.2.2 b List.mem_cons_self
    refine ⟨fun hr => hlive b (by simp [hr]) rfl, fun hr => hlive b (by simp [hr]) rfl, ?_⟩
    exact fun hr => (hinv.others b hr).2.2 List.mem_cons_self

end Bipscript.BufferRuns
