import Bipscript.BufferRuns

/-! Calls that are not interrupted: the list-level buffer on cells, and a collector whose queue
grows. -/
namespace Bipscript.BufferRuns

open Chain Transition

variable {α : Type*} {mul : ℕ → ℕ → ℕ} {s t : State α} {sorted waiting rest : List ℕ} {a : ℕ}
  {act : Act α} {as : List (Act α)} {rolling : Bool} {pos : JackPosition} {nframes counter : ℕ}

/-- The buffer without its pointers. -/
def State.buffer (s : State α) : EventBuffer α where
  eventQueue := s.eventQueue.map s.event
  sortedEvents := s.sorted.map s.event

theorem Inv.buffer_eq (h : Inv s sorted waiting) :
    s.buffer = ⟨s.eventQueue.map s.event, sorted.map s.event⟩ := by
  rw [State.buffer, h.sorted_eq]

/-- An iteration of `update` never runs into a null pointer, and inserts as the list-level one. -/
theorem exists_insert (mul : ℕ → ℕ → ℕ) (h : Inv s sorted waiting)
    (hp : s.process = .updating rolling pos nframes counter)
    (hc : counter < EventBuffer.UPDATE_MAX_EVENTS) (hq : s.eventQueue = a :: rest) :
    ∃ sorted' next list, Step mul s .insert { s with
        process := .updating rolling pos nframes (counter + 1)
        next := next, eventQueue := rest, sortedEvents := list } ∧
      Inv { s with
        process := .updating rolling pos nframes (counter + 1)
        next := next, eventQueue := rest, sortedEvents := list } sorted' waiting ∧
      sorted'.map s.event = EventList.insert mul (s.event a) (sorted.map s.event) := by
  obtain ⟨next, list, -, hi, -⟩ := LinkedList.insert_eq_some mul s.event h.holds
    (h.front_new hq).2.1 (h.fresh a (by simp [hq])) h.length_le
  obtain ⟨sorted', h', hmap⟩ := h.insert (.updating rolling pos nframes (counter + 1)) hq hi
  exact ⟨sorted', next, list, .insert hp hc hq hi, h', hmap⟩

/-- What an uninterrupted `update` does: it takes the events that the list-level one takes. -/
theorem exists_updated (mul : ℕ → ℕ → ℕ) (h : Inv s sorted waiting)
    (hp : s.process = .updating rolling pos nframes counter) :
    ∃ as t counter' sorted', Run (Step mul) s as t ∧ Inv t sorted' waiting ∧
      t.process = .updating rolling pos nframes counter' ∧ Updated t counter' ∧
      t.event = s.event ∧ t.returned = s.returned ∧ t.handed = s.handed ∧
      t.eventQueue = s.eventQueue.drop (EventBuffer.UPDATE_MAX_EVENTS - counter) ∧
      sorted'.map s.event =
        ((s.eventQueue.map s.event).take (EventBuffer.UPDATE_MAX_EVENTS - counter)).foldl
          (fun l freshEvent => EventList.insert mul freshEvent l) (sorted.map s.event) := by
  induction hq : s.eventQueue generalizing s counter sorted with
  | nil =>
    exact ⟨[], s, counter, sorted, .refl, h, hp, Or.inr hq, rfl, rfl, rfl, by simp [hq], by simp⟩
  | cons a rest ih =>
    by_cases hc : counter < EventBuffer.UPDATE_MAX_EVENTS
    · obtain ⟨sorted₁, next, list, hstep, h₁, hmap⟩ := exists_insert mul h hp hc hq
      obtain ⟨as, t, counter', sorted', hrun, h', hp', hu, hevent, hret, hhand, hqueue, hfold⟩ :=
        ih h₁ rfl rfl
      obtain ⟨k, hk, hk'⟩ : ∃ k, EventBuffer.UPDATE_MAX_EVENTS - counter = k + 1 ∧
          EventBuffer.UPDATE_MAX_EVENTS - (counter + 1) = k :=
        ⟨EventBuffer.UPDATE_MAX_EVENTS - (counter + 1), by omega, rfl⟩
      refine ⟨.insert :: as, t, counter', sorted', .stepL hstep hrun, h', hp', hu, hevent, hret,
        hhand, ?_, ?_⟩
      · rw [hk, hqueue, hk', List.drop_succ_cons]
      · rw [hk, List.map_cons, List.take_succ_cons, List.foldl_cons, ← hmap, ← hk']
        exact hfold
    · have hzero : EventBuffer.UPDATE_MAX_EVENTS - counter = 0 := by omega
      exact ⟨[], s, counter, sorted, .refl, h, hp, Or.inl (by omega), rfl, rfl, rfl,
        by simp [hq, hzero], by simp [hzero]⟩

/-- The loop over late events, from `s` to `t`: it hands over `late`, and keeps `rest`. -/
structure Dropped (pos : JackPosition) (s t : State α) (late rest : List ℕ) : Prop where
  process : t.process = s.process
  eventQueue : t.eventQueue = s.eventQueue
  returned : t.returned = s.returned
  handed : t.handed = s.handed ++ late
  event : ∀ b ∉ late, t.event b = s.event b
  late_offset : ∀ b ∈ late, t.event b = (s.event b).updateFrameOffset pos
  late_frame : ∀ b ∈ late, (s.event b).frame pos < -256
  kept : ∀ b ∈ rest.head?, -256 ≤ (s.event b).frame pos

theorem exists_dropped (mul : ℕ → ℕ → ℕ) (h : Inv s sorted waiting)
    (hp : s.process = .dropping pos nframes) :
    ∃ as t late rest waiting', Run (Step mul) s as t ∧ Inv t rest waiting' ∧
      sorted = late ++ rest ∧ Dropped pos s t late rest := by
  induction sorted generalizing s waiting with
  | nil =>
    refine ⟨[], s, [], [], waiting, .refl, h, rfl, ?_⟩
    constructor <;> simp
  | cons a sorted ih =>
    have hf : s.sortedEvents.first = some a := h.holds.linked.1
    by_cases hlate : (s.event a).frame pos < -256
    · have ha : a ∉ sorted := (List.nodup_cons.mp h.holds.linked.nodup).1
      have hstep : Step mul s (.dropLate true) _ := .dropLate hp hf hlate
      obtain ⟨waiting₁, h₁⟩ :=
        h.dropLate true (Function.update s.event a ((s.event a).updateFrameOffset pos))
      obtain ⟨as, t, late, rest, waiting', hrun, h', rfl, hdropped⟩ := ih h₁ hp
      refine ⟨.dropLate true :: as, t, a :: late, rest, waiting', .stepL hstep hrun, h', rfl, ?_⟩
      -- the write to the event dropped is none to the others
      have hother : ∀ b, b ≠ a → Function.update s.event a ((s.event a).updateFrameOffset pos) b =
          s.event b := fun b hb => Function.update_of_ne hb _ _
      have hne : ∀ b ∈ late ++ rest, b ≠ a := fun b hb he => ha (he ▸ hb)
      constructor
      · exact hdropped.process
      · exact hdropped.eventQueue
      · exact hdropped.returned
      · rw [hdropped.handed]
        exact List.append_assoc s.handed [a] late
      · intro b hb
        obtain ⟨hba, hlate'⟩ := List.ne_and_not_mem_of_not_mem_cons hb
        exact (hdropped.event b hlate').trans (hother b hba)
      · intro b hb
        rcases List.mem_cons.mp hb with rfl | hb
        · have hkeep := hdropped.event b fun hl => ha (List.mem_append_left _ hl)
          exact hkeep.trans (Function.update_self _ _ _)
        · have hoffset := hdropped.late_offset b hb
          have heq := hother b (hne b (List.mem_append_left _ hb))
          exact hoffset.trans (congrArg (Event.updateFrameOffset pos) heq)
      · intro b hb
        rcases List.mem_cons.mp hb with rfl | hb
        · exact hlate
        · have hframe := hdropped.late_frame b hb
          have heq := hother b (hne b (List.mem_append_left _ hb))
          exact lt_of_eq_of_lt (congrArg (Event.frame pos) heq.symm) hframe
      · intro b hb
        have hframe := hdropped.kept b hb
        have heq := hother b (hne b (List.mem_append_right _ (List.mem_of_mem_head? hb)))
        exact le_of_le_of_eq hframe (congrArg (Event.frame pos) heq)
    · refine ⟨[], s, [], a :: sorted, waiting, .refl, h, rfl, ?_⟩
      constructor <;> simp [not_lt.mp hlate]

/-- The loop has computed the frame offset of the event it stops at. -/
def updateFirst (pos : JackPosition) : List (Event α) → List (Event α)
  | [] => []
  | first :: rest => first.updateFrameOffset pos :: rest

/-- The list-level loop, on a list cut where it stops. -/
theorem dropLate_append {late rest : List (Event α)} (hlate : ∀ e ∈ late, e.frame pos < -256)
    (hkept : ∀ e ∈ rest.head?, -256 ≤ e.frame pos) :
    EventBuffer.dropLate pos (late ++ rest) =
      (late.map (Event.updateFrameOffset pos), updateFirst pos rest) := by
  induction late with
  | nil =>
    cases rest with
    | nil => rfl
    | cons first rest =>
      have hframe : ¬ first.frame pos < -256 := not_lt.mpr (hkept first rfl)
      simp only [List.nil_append, EventBuffer.dropLate, hframe, if_false, List.map_nil, updateFirst]
  | cons e late ih =>
    have htail := ih fun e' he => hlate e' (List.mem_cons_of_mem e he)
    have hframe := hlate e List.mem_cons_self
    simp only [List.cons_append, EventBuffer.dropLate, hframe, if_true, htail, List.map_cons]

theorem Dropped.dropLate_eq {late : List ℕ} (h : Dropped pos s t late rest) :
    EventBuffer.dropLate pos ((late ++ rest).map s.event) =
      (late.map t.event, updateFirst pos (rest.map s.event)) := by
  have hlate : ∀ e ∈ late.map s.event, e.frame pos < -256 := by
    intro e he
    obtain ⟨b, hb, rfl⟩ := List.mem_map.mp he
    exact h.late_frame b hb
  have hkept : ∀ e ∈ (rest.map s.event).head?, -256 ≤ e.frame pos := by
    intro e he
    rw [List.head?_map] at he
    obtain ⟨b, hb, rfl⟩ := Option.mem_map.mp he
    exact h.kept b hb
  have hmap : (late.map s.event).map (Event.updateFrameOffset pos) = late.map t.event := by
    rw [List.map_map]
    exact List.map_congr_left fun b hb => (h.late_offset b hb).symm
  rw [List.map_append, dropLate_append hlate hkept, hmap]

/-- A write to the first event's frame offset is none to the other events of the buffer. -/
theorem Inv.map_update {first : ℕ} (h : Inv s (first :: rest) waiting) (e : Event α) :
    rest.map (Function.update s.event first e) = rest.map s.event ∧
      s.eventQueue.map (Function.update s.event first e) = s.eventQueue.map s.event := by
  have hnodup := h.all_nodup
  simp only [List.append_assoc, List.cons_append, List.nodup_append, List.nodup_cons] at hnodup
  constructor
  · apply List.map_congr_left
    intro b hb
    have hne : b ≠ first := fun he => hnodup.2.1.1 (by simp [← he, hb])
    exact Function.update_of_ne hne _ _
  · apply List.map_congr_left
    intro b hb
    have hne : b ≠ first := fun he => hnodup.2.2 b hb first (by simp) he
    exact Function.update_of_ne hne _ _

/-- The loop leaves the events it does not drop as they were. -/
theorem Dropped.map_eq {late : List ℕ} (hd : Dropped pos s t late rest)
    (h : Inv s (late ++ rest) waiting) :
    rest.map t.event = rest.map s.event ∧ t.eventQueue.map t.event = s.eventQueue.map s.event := by
  have hnodup := h.all_nodup
  simp only [List.append_assoc, List.nodup_append] at hnodup
  constructor
  · apply List.map_congr_left
    intro b hb
    exact hd.event b fun hl => hnodup.2.1.2.2 b hl b (by simp [hb]) rfl
  · rw [hd.eventQueue]
    apply List.map_congr_left
    intro b hb
    exact hd.event b fun hl => hnodup.2.2 b hb b (by simp [hl]) rfl

/-- What the list-level call makes of the events that the loop has left. -/
theorem Dropped.fetchRolling_eq {late : List ℕ} (nframes : ℕ) (hd : Dropped pos s t late rest)
    (h : Inv s (late ++ rest) waiting) :
    s.buffer.fetchRolling pos nframes =
      match rest with
      | [] => ⟨none, ⟨t.eventQueue.map t.event, []⟩, late.map t.event⟩
      | first :: rest =>
        if (t.event first).frame pos < nframes then
          ⟨some ((t.event first).updateFrameOffset pos),
            ⟨t.eventQueue.map t.event, rest.map t.event⟩, late.map t.event⟩
        else
          ⟨none, ⟨t.eventQueue.map t.event,
            (t.event first).updateFrameOffset pos :: rest.map t.event⟩, late.map t.event⟩ := by
  obtain ⟨hrest, hqueue⟩ := hd.map_eq h
  have hlate := hd.dropLate_eq
  rw [← hrest] at hlate
  rw [EventBuffer.fetchRolling, h.buffer_eq, hlate, ← hqueue]
  cases rest <;> rfl

/-- From the loop over late events on, a call does what the list-level one does. -/
theorem exists_fetched (mul : ℕ → ℕ → ℕ) (h : Inv s sorted waiting)
    (hp : s.process = .dropping pos nframes) :
    ∃ as t returned handed, Run (Step mul) s as t ∧ t.process = .idle ∧
      t.returned = s.returned ++ Option.toList returned ∧ t.handed = s.handed ++ handed ∧
      s.buffer.fetchRolling pos nframes = ⟨returned.map t.event, t.buffer, handed.map t.event⟩ := by
  obtain ⟨as, t, late, rest, waiting', hrun, h', rfl, hdropped⟩ := exists_dropped mul h hp
  have hprocess := hdropped.process.trans hp
  have hfetch := hdropped.fetchRolling_eq nframes h
  cases rest with
  | nil =>
    have hf : t.sortedEvents.first = none := h'.holds.linked
    have hidle : Inv { t with process := .idle } [] waiting' := { h' with }
    have hstep : Step mul t .none { t with process := .idle } := .none hprocess hf
    refine ⟨as ++ [.none], _, none, late, hrun.append (.single hstep), rfl, ?_, ?_, ?_⟩
    · simpa using hdropped.returned
    · exact hdropped.handed
    · rw [hfetch, hidle.buffer_eq]
      rfl
  | cons first rest =>
    have hf : t.sortedEvents.first = some first := h'.holds.linked.1
    have hfirst : first ∉ late := by
      intro hl
      have hnodup := h.holds.linked.nodup
      exact (List.nodup_append.mp hnodup).2.2 first hl first List.mem_cons_self rfl
    have hkept : -256 ≤ (t.event first).frame pos := by
      rw [hdropped.event first hfirst]
      exact hdropped.kept first rfl
    -- the write of the frame offset is none to the other events
    obtain ⟨hmap, hmapq⟩ := h'.map_update ((t.event first).updateFrameOffset pos)
    have hmapl : late.map (Function.update t.event first ((t.event first).updateFrameOffset pos)) =
        late.map t.event := by
      apply List.map_congr_left
      intro b hb
      have hne : b ≠ first := fun he => hfirst (he ▸ hb)
      exact Function.update_of_ne hne _ _
    by_cases hfits : (t.event first).frame pos < nframes
    · have hdone := h'.returnFirst .idle
        (Function.update t.event first ((t.event first).updateFrameOffset pos))
      have hstep : Step mul t .fits _ := .fits hprocess hf hkept hfits
      refine ⟨as ++ [.fits], _, some first, late, hrun.append (.single hstep), rfl, ?_, ?_, ?_⟩
      · rw [hdropped.returned]
        rfl
      · exact hdropped.handed
      · simp only [hfetch, hfits, if_true, hdone.buffer_eq, hmap, hmapq, hmapl, Option.map_some,
          Function.update_self]
    · have hdone : Inv { t with
          process := .idle
          event := Function.update t.event first ((t.event first).updateFrameOffset pos) }
          (first :: rest) waiting' := { h' with }
      have hstep : Step mul t .keep _ := .keep hprocess hf hkept (not_lt.mp hfits)
      refine ⟨as ++ [.keep], _, none, late, hrun.append (.single hstep), rfl, ?_, ?_, ?_⟩
      · simpa using hdropped.returned
      · exact hdropped.handed
      · simp only [hfetch, hfits, if_false, hdone.buffer_eq, List.map_cons, hmap, hmapq, hmapl,
          Option.map_none, Function.update_self]

theorem Inv.head?_eq (h : Inv s sorted waiting) : s.sortedEvents.first = sorted.head? := by
  cases sorted with
  | nil => exact h.holds.linked
  | cons a rest => exact h.holds.linked.1

/-- A call of `getNextEvent` that the script thread does not interrupt is one of the list-level
function. -/
theorem exists_getNextEvent (h : Inv s sorted waiting) (hp : s.process = .idle) :
    ∃ as t returned handed, Run (Step mul) s (.getNextEvent rolling pos nframes :: as) t ∧
      t.process = .idle ∧ t.returned = s.returned ++ Option.toList returned ∧
      t.handed = s.handed ++ handed ∧
      s.buffer.getNextEvent mul rolling pos nframes =
        ⟨returned.map t.event, t.buffer, handed.map t.event⟩ := by
  have hcall : Step mul s (.getNextEvent rolling pos nframes) _ := .getNextEvent hp
  have hcalled : Inv { s with process := .updating rolling pos nframes 0 } sorted waiting :=
    { h with }
  obtain ⟨as, u, counter, sorted₁, hrun, hu, hup, hdone, hevent, hret, hhand, hqueue, hfold⟩ :=
    exists_updated mul hcalled rfl
  have hbuffer : s.buffer.update mul = u.buffer := by
    rw [h.buffer_eq, hu.buffer_eq, hevent, hqueue, List.map_drop]
    exact congrArg (EventBuffer.mk _) hfold.symm
  have hcases := EventBuffer.getNextEvent_cases mul rolling pos nframes s.buffer
  rw [hbuffer] at hcases
  rcases hcases with ⟨e, l, hl, hzero, hlist⟩ | ⟨hhead, hlist⟩
  · rw [hu.buffer_eq] at hl
    obtain ⟨first, rest, rfl, rfl, rfl⟩ := List.map_eq_cons_iff.mp hl
    have hpopped := hu.returnFirst .idle u.event
    have hstep : Step mul u .passThru _ := .passThru hup hdone hu.head?_eq hzero
    refine ⟨as ++ [.passThru], _, some first, [], .stepL hcall (hrun.append (.single hstep)), rfl,
      ?_, ?_, ?_⟩
    · exact congrArg (· ++ [first]) hret
    · simpa using hhand
    · rw [hlist, hpopped.buffer_eq, hu.buffer_eq]
      rfl
  · have hbar : ∀ first ∈ u.sortedEvents.first, (u.event first).getBar ≠ 0 := by
      intro first hf
      apply hhead
      rw [hu.buffer_eq, List.head?_map, ← hu.head?_eq]
      exact Option.mem_map_of_mem u.event hf
    cases rolling with
    | false =>
      have hstep : Step mul u .stopped { u with process := .idle } := .stopped hup hdone hbar
      refine ⟨as ++ [.stopped], _, none, [], .stepL hcall (hrun.append (.single hstep)), rfl,
        ?_, ?_, ?_⟩
      · simpa using hret
      · simpa using hhand
      · exact hlist
    | true =>
      have hstep : Step mul u .updated { u with process := .dropping pos nframes } :=
        .updated hup hdone hbar
      have hlooping : Inv { u with process := .dropping pos nframes } sorted₁ waiting := { hu with }
      obtain ⟨as', t, returned, handed, hrun', hidle, hret', hhand', hfetch⟩ :=
        exists_fetched mul hlooping rfl
      refine ⟨as ++ .updated :: as', t, returned, handed,
        .stepL hcall (hrun.append (.stepL hstep hrun')), hidle, ?_, ?_, hlist.trans hfetch⟩
      · rw [hret', ← hret]
      · rw [hhand', ← hhand]

/-- The pushes to the collector's queue succeed, as they do while it can grow. -/
def Growing (s : State α) : Act α → Prop
  | .dropLate pushed | .recycleQueued pushed | .recycleOther _ pushed => pushed = true
  | .recycleSorted pushes => s.sorted.length ≤ pushes
  | _ => True

/-- What the collector was given is, each once, in its queue or deleted. -/
structure Collected (s : State α) : Prop where
  waiting : s.waitingList.first = none
  perm : (s.objectQueue ++ s.freed).Perm (s.handed ++ s.others)

theorem pushWaiting_none {pushes : ℕ} (h : s.waitingList.first = none) :
    s.pushWaiting pushes = s := by
  cases pushes with
  | zero => rfl
  | succ pushes => simp only [State.pushWaiting, h]

/-- With enough pushes the loop empties the waiting list. -/
theorem pushWaiting_linked {pushes : ℕ} (h : Linked s.next s.waitingList.first waiting)
    (hn : waiting.length ≤ pushes) :
    s.pushWaiting pushes = { s with
      objectQueue := s.objectQueue ++ waiting, waitingList := s.waitingList.clear } := by
  induction waiting generalizing s pushes with
  | nil =>
    have hfirst : s.waitingList.first = none := h
    rw [pushWaiting_none hfirst]
    simp only [List.append_nil, LinkedList.clear, ← hfirst]
  | cons a waiting ih =>
    cases pushes with
    | zero => simp at hn
    | succ pushes =>
      have hpopped := LinkedList.linked_pop h
      simp only [State.pushWaiting, h.1]
      have htail := @ih { s with
        objectQueue := s.objectQueue ++ [a], waitingList := s.waitingList.pop s.next }
        pushes hpopped (by simpa using hn)
      rw [htail]
      simp only [List.append_assoc, List.singleton_append, LinkedList.clear, LinkedList.pop]

theorem perm_recycled {queue freed added l l' : List ℕ} (h : (queue ++ freed).Perm l)
    (hl : l'.Perm (added ++ l)) : (queue ++ added ++ freed).Perm l' := by
  have hqueue : (queue ++ added).Perm (added ++ queue) := List.perm_append_comm
  have hall := hqueue.append_right freed
  rw [List.append_assoc added] at hall
  exact hall.trans ((h.append_left added).trans hl.symm)

theorem Collected.recycle {handed others : List ℕ} (h : Collected s)
    (hl : (handed ++ others).Perm ([a] ++ (s.handed ++ s.others))) {queue : List ℕ}
    {sortedEvents : LinkedList} {event : ℕ → Event α} :
    Collected (State.recycle true a { s with
      event := event, eventQueue := queue, sortedEvents := sortedEvents
      handed := handed, others := others }) where
  waiting := h.waiting
  perm := perm_recycled h.perm hl

theorem collected_step (hi : Inv s sorted waiting) (h : Collected s) (hg : Growing s act)
    (hs : Step mul s act t) : Collected t := by
  cases hs with
  | addEvent | getNextEvent | insert | passThru | stopped | updated | fits | keep | none
  | recycleRemaining | allocate => exact ⟨h.waiting, h.perm⟩
  | dropLate hp hf hlate =>
    obtain rfl := hg
    apply h.recycle
    simp
  | recycleQueued hp hq =>
    obtain rfl := hg
    apply h.recycle
    simp
  | recycleOther hp ha hq hs hr =>
    obtain rfl := hg
    apply h.recycle
    rw [← List.append_assoc]
    exact List.perm_append_singleton _ _
  | recycleSorted hp hq =>
    rename_i pushes
    have hsplice : LinkedList.addAll s.next s.sortedEvents s.waitingList =
        (s.next, s.sortedEvents) := by simp only [LinkedList.addAll, h.waiting]
    have hlength : s.sorted.length ≤ pushes := hg
    rw [hi.sorted_eq] at hlength
    rw [State.recycleAll, hsplice, pushWaiting_linked hi.holds.linked hlength, hi.sorted_eq]
    refine ⟨rfl, perm_recycled h.perm ?_⟩
    rw [← List.append_assoc]
    exact List.perm_append_comm.append_right s.others
  | update hp =>
    rw [pushWaiting_none h.waiting]
    exact h
  | free hq =>
    refine ⟨h.waiting, ?_⟩
    have hperm := h.perm
    rw [hq] at hperm
    refine List.Perm.trans ?_ hperm
    rw [← List.append_assoc]
    exact List.perm_append_singleton _ _

/-- While the collector's queue grows, in every interleaving it has each object once of those that
the buffer and others handed over, and the waiting list stays empty. -/
theorem run_collected {event : ℕ → Event α} {next : ℕ → Option ℕ}
    (h : Run (restrict Growing (Step mul)) (initial event next) as s) : Collected s := by
  have hinv : ∀ {s : State α} {act t}, (∃ sorted waiting, Inv s sorted waiting) ∧ Collected s →
      Growing s act → Step mul s act t →
        (∃ sorted waiting, Inv t sorted waiting) ∧ Collected t := by
    rintro s act t ⟨⟨sorted, waiting, hi⟩, hc⟩ hg hs
    exact ⟨inv_step hi hs, collected_step hi hc hg hs⟩
  have hinitial : Collected (initial event next) := ⟨rfl, .refl _⟩
  have hrun := h.invariant_restrict
    (I := fun s => (∃ sorted waiting, Inv s sorted waiting) ∧ Collected s) hinv
    ⟨⟨[], [], inv_initial event next⟩, hinitial⟩
  exact hrun.2

/-- In every interleaving no event is lost or duplicated, none is returned that was returned before
or has been recycled, by the buffer or by others, and while the collector's queue grows each event
handed to the collector is there once, or has been deleted. -/
theorem run_conserved {event : ℕ → Event α} {next : ℕ → Option ℕ}
    (h : Run (Step mul) (initial event next) as s) :
    Conserved s ∧
    (∀ act t a, Step mul s act t → t.returned = s.returned ++ [a] →
      a ∉ s.returned ∧ a ∉ s.handed ∧ a ∉ s.others) ∧
    (Run (restrict Growing (Step mul)) (initial event next) as s → Collected s) := by
  obtain ⟨sorted, waiting, hinv⟩ := inv_run h
  refine ⟨hinv.conserved, ?_, run_collected⟩
  intro act t a hs ht
  exact hinv.returned_once hs ht

/-- One event passed through, and the other handed over with the list it was in. -/
theorem run_conserved_two :
    ∃ s : State Unit, s.added = [0, 1] ∧ s.returned = [0] ∧ s.handed = [1] ∧ Conserved s ∧
      s.objectQueue = [1] ∧ Collected s := by
  have hrun : ∃ s : State Unit, Run (restrict Growing (Step mul32))
      (initial (fun _ => ⟨⟨⟨0, 0, 1⟩, by decide⟩, 0, ()⟩) fun _ => none)
      [.addEvent ⟨⟨⟨0, 0, 1⟩, by decide⟩, 0, ()⟩, .addEvent ⟨⟨⟨3, 0, 1⟩, by decide⟩, 0, ()⟩,
        .getNextEvent false barOne.toJackPosition 1024, .insert, .insert, .passThru,
        .recycleRemaining, .recycleSorted 1] s ∧
      s.added = [0, 1] ∧ s.returned = [0] ∧ s.handed = [1] ∧ s.objectQueue = [1] := by
    refine ⟨_, .stepL ⟨trivial, .addEvent (by decide)⟩ <|
      .stepL ⟨trivial, .addEvent (by decide)⟩ <| .stepL ⟨trivial, .getNextEvent rfl⟩ <|
      .stepL ⟨trivial, .insert rfl (by decide) rfl rfl⟩ <|
      .stepL ⟨trivial, .insert rfl (by decide) rfl rfl⟩ <|
      .stepL ⟨trivial, .passThru rfl (Or.inr rfl) rfl rfl⟩ <|
      .stepL ⟨trivial, .recycleRemaining rfl⟩ <|
      .single ⟨le_refl 1, .recycleSorted rfl rfl⟩, rfl, rfl, rfl, rfl⟩
  obtain ⟨s, hrun, hadded, hreturned, hhanded, hqueue⟩ := hrun
  obtain ⟨hconserved, -, hcollected⟩ := run_conserved hrun.of_restrict
  exact ⟨s, hadded, hreturned, hhanded, hconserved, hqueue, hcollected hrun⟩

end Bipscript.BufferRuns
