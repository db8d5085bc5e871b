import Bipscript.Position
import Mathlib.Data.List.Basic

/-! Events, the sorted list they wait in, and the buffer between the two threads. -/
namespace Bipscript

/-- An `Event`: its position, the frame offset last computed for it and its subclass's data. -/
structure Event (α : Type*) where
  pos : Position
  frameOffset : ℤ
  data : α

namespace Event

variable {α : Type*}

def getBar (e : Event α) : ℕ := e.pos.whole

/-- The frame offset of the event in a period that starts at `pos`. -/
def frame (pos : JackPosition) (e : Event α) : ℤ := calculateFrameOffset e.pos.toDuration pos

def updateFrameOffset (pos : JackPosition) (e : Event α) : Event α :=
  { e with frameOffset := e.frame pos }

@[simp] theorem updateFrameOffset_frameOffset (pos : JackPosition) (e : Event α) :
    (e.updateFrameOffset pos).frameOffset = e.frame pos := rfl

end Event

/-! `EventList` -/

variable {α : Type*}

/-- `*a <= *b`, with the cross products taken by `mul`. -/
def Event.le (mul : ℕ → ℕ → ℕ) (a b : Event α) : Bool :=
  Duration.le mul a.pos.toDuration b.pos.toDuration

def Event.lt (mul : ℕ → ℕ → ℕ) (a b : Event α) : Bool :=
  Duration.lt mul a.pos.toDuration b.pos.toDuration

theorem Event.lt_iff_not_le {a b : Event α} : b.lt mul a = true ↔ ¬ a.le mul b = true :=
  Duration.lt_iff_not_le

namespace EventList

/-- The walk of `insert`: past every element that is `<=` the new one. -/
def insertAfter (mul : ℕ → ℕ → ℕ) (elem : Event α) : List (Event α) → List (Event α)
  | [] => [elem] -- not reached: `last` is not `<=` the new element
  | e :: rest =>
    if e.le mul elem then e :: insertAfter mul elem rest
    else elem :: e :: rest

def insert (mul : ℕ → ℕ → ℕ) (elem : Event α) : List (Event α) → List (Event α)
  | [] => [elem]
  | first :: rest =>
    if ((first :: rest).getLast (by simp)).le mul elem then (first :: rest) ++ [elem]
    else if elem.lt mul first then elem :: first :: rest
    else first :: insertAfter mul elem rest

theorem insertAfter_perm (mul : ℕ → ℕ → ℕ) (elem : Event α) (l : List (Event α)) :
    (insertAfter mul elem l).Perm (elem :: l) := by
  induction l with
  | nil => exact .refl _
  | cons e rest ih =>
    unfold insertAfter
    split
    · exact (ih.cons e).trans (.swap elem e rest)
    · exact .refl _

theorem insert_perm (mul : ℕ → ℕ → ℕ) (elem : Event α) (l : List (Event α)) :
    (insert mul elem l).Perm (elem :: l) := by
  cases l with
  | nil => exact .refl _
  | cons first rest =>
    simp only [insert]
    split
    · exact List.perm_append_singleton elem (first :: rest)
    · split
      · exact .refl _
      · exact ((insertAfter_perm mul elem rest).cons first).trans (.swap elem first rest)

/-- Sorted by position, as rational numbers of bars. -/
def Sorted (l : List (Event α)) : Prop := l.Pairwise fun a b => a.pos.value ≤ b.pos.value

theorem Event.le_exact {a b : Event α} : a.le (· * ·) b = true ↔ a.pos.value ≤ b.pos.value :=
  Position.le_iff_value_le a.pos b.pos

theorem Event.lt_exact {a b : Event α} : a.lt (· * ·) b = true ↔ a.pos.value < b.pos.value :=
  Position.lt_iff_value_lt a.pos b.pos

/-- Whichever way two events compare, a relation holds that way. -/
def Follows (mul : ℕ → ℕ → ℕ) (R : Event α → Event α → Prop) (x y : Event α) : Prop :=
  if x.le mul y then R x y else R y x

section Insert

variable {mul : ℕ → ℕ → ℕ} {R : Event α → Event α → Prop} {elem : Event α} {l : List (Event α)}

theorem Follows.of_le {x y : Event α} (h : Follows mul R x y) (hle : x.le mul y = true) :
    R x y := by
  rwa [Follows, if_pos hle] at h

theorem Follows.of_not_le {x y : Event α} (h : Follows mul R x y) (hle : ¬ x.le mul y = true) :
    R y x := by
  rwa [Follows, if_neg hle] at h

theorem insertAfter_pairwise (htrans : ∀ x y z, R x y → R y z → R x z)
    (hf : ∀ x ∈ l, Follows mul R x elem) (h : l.Pairwise R) :
    (insertAfter mul elem l).Pairwise R := by
  induction l with
  | nil => exact List.pairwise_singleton _ _
  | cons e rest ih =>
    obtain ⟨he, hrest⟩ := List.pairwise_cons.mp h
    obtain ⟨hfe, hfrest⟩ := List.forall_mem_cons.mp hf
    unfold insertAfter
    split
    · rename_i hle
      refine List.pairwise_cons.mpr ⟨?_, ih hfrest hrest⟩
      intro x hx
      rcases List.mem_cons.mp ((insertAfter_perm _ elem rest).mem_iff.mp hx) with rfl | hx
      · exact hfe.of_le hle
      · exact he x hx
    · rename_i hle
      have hfirst := hfe.of_not_le hle
      refine List.pairwise_cons.mpr ⟨?_, h⟩
      intro x hx
      rcases List.mem_cons.mp hx with rfl | hx
      · exact hfirst
      · exact htrans _ _ _ hfirst (he x hx)

/-- Where the comparisons with the new event follow a transitive relation the list stays in its
order. -/
theorem insert_pairwise (htrans : ∀ x y z, R x y → R y z → R x z)
    (hf : ∀ x ∈ l, Follows mul R x elem) (h : l.Pairwise R) : (insert mul elem l).Pairwise R := by
  cases l with
  | nil => exact List.pairwise_singleton _ _
  | cons first rest =>
    obtain ⟨hffirst, hfrest⟩ := List.forall_mem_cons.mp hf
    simp only [insert]
    split
    · rename_i hlast
      have hle := (hf _ (List.getLast_mem _)).of_le hlast
      refine List.pairwise_append.mpr ⟨h, List.pairwise_singleton _ _, ?_⟩
      intro x hx y hy
      rw [List.mem_singleton.mp hy]
      -- everything is at or before the last element
      rw [← List.dropLast_append_getLast (List.cons_ne_nil first rest)] at h hx
      rcases List.mem_append.mp hx with hx | hx
      · exact htrans _ _ _
          ((List.pairwise_append.mp h).2.2 x hx _ (List.mem_singleton_self _)) hle
      · rw [List.mem_singleton.mp hx]
        exact hle
    · split
      · rename_i hfirst
        have hle := hffirst.of_not_le (Event.lt_iff_not_le.mp hfirst)
        refine List.pairwise_cons.mpr ⟨?_, h⟩
        intro x hx
        rcases List.mem_cons.mp hx with rfl | hx
        · exact hle
        · exact htrans _ _ _ hle ((List.pairwise_cons.mp h).1 x hx)
      · rename_i hfirst
        rw [Event.lt_iff_not_le, not_not] at hfirst
        obtain ⟨he, hrest⟩ := List.pairwise_cons.mp h
        refine List.pairwise_cons.mpr ⟨?_, insertAfter_pairwise htrans hfrest hrest⟩
        intro x hx
        rcases List.mem_cons.mp ((insertAfter_perm _ elem rest).mem_iff.mp hx) with rfl | hx
        · exact hffirst.of_le hfirst
        · exact he x hx

theorem follows_exact (x y : Event α) :
    Follows (· * ·) (fun a b => a.pos.value ≤ b.pos.value) x y := by
  unfold Follows
  split
  · rename_i hle
    exact Event.le_exact.mp hle
  · rename_i hle
    rw [Event.le_exact] at hle
    exact (not_le.mp hle).le

/-- In exact arithmetic the list stays sorted. -/
theorem insert_sorted (h : Sorted l) : Sorted (insert (· * ·) elem l) :=
  insert_pairwise (fun _ _ _ hxy hyz => hxy.trans hyz) (fun x _ => follows_exact x elem) h

end Insert

end EventList

/-! `EventBuffer` -/

/-- `eventQueue` crosses from the script thread to the process thread; `sortedEvents` is local to
the process thread. -/
structure EventBuffer (α : Type*) where
  eventQueue : List (Event α)
  sortedEvents : List (Event α)

/-- What a `getNextEvent` call returns, leaves, and recycles. -/
structure Fetch (α : Type*) where
  event : Option (Event α)
  buffer : EventBuffer α
  recycled : List (Event α)

namespace EventBuffer

def UPDATE_MAX_EVENTS : ℕ := 32

/-- The capacity of `eventQueue`. -/
def CAPACITY : ℕ := 2048

def empty : EventBuffer α := ⟨[], []⟩

/-- One attempt of `addEvent`; none when the queue is full and the caller has to retry. -/
def addEvent (evt : Event α) (b : EventBuffer α) : Option (EventBuffer α) :=
  if b.eventQueue.length < CAPACITY then some { b with eventQueue := b.eventQueue ++ [evt] }
  else none

theorem addEvent_eq {evt : Event α} {b b' : EventBuffer α} (h : b.addEvent evt = some b') :
    b' = { b with eventQueue := b.eventQueue ++ [evt] } := by
  unfold addEvent at h
  split at h
  · exact (Option.some.inj h).symm
  · cases h

def update (mul : ℕ → ℕ → ℕ) (b : EventBuffer α) : EventBuffer α where
  eventQueue := b.eventQueue.drop UPDATE_MAX_EVENTS
  sortedEvents := (b.eventQueue.take UPDATE_MAX_EVENTS).foldl
    (fun l freshEvent => EventList.insert mul freshEvent l) b.sortedEvents

/-- The loop that drops events that have already passed: the ones dropped, and the list from the
first one kept. -/
def dropLate (pos : JackPosition) : List (Event α) → List (Event α) × List (Event α)
  | [] => ([], [])
  | first :: rest =>
    if first.frame pos < -256 then
      (first.updateFrameOffset pos :: (dropLate pos rest).1, (dropLate pos rest).2)
    else ([], first.updateFrameOffset pos :: rest)

def getNextEvent (mul : ℕ → ℕ → ℕ) (rolling : Bool) (pos : JackPosition) (nframes : ℕ)
    (b : EventBuffer α) : Fetch α :=
  let b := b.update mul
  match b.sortedEvents with
  | [] => ⟨none, b, []⟩
  | first :: rest =>
    -- pass thru zero bar events
    if first.getBar = 0 then ⟨some first, { b with sortedEvents := rest }, []⟩
    else if rolling then
      match dropLate pos (first :: rest) with
      | (late, []) => ⟨none, { b with sortedEvents := [] }, late⟩
      | (late, first :: rest) =>
        -- return the top event if it fits in this buffer
        if first.frameOffset < nframes then
          ⟨some first, { b with sortedEvents := rest }, late⟩
        else ⟨none, { b with sortedEvents := first :: rest }, late⟩
    else ⟨none, b, []⟩

/-- The emptied buffer, and everything that was in it. -/
def recycleRemaining (b : EventBuffer α) : EventBuffer α × List (Event α) :=
  (empty, b.eventQueue ++ b.sortedEvents)

/-- Everything added and not yet handed out or recycled. -/
def pending (b : EventBuffer α) : List (Event α) := b.sortedEvents ++ b.eventQueue

/-- Not dropped in a period that starts at `pos`. -/
def notLate (pos : JackPosition) (e : Event α) : Bool := -256 ≤ e.frame pos

theorem foldl_insert_perm (mul : ℕ → ℕ → ℕ) (fresh l : List (Event α)) :
    (fresh.foldl (fun l freshEvent => EventList.insert mul freshEvent l) l).Perm (l ++ fresh) := by
  induction fresh generalizing l with
  | nil => simp
  | cons e fresh ih =>
    refine (ih _).trans ?_
    refine ((EventList.insert_perm mul e l).append_right fresh).trans ?_
    exact List.perm_middle.symm

theorem update_perm (mul : ℕ → ℕ → ℕ) (b : EventBuffer α) :
    (b.update mul).sortedEvents.Perm
      (b.sortedEvents ++ b.eventQueue.take UPDATE_MAX_EVENTS) :=
  foldl_insert_perm mul _ _

theorem foldl_insert_pairwise {mul : ℕ → ℕ → ℕ} {R : Event α → Event α → Prop}
    {fresh l : List (Event α)} (htrans : ∀ x y z, R x y → R y z → R x z)
    (hf : ∀ x ∈ l, ∀ y ∈ fresh, EventList.Follows mul R x y)
    (hfresh : fresh.Pairwise (EventList.Follows mul R)) (h : l.Pairwise R) :
    (fresh.foldl (fun l freshEvent => EventList.insert mul freshEvent l) l).Pairwise R := by
  induction fresh generalizing l with
  | nil => exact h
  | cons e fresh ih =>
    obtain ⟨he, hrest⟩ := List.pairwise_cons.mp hfresh
    refine ih (fun x hx y hy => ?_) hrest
      (EventList.insert_pairwise htrans (fun x hx => hf x hx e List.mem_cons_self) h)
    rcases List.mem_cons.mp ((EventList.insert_perm mul e l).mem_iff.mp hx) with rfl | hx
    · exact he y hy
    · exact hf x hx y (List.mem_cons_of_mem _ hy)

theorem update_pairwise {mul : ℕ → ℕ → ℕ} {R : Event α → Event α → Prop} {b : EventBuffer α}
    (htrans : ∀ x y z, R x y → R y z → R x z)
    (hf : ∀ x ∈ b.sortedEvents, ∀ y ∈ b.eventQueue, EventList.Follows mul R x y)
    (hqueue : b.eventQueue.Pairwise (EventList.Follows mul R)) (h : b.sortedEvents.Pairwise R) :
    (b.update mul).sortedEvents.Pairwise R :=
  foldl_insert_pairwise htrans (fun x hx y hy => hf x hx y (List.mem_of_mem_take hy))
    (hqueue.sublist (List.take_sublist _ _)) h

theorem update_sorted {b : EventBuffer α} (h : EventList.Sorted b.sortedEvents) :
    EventList.Sorted (b.update (· * ·)).sortedEvents :=
  update_pairwise (fun _ _ _ hxy hyz => hxy.trans hyz)
    (fun x _ y _ => EventList.follows_exact x y)
    (List.pairwise_of_forall fun x y => EventList.follows_exact x y) h

/-- Draining moves events, and loses none. -/
theorem update_pending_perm (mul : ℕ → ℕ → ℕ) (b : EventBuffer α) :
    (b.update mul).pending.Perm b.pending := by
  have h := (update_perm mul b).append_right (b.eventQueue.drop UPDATE_MAX_EVENTS)
  rwa [List.append_assoc, List.take_append_drop] at h

theorem mem_update_pending {mul : ℕ → ℕ → ℕ} {b : EventBuffer α} {e : Event α}
    (h : e ∈ (b.update mul).sortedEvents) : e ∈ b.pending :=
  (update_pending_perm mul b).mem_iff.mp (List.mem_append_left _ h)

/-- On a sorted list the loop keeps exactly the events that are not late. -/
theorem dropLate_snd (pos : BBT) {l : List (Event α)} (h : EventList.Sorted l) :
    (dropLate pos.toJackPosition l).2 =
      match l.filter (notLate pos.toJackPosition) with
      | [] => []
      | e :: rest => e.updateFrameOffset pos.toJackPosition :: rest := by
  induction l with
  | nil => rfl
  | cons first rest ih =>
    obtain ⟨hf, hrest⟩ := List.pairwise_cons.mp h
    unfold dropLate
    split
    · rename_i hlate
      have hn : notLate pos.toJackPosition first = false := by simp [notLate, hlate]
      rw [List.filter_cons_of_neg (by simp [hn])]
      exact ih hrest
    · rename_i hlate
      have hn : ∀ e ∈ first :: rest, notLate pos.toJackPosition e = true := by
        intro e he
        rcases List.mem_cons.mp he with rfl | he
        · simpa [notLate] using hlate
        · have hm : first.frame pos.toJackPosition ≤ e.frame pos.toJackPosition :=
            calculateFrameOffset_mono first.pos e.pos pos (hf e he)
          exact decide_eq_true (by omega)
      rw [List.filter_eq_self.mpr hn]

theorem dropLate_sorted (pos : JackPosition) {l : List (Event α)} (h : EventList.Sorted l) :
    EventList.Sorted (dropLate pos l).2 := by
  induction l with
  | nil => exact h
  | cons first rest ih =>
    obtain ⟨hf, hrest⟩ := List.pairwise_cons.mp h
    unfold dropLate
    split
    · exact ih hrest
    · exact List.pairwise_cons.mpr ⟨hf, hrest⟩

/-- The first event kept has its offset updated, and is not late. -/
theorem dropLate_frameOffset (pos : JackPosition) {l rest : List (Event α)} {first : Event α}
    (h : (dropLate pos l).2 = first :: rest) :
    first.frameOffset = first.frame pos ∧ -256 ≤ first.frame pos := by
  induction l with
  | nil => cases h
  | cons e l ih =>
    unfold dropLate at h
    split at h
    · exact ih h
    · rename_i hlate
      cases h
      exact ⟨rfl, not_lt.mp hlate⟩

/-- `getNextEvent` from its loop over late events on. -/
def fetchRolling (pos : JackPosition) (nframes : ℕ) (b : EventBuffer α) : Fetch α :=
  match dropLate pos b.sortedEvents with
  | (late, []) => ⟨none, { b with sortedEvents := [] }, late⟩
  | (late, first :: rest) =>
    if first.frameOffset < nframes then ⟨some first, { b with sortedEvents := rest }, late⟩
    else ⟨none, { b with sortedEvents := first :: rest }, late⟩

/-- What the loop leaves is handed out, kept, or nothing. -/
theorem fetchRolling_cases (pos : JackPosition) (nframes : ℕ) (b : EventBuffer α) :
    let d := dropLate pos b.sortedEvents
    (d.2 = [] ∧ b.fetchRolling pos nframes = ⟨none, { b with sortedEvents := [] }, d.1⟩) ∨
    (∃ first rest, d.2 = first :: rest ∧ first.frameOffset < nframes ∧
      b.fetchRolling pos nframes = ⟨some first, { b with sortedEvents := rest }, d.1⟩) ∨
    ∃ first rest, d.2 = first :: rest ∧ nframes ≤ first.frameOffset ∧
      b.fetchRolling pos nframes = ⟨none, { b with sortedEvents := first :: rest }, d.1⟩ := by
  unfold fetchRolling
  generalize dropLate pos b.sortedEvents = d
  obtain ⟨late, l⟩ := d
  cases l with
  | nil => exact Or.inl ⟨rfl, rfl⟩
  | cons first rest =>
    by_cases hdue : first.frameOffset < nframes
    · exact Or.inr (Or.inl ⟨first, rest, rfl, hdue, if_pos hdue⟩)
    · exact Or.inr (Or.inr ⟨first, rest, rfl, not_lt.mp hdue, if_neg hdue⟩)

/-- After `update` a call passes an event of bar zero through, stops, or goes on to its loop. -/
theorem getNextEvent_cases (mul : ℕ → ℕ → ℕ) (rolling : Bool) (pos : JackPosition) (nframes : ℕ)
    (b : EventBuffer α) :
    let u := b.update mul
    (∃ first rest, u.sortedEvents = first :: rest ∧ first.getBar = 0 ∧
      b.getNextEvent mul rolling pos nframes =
        ⟨some first, { u with sortedEvents := rest }, []⟩) ∨
    (∀ e ∈ u.sortedEvents.head?, e.getBar ≠ 0) ∧
      b.getNextEvent mul rolling pos nframes =
        if rolling then u.fetchRolling pos nframes else ⟨none, u, []⟩ := by
  unfold getNextEvent
  generalize b.update mul = u
  obtain ⟨queue, l⟩ := u
  cases l with
  | nil =>
    refine Or.inr ⟨by simp, ?_⟩
    cases rolling <;> rfl
  | cons first rest =>
    by_cases hbar : first.getBar = 0
    · exact Or.inl ⟨first, rest, rfl, hbar, if_pos hbar⟩
    · refine Or.inr ⟨by simpa using hbar, ?_⟩
      exact if_neg hbar

/-- When a list sorted by position is inspected and none is handed out, none left in it is due. -/
theorem getNextEvent_none_left (pos : BBT) (nframes : ℕ) (mul : ℕ → ℕ → ℕ) {b : EventBuffer α}
    (hs : EventList.Sorted (b.update mul).sortedEvents)
    (h : (b.getNextEvent mul true pos.toJackPosition nframes).event = none) :
    ∀ e ∈ (b.getNextEvent mul true pos.toJackPosition nframes).buffer.sortedEvents,
      (nframes : ℤ) ≤ e.frame pos.toJackPosition := by
  rcases getNextEvent_cases mul true pos.toJackPosition nframes b with
    ⟨first, rest, -, -, hr⟩ | ⟨-, hr⟩
  · rw [hr] at h
    cases h
  · rw [hr] at h ⊢
    rcases fetchRolling_cases pos.toJackPosition nframes (b.update mul) with
      ⟨-, hf⟩ | ⟨first, rest, -, -, hf⟩ | ⟨first, rest, hd, hdue, hf⟩
    · simp [hf]
    · simp [hf] at h
    · have hsorted := dropLate_sorted pos.toJackPosition hs
      rw [hd] at hsorted
      rw [(dropLate_frameOffset pos.toJackPosition hd).1] at hdue
      simp only [if_true, hf]
      intro e he
      rcases List.mem_cons.mp he with rfl | he
      · exact hdue
      · exact hdue.trans (calculateFrameOffset_mono first.pos e.pos pos
          ((List.pairwise_cons.mp hsorted).1 e he))

/-- From bar one on, the list is sorted. -/
def Placed (x y : Event α) : Prop := x.getBar = 0 ∨ x.pos.value ≤ y.pos.value

theorem value_of_bar {x y : Event α} (hx : x.getBar ≠ 0) (h : x.pos.value ≤ y.pos.value) :
    y.getBar ≠ 0 := by
  intro hy
  have hlt := y.pos.value_lt_succ
  have hle := x.pos.whole_le_value
  have hone : (1 : ℚ) ≤ x.pos.whole := by exact_mod_cast Nat.one_le_iff_ne_zero.mpr hx
  have hzero : (y.pos.whole : ℚ) = 0 := by exact_mod_cast hy
  linarith

theorem placed_trans (x y z : Event α) (hxy : Placed x y) (hyz : Placed y z) : Placed x z := by
  by_cases hx : x.getBar = 0
  · exact Or.inl hx
  · have hle := hxy.resolve_left hx
    exact Or.inr (hle.trans (hyz.resolve_left (value_of_bar hx hle)))

/-- On the machine an earlier position, from bar one on, is before a later one. -/
def Tells (positions : Set Position) : Prop :=
  ∀ a ∈ positions, ∀ b ∈ positions, a.whole ≠ 0 → a.value < b.value →
    a.toDuration.lt mul32 b.toDuration = true

theorem follows_of_tells {positions : Set Position} {x y : Event α} (h : Tells positions)
    (hx : x.pos ∈ positions) (hy : y.pos ∈ positions) : EventList.Follows mul32 Placed x y := by
  have hcase : ∀ x y : Event α, x.pos ∈ positions → y.pos ∈ positions → ¬ y.lt mul32 x = true →
      Placed x y := by
    intro x y hx hy hlt
    by_cases hbar : x.getBar = 0
    · exact Or.inl hbar
    · refine Or.inr (not_lt.mp fun hvalue => hlt ?_)
      by_cases hy0 : y.pos.whole = 0
      · have hwhole : y.pos.whole < x.pos.whole := by
          rw [hy0]
          exact Nat.pos_of_ne_zero hbar
        exact if_pos hwhole
      · exact h _ hy _ hx hy0 hvalue
  unfold EventList.Follows
  split
  · rename_i hle
    exact hcase x y hx hy fun hlt => Event.lt_iff_not_le.mp hlt hle
  · rename_i hle
    exact hcase y x hy hx fun hlt => hle (Duration.le_of_lt hlt)

/-- Positions that the machine puts in the other order are in one bar. -/
theorem whole_eq_of_not_lt {mul : ℕ → ℕ → ℕ} {a b : Position} (hvalue : a.value < b.value)
    (hlt : ¬ a.toDuration.lt mul b.toDuration = true) : a.whole = b.whole := by
  have ha' := a.whole_le_value
  have hb' := b.value_lt_succ
  have hle : a.whole < b.whole + 1 := by
    exact_mod_cast (ha'.trans_lt (hvalue.trans hb') : (a.whole : ℚ) < b.whole + 1)
  by_contra hne
  exact hlt (if_pos (by omega))

/-- In bar `whole`, at its first tick, with as many ticks in the bar as `division`, a frame each. -/
def atTicks (whole : ℕ) {division : ℕ} (h : 0 < division) : BBT :=
  ⟨⟨whole, 1, 0, division, 1, 60, division⟩, Nat.cast_pos.mpr h, one_pos, by norm_num⟩

theorem calculateFrameOffset_atTicks (d : Duration) {division : ℕ} (h : 0 < division) :
    calculateFrameOffset d (atTicks d.whole h).toJackPosition =
      evtTick d (atTicks d.whole h).toJackPosition := by
  have hd : (0 : ℚ) < division := Nat.cast_pos.mpr h
  have htick : tickOffset d (atTicks d.whole h).toJackPosition =
      evtTick d (atTicks d.whole h).toJackPosition := by
    rw [← truncate_intCast (evtTick d (atTicks d.whole h).toJackPosition)]
    unfold tickOffset
    congr 1
    simp [atTicks]
  unfold calculateFrameOffset
  rw [htick]
  generalize evtTick d (atTicks d.whole h).toJackPosition = n
  rw [← truncate_intCast n]
  congr 1
  simp only [atTicks, truncate_intCast]
  field_simp

/-- A transport whose ticks and frames tell two positions of a bar apart. -/
theorem exists_between {a b : Position} (hwhole : a.whole = b.whole) (h : a.value < b.value) :
    ∃ (pos : BBT) (nframes : ℕ), 0 ≤ calculateFrameOffset a.toDuration pos.toJackPosition ∧
      calculateFrameOffset a.toDuration pos.toJackPosition < nframes ∧
      calculateFrameOffset b.toDuration pos.toJackPosition = nframes := by
  have hd : (0 : ℚ) < b.division := by exact_mod_cast b.division_pos
  have hd' : (0 : ℚ) < a.division := by exact_mod_cast a.division_pos
  have hoffset := calculateFrameOffset_atTicks a.toDuration b.division_pos
  have hoffset' := calculateFrameOffset_atTicks b.toDuration b.division_pos
  rw [← hwhole] at hoffset'
  refine ⟨atTicks a.whole b.division_pos, b.position, ?_, ?_, ?_⟩
  · rw [hoffset]
    exact (evtTick_bounds a _).1
  · rw [hoffset, evtTick, truncate_of_nonneg, Int.floor_lt]
    · have hpos : (a.position : ℚ) / a.division < b.position / b.division := by
        unfold Duration.value at h
        rw [hwhole] at h
        linarith
      simp only [atTicks]
      push_cast
      rw [div_lt_div_iff₀ hd' hd] at hpos
      rw [div_lt_iff₀ hd', mul_one]
      exact hpos
    · simp only [atTicks]
      positivity
  · rw [hoffset', ← truncate_intCast b.position]
    unfold evtTick
    congr 1
    simp only [atTicks]
    push_cast
    field_simp

/-- What is at the head of the list inspected when none is handed out. -/
theorem getNextEvent_none_bar {mul : ℕ → ℕ → ℕ} {pos : JackPosition} {nframes : ℕ}
    {b : EventBuffer α} (h : (b.getNextEvent mul true pos nframes).event = none) :
    ∀ e ∈ (b.update mul).sortedEvents.head?, e.getBar ≠ 0 := by
  rcases getNextEvent_cases mul true pos nframes b with ⟨first, rest, -, -, hr⟩ | ⟨hbar, -⟩
  · rw [hr] at h
    cases h
  · exact hbar

/-- Where the comparisons tell the positions apart, an update leaves a list that is sorted from bar
one on. -/
theorem update_placed {positions : Set Position} {b : EventBuffer α} (h : Tells positions)
    (hmem : ∀ e ∈ b.pending, e.pos ∈ positions) (hs : EventList.Sorted b.sortedEvents) :
    (b.update mul32).sortedEvents.Pairwise Placed := by
  have hqueue : ∀ e ∈ b.eventQueue, e.pos ∈ positions := fun e he =>
    hmem e (List.mem_append_right _ he)
  refine update_pairwise placed_trans (fun x hx y hy => ?_) ?_ (hs.imp Or.inr)
  · exact follows_of_tells h (hmem x (List.mem_append_left _ hx)) (hqueue y hy)
  · exact List.pairwise_iff_forall_sublist.mpr fun {x y} hsub =>
      follows_of_tells h (hqueue x (hsub.subset List.mem_cons_self))
        (hqueue y (hsub.subset (List.mem_cons_of_mem _ List.mem_cons_self)))

/-- The head of a list sorted from bar one on speaks for all of it. -/
theorem sorted_of_placed {l : List (Event α)} (hl : l.Pairwise Placed)
    (hhead : ∀ e ∈ l.head?, e.getBar ≠ 0) : EventList.Sorted l := by
  cases l with
  | nil => exact List.Pairwise.nil
  | cons first rest =>
    have hfirst : first.getBar ≠ 0 := hhead first rfl
    obtain ⟨hle, hrest⟩ := List.pairwise_cons.mp hl
    have hvalue : ∀ y ∈ rest, first.pos.value ≤ y.pos.value := fun y hy =>
      (hle y hy).resolve_left hfirst
    refine List.pairwise_cons.mpr ⟨hvalue, hrest.imp_of_mem fun hx _ hxy => ?_⟩
    exact hxy.resolve_left (value_of_bar hfirst (hvalue _ hx))

/-- An event put before another is due after the period, so both are kept. -/
theorem getNextEvent_behind {mul : ℕ → ℕ → ℕ} {pos : JackPosition} {nframes : ℕ} {x y : Event α}
    (hle : y.le mul x = true) (hbar : y.getBar ≠ 0) (hframe : y.frame pos = nframes) :
    (EventBuffer.mk [x] [y]).getNextEvent mul true pos nframes =
      ⟨none, ⟨[], [y.updateFrameOffset pos, x]⟩, []⟩ := by
  have hupdate : (EventBuffer.mk [x] [y]).update mul = ⟨[], [y, x]⟩ := by
    simp [update, EventList.insert, hle, UPDATE_MAX_EVENTS]
  have hlate : ¬ (nframes : ℤ) < -256 := by omega
  simp [getNextEvent, hupdate, hbar, dropLate, hframe, hlate]

/-- Frame offsets follow the order of bar positions. So the head of a sorted list speaks for all of
it exactly where the comparisons on the machine tell the positions apart. -/
theorem schedule_sound_iff [Inhabited α] (positions : Set Position) :
    (∀ pos : BBT,
      (∀ a b : Position, a.value ≤ b.value →
        calculateFrameOffset a.toDuration pos.toJackPosition ≤
          calculateFrameOffset b.toDuration pos.toJackPosition) ∧
      ∀ (nframes : ℕ) (b : EventBuffer α), (∀ e ∈ b.pending, e.pos ∈ positions) →
        EventList.Sorted b.sortedEvents →
        (b.getNextEvent mul32 true pos.toJackPosition nframes).event = none →
        ∀ e ∈ (b.getNextEvent mul32 true pos.toJackPosition nframes).buffer.sortedEvents,
          (nframes : ℤ) ≤ e.frame pos.toJackPosition) ↔
      Tells positions := by
  constructor
  · intro h a ha b hb hbar hvalue
    by_contra hlt
    -- they are in one bar, and `b` is not put behind `a`
    have hle : b.toDuration.le mul32 a.toDuration = true := by
      by_contra hle
      exact hlt (Duration.lt_iff_not_le.mpr hle)
    have hwhole := whole_eq_of_not_lt hvalue hlt
    obtain ⟨pos, nframes, -, hframe, hframe'⟩ := exists_between hwhole hvalue
    let x : Event α := ⟨a, 0, default⟩
    let y : Event α := ⟨b, 0, default⟩
    have hbar' : y.getBar ≠ 0 := by
      rw [hwhole] at hbar
      exact hbar
    have hnext := getNextEvent_behind (x := x) (y := y) hle hbar' hframe'
    have hmem : ∀ e ∈ (EventBuffer.mk [x] [y]).pending, e.pos ∈ positions := by
      intro e he
      rcases List.mem_pair.mp he with rfl | rfl
      · exact hb
      · exact ha
    have hdue := (h pos).2 nframes ⟨[x], [y]⟩ hmem (List.pairwise_singleton _ _)
      (by rw [hnext]) x (by rw [hnext]; exact List.mem_cons_of_mem _ List.mem_cons_self)
    exact absurd hdue (not_le.mpr hframe)
  · intro h pos
    refine ⟨fun a b => calculateFrameOffset_mono a b pos, ?_⟩
    intro nframes b hmem hs hnone
    have hplaced := update_placed h hmem hs
    have hsorted := sorted_of_placed hplaced (getNextEvent_none_bar hnone)
    exact getNextEvent_none_left pos nframes mul32 hsorted hnone

/-- Two events of one bar whose products are kept in the other order: the one that is due waits
behind the one that is not. -/
theorem schedule_unsound :
    ∃ (pos : BBT) (b : EventBuffer Unit), EventList.Sorted b.sortedEvents ∧
      (b.getNextEvent mul32 true pos.toJackPosition 1024).event = none ∧
      ∃ e ∈ (b.getNextEvent mul32 true pos.toJackPosition 1024).buffer.sortedEvents,
        e.frame pos.toJackPosition < 1024 := by
  refine ⟨{ barOne with tick := 1900 },
    ⟨[⟨⟨⟨1, 49152, 131072⟩, by decide⟩, 0, ()⟩], [⟨⟨⟨1, 32767, 131072⟩, by decide⟩, 0, ()⟩]⟩,
    List.pairwise_singleton _ _, by decide +kernel, ?_⟩
  have hframe : (237 : ℤ) ∈ ((EventBuffer.mk [⟨⟨⟨1, 49152, 131072⟩, by decide⟩, 0, ()⟩]
      [⟨⟨⟨1, 32767, 131072⟩, by decide⟩, 0, ()⟩]).getNextEvent mul32 true
        { barOne.toJackPosition with tick := 1900 } 1024).buffer.sortedEvents.map
          (Event.frame { barOne.toJackPosition with tick := 1900 }) := by
    decide +kernel
  obtain ⟨e, he, hdue⟩ := List.mem_map.mp hframe
  refine ⟨e, he, ?_⟩
  change Event.frame { barOne.toJackPosition with tick := 1900 } e < 1024
  omega

/-- A rolling `getNextEvent` that finds its list sorted: it hands out the earliest event that is not
late, if it is due before the end of the period. -/
theorem getNextEvent_rolling (pos : BBT) (nframes : ℕ) {mul : ℕ → ℕ → ℕ} {b : EventBuffer α}
    (hsu : EventList.Sorted (b.update mul).sortedEvents) (hbar : ∀ e ∈ b.pending, e.getBar ≠ 0) :
    let kept := (b.update mul).sortedEvents.filter (notLate pos.toJackPosition)
    let r := b.getNextEvent mul true pos.toJackPosition nframes
    (r.event = none ∧ ∀ e ∈ kept, (nframes : ℤ) ≤ e.frame pos.toJackPosition) ∨
      ∃ e rest, kept = e :: rest ∧ e.frame pos.toJackPosition < nframes ∧
        r.event = some (e.updateFrameOffset pos.toJackPosition) ∧
        r.buffer = ⟨b.eventQueue.drop UPDATE_MAX_EVENTS, rest⟩ := by
  intro kept r
  have hdrop := dropLate_snd pos hsu
  rcases getNextEvent_cases mul true pos.toJackPosition nframes b with
    ⟨first, rest, hl, hzero, -⟩ | ⟨-, hr⟩
  · have hfirst := hbar first (mem_update_pending (by rw [hl]; exact List.mem_cons_self))
    exact (hfirst hzero).elim
  · change r = _ at hr
    rw [if_pos rfl] at hr
    -- the loop leaves `kept`, with the offset of its first event updated
    cases hk : kept with
    | nil =>
      rw [show List.filter _ _ = [] from hk] at hdrop
      rcases fetchRolling_cases pos.toJackPosition nframes (b.update mul) with
        ⟨-, hf⟩ | ⟨first, rest, hd, -, -⟩ | ⟨first, rest, hd, -, -⟩
      · exact Or.inl ⟨by rw [hr, hf], by simp⟩
      · cases hdrop.symm.trans hd
      · cases hdrop.symm.trans hd
    | cons e tail =>
      rw [show List.filter _ _ = e :: tail from hk] at hdrop
      rcases fetchRolling_cases pos.toJackPosition nframes (b.update mul) with
        ⟨hd, -⟩ | ⟨first, rest, hd, hdue, hf⟩ | ⟨first, rest, hd, hdue, hf⟩
      · cases hdrop.symm.trans hd
      · cases hdrop.symm.trans hd
        exact Or.inr ⟨e, tail, rfl, hdue, by rw [hr, hf], by rw [hr, hf]; rfl⟩
      · cases hdrop.symm.trans hd
        refine Or.inl ⟨by rw [hr, hf], ?_⟩
        have hkept : EventList.Sorted kept := hsu.sublist List.filter_sublist
        rw [hk] at hkept
        intro x hx
        rcases List.mem_cons.mp hx with rfl | hx
        · exact hdue
        · have hm := calculateFrameOffset_mono e.pos x.pos pos
            ((List.pairwise_cons.mp hkept).1 x hx)
          exact hdue.trans hm

/-- What a period leaves of an event: not the frame offset. -/
def key (e : Event α) : Position × α := (e.pos, e.data)

theorem map_key_dropLate (pos : JackPosition) (l : List (Event α)) :
    ((dropLate pos l).1 ++ (dropLate pos l).2).map key = l.map key := by
  induction l with
  | nil => rfl
  | cons first rest ih =>
    simp only [dropLate]
    split
    · rw [List.cons_append, List.map_cons, ih]
      rfl
    · rfl

/-- A call takes events off the front of the sorted list, those it recycles before the one it hands
out. -/
theorem map_key_getNextEvent (mul : ℕ → ℕ → ℕ) (rolling : Bool) (pos : JackPosition) (nframes : ℕ)
    (b : EventBuffer α) :
    let r := b.getNextEvent mul rolling pos nframes
    (r.recycled ++ r.event.toList ++ r.buffer.sortedEvents).map key =
        (b.update mul).sortedEvents.map key ∧
      r.buffer.eventQueue = (b.update mul).eventQueue := by
  intro r
  rcases getNextEvent_cases mul rolling pos nframes b with ⟨first, rest, hl, -, hr⟩ | ⟨-, hr⟩
  · rw [show r = _ from hr, hl]
    exact ⟨rfl, rfl⟩
  · cases rolling with
    | false =>
      rw [show r = _ from hr]
      exact ⟨rfl, rfl⟩
    | true =>
      rw [if_pos rfl] at hr
      have hkeys := map_key_dropLate pos (b.update mul).sortedEvents
      rcases fetchRolling_cases pos nframes (b.update mul) with
        ⟨hd, hf⟩ | ⟨first, rest, hd, -, hf⟩ | ⟨first, rest, hd, -, hf⟩
      · rw [show r = _ from hr.trans hf]
        rw [hd] at hkeys
        exact ⟨by simpa using hkeys, rfl⟩
      · rw [show r = _ from hr.trans hf]
        rw [hd] at hkeys
        exact ⟨by simpa using hkeys, rfl⟩
      · rw [show r = _ from hr.trans hf]
        rw [hd] at hkeys
        exact ⟨by simpa using hkeys, rfl⟩

/-- So all it takes out, with what it leaves pending. -/
theorem map_key_pending (mul : ℕ → ℕ → ℕ) (rolling : Bool) (pos : JackPosition) (nframes : ℕ)
    (b : EventBuffer α) :
    let r := b.getNextEvent mul rolling pos nframes
    (r.recycled ++ (r.event.toList ++ r.buffer.pending)).map key =
      (b.update mul).pending.map key := by
  intro r
  obtain ⟨hkeys, hqueue⟩ := map_key_getNextEvent mul rolling pos nframes b
  have hsplit : r.recycled ++ (r.event.toList ++ r.buffer.pending) =
      (r.recycled ++ r.event.toList ++ r.buffer.sortedEvents) ++ r.buffer.eventQueue := by
    simp only [pending, List.append_assoc]
  rw [hsplit, List.map_append, hkeys, hqueue, ← List.map_append, pending]

theorem getNextEvent_perm (mul : ℕ → ℕ → ℕ) (rolling : Bool) (pos : JackPosition) (nframes : ℕ)
    (b : EventBuffer α) :
    let r := b.getNextEvent mul rolling pos nframes
    ((r.recycled ++ (r.event.toList ++ r.buffer.pending)).map key).Perm (b.pending.map key) := by
  intro r
  rw [map_key_pending]
  exact (update_pending_perm mul b).map key

/-- Nothing enters the buffer during a `getNextEvent`: all that it hands out, recycles or keeps was
there before. -/
theorem exists_pending {mul : ℕ → ℕ → ℕ} {rolling : Bool} {pos : JackPosition} {nframes : ℕ}
    {b : EventBuffer α} {x : Event α} :
    let r := b.getNextEvent mul rolling pos nframes
    x ∈ r.recycled ++ (r.event.toList ++ r.buffer.pending) →
      ∃ y ∈ b.pending, x.pos = y.pos ∧ x.data = y.data := by
  intro r hx
  have hperm := getNextEvent_perm mul rolling pos nframes b
  obtain ⟨y, hy, hkey⟩ := List.mem_map.mp (hperm.mem_iff.mp (List.mem_map_of_mem hx))
  obtain ⟨hpos, hdata⟩ := Prod.mk.inj hkey
  exact ⟨y, hy, hpos.symm, hdata.symm⟩

theorem mem_getNextEvent {mul : ℕ → ℕ → ℕ} {rolling : Bool} {pos : JackPosition} {nframes : ℕ}
    {b : EventBuffer α} {x : Event α}
    (h : x ∈ (b.getNextEvent mul rolling pos nframes).buffer.pending) :
    ∃ y ∈ b.pending, x.pos = y.pos ∧ x.data = y.data := by
  apply exists_pending
  apply List.mem_append_right
  exact List.mem_append_right _ h

theorem event_of_getNextEvent {mul : ℕ → ℕ → ℕ} {rolling : Bool} {pos : JackPosition} {nframes : ℕ}
    {b : EventBuffer α} {x : Event α}
    (h : x ∈ (b.getNextEvent mul rolling pos nframes).event) :
    ∃ y ∈ b.pending, x.pos = y.pos ∧ x.data = y.data := by
  apply exists_pending
  apply List.mem_append_right
  exact List.mem_append_left _ (Option.mem_toList.mpr h)

theorem getBar_of_getNextEvent {mul : ℕ → ℕ → ℕ} {rolling : Bool} {pos : JackPosition}
    {nframes : ℕ} {b : EventBuffer α} {x : Event α} (hbar : ∀ e ∈ b.pending, e.getBar ≠ 0)
    (h : x ∈ (b.getNextEvent mul rolling pos nframes).event) : x.getBar ≠ 0 := by
  obtain ⟨y, hy, hpos, -⟩ := event_of_getNextEvent h
  unfold Event.getBar
  rw [hpos]
  exact hbar y hy

/-- An event from bar one on is handed out in a rolling period in which it is due, by the offset
that the call computed. -/
theorem due_of_getNextEvent {mul : ℕ → ℕ → ℕ} {rolling : Bool} {pos : JackPosition} {nframes : ℕ}
    {b : EventBuffer α} {x : Event α} (hbar : x.getBar ≠ 0)
    (h : x ∈ (b.getNextEvent mul rolling pos nframes).event) :
    rolling = true ∧ x.frameOffset = x.frame pos ∧ -256 ≤ x.frame pos ∧ x.frame pos < nframes := by
  rcases getNextEvent_cases mul rolling pos nframes b with ⟨first, rest, -, hzero, hr⟩ | ⟨-, hr⟩
  · rw [hr] at h
    cases h
    exact (hbar hzero).elim
  · rw [hr] at h
    cases rolling with
    | false => cases h
    | true =>
      rw [if_pos rfl] at h
      rcases fetchRolling_cases pos nframes (b.update mul) with
        ⟨-, hf⟩ | ⟨first, rest, hd, hdue, hf⟩ | ⟨first, rest, -, -, hf⟩
      · rw [hf] at h
        cases h
      · rw [hf] at h
        cases h
        obtain ⟨hoffset, hlate⟩ := dropLate_frameOffset pos hd
        exact ⟨rfl, hoffset, hlate, hoffset ▸ hdue⟩
      · rw [hf] at h
        cases h

/-- Handing out an event takes one from the buffer: nothing is pushed meanwhile. -/
theorem getNextEvent_length (mul : ℕ → ℕ → ℕ) (rolling : Bool) (pos : JackPosition) (nframes : ℕ)
    (b : EventBuffer α) (h : (b.getNextEvent mul rolling pos nframes).event ≠ none) :
    (b.getNextEvent mul rolling pos nframes).buffer.pending.length < b.pending.length := by
  have hlength := (getNextEvent_perm mul rolling pos nframes b).length_eq
  obtain ⟨event, hevent⟩ := Option.ne_none_iff_exists'.mp h
  simp only [List.length_map, List.length_append, hevent, Option.toList_some,
    List.length_singleton] at hlength
  omega

/-- What a `getNextEvent` has drained when it looks for an event. -/
def fetched (b : EventBuffer α) : List (Event α) :=
  b.sortedEvents ++ b.eventQueue.take UPDATE_MAX_EVENTS

theorem mem_fetched {b : EventBuffer α} {e : Event α} (h : e ∈ b.fetched) : e ∈ b.pending := by
  rcases List.mem_append.mp h with h | h
  · exact List.mem_append_left _ h
  · exact List.mem_append_right _ (List.mem_of_mem_take h)

/-- Events in order, from bar one on, that the comparisons keep so. -/
structure InLine (mul : ℕ → ℕ → ℕ) (b : EventBuffer α) : Prop where
  sorted : EventList.Sorted b.pending
  bars : ∀ e ∈ b.pending, e.getBar ≠ 0
  keeps : ∀ x ∈ b.pending, ∀ y ∈ b.pending, x.pos.value < y.pos.value → x.le mul y = true

section InLine

variable {mul : ℕ → ℕ → ℕ} {pos : BBT} {nframes : ℕ} {b : EventBuffer α}

theorem InLine.follows (h : InLine mul b) {x y : Event α} (hx : x ∈ b.pending) (hy : y ∈ b.pending)
    (hle : x.pos.value ≤ y.pos.value) :
    EventList.Follows mul (fun x y => x.pos.value ≤ y.pos.value) x y := by
  unfold EventList.Follows
  split
  · exact hle
  · rename_i hnot
    exact not_lt.mp fun hlt => hnot (h.keeps x hx y hy hlt)

theorem InLine.update_sorted (h : InLine mul b) :
    EventList.Sorted (b.update mul).sortedEvents := by
  obtain ⟨hlist, hqueue, hacross⟩ := List.pairwise_append.mp h.sorted
  refine update_pairwise (fun _ _ _ hxy hyz => hxy.trans hyz) ?_ ?_ hlist
  · intro x hx y hy
    exact h.follows (List.mem_append_left _ hx) (List.mem_append_right _ hy) (hacross x hx y hy)
  · refine hqueue.imp_of_mem fun {x y} hx hy hle => ?_
    exact h.follows (List.mem_append_right _ hx) (List.mem_append_right _ hy) hle

/-- What is left of a buffer in line is in line. -/
theorem InLine.of_subset {c : EventBuffer α} (h : InLine mul b) (hs : EventList.Sorted c.pending)
    (hsub : ∀ y ∈ c.pending, y ∈ b.pending) : InLine mul c :=
  ⟨hs, fun y hy => h.bars y (hsub y hy), fun x hx y hy => h.keeps x (hsub x hx) y (hsub y hy)⟩

theorem fetched_drop (hs : EventList.Sorted b.pending) {x y : Event α}
    (hx : x ∈ b.fetched) (hy : y ∈ b.eventQueue.drop UPDATE_MAX_EVENTS) :
    x.pos.value ≤ y.pos.value := by
  have hsplit : b.pending = b.fetched ++ b.eventQueue.drop UPDATE_MAX_EVENTS := by
    rw [fetched, List.append_assoc, List.take_append_drop, pending]
  rw [hsplit] at hs
  exact (List.pairwise_append.mp hs).2.2 x hx y hy

/-- When none is handed out, none of those drained is due. -/
theorem getNextEvent_none_fetched (hb : InLine mul b)
    (h : (b.getNextEvent mul true pos.toJackPosition nframes).event = none) :
    ∀ e ∈ b.fetched, notLate pos.toJackPosition e →
      (nframes : ℤ) ≤ e.frame pos.toJackPosition := by
  rcases getNextEvent_rolling pos nframes hb.update_sorted hb.bars with
    ⟨-, hkept⟩ | ⟨e, rest, -, -, he, -⟩
  · intro e he hn
    exact hkept e (List.mem_filter.mpr ⟨(update_perm _ b).mem_iff.mpr he, hn⟩)
  · rw [he] at h
    cases h

/-- When no event is late and none is handed out, none is due. -/
theorem getNextEvent_none (hb : InLine mul b)
    (hl : ∀ e ∈ b.pending, notLate pos.toJackPosition e)
    (h : (b.getNextEvent mul true pos.toJackPosition nframes).event = none) :
    ∀ e ∈ b.pending, (nframes : ℤ) ≤ e.frame pos.toJackPosition := by
  have hfetched : ∀ e ∈ b.fetched, (nframes : ℤ) ≤ e.frame pos.toJackPosition := fun e he =>
    getNextEvent_none_fetched hb h e he (hl e (mem_fetched he))
  intro e he
  by_cases hin : e ∈ b.fetched
  · exact hfetched e hin
  · -- the queue is longer than one drain, so something was fetched before `e`
    have hdrop : e ∈ b.eventQueue.drop UPDATE_MAX_EVENTS := by
      rcases List.mem_append.mp he with he | he
      · exact absurd (List.mem_append_left _ he) hin
      · rw [← List.take_append_drop UPDATE_MAX_EVENTS b.eventQueue] at he
        rcases List.mem_append.mp he with he | he
        · exact absurd (List.mem_append_right _ he) hin
        · exact he
    cases hq : b.eventQueue with
    | nil => simp [hq] at hdrop
    | cons first queue =>
      have hfirst : first ∈ b.fetched := by
        refine List.mem_append_right _ ?_
        rw [hq]
        exact List.mem_cons_self
      exact (hfetched first hfirst).trans
        (calculateFrameOffset_mono first.pos e.pos pos (fetched_drop hb.sorted hfirst hdrop))

/-- The event handed out is the earliest of those drained that are not late, and nothing left in the
buffer is earlier. -/
theorem getNextEvent_some (hb : InLine mul b) {x : Event α}
    (h : (b.getNextEvent mul true pos.toJackPosition nframes).event = some x) :
    ∃ e ∈ b.fetched, x = e.updateFrameOffset pos.toJackPosition ∧
      notLate pos.toJackPosition e ∧ e.frame pos.toJackPosition < nframes ∧
      (∀ y ∈ b.fetched, notLate pos.toJackPosition y →
        e.frame pos.toJackPosition ≤ y.frame pos.toJackPosition) ∧
      InLine mul (b.getNextEvent mul true pos.toJackPosition nframes).buffer ∧
      ∀ y ∈ (b.getNextEvent mul true pos.toJackPosition nframes).buffer.pending,
        e.frame pos.toJackPosition ≤ y.frame pos.toJackPosition := by
  rcases getNextEvent_rolling pos nframes hb.update_sorted hb.bars with
    ⟨hnone, -⟩ | ⟨e, rest, hkept, hdue, he, hleft⟩
  · rw [hnone] at h
    cases h
  · obtain rfl : e.updateFrameOffset pos.toJackPosition = x := Option.some.inj (he.symm.trans h)
    have hmem : ∀ y, y ∈ e :: rest ↔ y ∈ b.fetched ∧ notLate pos.toJackPosition y := by
      intro y
      rw [← hkept, List.mem_filter, (update_perm _ b).mem_iff]
      rfl
    have hsk : EventList.Sorted (e :: rest) := by
      rw [← hkept]
      exact hb.update_sorted.sublist List.filter_sublist
    obtain ⟨hfirst, hrest⟩ := List.pairwise_cons.mp hsk
    obtain ⟨hef, hen⟩ := (hmem e).mp List.mem_cons_self
    have hmin : ∀ y ∈ e :: rest, e.frame pos.toJackPosition ≤ y.frame pos.toJackPosition := by
      intro y hy
      rcases List.mem_cons.mp hy with rfl | hy
      · exact le_rfl
      · exact calculateFrameOffset_mono e.pos y.pos pos (hfirst y hy)
    refine ⟨e, hef, rfl, hen, hdue, fun y hy hyn => hmin y ((hmem y).mpr ⟨hy, hyn⟩), ?_, ?_⟩
    · rw [hleft]
      refine hb.of_subset ?_ ?_
      · refine List.pairwise_append.mpr ⟨hrest, ?_, ?_⟩
        · exact hb.sorted.sublist
            ((List.drop_sublist _ _).trans (List.sublist_append_right _ _))
        · intro x hx y hy
          exact fetched_drop hb.sorted ((hmem x).mp (List.mem_cons_of_mem _ hx)).1 hy
      · intro y hy
        rcases List.mem_append.mp hy with hy | hy
        · exact mem_fetched ((hmem y).mp (List.mem_cons_of_mem _ hy)).1
        · exact List.mem_append_right _ (List.mem_of_mem_drop hy)
    · intro y hy
      rw [hleft] at hy
      rcases List.mem_append.mp hy with hy | hy
      · exact hmin y (List.mem_cons_of_mem _ hy)
      · exact calculateFrameOffset_mono e.pos y.pos pos (fetched_drop hb.sorted hef hy)

end InLine

end EventBuffer

end Bipscript
