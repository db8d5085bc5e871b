import Bipscript.LinkedList
import Bipscript.Library.Run
import Mathlib.Data.List.Perm.Basic

/-! The object collector: where an object is once it has been handed over. -/
namespace Bipscript

open Chain Transition

/-- Objects are numbered. `next` has the pointer of each, `handed` those handed over so far and
`freed` those deleted. -/
structure ObjectCollector where
  next : ℕ → Option ℕ
  objectQueue : List ℕ
  waitingList : LinkedList
  handed : List ℕ
  freed : List ℕ

namespace ObjectCollector

def initial (next : ℕ → Option ℕ) : ObjectCollector where
  next := next
  objectQueue := []
  waitingList := .empty
  handed := []
  freed := []

/-- `waitingList.add(evt)`. -/
def addWaiting (evt : ℕ) (c : ObjectCollector) : ObjectCollector :=
  { c with
    next := (LinkedList.add c.next evt c.waitingList).1
    waitingList := (LinkedList.add c.next evt c.waitingList).2 }

/-- `waitingList.addAll(list)`. -/
def addAllWaiting (list : LinkedList) (c : ObjectCollector) : ObjectCollector :=
  { c with
    next := (LinkedList.addAll c.next list c.waitingList).1
    waitingList := (LinkedList.addAll c.next list c.waitingList).2 }

def push (evt : ℕ) (c : ObjectCollector) : ObjectCollector :=
  { c with objectQueue := c.objectQueue ++ [evt] }

def popWaiting (c : ObjectCollector) : ObjectCollector :=
  { c with waitingList := c.waitingList.pop c.next }

/-- `recycle`, with the outcome of its push. -/
def recycle (evt : ℕ) (pushed : Bool) (c : ObjectCollector) : ObjectCollector :=
  if pushed then c.push evt else c.addWaiting evt

/-- The loop of `recycleAll` and `update`, of whose pushes the first `pushes` succeed. -/
def pushWaiting : ℕ → ObjectCollector → ObjectCollector
  | 0, c => c
  | pushes + 1, c =>
    match c.waitingList.first with
    | none => c
    | some waiting => pushWaiting pushes (c.push waiting).popWaiting

def recycleAll (list : LinkedList) (pushes : ℕ) (c : ObjectCollector) : ObjectCollector :=
  (c.addAllWaiting list).pushWaiting pushes

def update (pushes : ℕ) (c : ObjectCollector) : ObjectCollector := c.pushWaiting pushes

def free (c : ObjectCollector) : ObjectCollector :=
  { c with objectQueue := [], freed := c.freed ++ c.objectQueue }

/-- The operations, with the outcomes of their pushes. A list is given by its elements and its
`last`, which an empty list still has of the elements it had. -/
inductive Op
  | recycle (object : ℕ) (pushed : Bool)
  | recycleAll (cells : List ℕ) (last : Option ℕ) (pushes : ℕ)
  | update (pushes : ℕ)
  | free

/-- The elements of a list point each to the next. -/
def link (next : ℕ → Option ℕ) : List ℕ → ℕ → Option ℕ
  | [] => next
  | x :: rest => Function.update (link next rest) x rest.head?

def exec (c : ObjectCollector) : Op → ObjectCollector
  | .recycle object pushed => { c with handed := c.handed ++ [object] }.recycle object pushed
  | .recycleAll cells last pushes =>
    { c with next := link c.next cells, handed := c.handed ++ cells }.recycleAll
      ⟨cells.head?, last⟩ pushes
  | .update pushes => c.update pushes
  | .free => c.free

/-- An object is handed over once, and a list that is not empty has its last element. -/
def Valid (c : ObjectCollector) : Op → Prop
  | .recycle object _ => object ∉ c.handed
  | .recycleAll cells last _ =>
    cells.Nodup ∧ (∀ a ∈ cells, a ∉ c.handed) ∧ (cells ≠ [] → last = cells.getLast?)
  | _ => True

/-- The objects reachable from `waitingList`. -/
def waiting (c : ObjectCollector) : List ℕ := nodes c.next c.handed.length c.waitingList.first

/-- The objects handed over are those in `objectQueue`, those in `waitingList`, and those
deleted. -/
def Conserved (c : ObjectCollector) : Prop :=
  Linked c.next c.waitingList.first c.waiting ∧
    (c.objectQueue ++ c.waiting ++ c.freed).Perm c.handed

/-- Every object handed over is in exactly one place, and was deleted at most once. -/
def Placed (c : ObjectCollector) : Prop := c.handed.Nodup ∧ c.Conserved

/-- What a list is appended to is the last of the objects waiting, if there are any; or the list is
empty, and none of them. -/
def Attaches (c : ObjectCollector) : Op → Prop
  | .recycleAll cells _ _ => c.waiting = [] ∨ c.waitingList.last = c.waiting.getLast? ∨
      (cells = [] ∧ ∀ a ∈ c.waitingList.last, a ∉ c.waiting)
  | _ => True

variable {c : ObjectCollector} {l cells : List ℕ} {object a : ℕ}

/-- The waiting list is the one chain from its start. -/
theorem conserved_iff (h : Linked c.next c.waitingList.first l) :
    c.Conserved ↔ (c.objectQueue ++ l ++ c.freed).Perm c.handed := by
  constructor
  · rintro ⟨hlinked, hperm⟩
    rwa [hlinked.unique h] at hperm
  · intro hperm
    have hlen : l.length ≤ c.handed.length := by
      rw [← hperm.length_eq]
      simp only [List.length_append]
      omega
    have hw : c.waiting = l := h.nodes_eq hlen
    exact ⟨hw ▸ h, hw ▸ hperm⟩

/-- The loop moves objects from the waiting list to the queue. -/
theorem conserved_pushWaiting (pushes : ℕ) (h : Linked c.next c.waitingList.first l) :
    (c.pushWaiting pushes).Conserved ↔ (c.objectQueue ++ l ++ c.freed).Perm c.handed := by
  induction pushes generalizing c l with
  | zero => exact conserved_iff h
  | succ pushes ih =>
    cases l with
    | nil =>
      have hfirst : c.waitingList.first = none := h
      simp only [pushWaiting, hfirst]
      exact conserved_iff h
    | cons x l =>
      have hfirst : c.waitingList.first = some x := h.1
      have hpop : Linked c.next (c.waitingList.pop c.next).first l := LinkedList.linked_pop h
      have hnext := ih (c := (c.push x).popWaiting) hpop
      have hsplit : (c.objectQueue ++ [x]) ++ l ++ c.freed =
          c.objectQueue ++ (x :: l) ++ c.freed := by
        simp
      simp only [pushWaiting, hfirst]
      rw [hnext, ← hsplit]
      exact Iff.rfl

theorem link_of_not_mem (next : ℕ → Option ℕ) (ha : a ∉ cells) : link next cells a = next a := by
  induction cells with
  | nil => rfl
  | cons x rest ih =>
    obtain ⟨hx, hrest⟩ := not_or.mp (List.mem_cons.not.mp ha)
    rw [link, Function.update_of_ne hx]
    exact ih hrest

theorem linked_link (next : ℕ → Option ℕ) (h : cells.Nodup) :
    Linked (link next cells) cells.head? cells := by
  induction cells with
  | nil => rfl
  | cons x rest ih =>
    obtain ⟨hx, hrest⟩ := List.nodup_cons.mp h
    exact (ih hrest).cons hx

/-- A write elsewhere leaves what waits, and loses the list that should have been appended. -/
theorem perm_append_iff_nil : l.Perm (l ++ cells) ↔ cells = [] := by
  constructor
  · intro h
    have hlen := h.length_eq
    rw [List.length_append] at hlen
    exact List.eq_nil_of_length_eq_zero (by omega)
  · rintro rfl
    rw [List.append_nil]

/-- A write to `a` loses what was behind it. -/
theorem perm_redirect_iff {u v : List ℕ} :
    (u ++ a :: cells).Perm (u ++ a :: v ++ cells) ↔ v = [] := by
  constructor
  · intro hp
    have hlen := hp.length_eq
    simp only [List.length_append, List.length_cons] at hlen
    exact List.eq_nil_of_length_eq_zero (by omega)
  · rintro rfl
    simp

theorem getLast?_middle_iff {u v : List ℕ} (hav : a ∉ v) :
    (u ++ a :: v).getLast? = some a ↔ v = [] := by
  constructor
  · intro he
    cases v with
    | nil => rfl
    | cons y v =>
      -- an element behind `a` would be the last one
      rw [List.getLast?_append, List.getLast?_cons_cons,
        List.getLast?_eq_some_getLast (List.cons_ne_nil y v), Option.some_or] at he
      exact absurd (Option.some_inj.mp he ▸ List.getLast_mem (List.cons_ne_nil y v)) hav
  · rintro rfl
    exact List.getLast?_concat

/-- `addAll` leaves one chain. It has the elements of both lists exactly when `last` is the end of
the first, or both `last` and the second list are out of the way. -/
theorem exists_linked_addAllWaiting (last : Option ℕ)
    (h : Linked c.next c.waitingList.first l) (hcells : Linked c.next cells.head? cells)
    (hd : ∀ a ∈ cells, a ∉ l) :
    ∃ joined, Linked (c.addAllWaiting ⟨cells.head?, last⟩).next
        (c.addAllWaiting ⟨cells.head?, last⟩).waitingList.first joined ∧
      (joined.Perm (l ++ cells) ↔ l = [] ∨ c.waitingList.last = l.getLast? ∨
        (cells = [] ∧ ∀ a ∈ c.waitingList.last, a ∉ l)) := by
  cases hfirst : c.waitingList.first with
  | none =>
    obtain rfl : l = [] := by
      rw [hfirst] at h
      exact linked_none.mp h
    refine ⟨cells, ?_, iff_of_true (.refl _) (Or.inl rfl)⟩
    simpa [addAllWaiting, LinkedList.addAll, hfirst] using hcells
  | some first =>
    have hne : l ≠ [] := by
      rintro rfl
      rw [hfirst] at h
      cases h
    simp only [addAllWaiting, LinkedList.addAll, hfirst, hne, false_or]
    rw [hfirst] at h
    cases hlast : c.waitingList.last with
    | none =>
      refine ⟨l, h, perm_append_iff_nil.trans ?_⟩
      have hget : none ≠ l.getLast? := fun he => hne (List.getLast?_eq_none_iff.mp he.symm)
      simp [hget]
    | some b =>
      by_cases hb : b ∈ l
      · obtain ⟨u, v, rfl⟩ := List.append_of_mem hb
        have hbc : b ∉ cells := fun hc => hd b hc hb
        refine ⟨u ++ b :: cells, h.redirect hcells hbc, ?_⟩
        -- the elements behind `b` are cut off
        rw [perm_redirect_iff, ← getLast?_middle_iff (u := u) h.notMem.2]
        constructor
        · exact fun he => Or.inl he.symm
        · rintro (he | ⟨-, hnot⟩)
          · exact he.symm
          · exact absurd hb (hnot b rfl)
      · refine ⟨l, (linked_update hb).mpr h, perm_append_iff_nil.trans ?_⟩
        have hget : some b ≠ l.getLast? := fun he => hb (List.mem_of_getLast? he.symm)
        simp [hget, hb]

theorem Conserved.handed (h : c.Conserved) (ha : a ∈ c.waiting) : a ∈ c.handed := by
  apply h.2.mem_iff.mp
  simp [ha]

/-- An object that is new is in the queue or at the end of the waiting list. -/
theorem conserved_recycle (pushed : Bool) (hnew : object ∉ c.handed) (h : c.Conserved) :
    (c.exec (.recycle object pushed)).Conserved := by
  have hcount := List.perm_iff_count.mp h.2
  simp only [List.count_append] at hcount
  cases pushed with
  | true =>
    rw [conserved_iff (c := c.exec (.recycle object true)) h.1]
    simp only [exec, recycle, push, if_true, List.perm_iff_count, List.count_append]
    intro x
    have := hcount x
    omega
  | false =>
    have hadd := LinkedList.linked_add h.1 fun hm => hnew (h.handed hm)
    rw [conserved_iff (c := c.exec (.recycle object false)) hadd]
    simp only [exec, recycle, addWaiting, Bool.false_eq_true, if_false, List.perm_iff_count,
      List.count_append, List.count_cons, List.count_nil]
    intro x
    have := hcount x
    omega

theorem conserved_recycleAll {last : Option ℕ} {pushes : ℕ} (hcells : cells.Nodup)
    (hnew : ∀ a ∈ cells, a ∉ c.handed) (h : c.Conserved) :
    (c.exec (.recycleAll cells last pushes)).Conserved ↔
      c.Attaches (.recycleAll cells last pushes) := by
  have hd : ∀ a ∈ cells, a ∉ c.waiting := fun a ha hw => hnew a ha (h.handed hw)
  let c' : ObjectCollector := { c with next := link c.next cells, handed := c.handed ++ cells }
  have hkeep : Linked c'.next c'.waitingList.first c.waiting := by
    refine (linked_congr ?_).mpr h.1
    intro x hx
    exact link_of_not_mem c.next fun hc => hd x hc hx
  obtain ⟨joined, hjoined, hiff⟩ :=
    exists_linked_addAllWaiting (c := c') last hkeep (linked_link c.next hcells) hd
  have hsplit := conserved_pushWaiting pushes hjoined
  change ((c'.addAllWaiting ⟨cells.head?, last⟩).pushWaiting pushes).Conserved ↔ _
  rw [hsplit]
  refine Iff.trans ?_ hiff
  change (c.objectQueue ++ joined ++ c.freed).Perm (c.handed ++ cells) ↔ _
  -- what is in the queue and what is deleted is on both sides
  have hall : (c.objectQueue ++ (c.waiting ++ cells) ++ c.freed).Perm (c.handed ++ cells) := by
    refine List.Perm.trans ?_ (h.2.append_right cells)
    simp only [List.append_assoc]
    exact List.Perm.append_left _ (List.Perm.append_left _ List.perm_append_comm)
  constructor
  · intro hp
    have hboth := hp.trans hall.symm
    rw [List.perm_append_right_iff, List.perm_append_left_iff] at hboth
    exact hboth
  · intro hp
    exact ((hp.append_left c.objectQueue).append_right c.freed).trans hall

theorem conserved_free (h : c.Conserved) : c.free.Conserved := by
  rw [conserved_iff (c := c.free) h.1]
  have hcount := List.perm_iff_count.mp h.2
  simp only [List.count_append] at hcount
  simp only [free, List.nil_append, List.perm_iff_count, List.count_append]
  intro x
  have := hcount x
  omega

/-- An operation keeps every object in one place exactly when it attaches what it appends. -/
theorem conserved_exec_iff {op : Op} (hv : c.Valid op) (h : c.Conserved) :
    (c.exec op).Conserved ↔ c.Attaches op := by
  cases op with
  | recycle object pushed => exact iff_of_true (conserved_recycle pushed hv h) trivial
  | recycleAll cells last pushes => exact conserved_recycleAll hv.1 hv.2.1 h
  | update pushes => exact iff_of_true ((conserved_pushWaiting pushes h.1).mpr h.2) trivial
  | free => exact iff_of_true (conserved_free h) trivial

theorem handed_pushWaiting (pushes : ℕ) (c : ObjectCollector) :
    (c.pushWaiting pushes).handed = c.handed := by
  induction pushes generalizing c with
  | zero => rfl
  | succ pushes ih =>
    unfold pushWaiting
    split
    · rfl
    · exact ih _

theorem handed_exec_nodup {op : Op} (hv : c.Valid op) (hn : c.handed.Nodup) :
    (c.exec op).handed.Nodup := by
  cases op with
  | recycle object pushed =>
    have hnew : (c.handed ++ [object]).Nodup := by
      rw [List.nodup_append]
      refine ⟨hn, List.nodup_singleton _, fun a ha b hb => ?_⟩
      rintro rfl
      exact hv (List.mem_singleton.mp hb ▸ ha)
    cases pushed with
    | true => exact hnew
    | false => exact hnew
  | recycleAll cells last pushes =>
    simp only [exec, recycleAll, handed_pushWaiting, addAllWaiting]
    rw [List.nodup_append]
    refine ⟨hn, hv.1, fun a ha b hb => ?_⟩
    rintro rfl
    exact hv.2.1 a hb ha
  | update pushes =>
    simp only [exec, update, handed_pushWaiting]
    exact hn
  | free => exact hn

/-- Along every sequence of operations each object handed over stays in one place exactly when every
list is attached to the end of those waiting. -/
theorem always_one_place_iff (next : ℕ → Option ℕ) (ops : List Op)
    (hv : Always exec Valid (initial next) ops) :
    Always exec (fun c op => (c.exec op).Placed) (initial next) ops ↔
      Always exec Attaches (initial next) ops := by
  apply always_congr (I := Placed) (R := Valid)
  · rintro c op ⟨hn, h⟩ hop
    constructor
    · rintro ⟨-, hconserved⟩
      exact (conserved_exec_iff hop h).mp hconserved
    · intro ha
      exact ⟨handed_exec_nodup hop hn, (conserved_exec_iff hop h).mpr ha⟩
  · exact fun c op _ _ hp => hp
  · refine ⟨List.nodup_nil, rfl, .refl _⟩
  · exact hv

/-- An object waits, a list is appended behind it, and both are pushed and deleted. -/
theorem always_one_place_list :
    Always exec (fun c op => (c.exec op).Placed) (initial fun _ => none)
      [.recycle 0 false, .recycleAll [1, 2] (some 2) 1, .update 5, .free] := by
  refine (always_one_place_iff _ _ ?_).mpr ?_
  · exact ⟨List.not_mem_nil, ⟨by decide, by decide, fun _ => rfl⟩, trivial, trivial, trivial⟩
  · exact ⟨trivial, Or.inr (Or.inl rfl), trivial, trivial, trivial⟩

/-- While an object waits an emptied list is appended, whose `last` has been deleted, and then one
that is not empty: it is lost behind the deleted object. -/
theorem not_always_one_place :
    Always exec Valid (initial fun _ => none)
        [.recycle 5 true, .free, .recycle 0 false, .recycleAll [] (some 5) 0,
          .recycleAll [1] (some 1) 0] ∧
      ¬ Always exec (fun c op => (c.exec op).Placed) (initial fun _ => none)
        [.recycle 5 true, .free, .recycle 0 false, .recycleAll [] (some 5) 0,
          .recycleAll [1] (some 1) 0] := by
  constructor
  · have hnew : 0 ∉ [5] := by decide
    exact ⟨List.not_mem_nil, trivial, hnew, ⟨by decide, by decide, fun h => absurd rfl h⟩,
      ⟨by decide, by decide, fun _ => rfl⟩, trivial⟩
  · rintro ⟨-, -, -, -, ⟨-, -, hperm⟩, -⟩
    exact absurd hperm (by decide)

end ObjectCollector

end Bipscript
