import Bipscript.EventBuffer
import Bipscript.Library.Chain

/-! `List` and `EventList` on the `next` pointers of their elements. -/
namespace Bipscript

open Chain

/-- A `List`. The constructor sets `first` alone: until `last` is assigned it is none here. -/
structure LinkedList where
  first : Option ℕ
  last : Option ℕ

namespace LinkedList

variable {α : Type*} {next : ℕ → Option ℕ} {l list : LinkedList} {elem : ℕ} {cells : List ℕ}

def empty : LinkedList := ⟨none, none⟩

/-- `p->next = q`. A pointer never assigned points to none of the elements. -/
def setNext (next : ℕ → Option ℕ) (p q : Option ℕ) : ℕ → Option ℕ :=
  match p with
  | none => next
  | some a => Function.update next a q

def add (next : ℕ → Option ℕ) (elem : ℕ) (l : LinkedList) : (ℕ → Option ℕ) × LinkedList :=
  (Function.update next elem l.first,
    { first := some elem, last := if l.first = none then some elem else l.last })

def addAll (next : ℕ → Option ℕ) (list l : LinkedList) : (ℕ → Option ℕ) × LinkedList :=
  match l.first with
  | none => (next, list)
  | some _ => (setNext next l.last list.first, { l with last := list.last })

def pop (next : ℕ → Option ℕ) (l : LinkedList) : LinkedList :=
  { l with first := l.first.bind next }

def clear (l : LinkedList) : LinkedList := { l with first := none }

/-- The walk of `EventList::insert` from `e`: to the element before the first that is not `<=` the
new one. None at a null pointer, and when the fuel is out. -/
def seekBy (le : ℕ → ℕ → Bool) (next : ℕ → Option ℕ) (elem : ℕ) : ℕ → ℕ → Option ℕ
  | 0, _ => none
  | fuel + 1, e =>
    match next e with
    | none => none
    | some e' => if le e' elem then seekBy le next elem fuel e' else some e

/-- `EventList::insert`, for the operators of its elements. -/
def insertBy (le lt : ℕ → ℕ → Bool) (fuel : ℕ) (elem : ℕ) (next : ℕ → Option ℕ)
    (l : LinkedList) : Option ((ℕ → Option ℕ) × LinkedList) :=
  match l.first, l.last with
  | none, _ => some (next, ⟨some elem, some elem⟩)
  | some _, none => none -- not reached: a list with a first element has its last one
  | some first, some last =>
    if le last elem then some (Function.update next last (some elem), { l with last := some elem })
    else if lt elem first then
      some (Function.update next elem (some first), { l with first := some elem })
    else
      (seekBy le next elem fuel first).map fun e =>
        (Function.update (Function.update next elem (next e)) e (some elem), l)

/-- `EventList::insert` of an event. -/
def insert (mul : ℕ → ℕ → ℕ) (event : ℕ → Event α) : ℕ → ℕ → (ℕ → Option ℕ) → LinkedList →
    Option ((ℕ → Option ℕ) × LinkedList) :=
  insertBy (fun a b => (event a).le mul (event b)) fun a b => (event a).lt mul (event b)

/-- The list holds these elements: a chain from `first` to null, with `last` its end. -/
structure Holds (next : ℕ → Option ℕ) (l : LinkedList) (cells : List ℕ) : Prop where
  linked : Linked next l.first cells
  last : ∀ a ∈ cells.getLast?, l.last = some a

theorem setNext_of_ne {p q : Option ℕ} {a : ℕ} (h : p ≠ some a) : setNext next p q a = next a := by
  cases p with
  | none => rfl
  | some b => exact Function.update_of_ne (fun he => h (congrArg some he.symm)) _ _

theorem linked_pop {a : ℕ} (h : Linked next l.first (a :: cells)) :
    Linked next (pop next l).first cells := by
  obtain ⟨hfirst, hcells⟩ := h
  change Linked next (l.first.bind next) cells
  rw [hfirst]
  exact hcells

theorem linked_add (h : Linked next l.first cells) (helem : elem ∉ cells) :
    Linked (add next elem l).1 (add next elem l).2.first (elem :: cells) :=
  h.cons helem

theorem addAll_last : (addAll next list l).2.last = list.last := by
  cases hfirst : l.first <;> simp [addAll, hfirst]

theorem addAll_next {a : ℕ} (h : l.last ≠ some a) : (addAll next list l).1 a = next a := by
  cases hfirst : l.first with
  | none => simp [addAll, hfirst]
  | some first =>
    simp only [addAll, hfirst]
    exact setNext_of_ne h

/-- Whatever `last` points to, `addAll` leaves a chain, of elements of the two. With `last` at the
end of an emptied list the elements after it are lost, or those of the other list. -/
theorem exists_linked_addAll {others : List ℕ} (h : Linked next l.first cells)
    (hlist : Linked next list.first others) (hlast : ∀ a ∈ l.last, a ∉ others) :
    ∃ joined, Linked (addAll next list l).1 (addAll next list l).2.first joined ∧
      joined ⊆ cells ++ others := by
  cases hfirst : l.first with
  | none =>
    rw [addAll, hfirst]
    exact ⟨others, hlist, List.subset_append_right cells others⟩
  | some first =>
    rw [addAll, hfirst]
    rw [hfirst] at h
    cases hl : l.last with
    | none => exact ⟨cells, by simpa [setNext, hfirst] using h, List.subset_append_left _ _⟩
    | some last =>
      by_cases hmem : last ∈ cells
      · obtain ⟨u, v, rfl⟩ := List.append_of_mem hmem
        refine ⟨u ++ last :: others, ?_, ?_⟩
        · simpa [setNext, hfirst] using h.redirect hlist (hlast last hl)
        · intro a ha
          simp only [List.mem_append, List.mem_cons] at ha ⊢
          tauto
      · refine ⟨cells, ?_, List.subset_append_left _ _⟩
        simpa [setNext, hfirst] using (linked_update hmem).mpr h

/-- The three places of `insert` in a list that is not empty. -/
theorem Holds.append {init : List ℕ} {last : ℕ} (h : Holds next l (init ++ [last]))
    (helem : elem ≠ last) (hnext : next elem = none) :
    Holds (Function.update next last (some elem)) { l with last := some elem }
      (init ++ [last, elem]) := by
  constructor
  · have hnew : Linked next (some elem) [elem] := ⟨rfl, hnext⟩
    exact h.linked.redirect hnew (by simpa using helem.symm)
  · simp

theorem Holds.cons {c : ℕ} {rest : List ℕ} (h : Holds next l (c :: rest))
    (helem : elem ∉ c :: rest) :
    Holds (Function.update next elem (some c)) { l with first := some elem }
      (elem :: c :: rest) := by
  constructor
  · have hlinked := h.linked
    rw [hlinked.1] at hlinked
    exact hlinked.cons helem
  · simpa using h.last

theorem Holds.insert {u v : List ℕ} {x y : ℕ} (h : Holds next l (u ++ x :: y :: v))
    (helem : elem ∉ u ++ x :: y :: v) :
    Holds (Function.update (Function.update next elem (next x)) x (some elem)) l
      (u ++ x :: elem :: y :: v) := by
  constructor
  · exact h.linked.insert helem
  · have hlast := h.last
    simpa [List.getLast?_append, List.getLast?_cons_cons] using hlast

section InsertBy

variable {le lt : ℕ → ℕ → Bool} {u v : List ℕ}

/-- Where `insert` puts an element: behind a last one that is `<=` it, or before the first that is
not, when the last is not either. -/
inductive Placed (le : ℕ → ℕ → Bool) (elem : ℕ) (u : List ℕ) : List ℕ → Prop
  | behind : (∀ a ∈ u.getLast?, le a elem = true) → Placed le elem u []
  | before {v : List ℕ} {y : ℕ} : (∀ a ∈ u, le a elem = true) → ¬ le y elem = true →
      (∀ z ∈ (y :: v).getLast?, ¬ le z elem = true) → Placed le elem u (y :: v)

theorem Placed.suffix {le : ℕ → ℕ → Bool} {u' : List ℕ} (h : Placed le elem u v)
    (hu : u' <:+ u) : Placed le elem u' v := by
  cases h with
  | behind hlast =>
    refine .behind fun a ha => hlast a ?_
    obtain ⟨t, rfl⟩ := hu
    rw [List.getLast?_append, Option.mem_def.mp ha]
    rfl
  | before hall hy hlast => exact .before (fun a ha => hall a (hu.subset ha)) hy hlast

/-- What `insert` leaves: the new element is in its place, and the pointers written are its own and
those of the list. -/
structure InsertedBy (le : ℕ → ℕ → Bool) (elem : ℕ) (next next' : ℕ → Option ℕ)
    (l' : LinkedList) (u v : List ℕ) : Prop where
  holds : Holds next' l' (u ++ elem :: v)
  placed : Placed le elem u v
  frame : ∀ a, a ≠ elem → a ∉ u ++ v → next' a = next a

/-- The walk ends before the last element. -/
theorem seekBy_eq_some {fuel e : ℕ} {p : Option ℕ} (h : Linked next p (e :: cells))
    (he : le e elem = true) (hlast : ∃ c ∈ cells, ¬ le c elem = true)
    (hfuel : cells.length < fuel) :
    ∃ u x y v, e :: cells = u ++ x :: y :: v ∧ seekBy le next elem fuel e = some x ∧
      (∀ a ∈ u ++ [x], le a elem = true) ∧ ¬ le y elem = true := by
  induction cells generalizing fuel e p with
  | nil =>
    obtain ⟨c, hc, -⟩ := hlast
    cases hc
  | cons e' cells ih =>
    obtain ⟨-, hnext, hcells⟩ := h
    cases fuel with
    | zero => simp at hfuel
    | succ fuel =>
      by_cases hle : le e' elem = true
      · have hlast' : ∃ c ∈ cells, ¬ le c elem = true := by
          obtain ⟨c, hc, hgt⟩ := hlast
          rcases List.mem_cons.mp hc with rfl | hc
          · exact (hgt hle).elim
          · exact ⟨c, hc, hgt⟩
        have hfuel' : cells.length < fuel := by simpa using hfuel
        obtain ⟨u, x, y, v, heq, hseek, hu, hy⟩ := ih ⟨hnext, hcells⟩ hle hlast' hfuel'
        refine ⟨e :: u, x, y, v, by rw [heq, List.cons_append], ?_, ?_, hy⟩
        · simp only [seekBy, hnext, hle, if_true, hseek]
        · exact List.forall_mem_cons.mpr ⟨he, hu⟩
      · refine ⟨[], e, e', cells, rfl, ?_, ?_, hle⟩
        · simp only [seekBy, hnext, hle, Bool.false_eq_true, if_false]
        · simpa using he

/-- `insert` on a list that is not empty. -/
theorem insertBy_of_holds (le lt : ℕ → ℕ → Bool) (fuel : ℕ) {init rest : List ℕ} {first last : ℕ}
    (h : Holds next l (first :: rest)) (hlast : first :: rest = init ++ [last]) :
    insertBy le lt fuel elem next l =
      if le last elem then
        some (Function.update next last (some elem), { l with last := some elem })
      else if lt elem first then
        some (Function.update next elem (some first), { l with first := some elem })
      else
        (seekBy le next elem fuel first).map fun e =>
          (Function.update (Function.update next elem (next e)) e (some elem), l) := by
  have hf : l.first = some first := h.linked.1
  have hl : l.last = some last := h.last last (by simp [hlast])
  simp only [insertBy, hf, hl]

variable {init rest : List ℕ} {first last : ℕ}

theorem insertedBy_behind (h : Holds next l (first :: rest))
    (hlast : first :: rest = init ++ [last]) (helem : elem ∉ first :: rest)
    (hnext : next elem = none) (hle : le last elem = true) :
    InsertedBy le elem next (Function.update next last (some elem)) { l with last := some elem }
      (first :: rest) [] := by
  have hmem : last ∈ first :: rest := by simp [hlast]
  have hne : elem ≠ last := fun he => helem (he ▸ hmem)
  constructor
  · have hholds := (hlast ▸ h).append hne hnext
    rw [hlast]
    simpa using hholds
  · apply Placed.behind
    rw [hlast]
    simpa using hle
  · intro a _ ha
    have hal : a ≠ last := fun he => ha (List.mem_append_left [] (he ▸ hmem))
    exact Function.update_of_ne hal _ _

theorem insertedBy_front (h : Holds next l (first :: rest)) (hlast : first :: rest = init ++ [last])
    (helem : elem ∉ first :: rest) (hle : ¬ le last elem = true) (hfirst : ¬ le first elem = true) :
    InsertedBy le elem next (Function.update next elem (some first)) { l with first := some elem }
      [] (first :: rest) := by
  constructor
  · exact h.cons helem
  · refine .before (by simp) hfirst ?_
    rw [hlast]
    simpa using hle
  · exact fun a hne _ => Function.update_of_ne hne _ _

/-- Between two, as the first is `<=` the new element and the last is not. -/
theorem exists_insertedBy_between {fuel : ℕ} (h : Holds next l (first :: rest))
    (hlast : first :: rest = init ++ [last]) (helem : elem ∉ first :: rest)
    (hfuel : rest.length < fuel) (hle : ¬ le last elem = true) (hfirst : le first elem = true) :
    ∃ e u v, first :: rest = u ++ v ∧ seekBy le next elem fuel first = some e ∧
      InsertedBy le elem next
        (Function.update (Function.update next elem (next e)) e (some elem)) l u v := by
  have hrest : last ∈ rest := by
    have hmem : last ∈ first :: rest := by simp [hlast]
    rcases List.mem_cons.mp hmem with rfl | hmem
    · exact (hle hfirst).elim
    · exact hmem
  obtain ⟨u, x, y, v, heq, hseek, hu, hy⟩ := seekBy_eq_some h.linked hfirst ⟨last, hrest, hle⟩ hfuel
  refine ⟨x, u ++ [x], y :: v, by simp [heq], hseek, ?_⟩
  constructor
  · have hholds := (heq ▸ h).insert (heq ▸ helem)
    simpa using hholds
  · refine .before hu hy ?_
    have hend : (y :: v).getLast? = some last := by
      have hend := congrArg List.getLast? (heq.symm.trans hlast)
      simpa [List.getLast?_append, List.getLast?_cons_cons] using hend
    rw [hend]
    simpa using hle
  · intro a hne ha
    have hax : a ≠ x := fun he => ha (by simp [he])
    rw [Function.update_of_ne hax, Function.update_of_ne hne]

/-- `insert` follows no null pointer, for any operators of which just one holds. -/
theorem insertBy_eq_some (le lt : ℕ → ℕ → Bool) (hlt : ∀ a b, lt b a = true ↔ ¬ le a b = true)
    {fuel : ℕ} (h : Holds next l cells) (helem : elem ∉ cells) (hnext : next elem = none)
    (hfuel : cells.length ≤ fuel) :
    ∃ next' l' u v, cells = u ++ v ∧ insertBy le lt fuel elem next l = some (next', l') ∧
      InsertedBy le elem next next' l' u v := by
  cases cells with
  | nil =>
    have hfirst : l.first = none := h.linked
    refine ⟨next, ⟨some elem, some elem⟩, [], [], rfl, ?_, ⟨⟨rfl, hnext⟩, by simp⟩,
      .behind (by simp), fun a _ _ => rfl⟩
    simp only [insertBy, hfirst]
  | cons first rest =>
    obtain ⟨init, last, hlast⟩ : ∃ init last, first :: rest = init ++ [last] :=
      ⟨_, _, (List.dropLast_append_getLast (List.cons_ne_nil first rest)).symm⟩
    rw [insertBy_of_holds le lt fuel h hlast]
    by_cases hle : le last elem = true
    · exact ⟨_, _, _, [], (List.append_nil _).symm, if_pos hle,
        insertedBy_behind h hlast helem hnext hle⟩
    · rw [if_neg hle]
      by_cases hfirst : le first elem = true
      · obtain ⟨e, u, v, heq, hseek, hinserted⟩ :=
          exists_insertedBy_between h hlast helem hfuel hle hfirst
        have hno : ¬ lt elem first = true := fun hc => (hlt first elem).mp hc hfirst
        rw [if_neg hno, hseek]
        exact ⟨_, _, u, v, heq, rfl, hinserted⟩
      · exact ⟨_, _, [], first :: rest, rfl, if_pos ((hlt first elem).mpr hfirst),
          insertedBy_front h hlast helem hle hfirst⟩

end InsertBy

variable {mul : ℕ → ℕ → ℕ} {event : ℕ → Event α} {u v : List ℕ}

/-- The list-level walk ends in that place too. -/
theorem insertAfter_map {y : ℕ} (hu : ∀ a ∈ u, (event a).le mul (event elem) = true)
    (hy : ¬ (event y).le mul (event elem) = true) :
    EventList.insertAfter mul (event elem) ((u ++ y :: v).map event) =
      (u ++ elem :: y :: v).map event := by
  induction u with
  | nil =>
    rw [List.nil_append, List.map_cons, EventList.insertAfter, if_neg hy]
    rfl
  | cons a u ih =>
    obtain ⟨ha, hu⟩ := List.forall_mem_cons.mp hu
    rw [List.cons_append, List.map_cons, EventList.insertAfter, if_pos ha, ih hu]
    rfl

theorem getLast_map_cons (first : ℕ) (rest : List ℕ) :
    (event first :: rest.map event).getLast (List.cons_ne_nil _ _) =
      event ((first :: rest).getLast (List.cons_ne_nil _ _)) := by
  have hmap : (first :: rest).map event ≠ [] := List.cons_ne_nil _ _
  exact List.getLast_map hmap

theorem insert_map (h : Placed (fun a b => (event a).le mul (event b)) elem u v) :
    EventList.insert mul (event elem) ((u ++ v).map event) = (u ++ elem :: v).map event := by
  cases h with
  | behind hlast =>
    cases u with
    | nil => rfl
    | cons first rest =>
      have hle := hlast _ (List.getLast?_eq_getLast_of_ne_nil (List.cons_ne_nil first rest))
      rw [List.append_nil, List.map_cons, EventList.insert, getLast_map_cons, if_pos hle]
      simp
  | @before v y hu hy hlast =>
    have hgt := hlast _ (List.getLast?_eq_getLast_of_ne_nil (List.cons_ne_nil y v))
    cases u with
    | nil =>
      rw [List.nil_append, List.map_cons, EventList.insert, getLast_map_cons, if_neg hgt,
        if_pos (Event.lt_iff_not_le.mpr hy)]
      rfl
    | cons first rest =>
      obtain ⟨hfirst, hrest⟩ := List.forall_mem_cons.mp hu
      have hend : (first :: (rest ++ y :: v)).getLast (List.cons_ne_nil _ _) =
          (y :: v).getLast (List.cons_ne_nil _ _) :=
        List.getLast_append_of_ne_nil (l := first :: rest) (List.cons_ne_nil _ _)
          (List.cons_ne_nil y v)
      rw [List.cons_append, List.map_cons, EventList.insert, getLast_map_cons, hend, if_neg hgt,
        if_neg fun hlt => Event.lt_iff_not_le.mp hlt hfirst, insertAfter_map hrest hy]
      rfl

/-- What `insert` leaves: the new element is where the list-level one puts it, and the pointers
written are its own and those of the list. -/
structure Inserted (mul : ℕ → ℕ → ℕ) (event : ℕ → Event α) (elem : ℕ) (next next' : ℕ → Option ℕ)
    (l' : LinkedList) (cells cells' : List ℕ) : Prop where
  holds : Holds next' l' cells'
  perm : cells'.Perm (elem :: cells)
  map : cells'.map event = EventList.insert mul (event elem) (cells.map event)
  frame : ∀ a, a ≠ elem → a ∉ cells → next' a = next a

/-- `insert` puts the new element where the list-level one does. -/
theorem insert_eq_some (mul : ℕ → ℕ → ℕ) (event : ℕ → Event α) {fuel : ℕ}
    (h : Holds next l cells) (helem : elem ∉ cells) (hnext : next elem = none)
    (hfuel : cells.length ≤ fuel) :
    ∃ next' l' cells', insert mul event fuel elem next l = some (next', l') ∧
      Inserted mul event elem next next' l' cells cells' := by
  obtain ⟨next', l', u, v, rfl, hinsert, hinserted⟩ :=
    insertBy_eq_some (fun a b => (event a).le mul (event b)) (fun a b => (event a).lt mul (event b))
      (fun _ _ => Event.lt_iff_not_le) h helem hnext hfuel
  exact ⟨next', l', u ++ elem :: v, hinsert, hinserted.holds, List.perm_middle,
    (insert_map hinserted.placed).symm, hinserted.frame⟩

end LinkedList

end Bipscript
