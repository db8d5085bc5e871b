import Bipscript.LinkedList
import Bipscript.Library.Run

/-! Several `List`s in one memory against plain sequences. -/
namespace Bipscript

open Chain Transition

namespace LinkedList

variable {next : ℕ → Option ℕ} {l : LinkedList} {elem : ℕ} {u v : List ℕ}

/-- The walk of `remove` from `e`: to the element whose `next` is `elem`. None at a null pointer,
and when the fuel is out. -/
def seekBefore (next : ℕ → Option ℕ) (elem : ℕ) : ℕ → ℕ → Option ℕ
  | 0, _ => none
  | fuel + 1, e =>
    if next e = some elem then some e else (next e).bind (seekBefore next elem fuel)

def remove (fuel : ℕ) (elem : ℕ) (next : ℕ → Option ℕ) (l : LinkedList) :
    Option ((ℕ → Option ℕ) × LinkedList) :=
  if l.first = some elem then some (next, { l with first := next elem })
  else
    (l.first.bind (seekBefore next elem fuel)).map fun e =>
      (Function.update next e (next elem), l)

theorem seekBefore_eq_some {fuel e x : ℕ} (h : Linked next (some e) (u ++ x :: elem :: v))
    (hfuel : u.length < fuel) : seekBefore next elem fuel e = some x := by
  induction u generalizing e fuel with
  | nil =>
    obtain ⟨he, hx, -⟩ := h
    cases he
    cases fuel with
    | zero => omega
    | succ fuel => rw [seekBefore, if_pos hx]
  | cons a u ih =>
    cases h.1
    have hrest : Linked next (next a) (u ++ x :: elem :: v) := h.2
    cases fuel with
    | zero => omega
    | succ fuel =>
      have hne : next a ≠ some elem := by
        rw [← List.singleton_append, ← List.append_assoc] at hrest
        exact hrest.ne_some (by simp)
      obtain ⟨e', he'⟩ := hrest.exists_some (by simp)
      rw [seekBefore, if_neg hne, he', Option.bind_some]
      rw [he'] at hrest
      exact ih hrest (by simpa using hfuel)

/-- `remove` of an element of the list takes it out. -/
theorem remove_eq_some {fuel : ℕ} (h : Linked next l.first (u ++ elem :: v))
    (hfuel : u.length ≤ fuel) :
    ∃ next' l', remove fuel elem next l = some (next', l') ∧ Linked next' l'.first (u ++ v) ∧
      l'.last = l.last ∧ ∀ a, a ∉ u → next' a = next a := by
  rcases List.eq_nil_or_concat u with rfl | ⟨u, x, rfl⟩
  · obtain ⟨hfirst, hrest⟩ := h
    exact ⟨next, { l with first := next elem }, by rw [remove, if_pos hfirst], hrest,
      rfl, fun _ _ => rfl⟩
  · have hne := h.ne_some (by simp)
    rw [List.concat_eq_append, List.append_assoc, List.singleton_append] at h
    obtain ⟨first, hfirst⟩ := h.exists_some (by simp)
    have hseek : seekBefore next elem fuel first = some x := by
      rw [hfirst] at h
      rw [List.concat_eq_append, List.length_append, List.length_singleton] at hfuel
      exact seekBefore_eq_some h hfuel
    refine ⟨Function.update next x (next elem), l, ?_, ?_, rfl, ?_⟩
    · rw [remove, if_neg hne, hfirst, Option.bind_some, hseek, Option.map_some]
    · simpa using h.remove
    · intro a ha
      have hax : a ≠ x := fun he => ha (by simp [he])
      exact Function.update_of_ne hax _ _

end LinkedList

/-- Where the lists point to, and the `next` pointers of their elements. -/
structure Memory where
  next : ℕ → Option ℕ
  list : ℕ → LinkedList

namespace Memory

/-- What is done to the lists, which are numbered. -/
inductive Op
  | add (i elem : ℕ)
  | addAll (i j : ℕ)
  | pop (i : ℕ)
  | remove (i elem : ℕ)
  | clear (i : ℕ)

def store (m : Memory) (i : ℕ) (after : (ℕ → Option ℕ) × LinkedList) : Memory :=
  ⟨after.1, Function.update m.list i after.2⟩

/-- None is a pointer followed that is null or was never assigned. The walk of `remove` is cut after
`fuel` elements. -/
def exec (fuel : ℕ) (m : Memory) : Op → Option Memory
  | .add i elem => some (m.store i (LinkedList.add m.next elem (m.list i)))
  | .addAll i j =>
    if (m.list i).first ≠ none ∧ (m.list i).last = none then none
    else some (m.store i (LinkedList.addAll m.next (m.list j) (m.list i)))
  | .pop i => if (m.list i).first = none then none
    else some (m.store i (m.next, (m.list i).pop m.next))
  | .remove i elem => ((m.list i).remove fuel elem m.next).map (m.store i)
  | .clear i => some (m.store i (m.next, (m.list i).clear))

end Memory

open Memory

/-- The sequences that the lists stand for: none once its elements have been given to another. -/
abbrev Sequences := ℕ → Option (List ℕ)

namespace Sequences

/-- The operations on plain sequences. A list given to another stands for nothing until `clear`. -/
def plain (seq : Sequences) : Op → Sequences
  | .add i elem => Function.update seq i ((seq i).map (elem :: ·))
  | .addAll i j =>
    Function.update (Function.update seq j none) i
      ((seq i).bind fun cells => (seq j).map (cells ++ ·))
  | .pop i => Function.update seq i ((seq i).map List.tail)
  | .remove i elem => Function.update seq i ((seq i).map (·.erase elem))
  | .clear i => Function.update seq i (some [])

/-- An element added is in no list, and what is popped or removed is there. -/
def Allowed (seq : Sequences) : Op → Prop
  | .add i elem => seq i ≠ none ∧ ∀ k cells, seq k = some cells → elem ∉ cells
  | .addAll i j => i ≠ j ∧ seq i ≠ none ∧ seq j ≠ none
  | .pop i => ∃ first rest, seq i = some (first :: rest)
  | .remove i elem => ∃ cells, seq i = some cells ∧ elem ∈ cells
  | .clear _ => True

/-- No element is in two lists. -/
def Apart (seq : Sequences) : Prop :=
  ∀ i k cells others, i ≠ k → seq i = some cells → seq k = some others → cells.Disjoint others

variable {seq : Sequences} {i : ℕ}

theorem Apart.update (h : Apart seq) {new : Option (List ℕ)}
    (hnew : ∀ cells, new = some cells → ∀ k others, k ≠ i → seq k = some others →
      cells.Disjoint others) : Apart (Function.update seq i new) := by
  intro a b cells others hab ha hb
  by_cases hai : a = i
  · subst hai
    rw [Function.update_self] at ha
    rw [Function.update_of_ne hab.symm] at hb
    exact hnew cells ha b others hab.symm hb
  · rw [Function.update_of_ne hai] at ha
    by_cases hbi : b = i
    · subst hbi
      rw [Function.update_self] at hb
      exact (hnew others hb a cells hab ha).symm
    · rw [Function.update_of_ne hbi] at hb
      exact h a b cells others hab ha hb

/-- A part of what a list had is apart from the others. -/
theorem Apart.subset (h : Apart seq) {cells : List ℕ} (hi : seq i = some cells) {new : List ℕ}
    (hsub : new ⊆ cells) : Apart (Function.update seq i (some new)) := by
  apply h.update
  rintro _ ⟨⟩ k others hk hothers
  exact fun a ha => h i k cells others hk.symm hi hothers (hsub ha)

theorem plain_add {cells : List ℕ} (hi : seq i = some cells) (elem : ℕ) :
    seq.plain (.add i elem) = Function.update seq i (some (elem :: cells)) := by
  simp only [plain, hi, Option.map_some]

theorem plain_addAll {j : ℕ} {cells others : List ℕ} (hi : seq i = some cells)
    (hj : seq j = some others) : seq.plain (.addAll i j) =
      Function.update (Function.update seq j none) i (some (cells ++ others)) := by
  simp only [plain, hi, hj, Option.map_some, Option.bind_some]

theorem plain_pop {first : ℕ} {rest : List ℕ} (hi : seq i = some (first :: rest)) :
    seq.plain (.pop i) = Function.update seq i (some rest) := by
  simp only [plain, hi, Option.map_some, List.tail_cons]

theorem plain_remove {cells : List ℕ} (hi : seq i = some cells) (elem : ℕ) :
    seq.plain (.remove i elem) = Function.update seq i (some (cells.erase elem)) := by
  simp only [plain, hi, Option.map_some]

theorem Apart.plain (h : Apart seq) {op : Op} (hop : seq.Allowed op) : Apart (seq.plain op) := by
  cases op with
  | add i elem =>
    obtain ⟨hi, helem⟩ := hop
    obtain ⟨cells, hcells⟩ := Option.ne_none_iff_exists'.mp hi
    rw [plain_add hcells]
    apply h.update
    rintro _ ⟨⟩ k others hk hothers a ha
    rcases List.mem_cons.mp ha with rfl | ha
    · exact helem k others hothers
    · exact h i k cells others hk.symm hcells hothers ha
  | addAll i j =>
    obtain ⟨hij, hi, hj⟩ := hop
    obtain ⟨cells, hcells⟩ := Option.ne_none_iff_exists'.mp hi
    obtain ⟨given, hgiven⟩ := Option.ne_none_iff_exists'.mp hj
    rw [plain_addAll hcells hgiven]
    have hcleared : Apart (Function.update seq j none) := h.update nofun
    apply hcleared.update
    rintro _ ⟨⟩ k others hk hothers a ha
    by_cases hkj : k = j
    · subst hkj
      simp at hothers
    · rw [Function.update_of_ne hkj] at hothers
      rcases List.mem_append.mp ha with ha | ha
      · exact h i k cells others hk.symm hcells hothers ha
      · exact h j k given others (Ne.symm hkj) hgiven hothers ha
  | pop i =>
    obtain ⟨first, rest, hcells⟩ := hop
    rw [plain_pop hcells]
    exact h.subset hcells (List.subset_cons_self first rest)
  | remove i elem =>
    obtain ⟨cells, hcells, -⟩ := hop
    rw [plain_remove hcells]
    exact h.subset hcells List.erase_subset
  | clear i =>
    apply h.update
    rintro _ ⟨⟩ k others - -
    exact List.disjoint_nil_left others

end Sequences

/-- Lists, and what they stand for. -/
structure Lists extends Memory where
  seq : Sequences

namespace Lists

/-- The chain from the `first` of each list is its sequence. -/
def Stands (m : Memory) (seq : Sequences) : Prop :=
  ∀ i cells, seq i = some cells → Linked m.next (m.list i).first cells

/-- Lists as they are constructed. -/
def start (next : ℕ → Option ℕ) : Lists := ⟨⟨next, fun _ => .empty⟩, fun _ => some []⟩

/-- The walk of `remove` is cut after as many elements as the list has. -/
def fuel (s : Lists) : Op → ℕ
  | .remove i _ => ((s.seq i).getD []).length
  | _ => 0

def step (s : Lists) (op : Op) : Lists :=
  ⟨(s.toMemory.exec (s.fuel op) op).getD s.toMemory, s.seq.plain op⟩

/-- The operation does to the lists what it does to plain sequences. -/
def Behaves (s : Lists) (op : Op) : Prop :=
  ∃ m, s.toMemory.exec (s.fuel op) op = some m ∧ Stands m (s.seq.plain op)

/-- Where elements are appended, `last` is the last one; where none are, it is an element that no
list has another behind. -/
def Joins (s : Lists) (i : ℕ) (cells others : List ℕ) : Prop :=
  ∃ last, (s.list i).last = some last ∧
    (others = [] → ∀ k cells, s.seq k = some cells → last ∉ cells.dropLast) ∧
    (others ≠ [] → cells.getLast? = some last)

/-- The condition on `addAll` to a list that is not empty. -/
def Spliced (s : Lists) : Op → Prop
  | .addAll i j => ∀ cells others, s.seq i = some cells → s.seq j = some others → cells ≠ [] →
    s.Joins i cells others
  | _ => True

variable {m : Memory} {seq : Sequences} {s : Lists} {i : ℕ} {cells : List ℕ}

theorem step_eq {op : Op} (h : s.toMemory.exec (s.fuel op) op = some m) :
    s.step op = ⟨m, s.seq.plain op⟩ := by
  unfold step
  rw [h, Option.getD_some]

theorem stands_start (next : ℕ → Option ℕ) : Stands (start next).toMemory (start next).seq := by
  rintro i cells ⟨⟩
  rfl

theorem apart_start (next : ℕ → Option ℕ) : (start next).seq.Apart := by
  rintro i k cells others - ⟨⟩ -
  exact List.disjoint_nil_left others

theorem store_list_self (m : Memory) (i : ℕ) (after : (ℕ → Option ℕ) × LinkedList) :
    (m.store i after).list i = after.2 :=
  Function.update_self i _ _

theorem store_list_of_ne {k : ℕ} (hk : k ≠ i) (after : (ℕ → Option ℕ) × LinkedList) :
    (m.store i after).list k = m.list k :=
  Function.update_of_ne hk _ _

theorem stands_store_iff {after : (ℕ → Option ℕ) × LinkedList} :
    Stands (m.store i after) (Function.update seq i (some cells)) ↔
      Linked after.1 after.2.first cells ∧
        ∀ k others, k ≠ i → seq k = some others → Linked after.1 (m.list k).first others := by
  have hupdate := Function.forall_update_iff seq (a := i) (b := some cells) fun k new =>
    ∀ others, new = some others → Linked after.1 ((m.store i after).list k).first others
  refine hupdate.trans (and_congr ?_ ?_)
  · rw [store_list_self]
    exact ⟨fun h => h cells rfl, fun h _ he => Option.some_inj.mp he ▸ h⟩
  · constructor
    · intro h k others hk
      rw [← store_list_of_ne hk after]
      exact h k hk others
    · intro h k hk others
      rw [store_list_of_ne hk after]
      exact h k others hk

/-- An operation on list `i` that leaves the pointers of the others. -/
theorem Stands.store (h : Stands m seq) {after : (ℕ → Option ℕ) × LinkedList}
    (hi : Linked after.1 after.2.first cells)
    (hframe : ∀ k others, k ≠ i → seq k = some others → ∀ a ∈ others, after.1 a = m.next a) :
    Stands (m.store i after) (Function.update seq i (some cells)) := by
  refine stands_store_iff.mpr ⟨hi, fun k others hk hothers => ?_⟩
  exact (linked_congr (hframe k others hk hothers)).mpr (h k others hothers)

/-- A list given away stands for nothing. -/
theorem Stands.give (h : Stands m seq) (j : ℕ) : Stands m (Function.update seq j none) :=
  (Function.forall_update_iff seq fun k new => ∀ cells, new = some cells →
    Linked m.next (m.list k).first cells).mpr ⟨nofun, fun k _ => h k⟩

theorem behaves_add {elem : ℕ} (h : Stands s.toMemory s.seq) (hi : s.seq i = some cells)
    (helem : ∀ k cells, s.seq k = some cells → elem ∉ cells) : s.Behaves (.add i elem) := by
  refine ⟨_, rfl, ?_⟩
  rw [Sequences.plain_add hi]
  apply h.store (LinkedList.linked_add (h i cells hi) (helem i cells hi))
  intro k others _ hothers a ha
  have hne : a ≠ elem := fun he => helem k others hothers (he ▸ ha)
  exact Function.update_of_ne hne _ _

theorem behaves_pop {first : ℕ} {rest : List ℕ} (h : Stands s.toMemory s.seq)
    (hi : s.seq i = some (first :: rest)) : s.Behaves (.pop i) := by
  have hlinked := h i _ hi
  have hfirst : (s.list i).first ≠ none := by simp [hlinked.1]
  refine ⟨_, if_neg hfirst, ?_⟩
  rw [Sequences.plain_pop hi]
  exact h.store (LinkedList.linked_pop hlinked) fun _ _ _ _ _ _ => rfl

theorem exec_remove {elem : ℕ} {u v : List ℕ} (h : Stands s.toMemory s.seq)
    (hi : s.seq i = some (u ++ elem :: v)) :
    ∃ next' l', s.toMemory.exec (s.fuel (.remove i elem)) (.remove i elem) =
        some (s.toMemory.store i (next', l')) ∧
      Linked next' l'.first (u ++ v) ∧ l'.last = (s.list i).last ∧
      ∀ a, a ∉ u → next' a = s.next a := by
  have hfuel : u.length ≤ s.fuel (.remove i elem) := by simp [fuel, hi]
  obtain ⟨next', l', hremove, hrest⟩ := LinkedList.remove_eq_some (h i _ hi) hfuel
  exact ⟨next', l', by simp only [Memory.exec, hremove, Option.map_some], hrest⟩

/-- An element of a chain is there once. -/
theorem plain_remove_append {elem : ℕ} {u v : List ℕ} (h : Stands s.toMemory s.seq)
    (hi : s.seq i = some (u ++ elem :: v)) :
    s.seq.plain (.remove i elem) = Function.update s.seq i (some (u ++ v)) := by
  have hlinked := h i _ hi
  rw [Sequences.plain_remove hi, List.erase_append_right _ hlinked.notMem.1, List.erase_cons_head]

theorem behaves_remove {elem : ℕ} (h : Stands s.toMemory s.seq) (hapart : s.seq.Apart)
    (hi : s.seq i = some cells) (helem : elem ∈ cells) : s.Behaves (.remove i elem) := by
  obtain ⟨u, v, rfl⟩ := List.append_of_mem helem
  obtain ⟨next', l', hexec, hlinked, -, hframe⟩ := exec_remove h hi
  refine ⟨_, hexec, ?_⟩
  rw [plain_remove_append h hi]
  apply h.store hlinked
  intro k others hk hothers a ha
  apply hframe
  exact fun hu => hapart i k _ others hk.symm hi hothers (List.mem_append_left _ hu) ha

theorem behaves_clear (h : Stands s.toMemory s.seq) : s.Behaves (.clear i) :=
  ⟨_, rfl, h.store rfl fun _ _ _ _ _ _ => rfl⟩

variable {j last : ℕ} {others : List ℕ}

/-- Nothing written: the target takes the other list over as it is. -/
theorem behaves_addAll_nil (h : Stands s.toMemory s.seq) (hi : s.seq i = some [])
    (hj : s.seq j = some others) : s.Behaves (.addAll i j) := by
  have hfirst : (s.list i).first = none := h i [] hi
  refine ⟨_, if_neg fun hc => hc.1 hfirst, ?_⟩
  rw [Sequences.plain_addAll hi hj, LinkedList.addAll, hfirst]
  exact (h.give j).store (h j others hj) fun _ _ _ _ _ _ => rfl

/-- With a `last` to write to, what is left to show of the chains. -/
theorem behaves_addAll_iff_linked (h : Stands s.toMemory s.seq) (hi : s.seq i = some cells)
    (hj : s.seq j = some others) (hne : cells ≠ []) (hlast : (s.list i).last = some last) :
    s.Behaves (.addAll i j) ↔
      Linked (Function.update s.next last (s.list j).first) (s.list i).first (cells ++ others) ∧
        ∀ k rest, k ≠ i → k ≠ j → s.seq k = some rest →
          Linked (Function.update s.next last (s.list j).first) (s.list k).first rest := by
  obtain ⟨first, hfirst⟩ := (h i cells hi).exists_some hne
  have hexec : s.toMemory.exec (s.fuel (.addAll i j)) (.addAll i j) =
      some (s.toMemory.store i (Function.update s.next last (s.list j).first,
        { s.list i with last := (s.list j).last })) := by
    simp [Memory.exec, LinkedList.addAll, LinkedList.setNext, hfirst, hlast]
  unfold Behaves
  rw [hexec, Sequences.plain_addAll hi hj]
  simp only [Option.some.injEq, exists_eq_left', stands_store_iff]
  refine and_congr_right fun _ => ⟨fun hk k rest hki hkj hrest => ?_, fun hk k rest hki hrest => ?_⟩
  · exact hk k rest hki (by rwa [Function.update_of_ne hkj])
  · by_cases hkj : k = j
    · subst hkj
      simp at hrest
    · rw [Function.update_of_ne hkj] at hrest
      exact hk k rest hki hkj hrest

/-- Appending to a list that is not empty needs its `last`. -/
theorem behaves_addAll_iff (h : Stands s.toMemory s.seq) (hapart : s.seq.Apart) (hij : i ≠ j)
    (hi : s.seq i = some cells) (hj : s.seq j = some others) (hne : cells ≠ []) :
    s.Behaves (.addAll i j) ↔ s.Joins i cells others := by
  cases hlast : (s.list i).last with
  | none =>
    obtain ⟨first, hfirst⟩ := (h i cells hi).exists_some hne
    apply iff_of_false
    · rintro ⟨m, hm, -⟩
      simp [Memory.exec, hfirst, hlast] at hm
    · rintro ⟨last, hsome, -⟩
      rw [hlast] at hsome
      cases hsome
  | some last =>
    rw [behaves_addAll_iff_linked h hi hj hne hlast]
    unfold Joins
    rw [hlast]
    simp only [Option.some.injEq, exists_eq_left']
    by_cases hothers : others = []
    · subst hothers
      have hnull : (s.list j).first = none := h j [] hj
      rw [hnull, List.append_nil, linked_cut_iff (h i cells hi)]
      constructor
      · rintro ⟨hcells, hrest⟩
        refine ⟨fun _ k rest hk => ?_, fun hc => (hc rfl).elim⟩
        by_cases hki : k = i
        · subst hki
          rw [Option.some_inj.mp (hk.symm.trans hi)]
          exact hcells
        · by_cases hkj : k = j
          · subst hkj
            rw [Option.some_inj.mp (hk.symm.trans hj)]
            exact List.not_mem_nil
          · exact (linked_cut_iff (h k rest hk)).mp (hrest k rest hki hkj hk)
      · rintro ⟨hall, -⟩
        refine ⟨hall rfl i cells hi, fun k rest _ _ hk => ?_⟩
        exact (linked_cut_iff (h k rest hk)).mpr (hall rfl k rest hk)
    · have hdisjoint := hapart i j cells others hij hi hj
      rw [linked_join_iff (h i cells hi) (h j others hj) hothers hdisjoint]
      constructor
      · rintro ⟨hend, -⟩
        exact ⟨fun hc => (hothers hc).elim, fun _ => hend⟩
      · rintro ⟨-, hend⟩
        refine ⟨hend hothers, fun k rest hki _ hk => ?_⟩
        have hmem : last ∈ cells := List.mem_of_getLast? (hend hothers)
        exact (linked_update (hapart i k cells rest hki.symm hi hk hmem)).mpr (h k rest hk)

/-- What an operation needs. -/
theorem behaves_iff {op : Op} (h : Stands s.toMemory s.seq) (hapart : s.seq.Apart)
    (hop : s.seq.Allowed op) : s.Behaves op ↔ s.Spliced op := by
  cases op with
  | add i elem =>
    obtain ⟨hi, helem⟩ := hop
    obtain ⟨cells, hcells⟩ := Option.ne_none_iff_exists'.mp hi
    exact iff_of_true (behaves_add h hcells helem) trivial
  | addAll i j =>
    obtain ⟨hij, hi, hj⟩ := hop
    obtain ⟨cells, hcells⟩ := Option.ne_none_iff_exists'.mp hi
    obtain ⟨others, hothers⟩ := Option.ne_none_iff_exists'.mp hj
    by_cases hne : cells = []
    · subst hne
      refine iff_of_true (behaves_addAll_nil h hcells hothers) fun cells' others' hi' _ hne => ?_
      exact (hne (Option.some_inj.mp (hi'.symm.trans hcells))).elim
    · rw [behaves_addAll_iff h hapart hij hcells hothers hne]
      simp [Spliced, hcells, hothers, hne]
  | pop i =>
    obtain ⟨first, rest, hcells⟩ := hop
    exact iff_of_true (behaves_pop h hcells) trivial
  | remove i elem =>
    obtain ⟨cells, hcells, helem⟩ := hop
    exact iff_of_true (behaves_remove h hapart hcells helem) trivial
  | clear i => exact iff_of_true (behaves_clear h) trivial

theorem fresh_update {new : Option (List ℕ)} {elem : ℕ}
    (h : ∀ k cells, seq k = some cells → elem ∉ cells) (hnew : ∀ cells ∈ new, elem ∉ cells) :
    ∀ k cells, Function.update seq i new k = some cells → elem ∉ cells :=
  (Function.forall_update_iff seq fun _ new => ∀ cells, new = some cells → elem ∉ cells).mpr
    ⟨hnew, fun k _ => h k⟩

theorem fresh_start (elem : ℕ) (next : ℕ → Option ℕ) :
    ∀ k cells, (start next).seq k = some cells → elem ∉ cells := by
  rintro k cells ⟨⟩
  exact List.not_mem_nil

/-- Along every sequence of operations the lists behave as plain sequences iff each `addAll` to a
list that is not empty finds a `last` to join the two at. -/
theorem always_behaves_iff {next : ℕ → Option ℕ} {ops : List Op}
    (h : Always step (fun s => s.seq.Allowed) (start next) ops) :
    Always step Behaves (start next) ops ↔ Always step Spliced (start next) ops := by
  apply always_congr (I := fun s => Stands s.toMemory s.seq ∧ s.seq.Apart) _ _ _ h
  · rintro s op ⟨hstands, hapart⟩ hop
    exact behaves_iff hstands hapart hop
  · rintro s op ⟨-, hapart⟩ hop ⟨m, hm, hstands⟩
    rw [step_eq hm]
    exact ⟨hstands, hapart.plain hop⟩
  · exact ⟨stands_start next, apart_start next⟩

/-- Two lists of one element each, and one of both. -/
theorem always_behaves_two :
    Always step Behaves (start fun _ => none) [.add 0 1, .add 1 2, .addAll 0 1] := by
  have hops : Always step (fun s => s.seq.Allowed) (start fun _ => none)
      [.add 0 1, .add 1 2, .addAll 0 1] := by
    refine ⟨⟨nofun, fresh_start 1 _⟩, ⟨nofun, ?_⟩, ⟨by decide, nofun, nofun⟩, trivial⟩
    exact fresh_update (fresh_start 2 _) (by decide)
  refine (always_behaves_iff hops).mpr ⟨trivial, trivial, ?_, trivial⟩
  rintro cells others ⟨⟩ ⟨⟩ -
  exact ⟨1, rfl, nofun, fun _ => rfl⟩

/-- With the last of two elements removed, what is appended is linked behind the removed one. -/
theorem not_always_behaves :
    Always step (fun s => s.seq.Allowed) (start fun _ => none)
      [.add 0 1, .add 0 2, .remove 0 1, .add 1 3, .addAll 0 1] ∧
    ¬ Always step Behaves (start fun _ => none)
      [.add 0 1, .add 0 2, .remove 0 1, .add 1 3, .addAll 0 1] := by
  constructor
  · refine ⟨⟨nofun, fresh_start 1 _⟩, ⟨nofun, ?_⟩, ⟨[2, 1], rfl, by decide⟩, ⟨nofun, ?_⟩,
      ⟨by decide, nofun, nofun⟩, trivial⟩
    · exact fresh_update (fresh_start 2 _) (by decide)
    · exact fresh_update (fresh_update (fresh_update (fresh_start 3 _) (by decide)) (by decide))
        (by decide)
  · rintro ⟨-, -, -, -, ⟨m, hm, hstands⟩, -⟩
    cases hm
    have hlinked := hstands 0 [2, 3] rfl
    cases hlinked.2.1

/-- A list with elements has the last of them in `last`. -/
def Tailed (m : Memory) (seq : Sequences) : Prop :=
  ∀ i cells, seq i = some cells → ∀ a ∈ cells.getLast?, (m.list i).last = some a

/-- Neither is the last of several elements removed, nor an empty list appended to one with
elements. -/
def Gentle (s : Lists) : Op → Prop
  | .addAll i j => ∀ cells, s.seq i = some cells → cells ≠ [] → s.seq j ≠ some []
  | .remove i elem => ∀ cells, s.seq i = some cells → cells.getLast? = some elem → cells = [elem]
  | _ => True

theorem Tailed.store (h : Tailed m seq) {after : (ℕ → Option ℕ) × LinkedList}
    (hi : ∀ a ∈ cells.getLast?, after.2.last = some a) :
    Tailed (m.store i after) (Function.update seq i (some cells)) := by
  have hupdate := Function.forall_update_iff seq (a := i) (b := some cells) fun k new =>
    ∀ others, new = some others → ∀ a ∈ others.getLast?, ((m.store i after).list k).last = some a
  refine hupdate.mpr ⟨?_, ?_⟩
  · rintro _ ⟨⟩
    rw [store_list_self]
    exact hi
  · intro k hk
    rw [store_list_of_ne hk]
    exact h k

theorem Tailed.give (h : Tailed m seq) (j : ℕ) : Tailed m (Function.update seq j none) :=
  (Function.forall_update_iff seq fun k new => ∀ cells, new = some cells →
    ∀ a ∈ cells.getLast?, (m.list k).last = some a).mpr ⟨nofun, fun k _ => h k⟩

theorem Tailed.add (ht : Tailed s.toMemory s.seq) (h : Stands s.toMemory s.seq)
    (hi : s.seq i = some cells) (elem : ℕ) :
    Tailed (s.toMemory.store i (LinkedList.add s.next elem (s.list i)))
      (s.seq.plain (.add i elem)) := by
  rw [Sequences.plain_add hi]
  apply ht.store
  have hlinked := h i cells hi
  have hlast := ht i cells hi
  cases cells with
  | nil =>
    have hfirst : (s.list i).first = none := hlinked
    simp [LinkedList.add, hfirst]
  | cons c rest =>
    rw [List.getLast?_cons_cons]
    simpa [LinkedList.add, hlinked.1] using hlast

theorem Tailed.addAll (ht : Tailed s.toMemory s.seq) (hi : s.seq i = some cells)
    (hj : s.seq j = some others) (hg : s.Gentle (.addAll i j)) :
    Tailed (s.toMemory.store i (LinkedList.addAll s.next (s.list j) (s.list i)))
      (s.seq.plain (.addAll i j)) := by
  rw [Sequences.plain_addAll hi hj]
  apply (ht.give j).store
  intro a ha
  rw [LinkedList.addAll_last]
  apply ht j others hj
  rcases List.eq_nil_or_concat others with rfl | ⟨init, last, rfl⟩
  · have hnil : cells = [] := by_contra fun hne => hg cells hi hne hj
    subst hnil
    exact ha
  · simpa [List.getLast?_append] using ha

theorem Tailed.pop {first : ℕ} {rest : List ℕ} (ht : Tailed s.toMemory s.seq)
    (hi : s.seq i = some (first :: rest)) :
    Tailed (s.toMemory.store i (s.next, (s.list i).pop s.next)) (s.seq.plain (.pop i)) := by
  rw [Sequences.plain_pop hi]
  apply ht.store
  intro a ha
  apply ht i _ hi
  rw [List.getLast?_cons, Option.mem_def.mp ha]
  rfl

theorem Tailed.remove {elem : ℕ} {u v : List ℕ} {next' : ℕ → Option ℕ} {l' : LinkedList}
    (ht : Tailed s.toMemory s.seq) (hi : s.seq i = some (u ++ elem :: v))
    (hg : s.Gentle (.remove i elem)) (hl' : l'.last = (s.list i).last) :
    Tailed (s.toMemory.store i (next', l')) (Function.update s.seq i (some (u ++ v))) := by
  apply ht.store
  intro a ha
  rw [hl']
  apply ht i _ hi
  rcases List.eq_nil_or_concat v with rfl | ⟨init, last, rfl⟩
  · have hu : u = [] := by simpa using hg _ hi (by simp)
    subst hu
    cases ha
  · simpa [List.getLast?_append, List.getLast?_cons] using ha

theorem Tailed.exec {op : Op} (ht : Tailed s.toMemory s.seq) (h : Stands s.toMemory s.seq)
    (hop : s.seq.Allowed op) (hg : s.Gentle op)
    (hm : s.toMemory.exec (s.fuel op) op = some m) : Tailed m (s.seq.plain op) := by
  cases op with
  | add i elem =>
    obtain ⟨cells, hcells⟩ := Option.ne_none_iff_exists'.mp hop.1
    cases hm
    exact ht.add h hcells elem
  | addAll i j =>
    obtain ⟨-, hi, hj⟩ := hop
    obtain ⟨cells, hcells⟩ := Option.ne_none_iff_exists'.mp hi
    obtain ⟨others, hothers⟩ := Option.ne_none_iff_exists'.mp hj
    simp only [Memory.exec] at hm
    split at hm
    · cases hm
    · cases hm
      exact ht.addAll hcells hothers hg
  | pop i =>
    obtain ⟨first, rest, hcells⟩ := hop
    simp only [Memory.exec] at hm
    split at hm
    · cases hm
    · cases hm
      exact ht.pop hcells
  | remove i elem =>
    obtain ⟨cells, hcells, helem⟩ := hop
    obtain ⟨u, v, rfl⟩ := List.append_of_mem helem
    obtain ⟨next', l', hexec, -, hlast, -⟩ := exec_remove h hcells
    cases hexec.symm.trans hm
    rw [plain_remove_append h hcells]
    exact ht.remove hcells hg hlast
  | clear i =>
    cases hm
    exact ht.store nofun

theorem spliced_of_tailed {op : Op} (ht : Tailed s.toMemory s.seq) (hg : s.Gentle op) :
    s.Spliced op := by
  cases op with
  | addAll i j =>
    intro cells others hi hj hne
    have hend : cells.getLast? = some (cells.getLast hne) := List.getLast?_eq_some_getLast hne
    refine ⟨cells.getLast hne, ht i cells hi _ hend, ?_, fun _ => hend⟩
    rintro rfl
    exact (hg cells hi hne hj).elim
  | add | pop | remove | clear => trivial

/-- The two ways in which `last` is lost: without them the lists behave as plain sequences. -/
theorem always_behaves_of_gentle {next : ℕ → Option ℕ} {ops : List Op}
    (h : Always step (fun s op => s.seq.Allowed op ∧ s.Gentle op) (start next) ops) :
    Always step Behaves (start next) ops := by
  apply always_of_invariant
    (I := fun s => Stands s.toMemory s.seq ∧ s.seq.Apart ∧ Tailed s.toMemory s.seq) _ _ _ h
  · rintro s op ⟨hstands, hapart, ht⟩ ⟨hop, hg⟩
    exact (behaves_iff hstands hapart hop).mpr (spliced_of_tailed ht hg)
  · rintro s op ⟨hstands, hapart, ht⟩ ⟨hop, hg⟩
    obtain ⟨m, hm, hstands'⟩ := (behaves_iff hstands hapart hop).mpr (spliced_of_tailed ht hg)
    have htail := ht.exec hstands hop hg hm
    rw [step_eq hm]
    exact ⟨hstands', hapart.plain hop, htail⟩
  · refine ⟨stands_start next, apart_start next, ?_⟩
    rintro i cells ⟨⟩
    exact nofun

end Lists

end Bipscript
