import Bipscript.LinkedList
import Bipscript.PositionOrder
import Bipscript.Library.Run
import Mathlib.Data.List.Infix

/-! Runs of an `EventList` whose elements have any position fields. -/
namespace Bipscript

namespace Duration

variable {a b c : Duration}

/-- Cross products that fit are compared as they are. -/
theorem le_mul32 (hab : a.position * b.division < 2 ^ 32) (hba : b.position * a.division < 2 ^ 32) :
    a.le mul32 b = a.le (· * ·) b := by
  apply InOrder.le_eq
  refine Or.inr (Or.inl ?_)
  rw [Nat.div_eq_of_lt hab, Nat.div_eq_of_lt hba]

theorem le_of_not_le {mul : ℕ → ℕ → ℕ} (h : ¬ b.le mul a = true) : a.le mul b = true := by
  unfold le at h ⊢
  split_ifs at h ⊢ <;> simp at h ⊢ <;> omega

/-- Zero over zero is `<=` any position in its bar, and any is `<=` it. -/
theorem le_trans_of_proper (hb : b.position ≠ 0 ∨ b.division ≠ 0)
    (hab : a.le (· * ·) b = true) (hbc : b.le (· * ·) c = true) : a.le (· * ·) c = true := by
  have hcross : a.position * b.division ≤ b.position * a.division →
      b.position * c.division ≤ c.position * b.division →
      a.position * c.division ≤ c.position * a.division := by
    intro h h'
    rcases Nat.eq_zero_or_pos b.division with hzero | hpos
    · have hpos : 0 < b.position := by omega
      have hc : c.division = 0 := by
        rw [hzero, Nat.mul_zero] at h'
        exact (Nat.mul_eq_zero.mp (Nat.le_zero.mp h')).resolve_left hpos.ne'
      rw [hc, Nat.mul_zero]
      exact Nat.zero_le _
    · apply Nat.le_of_mul_le_mul_right _ hpos
      calc a.position * c.division * b.division
          = a.position * b.division * c.division := Nat.mul_right_comm _ _ _
        _ ≤ b.position * a.division * c.division := Nat.mul_le_mul_right _ h
        _ = b.position * c.division * a.division := Nat.mul_right_comm _ _ _
        _ ≤ c.position * b.division * a.division := Nat.mul_le_mul_right _ h'
        _ = c.position * a.division * b.division := Nat.mul_right_comm _ _ _
  unfold le at hab hbc ⊢
  split_ifs at hab hbc ⊢ <;> simp only [decide_eq_true_eq] at hab hbc ⊢ <;> omega

end Duration

open Chain LinkedList Transition

/-- An event list and the memory of its elements, and which of them were inserted and not yet
popped, oldest first. -/
structure EventChain where
  next : ℕ → Option ℕ
  pos : ℕ → Duration
  list : LinkedList
  stored : List ℕ

namespace EventChain

/-- What happens to the list, and the construction of an element at an address. -/
inductive Op
  | construct (elem : ℕ) (pos : Duration)
  | insert (elem : ℕ)
  | pop
  | clear

/-- None is a null pointer followed. The walk of `insert` is cut after as many elements as there
are. -/
def exec (s : EventChain) : Op → Option EventChain
  | .construct elem pos =>
    some { s with next := Function.update s.next elem none, pos := Function.update s.pos elem pos }
  | .insert elem =>
    (insertBy (fun a b => (s.pos a).le mul32 (s.pos b)) (fun a b => (s.pos a).lt mul32 (s.pos b))
      s.stored.length elem s.next s.list).map fun (next, list) =>
        { s with next := next, list := list, stored := s.stored ++ [elem] }
  | .pop => s.list.first.map fun first =>
    { s with list := s.list.pop s.next, stored := s.stored.erase first }
  | .clear => some { s with list := s.list.clear, stored := [] }

/-- An element inserted has a null `next` and is not in the list. -/
def Allowed (s : EventChain) : Op → Prop
  | .construct elem _ => elem ∉ s.stored
  | .insert elem => s.next elem = none ∧ elem ∉ s.stored
  | .pop => s.stored ≠ []
  | .clear => True

def Step (s : EventChain) (op : Op) (t : EventChain) : Prop := s.exec op = some t

/-- A list as it is constructed. -/
def start (next : ℕ → Option ℕ) (pos : ℕ → Duration) : EventChain := ⟨next, pos, .empty, []⟩

/-- The cross products fit, and none is zero over zero. -/
structure Comparable (pos : ℕ → Duration) (cells : List ℕ) : Prop where
  fits : ∀ a ∈ cells, ∀ b ∈ cells, (pos a).position * (pos b).division < 2 ^ 32
  proper : ∀ a ∈ cells, (pos a).position ≠ 0 ∨ (pos a).division ≠ 0

/-- `a` may stand before `b`: its position is not behind, and of equal ones it is the older. -/
def Before (pos : ℕ → Duration) (stored : List ℕ) (a b : ℕ) : Prop :=
  (pos a).le (· * ·) (pos b) = true ∧
    ((pos b).le (· * ·) (pos a) = true → [a, b].Sublist stored)

variable {pos : ℕ → Duration} {stored cells u v : List ℕ} {elem : ℕ}

theorem Comparable.mono {cells' : List ℕ} (h : Comparable pos cells) (hsub : cells' ⊆ cells) :
    Comparable pos cells' :=
  ⟨fun a ha b hb => h.fits a (hsub ha) b (hsub hb), fun a ha => h.proper a (hsub ha)⟩

theorem Comparable.le_mul32 {a b : ℕ} (h : Comparable pos cells) (ha : a ∈ cells) (hb : b ∈ cells) :
    (pos a).le mul32 (pos b) = (pos a).le (· * ·) (pos b) :=
  Duration.le_mul32 (h.fits a ha b hb) (h.fits b hb a ha)

theorem Comparable.trans {a b c : ℕ} (h : Comparable pos cells) (hb : b ∈ cells)
    (hab : (pos a).le (· * ·) (pos b) = true) (hbc : (pos b).le (· * ·) (pos c) = true) :
    (pos a).le (· * ·) (pos c) = true :=
  Duration.le_trans_of_proper (h.proper b hb) hab hbc

/-- All that is in front of the place is `<=` the new element. -/
theorem le_of_placed (h : Placed (fun a b => (pos a).le mul32 (pos b)) elem u v)
    (hc : Comparable pos (u ++ elem :: v)) (hu : u.Pairwise (Before pos stored)) {a : ℕ}
    (ha : a ∈ u) : (pos a).le (· * ·) (pos elem) = true := by
  have hexact : ∀ b ∈ u, (pos b).le mul32 (pos elem) = (pos b).le (· * ·) (pos elem) :=
    fun b hb => hc.le_mul32 (List.mem_append_left _ hb) (by simp)
  cases h with
  | behind hlast =>
    obtain ⟨init, last, rfl⟩ : ∃ init last, u = init ++ [last] :=
      ⟨_, _, (List.dropLast_append_getLast (List.ne_nil_of_mem ha)).symm⟩
    have hle : (pos last).le (· * ·) (pos elem) = true := by
      rw [← hexact last (by simp)]
      exact hlast last (by simp)
    rcases List.mem_append.mp ha with hinit | hsame
    · have hbefore := (List.pairwise_append.mp hu).2.2 a hinit last (by simp)
      exact hc.trans (by simp) hbefore.1 hle
    · rw [List.mem_singleton.mp hsame]
      exact hle
  | before hall _ _ =>
    rw [← hexact a ha]
    exact hall a ha

/-- All that is behind it is not. -/
theorem not_le_of_placed (h : Placed (fun a b => (pos a).le mul32 (pos b)) elem u v)
    (hc : Comparable pos (u ++ elem :: v)) (hv : v.Pairwise (Before pos stored)) {b : ℕ}
    (hb : b ∈ v) : ¬ (pos b).le (· * ·) (pos elem) = true := by
  cases h with
  | behind _ => cases hb
  | @before v y _ hy _ =>
    rw [hc.le_mul32 (by simp) (by simp)] at hy
    rcases List.mem_cons.mp hb with rfl | hb
    · exact hy
    · intro hle
      have hbefore := (List.pairwise_cons.mp hv).1 b hb
      exact hy (hc.trans (by simp [hb]) hbefore.1 hle)

/-- An element put in its place is in order with the others. -/
theorem pairwise_inserted (h : Placed (fun a b => (pos a).le mul32 (pos b)) elem u v)
    (hc : Comparable pos (u ++ elem :: v)) (huv : (u ++ v).Pairwise (Before pos stored))
    (hu : u ⊆ stored) : (u ++ elem :: v).Pairwise (Before pos (stored ++ [elem])) := by
  have hmono : ∀ {a b}, Before pos stored a b → Before pos (stored ++ [elem]) a b :=
    fun hab => ⟨hab.1, fun hba => (hab.2 hba).trans (List.sublist_append_left _ _)⟩
  obtain ⟨hpu, hpv, hcross⟩ := List.pairwise_append.mp huv
  refine List.pairwise_append.mpr ⟨hpu.imp hmono, List.pairwise_cons.mpr ⟨?_, hpv.imp hmono⟩, ?_⟩
  · intro b hb
    have hno := not_le_of_placed h hc hpv hb
    exact ⟨Duration.le_of_not_le hno, fun hle => (hno hle).elim⟩
  · intro a ha b hb
    rcases List.mem_cons.mp hb with rfl | hb
    · refine ⟨le_of_placed h hc hpu ha, fun _ => ?_⟩
      exact List.Sublist.append (List.singleton_sublist.mpr (hu ha)) (List.Sublist.refl [b])
    · exact hmono (hcross a ha b hb)

/-- A suffix that reaches over a cell begins with one of what is before the cell. -/
theorem suffix_middle {Q : List ℕ} (h : Q <:+ u ++ elem :: v) :
    Q <:+ v ∨ ∃ u', u' <:+ u ∧ Q = u' ++ elem :: v := by
  obtain ⟨t, ht⟩ := h
  rcases List.append_eq_append_iff.mp ht with ⟨m, rfl, hQ⟩ | ⟨m, rfl, hm⟩
  · exact Or.inr ⟨m, ⟨t, rfl⟩, hQ⟩
  · cases m with
    | nil => exact Or.inr ⟨[], List.nil_suffix, hm.symm⟩
    | cons x m => exact Or.inl ⟨m, (List.cons.inj hm).2.symm⟩

/-- The chain is of the elements stored, and each end of it in order that can be compared. -/
structure Keeps (s : EventChain) (cells : List ℕ) : Prop where
  holds : s.list.Holds s.next cells
  perm : cells.Perm s.stored
  sorted : ∀ Q, Q <:+ cells → Comparable s.pos Q → Q.Pairwise (Before s.pos s.stored)

variable {s t : EventChain}

theorem keeps_start (next : ℕ → Option ℕ) (pos : ℕ → Duration) : (start next pos).Keeps [] where
  holds := ⟨rfl, by simp⟩
  perm := .refl _
  sorted Q hQ _ := by
    rw [List.suffix_nil.mp hQ]
    exact .nil

theorem Keeps.construct (h : s.Keeps cells) {elem : ℕ} (helem : elem ∉ s.stored) (d : Duration) :
    Keeps { s with next := Function.update s.next elem none, pos := Function.update s.pos elem d }
      cells := by
  have hcells : elem ∉ cells := fun hc => helem (h.perm.mem_iff.mp hc)
  refine ⟨⟨(linked_update hcells).mpr h.holds.linked, h.holds.last⟩, h.perm, ?_⟩
  intro Q hQ hc
  have hpos : ∀ a ∈ Q, Function.update s.pos elem d a = s.pos a := by
    intro a ha
    have hne : a ≠ elem := fun he => hcells (he ▸ hQ.subset ha)
    exact Function.update_of_ne hne _ _
  have hc' : Comparable s.pos Q := by
    refine ⟨fun a ha b hb => ?_, fun a ha => ?_⟩
    · rw [← hpos a ha, ← hpos b hb]
      exact hc.fits a ha b hb
    · rw [← hpos a ha]
      exact hc.proper a ha
  refine (h.sorted Q hQ hc').imp_of_mem fun ha hb hab => ?_
  unfold Before
  dsimp only
  rw [hpos _ ha, hpos _ hb]
  exact hab

theorem Keeps.insert (h : s.Keeps cells) (hnext : s.next elem = none) (helem : elem ∉ s.stored) :
    ∃ t cells', s.exec (.insert elem) = some t ∧ t.Keeps cells' := by
  have hcells : elem ∉ cells := fun hc => helem (h.perm.mem_iff.mp hc)
  obtain ⟨next', list', u, v, rfl, hinsert, hinserted⟩ :=
    insertBy_eq_some (fun a b => (s.pos a).le mul32 (s.pos b))
      (fun a b => (s.pos a).lt mul32 (s.pos b)) (fun _ _ => Duration.lt_iff_not_le)
      h.holds hcells hnext h.perm.length_eq.le
  refine ⟨{ s with next := next', list := list', stored := s.stored ++ [elem] }, u ++ elem :: v,
    by simp only [exec, hinsert, Option.map_some], hinserted.holds, ?_, ?_⟩
  · calc (u ++ elem :: v).Perm (elem :: (u ++ v)) := List.perm_middle
      _ |>.Perm (elem :: s.stored) := h.perm.cons elem
      _ |>.Perm (s.stored ++ [elem]) := (List.perm_append_singleton elem s.stored).symm
  · intro Q hQ hc
    rcases suffix_middle hQ with hv | ⟨u', hu', rfl⟩
    · have hQ' : Q <:+ u ++ v := hv.trans (List.suffix_append u v)
      refine (h.sorted Q hQ' hc).imp fun hab => ⟨hab.1, fun hba => ?_⟩
      exact (hab.2 hba).trans (List.sublist_append_left _ _)
    · have hQ' : u' ++ v <:+ u ++ v := by
        obtain ⟨w, rfl⟩ := hu'
        exact ⟨w, (List.append_assoc _ _ _).symm⟩
      have hmem : u' ⊆ s.stored := fun a ha =>
        h.perm.mem_iff.mp (List.mem_append_left v (hu'.subset ha))
      have hc' : Comparable s.pos (u' ++ v) := hc.mono fun a ha => by
        rcases List.mem_append.mp ha with ha | ha <;> simp [ha]
      exact pairwise_inserted (hinserted.placed.suffix hu') hc (h.sorted _ hQ' hc') hmem

theorem Keeps.pop (h : s.Keeps cells) (hne : s.stored ≠ []) :
    ∃ t cells', s.exec .pop = some t ∧ t.Keeps cells' := by
  cases cells with
  | nil => exact (hne h.perm.symm.eq_nil).elim
  | cons first rest =>
    have hfirst : s.list.first = some first := h.holds.linked.1
    have hnotin : first ∉ rest := (List.nodup_cons.mp h.holds.linked.nodup).1
    refine ⟨{ s with list := s.list.pop s.next, stored := s.stored.erase first }, rest,
      by simp only [exec, hfirst, Option.map_some], ⟨?_, ?_⟩, ?_, ?_⟩
    · exact linked_pop h.holds.linked
    · intro a ha
      apply h.holds.last
      rw [List.getLast?_cons, Option.mem_def.mp ha]
      rfl
    · have hperm := h.perm.erase first
      rwa [List.erase_cons_head] at hperm
    · intro Q hQ hc
      refine (h.sorted Q (hQ.trans (List.suffix_cons first rest)) hc).imp_of_mem ?_
      intro a b ha hb hab
      refine ⟨hab.1, fun hba => ?_⟩
      have hnot : first ∉ [a, b] := by
        intro hmem
        apply hnotin
        rcases List.mem_pair.mp hmem with rfl | rfl
        · exact hQ.subset ha
        · exact hQ.subset hb
      have hsub := (hab.2 hba).erase first
      rwa [List.erase_of_not_mem hnot] at hsub

theorem Keeps.clear : Keeps { s with list := s.list.clear, stored := [] } [] where
  holds := ⟨rfl, by simp⟩
  perm := .refl _
  sorted Q hQ _ := by
    rw [List.suffix_nil.mp hQ]
    exact .nil

/-- No operation follows a null pointer, and each keeps the chain. -/
theorem Keeps.exec {op : Op} (h : s.Keeps cells) (hop : s.Allowed op) :
    ∃ t cells', s.exec op = some t ∧ t.Keeps cells' := by
  cases op with
  | construct elem d => exact ⟨_, cells, rfl, h.construct hop d⟩
  | insert elem => exact h.insert hop.1 hop.2
  | pop => exact h.pop hop
  | clear => exact ⟨_, [], rfl, .clear⟩

theorem keeps_of_run {next : ℕ → Option ℕ} {ops : List Op}
    (h : Run (restrict Allowed Step) (start next pos) ops s) : ∃ cells, s.Keeps cells := by
  apply Run.invariant_restrict (I := fun s => ∃ cells, s.Keeps cells) ?_ h
    ⟨[], keeps_start next pos⟩
  rintro s op t ⟨cells, hs⟩ hop hstep
  obtain ⟨t', cells', ht', hkeeps⟩ := hs.exec hop
  obtain rfl : t' = t := Option.some_inj.mp (ht'.symm.trans hstep)
  exact ⟨cells', hkeeps⟩

/-- After any operations the next one follows no null pointer, and the list is a chain of the
elements inserted and not yet popped; it is in order whenever these can be compared. -/
theorem chain_of_run {next : ℕ → Option ℕ} {ops : List Op}
    (h : Run (restrict Allowed Step) (start next pos) ops s) :
    (∀ op, s.Allowed op → (s.exec op).isSome) ∧
      ∃ cells, Linked s.next s.list.first cells ∧ cells.Perm s.stored ∧
        (Comparable s.pos s.stored → cells.Pairwise (Before s.pos s.stored)) := by
  obtain ⟨cells, hkeeps⟩ := keeps_of_run h
  constructor
  · intro op hop
    obtain ⟨t, -, ht, -⟩ := hkeeps.exec hop
    exact Option.isSome_of_eq_some ht
  · refine ⟨cells, hkeeps.holds.linked, hkeeps.perm, fun hc => ?_⟩
    exact hkeeps.sorted cells List.suffix_rfl (hc.mono hkeeps.perm.subset)

/-- A quarter inserted behind a half goes in front of it. -/
theorem chain_of_two : ∃ s, Run (restrict Allowed Step) (start (fun _ => none) fun _ => ⟨0, 0, 0⟩)
      [.construct 1 ⟨0, 1, 2⟩, .construct 2 ⟨0, 1, 4⟩, .insert 1, .insert 2] s ∧
    ∃ cells, Linked s.next s.list.first cells ∧ cells.Perm [1, 2] ∧
      cells.Pairwise (Before s.pos [1, 2]) := by
  have h : Run (restrict Allowed Step) (start (fun _ => none) fun _ => ⟨0, 0, 0⟩)
      [.construct 1 ⟨0, 1, 2⟩, .construct 2 ⟨0, 1, 4⟩, .insert 1, .insert 2] _ :=
    .stepL ⟨List.not_mem_nil, rfl⟩ <| .stepL ⟨List.not_mem_nil, rfl⟩ <|
      .stepL ⟨⟨rfl, List.not_mem_nil⟩, rfl⟩ <| .stepL ⟨⟨rfl, by decide⟩, rfl⟩ .refl
  obtain ⟨cells, hlinked, hperm, hsorted⟩ := (chain_of_run h).2
  refine ⟨_, h, cells, hlinked, hperm, hsorted ⟨?_, ?_⟩⟩
  · decide
  · decide

/-- Whatever comes after a cell that points to itself, it is no chain. -/
theorem not_linked_self {next : ℕ → Option ℕ} (h : next elem = some elem) (cells : List ℕ) :
    ¬ Linked next (some elem) cells := by
  intro hlinked
  cases cells with
  | nil => cases hlinked
  | cons first rest =>
    obtain rfl : elem = first := Option.some_inj.mp hlinked.1
    have hrest : Linked next (some elem) rest := h ▸ hlinked.2
    exact List.cons_ne_self elem rest (hlinked.unique hrest)

/-- The last element has a null `next`; inserted again it points to itself. And behind a position of
zero over zero a quarter stays behind a half. -/
theorem not_chain_of_run :
    (∃ s t, Run (restrict Allowed Step) (start (fun _ => none) fun _ => ⟨0, 0, 0⟩)
        [.construct 1 ⟨0, 1, 2⟩, .insert 1] s ∧
      s.next 1 = none ∧ s.exec (.insert 1) = some t ∧
      ∀ cells, ¬ Linked t.next t.list.first cells) ∧
    ∃ s, Run (restrict Allowed Step) (start (fun _ => none) fun _ => ⟨0, 0, 0⟩)
        [.construct 1 ⟨0, 1, 2⟩, .construct 2 ⟨0, 0, 0⟩, .construct 3 ⟨0, 1, 4⟩,
          .insert 1, .insert 2, .insert 3] s ∧
      Linked s.next s.list.first [1, 2, 3] ∧
      (∀ a ∈ s.stored, ∀ b ∈ s.stored, (s.pos a).position * (s.pos b).division < 2 ^ 32) ∧
      ¬ [1, 2, 3].Pairwise (Before s.pos s.stored) := by
  constructor
  · refine ⟨_, _, .stepL ⟨List.not_mem_nil, rfl⟩ <| .stepL ⟨⟨rfl, List.not_mem_nil⟩, rfl⟩ .refl,
      rfl, rfl, ?_⟩
    exact not_linked_self rfl
  · refine ⟨_, .stepL ⟨List.not_mem_nil, rfl⟩ <| .stepL ⟨List.not_mem_nil, rfl⟩ <|
      .stepL ⟨List.not_mem_nil, rfl⟩ <| .stepL ⟨⟨rfl, List.not_mem_nil⟩, rfl⟩ <|
      .stepL ⟨⟨rfl, by decide⟩, rfl⟩ <| .stepL ⟨⟨rfl, by decide⟩, rfl⟩ .refl, ?_, ?_, ?_⟩
    · exact ⟨rfl, rfl, rfl, rfl⟩
    · decide
    · intro hsorted
      have hbefore := (List.pairwise_cons.mp hsorted).1 3 (by decide)
      exact absurd hbefore.1 (by decide)

end EventChain

end Bipscript
