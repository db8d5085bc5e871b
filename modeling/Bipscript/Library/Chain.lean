import Mathlib.Data.List.Basic
import Mathlib.Data.List.Nodup
import Mathlib.Logic.Function.Basic

/-! Chains of cells, each with a pointer to the next: what a write to one pointer does to a
chain. -/
namespace Chain

variable {ι : Type*} {next : ι → Option ι} {p q r : Option ι} {l m : List ι} {x e : ι}

/-- From `p` the pointers lead through the cells of `l`, in this order, to `q`. -/
def Segment (next : ι → Option ι) : Option ι → List ι → Option ι → Prop
  | p, [], q => p = q
  | p, x :: l, q => p = some x ∧ Segment next (next x) l q

/-- From `p` the pointers lead through `l` to null. -/
def Linked (next : ι → Option ι) (p : Option ι) (l : List ι) : Prop := Segment next p l none

@[simp] theorem segment_nil : Segment next p [] q ↔ p = q := Iff.rfl

@[simp] theorem segment_cons :
    Segment next p (x :: l) q ↔ p = some x ∧ Segment next (next x) l q := Iff.rfl

@[simp] theorem linked_nil : Linked next p [] ↔ p = none := Iff.rfl

@[simp] theorem linked_cons :
    Linked next p (x :: l) ↔ p = some x ∧ Linked next (next x) l := Iff.rfl

theorem linked_none : Linked next none l ↔ l = [] := by
  cases l with
  | nil => simp
  | cons x l => simp

theorem segment_append :
    Segment next p (l ++ m) r ↔ ∃ q, Segment next p l q ∧ Segment next q m r := by
  induction l generalizing p with
  | nil => simp
  | cons x l ih =>
    simp only [List.cons_append, segment_cons, ih]
    constructor
    · rintro ⟨hp, q, hl, hm⟩
      exact ⟨q, ⟨hp, hl⟩, hm⟩
    · rintro ⟨q, ⟨hp, hl⟩, hm⟩
      exact ⟨hp, q, hl, hm⟩

theorem linked_append :
    Linked next p (l ++ m) ↔ ∃ q, Segment next p l q ∧ Linked next q m :=
  segment_append

/-- A chain is read off its start: the pointers leave no choice. -/
theorem Linked.unique (hl : Linked next p l) (hm : Linked next p m) : l = m := by
  induction l generalizing p m with
  | nil =>
    rw [linked_nil] at hl
    rw [hl, linked_none] at hm
    exact hm.symm
  | cons x l ih =>
    obtain ⟨hp, hl⟩ := hl
    cases m with
    | nil => exact (Option.some_ne_none x (hp.symm.trans hm)).elim
    | cons y m =>
      obtain ⟨hp', hm⟩ := hm
      have hxy : x = y := Option.some_inj.mp (hp.symm.trans hp')
      subst hxy
      exact congrArg (x :: ·) (ih hl hm)

/-- The rest of a chain starts at its cell's own pointer. -/
theorem Linked.after {u v : List ι} (h : Linked next p (u ++ e :: v)) : Linked next (next e) v := by
  obtain ⟨q, -, he⟩ := linked_append.mp h
  exact (linked_cons.mp he).2

/-- A chain that ends does not pass a cell twice. -/
theorem Linked.nodup (h : Linked next p l) : l.Nodup := by
  induction l generalizing p with
  | nil => exact List.nodup_nil
  | cons x l ih =>
    obtain ⟨-, hl⟩ := h
    refine List.nodup_cons.mpr ⟨?_, ih hl⟩
    intro hx
    -- from the second `x` on, the chain would be as long as it is from the first
    obtain ⟨u, v, rfl⟩ := List.append_of_mem hx
    have hrest : Linked next (next x) v := Linked.after hl
    have hlen := congrArg List.length (hrest.unique hl)
    simp at hlen
    omega

theorem Linked.exists_some (h : Linked next p l) (hl : l ≠ []) : ∃ x, p = some x := by
  cases l with
  | nil => exact (hl rfl).elim
  | cons x l => exact ⟨x, h.1⟩

/-- The start is no cell further on. -/
theorem Linked.ne_some {u v : List ι} (h : Linked next p (u ++ e :: v)) (hu : u ≠ []) :
    p ≠ some e := by
  cases u with
  | nil => exact (hu rfl).elim
  | cons x u =>
    rintro rfl
    have hx : e = x := Option.some_inj.mp h.1
    subst hx
    have hnodup := h.nodup
    simp at hnodup

/-- A cell of a chain is neither before itself nor behind. -/
theorem Linked.notMem {u v : List ι} (h : Linked next p (u ++ e :: v)) : e ∉ u ∧ e ∉ v := by
  obtain ⟨-, hv, huv⟩ := List.nodup_append.mp h.nodup
  exact ⟨fun hu => huv e hu e List.mem_cons_self rfl, (List.nodup_cons.mp hv).1⟩

/-- The cells met from `p` on, at most `n` of them. -/
def nodes (next : ι → Option ι) : ℕ → Option ι → List ι
  | 0, _ => []
  | _ + 1, none => []
  | n + 1, some x => x :: nodes next n (next x)

theorem Linked.nodes_eq {n : ℕ} (h : Linked next p l) (hn : l.length ≤ n) : nodes next n p = l := by
  induction l generalizing p n with
  | nil =>
    rw [linked_nil] at h
    subst h
    cases n <;> rfl
  | cons x l ih =>
    obtain ⟨rfl, hl⟩ := h
    cases n with
    | zero => simp at hn
    | succ n =>
      have htail := ih hl (by simpa using hn)
      simp only [nodes, htail]

/-- A segment depends on the pointers of its own cells alone. -/
theorem segment_congr {next' : ι → Option ι} (h : ∀ x ∈ l, next' x = next x) :
    Segment next' p l q ↔ Segment next p l q := by
  induction l generalizing p with
  | nil => exact Iff.rfl
  | cons x l ih =>
    have htail := @ih (next x) fun y hy => h y (List.mem_cons_of_mem x hy)
    simp only [segment_cons, h x List.mem_cons_self, htail]

theorem linked_congr {next' : ι → Option ι} (h : ∀ x ∈ l, next' x = next x) :
    Linked next' p l ↔ Linked next p l :=
  segment_congr h

variable [DecidableEq ι]

/-- A write to a cell outside a segment leaves the segment. -/
theorem segment_update (hx : x ∉ l) :
    Segment (Function.update next x r) p l q ↔ Segment next p l q := by
  apply segment_congr
  intro y hy
  have hyx : y ≠ x := fun he => hx (he ▸ hy)
  exact Function.update_of_ne hyx _ _

theorem linked_update (hx : x ∉ l) :
    Linked (Function.update next x r) p l ↔ Linked next p l :=
  segment_update hx

/-- A new cell in front. -/
theorem Linked.cons (h : Linked next p l) (hx : x ∉ l) :
    Linked (Function.update next x p) (some x) (x :: l) := by
  refine ⟨rfl, ?_⟩
  rw [Function.update_self]
  exact (linked_update hx).mpr h

/-- The pointer of `e` redirected to another chain: what came after `e` is cut off. -/
theorem Linked.redirect {u v : List ι} (h : Linked next p (u ++ e :: v)) (hm : Linked next q m)
    (he : e ∉ m) : Linked (Function.update next e q) p (u ++ e :: m) := by
  obtain ⟨r, hu, hr, -⟩ := linked_append.mp h
  refine linked_append.mpr ⟨r, (segment_update h.notMem.1).mpr hu, hr, ?_⟩
  rw [Function.update_self]
  exact (linked_update he).mpr hm

/-- A new cell behind the cell `e`. -/
theorem Linked.insert {u v : List ι} (h : Linked next p (u ++ e :: v)) (hx : x ∉ u ++ e :: v) :
    Linked (Function.update (Function.update next x (next e)) e (some x)) p
      (u ++ e :: x :: v) := by
  have hxv : x ∉ v := fun hv => hx (List.mem_append_right u (List.mem_cons_of_mem e hv))
  have hxe : e ≠ x := fun he => hx (List.mem_append_right u (he ▸ List.mem_cons_self))
  have hev : e ∉ v := h.notMem.2
  have hcons := h.after.cons hxv
  have hchain := (linked_update (r := next e) hx).mpr h
  apply hchain.redirect hcons
  intro he
  rcases List.mem_cons.mp he with he | he
  · exact hxe he
  · exact hev he

/-- The cell before `x` redirected to the one behind it. -/
theorem Linked.remove {u v : List ι} (h : Linked next p (u ++ e :: x :: v)) :
    Linked (Function.update next e (next x)) p (u ++ e :: v) := by
  have hev : e ∉ x :: v := h.notMem.2
  have hrest : Linked next (next x) v := by
    apply Linked.after (u := u ++ [e]) (p := p)
    simpa using h
  exact h.redirect hrest fun he => hev (List.mem_cons_of_mem x he)

/-- A null written to a cell keeps a chain unless the cell is in it and not its last. -/
theorem linked_cut_iff (h : Linked next p l) :
    Linked (Function.update next e none) p l ↔ e ∉ l.dropLast := by
  by_cases he : e ∈ l
  · obtain ⟨u, v, rfl⟩ := List.append_of_mem he
    have hcut : Linked (Function.update next e none) p (u ++ [e]) :=
      h.redirect (linked_nil.mpr rfl) List.not_mem_nil
    constructor
    · intro hkept
      have hsame : u ++ e :: v = u ++ [e] := hkept.unique hcut
      rw [hsame, List.dropLast_concat]
      exact h.notMem.1
    · intro hno
      cases v with
      | nil => exact hcut
      | cons y v => exact (hno (by simp)).elim
  · exact iff_of_true ((linked_update he).mpr h) fun hd => he (List.dropLast_subset l hd)

/-- A cell redirected to another chain joins the two iff it is the last one. -/
theorem linked_join_iff (h : Linked next p l) (hm : Linked next q m) (hne : m ≠ [])
    (hlm : l.Disjoint m) :
    Linked (Function.update next e q) p (l ++ m) ↔ l.getLast? = some e := by
  constructor
  · intro hjoined
    by_cases he : e ∈ l
    · obtain ⟨u, v, rfl⟩ := List.append_of_mem he
      have hcut := hjoined.unique (h.redirect hm (hlm he))
      rw [List.append_assoc, List.cons_append] at hcut
      have hv : v ++ m = m := (List.cons.inj (List.append_cancel_left hcut)).2
      have hnil : v = [] := List.append_left_eq_self.mp hv
      rw [hnil, List.getLast?_concat]
    · have hsame := hjoined.unique ((linked_update he).mpr h)
      exact (hne (List.append_right_eq_self.mp hsame)).elim
  · intro hlast
    obtain ⟨init, rfl⟩ := List.getLast?_eq_some_iff.mp hlast
    have hem : e ∉ m := hlm (by simp)
    simpa using h.redirect hm hem

end Chain
