import Mathlib.Data.List.Basic
import Mathlib.Data.List.Nodup
import Mathlib.Logic.Function.Basic

/-! Cells linked in both directions, a list of them closed at either end by one cell in no list. -/
namespace DoublyLinked

variable {ι : Type*} {next prev : ι → ι} {null b c p q : ι} {l m : List ι} {x : ι}

/-- From `p` the forward pointers lead through the cells of `l` to `q`. Each cell points back at
the one before it, the first of them at `b`; the last one is `c`. -/
def Segment (next prev : ι → ι) : ι → ι → List ι → ι → ι → Prop
  | b, p, [], c, q => b = c ∧ p = q
  | b, p, x :: l, c, q => p = x ∧ prev x = b ∧ Segment next prev x (next x) l c q

/-- From `p` the cells of `l`, each once. -/
structure Linked (next prev : ι → ι) (null p : ι) (l : List ι) : Prop where
  segment : ∃ c, Segment next prev null p l c null
  nodup : l.Nodup
  null_notMem : null ∉ l

theorem segment_append {d r : ι} :
    Segment next prev b p (l ++ m) d r ↔
      ∃ c q, Segment next prev b p l c q ∧ Segment next prev c q m d r := by
  induction l generalizing b p with
  | nil =>
    constructor
    · intro h
      exact ⟨b, p, ⟨rfl, rfl⟩, h⟩
    · rintro ⟨c, q, ⟨rfl, rfl⟩, h⟩
      exact h
  | cons x l ih =>
    simp only [List.cons_append, Segment, ih]
    constructor
    · rintro ⟨hp, hb, c, q, hl, hm⟩
      exact ⟨c, q, ⟨hp, hb, hl⟩, hm⟩
    · rintro ⟨c, q, ⟨hp, hb, hl⟩, hm⟩
      exact ⟨hp, hb, c, q, hl, hm⟩

/-- A segment depends on the pointers of its own cells alone. -/
theorem Segment.congr {next' prev' : ι → ι} (h : Segment next prev b p l c q)
    (hn : ∀ x ∈ l, next' x = next x) (hp : ∀ x ∈ l, prev' x = prev x) :
    Segment next' prev' b p l c q := by
  induction l generalizing b p with
  | nil => exact h
  | cons x l ih =>
    obtain ⟨rfl, hb, hl⟩ := h
    refine ⟨rfl, ?_, ?_⟩
    · rw [hp p List.mem_cons_self, hb]
    · rw [hn p List.mem_cons_self]
      exact ih hl (fun y hy => hn y (List.mem_cons_of_mem p hy))
        fun y hy => hp y (List.mem_cons_of_mem p hy)

theorem Linked.congr {next' prev' : ι → ι} (h : Linked next prev null p l)
    (hn : ∀ x ∈ l, next' x = next x) (hp : ∀ x ∈ l, prev' x = prev x) :
    Linked next' prev' null p l := by
  obtain ⟨c, hc⟩ := h.segment
  exact ⟨⟨c, hc.congr hn hp⟩, h.nodup, h.null_notMem⟩

theorem linked_nil (h : p = null) : Linked next prev null p [] :=
  ⟨⟨null, rfl, h⟩, List.nodup_nil, List.not_mem_nil⟩

/-- A list is empty iff its start is the closing cell. -/
theorem Linked.start_eq_null_iff (h : Linked next prev null p l) : p = null ↔ l = [] := by
  obtain ⟨c, hc⟩ := h.segment
  cases l with
  | nil => exact iff_of_true hc.2 rfl
  | cons x l =>
    refine iff_of_false ?_ (List.cons_ne_nil x l)
    intro he
    have hx : x = null := hc.1.symm.trans he
    exact h.null_notMem (hx ▸ List.mem_cons_self)

theorem Linked.start_mem (h : Linked next prev null p l) (hl : l ≠ []) : p ∈ l := by
  obtain ⟨c, hc⟩ := h.segment
  cases l with
  | nil => exact (hl rfl).elim
  | cons x l =>
    rw [hc.1]
    exact List.mem_cons_self

/-- The last cell before a segment ends is the one it began behind, or one of its own. -/
theorem Segment.last_mem (h : Segment next prev b p l c q) : c = b ∨ c ∈ l := by
  induction l generalizing b p with
  | nil => exact .inl h.1.symm
  | cons x l ih =>
    rcases ih h.2.2 with rfl | hc
    · exact .inr List.mem_cons_self
    · exact .inr (List.mem_cons_of_mem x hc)

/-- Where a segment starts: at its end, or at a cell of its own. -/
theorem Segment.start_mem (h : Segment next prev b p l c q) : p = q ∨ p ∈ l := by
  cases l with
  | nil => exact .inl h.2
  | cons x l =>
    rw [h.1]
    exact .inr List.mem_cons_self

/-- What stands on either side of a cell. -/
theorem Linked.around {u v : List ι} (h : Linked next prev null p (u ++ x :: v)) :
    Segment next prev null p u (prev x) x ∧ ∃ d, Segment next prev x (next x) v d null := by
  obtain ⟨d, hd⟩ := h.segment
  obtain ⟨c, q, hu, hq, hc, hv⟩ := segment_append.mp hd
  rw [hq, ← hc] at hu
  exact ⟨hu, d, hv⟩

theorem Linked.prev_mem (h : Linked next prev null p l) (hx : x ∈ l) :
    prev x = null ∨ prev x ∈ l := by
  obtain ⟨u, v, rfl⟩ := List.append_of_mem hx
  rcases h.around.1.last_mem with hc | hc
  · exact .inl hc
  · exact .inr (List.mem_append_left _ hc)

theorem Linked.next_mem (h : Linked next prev null p l) (hx : x ∈ l) :
    next x = null ∨ next x ∈ l := by
  obtain ⟨u, v, rfl⟩ := List.append_of_mem hx
  obtain ⟨-, d, hv⟩ := h.around
  rcases hv.start_mem with hq | hq
  · exact .inl hq
  · exact .inr (List.mem_append_right u (List.mem_cons_of_mem x hq))

variable [DecidableEq ι]

/-- The last pointer of a segment redirected: an empty segment has none and starts elsewhere. -/
theorem Segment.redirect (h : Segment next prev b p l c x) (hl : l.Nodup) (hx : x ∉ l) (q : ι) :
    Segment (Function.update next c q) prev b (if p = x then q else p) l c q := by
  induction l generalizing b p with
  | nil =>
    obtain ⟨rfl, rfl⟩ := h
    exact ⟨rfl, if_pos rfl⟩
  | cons y l ih =>
    obtain ⟨rfl, hb, htail⟩ := h
    obtain ⟨hpl, hnodup⟩ := List.nodup_cons.mp hl
    have hpx : p ≠ x := fun he => hx (he ▸ List.mem_cons_self)
    rw [if_neg hpx]
    refine ⟨rfl, hb, ?_⟩
    have hrest := ih htail hnodup fun hm => hx (List.mem_cons_of_mem p hm)
    -- `p` is the last cell exactly if nothing follows it
    have hpoint : Function.update next c q p = if next p = x then q else next p := by
      cases l with
      | nil =>
        obtain ⟨rfl, hnext⟩ := htail
        rw [Function.update_self, if_pos hnext]
      | cons z l =>
        have hcp : p ≠ c := by
          rintro rfl
          rcases htail.2.2.last_mem with hz | hz
          · exact hpl (hz ▸ List.mem_cons_self)
          · exact hpl (List.mem_cons_of_mem z hz)
        have hnx : next p ≠ x := by
          intro he
          exact hx (List.mem_cons_of_mem p (he ▸ htail.1 ▸ List.mem_cons_self))
        rw [Function.update_of_ne hcp, if_neg hnx]
    rw [hpoint]
    exact hrest

/-- The cell a segment starts at points back elsewhere; an empty one starts at its end. -/
theorem Segment.rebase (h : Segment next prev b p l c null) (hl : l.Nodup) (hn : null ∉ l) (e : ι) :
    ∃ d, Segment next (Function.update prev p e) e p l d null := by
  cases l with
  | nil => exact ⟨e, rfl, h.2⟩
  | cons x l =>
    obtain ⟨rfl, -, htail⟩ := h
    refine ⟨c, rfl, Function.update_self p e prev, ?_⟩
    apply htail.congr fun y _ => rfl
    intro y hy
    have hyp : y ≠ p := fun he => (List.nodup_cons.mp hl).1 (he ▸ hy)
    exact Function.update_of_ne hyp _ _

/-- A new cell in front. -/
theorem Linked.insert (h : Linked next prev null p l) (hx : x ∉ l) (hn : x ≠ null) :
    Linked (Function.update next x p) (Function.update (Function.update prev x null) p x) null x
      (x :: l) := by
  obtain ⟨c, hc⟩ := h.segment
  have hpx : x ≠ p := by
    rintro rfl
    rcases hc.start_mem with he | hm
    · exact hn he
    · exact hx hm
  have hold : Segment next (Function.update prev x null) null p l c null := by
    apply hc.congr fun y _ => rfl
    intro y hy
    have hyx : y ≠ x := fun he => hx (he ▸ hy)
    exact Function.update_of_ne hyx _ _
  obtain ⟨d, hd⟩ := hold.rebase h.nodup h.null_notMem x
  refine ⟨⟨d, rfl, ?_, ?_⟩, List.nodup_cons.mpr ⟨hx, h.nodup⟩, ?_⟩
  · rw [Function.update_of_ne hpx, Function.update_self]
  · rw [Function.update_self]
    apply hd.congr _ fun y _ => rfl
    intro y hy
    have hyx : y ≠ x := fun he => hx (he ▸ hy)
    exact Function.update_of_ne hyx _ _
  · intro hm
    rcases List.mem_cons.mp hm with he | hm
    · exact hn he.symm
    · exact h.null_notMem hm

/-- A cell taken out: its neighbours point at each other, and at the start of the list stands the
cell behind it if it stood there itself. -/
theorem Linked.remove (h : Linked next prev null p l) (hx : x ∈ l) :
    Linked (Function.update next (prev x) (next x)) (Function.update prev (next x) (prev x)) null
      (if p = x then next x else p) (l.erase x) := by
  obtain ⟨u, v, rfl⟩ := List.append_of_mem hx
  obtain ⟨hu, d, hv⟩ := h.around
  obtain ⟨hnu, hnv, huv⟩ := List.nodup_append.mp h.nodup
  obtain ⟨hxv, hnv⟩ := List.nodup_cons.mp hnv
  have hxu : x ∉ u := fun hm => huv x hm x List.mem_cons_self rfl
  have hnull : null ∉ u ∧ null ∉ v :=
    ⟨fun hm => h.null_notMem (List.mem_append_left _ hm),
      fun hm => h.null_notMem (List.mem_append_right u (List.mem_cons_of_mem x hm))⟩
  have herase : (u ++ x :: v).erase x = u ++ v := by
    rw [List.erase_append_right _ hxu, List.erase_cons_head]
  rw [herase]
  -- the cells before keep their back pointers, those behind their forward pointers
  have hback : ∀ y ∈ u, Function.update prev (next x) (prev x) y = prev y := by
    intro y hy
    have hne : y ≠ next x := by
      rintro rfl
      rcases hv.start_mem with he | hm
      · exact hnull.1 (he ▸ hy)
      · exact huv _ hy _ (List.mem_cons_of_mem x hm) rfl
    exact Function.update_of_ne hne _ _
  have hforth : ∀ y ∈ v, Function.update next (prev x) (next x) y = next y := by
    intro y hy
    have hne : y ≠ prev x := by
      rintro rfl
      rcases hu.last_mem with he | hm
      · exact hnull.2 (he ▸ hy)
      · exact huv _ hm _ (List.mem_cons_of_mem x hy) rfl
    exact Function.update_of_ne hne _ _
  have hfirst := (hu.redirect hnu hxu (next x)).congr (fun y _ => rfl) hback
  obtain ⟨e, he⟩ := hv.rebase hnv hnull.2 (prev x)
  refine ⟨⟨e, segment_append.mpr ⟨_, _, hfirst, he.congr hforth fun y _ => rfl⟩⟩, ?_, ?_⟩
  · refine List.nodup_append.mpr ⟨hnu, hnv, ?_⟩
    intro y hy z hz
    exact huv y hy z (List.mem_cons_of_mem x hz)
  · intro hm
    rcases List.mem_append.mp hm with hm | hm
    · exact hnull.1 hm
    · exact hnull.2 hm

end DoublyLinked
