import Mathlib.Data.List.Basic
import Mathlib.Data.List.Chain

/-! Rows of cells side by side, each used or free: neighbouring free cells are joined into one. -/
namespace Cells

structure Cell where
  size : ℕ
  free : Bool
  deriving DecidableEq

variable {o a x y : ℕ} {p : Bool} {c d : Cell} {cs ds u v : List Cell}

/-- What a row takes: each cell its size and `o` beside it. -/
def span (o : ℕ) : List Cell → ℕ
  | [] => 0
  | c :: cs => o + c.size + span o cs

/-- The cells with the places they start at, the first one at `a`. -/
def placed (o : ℕ) : ℕ → List Cell → List (ℕ × Cell)
  | _, [] => []
  | a, c :: cs => (a, c) :: placed o (a + o + c.size) cs

/-- Whether the last cell is free, and `p` of an empty row. -/
def lastFree : Bool → List Cell → Bool
  | p, [] => p
  | _, c :: cs => lastFree c.free cs

/-- No two neighbours are free. -/
def Settled (cs : List Cell) : Prop := cs.IsChain fun c d => ¬ (c.free = true ∧ d.free = true)

/-- A cell put before a row, and joined with the first cell of it if both are free. -/
def push (o : ℕ) (c : Cell) : List Cell → List Cell
  | [] => [c]
  | d :: ds => if c.free && d.free then ⟨c.size + o + d.size, true⟩ :: ds else c :: d :: ds

/-- All neighbouring free cells joined. -/
def settle (o : ℕ) : List Cell → List Cell
  | [] => []
  | c :: cs => push o c (settle o cs)

/-- The used cells and their places. -/
def used (o a : ℕ) (cs : List Cell) : List (ℕ × Cell) :=
  (placed o a cs).filter fun e => !e.2.free

@[simp] theorem span_nil : span o [] = 0 := rfl

@[simp] theorem span_cons : span o (c :: cs) = o + c.size + span o cs := rfl

@[simp] theorem span_append : span o (cs ++ ds) = span o cs + span o ds := by
  induction cs with
  | nil => simp
  | cons c cs ih =>
    simp only [List.cons_append, span_cons, ih]
    omega

@[simp] theorem placed_nil : placed o a [] = [] := rfl

@[simp] theorem placed_cons :
    placed o a (c :: cs) = (a, c) :: placed o (a + o + c.size) cs := rfl

@[simp] theorem placed_append :
    placed o a (cs ++ ds) = placed o a cs ++ placed o (a + span o cs) ds := by
  induction cs generalizing a with
  | nil => simp
  | cons c cs ih =>
    have hplace : a + (o + c.size + span o cs) = a + o + c.size + span o cs := by omega
    simp only [List.cons_append, placed_cons, span_cons, ih, hplace]

@[simp] theorem lastFree_append : lastFree p (cs ++ ds) = lastFree (lastFree p cs) ds := by
  induction cs generalizing p with
  | nil => rfl
  | cons c cs ih => exact ih

@[simp] theorem lastFree_concat : lastFree p (cs ++ [c]) = c.free := by
  rw [lastFree_append]
  rfl

/-- A placed cell has a row before it and one behind it. -/
theorem mem_placed_iff :
    (x, c) ∈ placed o a cs ↔ ∃ u v, cs = u ++ c :: v ∧ x = a + span o u := by
  constructor
  · intro h
    induction cs generalizing a with
    | nil => cases h
    | cons d ds ih =>
      rcases List.mem_cons.mp h with he | h
      · cases he
        exact ⟨[], ds, rfl, rfl⟩
      · obtain ⟨u, v, rfl, rfl⟩ := ih h
        refine ⟨d :: u, v, rfl, ?_⟩
        rw [span_cons]
        omega
  · rintro ⟨u, v, rfl, rfl⟩
    simp

theorem mem_of_placed (h : (x, c) ∈ placed o a cs) : c ∈ cs := by
  obtain ⟨u, v, rfl, -⟩ := mem_placed_iff.mp h
  exact List.mem_append_right u List.mem_cons_self

theorem placed_bounds (h : (x, c) ∈ placed o a cs) :
    a ≤ x ∧ x + o + c.size ≤ a + span o cs := by
  obtain ⟨u, v, rfl, rfl⟩ := mem_placed_iff.mp h
  rw [span_append, span_cons]
  omega

/-- Two placed cells are the same one, or one ends before the other begins. -/
theorem placed_apart (hc : (x, c) ∈ placed o a cs) (hd : (y, d) ∈ placed o a cs) :
    (x = y ∧ c = d) ∨ x + o + c.size ≤ y ∨ y + o + d.size ≤ x := by
  induction cs generalizing a with
  | nil => cases hc
  | cons e es ih =>
    rw [placed_cons] at hc hd
    rcases List.mem_cons.mp hc with hx | hc
    · cases hx
      rcases List.mem_cons.mp hd with hy | hd
      · cases hy
        exact .inl ⟨rfl, rfl⟩
      · exact .inr (.inl (placed_bounds hd).1)
    · rcases List.mem_cons.mp hd with hy | hd
      · cases hy
        exact .inr (.inr (placed_bounds hc).1)
      · exact ih hc hd

/-- Each placed cell ends before the next ones begin. -/
theorem placed_sorted :
    (placed o a cs).Pairwise fun e f => e.1 + o + e.2.size ≤ f.1 := by
  induction cs generalizing a with
  | nil => exact .nil
  | cons c cs ih =>
    rw [placed_cons]
    exact .cons (fun e he => (placed_bounds (c := e.2) he).1) ih

theorem mem_used_iff : (x, c) ∈ used o a cs ↔ (x, c) ∈ placed o a cs ∧ c.free = false := by
  simp [used]

@[simp] theorem used_nil : used o a [] = [] := rfl

@[simp] theorem used_append :
    used o a (cs ++ ds) = used o a cs ++ used o (a + span o cs) ds := by
  simp [used]

theorem used_cons_free (hc : c.free = true) :
    used o a (c :: cs) = used o (a + o + c.size) cs := by
  simp [used, hc]

theorem used_cons_used (hc : c.free = false) :
    used o a (c :: cs) = (a, c) :: used o (a + o + c.size) cs := by
  simp [used, hc]

theorem used_length : (used o a cs).length = cs.countP (!·.free) := by
  induction cs generalizing a with
  | nil => rfl
  | cons c cs ih =>
    cases hc : c.free with
    | true => simp [used_cons_free hc, ih, hc]
    | false => simp [used_cons_used hc, ih, hc]

/-! Joining neighbours. -/

theorem push_join (hc : c.free = true) (hd : d.free = true) :
    push o c (d :: ds) = ⟨c.size + o + d.size, true⟩ :: ds := by
  simp [push, hc, hd]

theorem push_apart (h : ¬ (c.free = true ∧ d.free = true)) : push o c (d :: ds) = c :: d :: ds := by
  rw [← Bool.and_eq_true_iff] at h
  exact if_neg h

theorem push_span : span o (push o c cs) = span o (c :: cs) := by
  cases cs with
  | nil => rfl
  | cons d ds =>
    by_cases h : c.free = true ∧ d.free = true
    · rw [push_join h.1 h.2]
      simp only [span_cons]
      omega
    · rw [push_apart h]

theorem settle_span : span o (settle o cs) = span o cs := by
  induction cs with
  | nil => rfl
  | cons c cs ih => rw [settle, push_span, span_cons, span_cons, ih]

theorem Settled.tail (h : Settled (c :: cs)) : Settled cs := List.IsChain.tail h

theorem settled_cons_cons :
    Settled (c :: d :: ds) ↔ ¬ (c.free = true ∧ d.free = true) ∧ Settled (d :: ds) :=
  List.isChain_cons_cons

theorem Settled.cons (h : Settled cs) (hc : c.free = false) : Settled (c :: cs) := by
  cases cs with
  | nil => exact List.isChain_singleton c
  | cons d ds =>
    refine settled_cons_cons.mpr ⟨?_, h⟩
    rintro ⟨ht, -⟩
    rw [hc] at ht
    cases ht

/-- What two settled rows need to be joined by a cell of any kind. -/
theorem settled_around (hu : Settled u) (hlast : ∀ c ∈ u.getLast?, c.free = false) (hv : Settled v)
    (hhead : ∀ c ∈ v.head?, c.free = false) : Settled (u ++ c :: v) := by
  refine List.isChain_append.mpr ⟨hu, ?_, ?_⟩
  · cases v with
    | nil => exact List.isChain_singleton c
    | cons d v =>
      refine settled_cons_cons.mpr ⟨?_, hv⟩
      rintro ⟨-, hd⟩
      rw [hhead d rfl] at hd
      cases hd
  · rintro d hd - - ⟨hfree, -⟩
    rw [hlast d hd] at hfree
    cases hfree

theorem settled_append_used (hu : Settled u) (hv : Settled v) (hc : c.free = false) :
    Settled (u ++ c :: v) := by
  refine List.isChain_append.mpr ⟨hu, hv.cons hc, ?_⟩
  rintro d - e he ⟨-, hfree⟩
  have hce : c = e := by simpa using he
  rw [← hce, hc] at hfree
  cases hfree

theorem Settled.left (h : Settled (u ++ v)) : Settled u := (List.isChain_append.mp h).1

theorem Settled.right (h : Settled (u ++ v)) : Settled v := (List.isChain_append.mp h).2.1

/-- The row before a free cell ends in a used one. -/
theorem Settled.before_free (h : Settled (u ++ c :: v)) (hc : c.free = true) :
    ∀ d ∈ u.getLast?, d.free = false := by
  intro d hd
  have hnot := (List.isChain_append.mp h).2.2 d hd c rfl
  cases hf : d.free with
  | false => rfl
  | true => exact (hnot ⟨hf, hc⟩).elim

/-- The row behind a free cell begins with a used one. -/
theorem Settled.behind_free (h : Settled (u ++ c :: v)) (hc : c.free = true) :
    ∀ d ∈ v.head?, d.free = false := by
  intro d hd
  cases v with
  | nil => cases hd
  | cons e v =>
    have he : e = d := by simpa using hd
    subst he
    cases hf : e.free with
    | false => rfl
    | true => exact ((settled_cons_cons.mp h.right).1 ⟨hc, hf⟩).elim

theorem push_settled (h : Settled cs) : Settled (push o c cs) := by
  cases cs with
  | nil => exact List.isChain_singleton c
  | cons d ds =>
    by_cases hboth : c.free = true ∧ d.free = true
    · rw [push_join hboth.1 hboth.2]
      -- the joined cell is followed by what followed a free one
      cases ds with
      | nil => exact List.isChain_singleton _
      | cons e es =>
        obtain ⟨hde, hes⟩ := settled_cons_cons.mp h
        exact settled_cons_cons.mpr ⟨fun hor => hde ⟨hboth.2, hor.2⟩, hes⟩
    · rw [push_apart hboth]
      exact settled_cons_cons.mpr ⟨hboth, h⟩

theorem settle_settled : Settled (settle o cs) := by
  induction cs with
  | nil => exact List.isChain_nil
  | cons c cs ih => exact push_settled ih

/-- A settled row is its own settling. -/
theorem Settled.settle_eq (h : Settled cs) : settle o cs = cs := by
  induction cs with
  | nil => rfl
  | cons c cs ih =>
    rw [settle, ih h.tail]
    cases cs with
    | nil => rfl
    | cons d ds => exact push_apart (settled_cons_cons.mp h).1

/-- Two free neighbours joined by hand settle as before. -/
theorem settle_join (hc : c.free = true) (hd : d.free = true) :
    settle o (u ++ c :: d :: v) = settle o (u ++ ⟨c.size + o + d.size, true⟩ :: v) := by
  induction u with
  | nil =>
    simp only [List.nil_append, settle]
    cases settle o v with
    | nil => simp [push, hc, hd]
    | cons e es =>
      cases he : e.free with
      | true =>
        have hsum : c.size + o + (d.size + o + e.size) = c.size + o + d.size + o + e.size := by
          omega
        simp [push, hc, hd, he, hsum]
      | false => simp [push, hc, hd, he]
  | cons e u ih => simp only [List.cons_append, settle, ih]

theorem used_push : used o a (push o c cs) = used o a (c :: cs) := by
  cases cs with
  | nil => rfl
  | cons d ds =>
    by_cases hboth : c.free = true ∧ d.free = true
    · have hplace : a + o + (c.size + o + d.size) = a + o + c.size + o + d.size := by omega
      rw [push_join hboth.1 hboth.2, used_cons_free rfl, used_cons_free hboth.1,
        used_cons_free hboth.2, hplace]
    · rw [push_apart hboth]

/-- Settling moves no used cell. -/
theorem used_settle : used o a (settle o cs) = used o a cs := by
  induction cs generalizing a with
  | nil => rfl
  | cons c cs ih =>
    rw [settle, used_push]
    cases hc : c.free with
    | true => rw [used_cons_free hc, used_cons_free hc, ih]
    | false => rw [used_cons_used hc, used_cons_used hc, ih]

/-- A settled row without used cells is a single free one. -/
theorem Settled.eq_singleton (h : Settled cs) (hused : used o a cs = []) (hne : cs ≠ []) :
    cs = [⟨span o cs - o, true⟩] := by
  have hfree : ∀ c ∈ cs, c.free = true := by
    intro c hc
    obtain ⟨u, v, rfl⟩ := List.append_of_mem hc
    cases hf : c.free with
    | true => rfl
    | false =>
      rw [used_append, used_cons_used hf] at hused
      simp at hused
  cases cs with
  | nil => exact (hne rfl).elim
  | cons c cs =>
    cases cs with
    | nil =>
      obtain ⟨n, f⟩ := c
      have hf : f = true := hfree ⟨n, f⟩ List.mem_cons_self
      subst hf
      simp
    | cons d ds =>
      have hd := hfree d (List.mem_cons_of_mem c List.mem_cons_self)
      exact ((settled_cons_cons.mp h).1 ⟨hfree c List.mem_cons_self, hd⟩).elim

/-! How much is free between the used cells. -/

/-- Free cells are separated by used ones. -/
theorem Settled.countP_free (h : Settled cs) :
    cs.countP (·.free) ≤ cs.countP (!·.free) + 1 ∧
      ((∀ c ∈ cs.head?, c.free = false) → cs.countP (·.free) ≤ cs.countP (!·.free)) := by
  induction cs with
  | nil => simp
  | cons c cs ih =>
    obtain ⟨hle, hhead⟩ := ih h.tail
    cases hc : c.free with
    | true =>
      have hnext : ∀ d ∈ cs.head?, d.free = false := by
        intro d hd
        cases cs with
        | nil => cases hd
        | cons e es =>
          have hde : e = d := by simpa using hd
          subst hde
          cases he : e.free with
          | true => exact ((settled_cons_cons.mp h).1 ⟨hc, he⟩).elim
          | false => rfl
      have hcount := hhead hnext
      simp [hc]
      omega
    | false =>
      simp [hc]
      omega

/-- A row takes no more than its used and its free cells can. -/
theorem span_le {m r : ℕ} (hm : ∀ c ∈ cs, c.free = false → c.size ≤ m)
    (hr : ∀ c ∈ cs, c.free = true → c.size ≤ r) :
    span o cs ≤ cs.countP (!·.free) * (o + m) + cs.countP (·.free) * (o + r) := by
  induction cs with
  | nil => simp
  | cons c cs ih =>
    have hrest := ih (fun d hd => hm d (List.mem_cons_of_mem c hd))
      fun d hd => hr d (List.mem_cons_of_mem c hd)
    rw [span_cons]
    cases hc : c.free with
    | true =>
      have hsize := hr c List.mem_cons_self hc
      simp only [List.countP_cons, hc, Bool.not_true, Bool.false_eq_true, if_false, if_true,
        Nat.add_zero, Nat.add_mul, Nat.one_mul]
      omega
    | false =>
      have hsize := hm c List.mem_cons_self hc
      simp only [List.countP_cons, hc, Bool.not_false, Bool.false_eq_true, if_false, if_true,
        Nat.add_zero, Nat.add_mul, Nat.one_mul]
      omega

theorem le_span {m : ℕ} (hm : ∀ c ∈ cs, c.free = false → m ≤ c.size) :
    cs.countP (!·.free) * (o + m) ≤ span o cs := by
  induction cs with
  | nil => simp
  | cons c cs ih =>
    have hrest := ih fun d hd => hm d (List.mem_cons_of_mem c hd)
    rw [span_cons]
    cases hc : c.free with
    | true =>
      simp only [List.countP_cons, hc, Bool.not_true, Bool.false_eq_true, if_false, Nat.add_zero]
      omega
    | false =>
      have hsize := hm c List.mem_cons_self hc
      simp only [List.countP_cons, hc, Bool.not_false, if_true, Nat.add_mul, Nat.one_mul]
      omega

/-- In a settled row of small free cells, what is taken bounds the number of used cells from
below. -/
theorem Settled.span_le {m r : ℕ} (h : Settled cs) (hm : ∀ c ∈ cs, c.free = false → c.size ≤ m)
    (hr : ∀ c ∈ cs, c.free = true → c.size ≤ r) :
    span o cs ≤ cs.countP (!·.free) * (o + m) + (cs.countP (!·.free) + 1) * (o + r) := by
  have hspan := Cells.span_le (o := o) hm hr
  have hcount := Nat.mul_le_mul_right (o + r) h.countP_free.1
  omega

end Cells
