import Mathlib.Logic.Relation
import Mathlib.Order.WellFounded
import Mathlib.Algebra.Order.BigOperators.Group.List
import Mathlib.Algebra.Order.Ring.Nat

/-! Directed graphs in which every forward path ends, and edges that keep them so. -/
namespace Digraph

open Relation

variable {α : Type*} {r r' : α → α → Prop} {a : α}

/-- No path goes forward forever. -/
def Terminating (r : α → α → Prop) : Prop := WellFounded (flip r)

theorem Terminating.acyclic (h : Terminating r) (a : α) : ¬ TransGen r a a := by
  intro hc
  exact (WellFounded.transGen h).irrefl.irrefl a (transGen_swap.mpr hc)

theorem Terminating.no_infinite_path (h : Terminating r) :
    ¬ ∃ path : ℕ → α, ∀ n, r (path n) (path (n + 1)) := by
  rintro ⟨path, hpath⟩
  exact (wellFounded_iff_isEmpty_descending_chain.mp h).false ⟨path, hpath⟩

/-- Each path from `a` has fewer than `n` edges. -/
def Within (r : α → α → Prop) (n : ℕ) (a : α) : Prop :=
  ∀ path : List α, List.IsChain r (a :: path) → path.length < n

theorem not_within_zero : ¬ Within r 0 a := by
  intro h
  exact Nat.not_lt_zero _ (h [] (.singleton a))

theorem within_succ_iff {n : ℕ} : Within r (n + 1) a ↔ ∀ b, r a b → Within r n b := by
  constructor
  · intro h b hab path hpath
    exact Nat.lt_of_succ_lt_succ (h (b :: path) (List.isChain_cons_cons.mpr ⟨hab, hpath⟩))
  · intro h path hpath
    cases path with
    | nil => exact Nat.succ_pos n
    | cons b path =>
      obtain ⟨hab, hpath⟩ := List.isChain_cons_cons.mp hpath
      exact Nat.succ_lt_succ (h b hab path hpath)

/-- A path that leads to `a` is there still when only edges out of `a` have changed. -/
theorem reaches_of_agree {b : α} (h : ReflTransGen r b a) (hr : ∀ x y, x ≠ a → r x y → r' x y) :
    ReflTransGen r' b a := by
  classical
  induction h using ReflTransGen.head_induction_on with
  | refl => exact .refl
  | @head x y hxy _ ih =>
    by_cases hx : x = a
    · rw [hx]
    · exact .head (hr x y hx hxy) ih

/-- Every edge of `r'` is one of `r` or leaves `a`. -/
def EdgesFrom (r r' : α → α → Prop) (a : α) : Prop := ∀ x y, r' x y → r x y ∨ x = a

/-- Edges out of `a` to where `a` cannot be reached from leave no path infinite. -/
theorem Terminating.of_edgesFrom (h : Terminating r) (hr : EdgesFrom r r' a)
    (hn : ∀ y, r' a y → ¬ r a y → ¬ ReflTransGen r y a) : Terminating r' := by
  -- where `a` is out of reach nothing has changed
  have hout : ∀ x, ¬ ReflTransGen r x a → Acc (flip r') x := by
    intro x
    induction x using h.induction with
    | h x ih =>
      intro hx
      refine Acc.intro x fun y hxy => ?_
      rcases hr x y hxy with hold | rfl
      · exact ih y hold (fun hy => hx (.head hold hy))
      · exact absurd .refl hx
  refine ⟨fun x => ?_⟩
  induction x using h.induction with
  | h x ih =>
    refine Acc.intro x fun y hxy => ?_
    by_cases hold : r x y
    · exact ih y hold
    · obtain rfl := (hr x y hxy).resolve_left hold
      exact hout y (hn y hxy hold)

/-- Where each node has finitely many successors, a number bounds its paths. -/
theorem Terminating.exists_rank (h : Terminating r) (succ : α → List α)
    (hs : ∀ x y, r x y → y ∈ succ x) : ∃ rank : α → ℕ, ∀ x y, r x y → rank y < rank x := by
  classical
  let rank : α → ℕ := h.fix fun x ih =>
    ((succ x).map fun y => if hy : r x y then ih y hy + 1 else 0).sum
  refine ⟨rank, fun x y hxy => ?_⟩
  have hx : rank x = ((succ x).map fun y => if r x y then rank y + 1 else 0).sum := by
    simp only [rank]
    rw [h.fix_eq]
    simp only [dite_eq_ite]
  rw [hx]
  have hle := List.single_le_sum (l := (succ x).map fun y => if r x y then rank y + 1 else 0)
    (fun _ _ => Nat.zero_le _) (rank y + 1) (List.mem_map.mpr ⟨y, hs x y hxy, if_pos hxy⟩)
  omega

end Digraph
