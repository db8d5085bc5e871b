import Mathlib.Data.List.Basic
import Mathlib.Data.List.Induction

/-! Machines that read a stream item by item and emit, streams cut into blocks, and the machine that
collects a stream into hops of one length. -/
namespace Machine

variable {σ τ α β γ : Type*} {step : σ → α → σ × List β} {s : σ} {a : α} {as : List α}

/-- Where the machine ends, and all that it emits. -/
def run (step : σ → α → σ × List β) (s : σ) : List α → σ × List β
  | [] => (s, [])
  | a :: as =>
    let r := run step (step s a).1 as
    (r.1, (step s a).2 ++ r.2)

theorem run_append (as bs : List α) :
    run step s (as ++ bs) =
      ((run step (run step s as).1 bs).1,
        (run step s as).2 ++ (run step (run step s as).1 bs).2) := by
  induction as generalizing s with
  | nil => rfl
  | cons a as ih =>
    rw [List.cons_append, run, run, ih, List.append_assoc]

theorem run_concat (as : List α) (a : α) :
    run step s (as ++ [a]) =
      ((step (run step s as).1 a).1, (run step s as).2 ++ (step (run step s as).1 a).2) := by
  rw [run_append]
  simp only [run, List.append_nil]

/-- A machine that reads blocks item by item does not depend on the cut. -/
theorem run_run (blocks : List (List α)) :
    run (run step) s blocks = run step s blocks.flatten := by
  induction blocks generalizing s with
  | nil => rfl
  | cons block blocks ih => rw [run, ih, List.flatten_cons, run_append]

/-- A machine that reads its items through `f`. -/
theorem run_map (f : γ → α) (items : List γ) :
    run (fun s item => step s (f item)) s items = run step s (items.map f) := by
  induction items generalizing s with
  | nil => rfl
  | cons item items ih => rw [run, ih, List.map_cons, run]

/-- Blocks that each come with a parameter of the steps: the machine reads every item with that of
its block. -/
theorem run_blocks (step : γ → σ → α → σ × List β) (blocks : List (γ × List α)) :
    run (fun s block => run (step block.1) s block.2) s blocks =
      run (fun s item => step item.2 s item.1) s
        (blocks.flatMap fun block => block.2.map (·, block.1)) := by
  induction blocks generalizing s with
  | nil => rfl
  | cons block blocks ih =>
    have hblock : run (step block.1) s block.2 =
        run (fun s item => step item.2 s item.1) s (block.2.map (·, block.1)) :=
      @run_map _ _ _ _ (fun s item => step item.2 s item.1) s (·, block.1) block.2
    rw [run, ih, List.flatMap_cons, run_append, hblock]

/-- Two machines of which related states emit alike and step to related states. -/
theorem run_sim {step' : τ → α → τ × List β} {R : σ → τ → Prop} {t : τ}
    (h : ∀ s t a, R s t → R (step s a).1 (step' t a).1 ∧ (step s a).2 = (step' t a).2)
    (hs : R s t) (as : List α) : (run step s as).2 = (run step' t as).2 := by
  induction as generalizing s t with
  | nil => rfl
  | cons a as ih =>
    obtain ⟨hnext, hemits⟩ := h s t a hs
    rw [run, run, hemits, ih hnext]

/-- What the first machine emits is read by the second. -/
def pipe (first : σ → α → σ × List β) (second : τ → β → τ × List γ) (s : σ × τ) (a : α) :
    (σ × τ) × List γ :=
  (((first s.1 a).1, (run second s.2 (first s.1 a).2).1), (run second s.2 (first s.1 a).2).2)

theorem run_pipe (first : σ → α → σ × List β) (second : τ → β → τ × List γ) (s : σ) (t : τ)
    (as : List α) :
    (run (pipe first second) (s, t) as).2 = (run second t (run first s as).2).2 := by
  induction as generalizing s t with
  | nil => rfl
  | cons a as ih =>
    rw [run, run, run_append]
    exact congrArg (_ ++ ·) (ih _ _)

/-- Items up to a hop of `n`, which is emitted. -/
def collect (n : ℕ) (hop : List α) (a : α) : List α × List (List α) :=
  if hop.length + 1 = n then ([], [hop ++ [a]]) else (hop ++ [a], [])

/-- The whole hops of a stream. -/
def hops (n : ℕ) (as : List α) : List (List α) :=
  (List.range (as.length / n)).map fun k => (as.drop (k * n)).take n

theorem length_of_mem_hops {n : ℕ} {hop : List α} (h : hop ∈ hops n as) : hop.length = n := by
  obtain ⟨k, hk, rfl⟩ := List.mem_map.mp h
  have hle := Nat.mul_le_of_le_div n (k + 1) as.length (List.mem_range.mp hk)
  rw [Nat.succ_mul] at hle
  rw [List.length_take, List.length_drop]
  omega

/-- One more item either completes a hop or leaves the hops as they are. -/
theorem hops_concat {n : ℕ} (hn : 0 < n) (as : List α) (a : α) :
    let hop := as.drop (as.length / n * n)
    ((as ++ [a]).drop ((as ++ [a]).length / n * n), hops n (as ++ [a])) =
      ((collect n hop a).1, hops n as ++ (collect n hop a).2) := by
  intro hop
  have hfull := Nat.div_mul_le_self as.length n
  have hlen : hop.length = as.length % n := by
    rw [List.length_drop, ← Nat.mod_eq_sub_div_mul]
  have hdrop : ∀ k ≤ as.length / n, (as ++ [a]).drop (k * n) = as.drop (k * n) ++ [a] :=
    fun k hk => List.drop_append_of_le_length
      (Nat.le_trans (Nat.mul_le_mul_right n hk) hfull)
  have hhops : (List.range (as.length / n)).map (fun k => ((as ++ [a]).drop (k * n)).take n) =
      hops n as := List.map_congr_left fun k hk => by
    have hle := Nat.mul_le_of_le_div n (k + 1) as.length (List.mem_range.mp hk)
    rw [Nat.succ_mul] at hle
    rw [hdrop k (Nat.le_of_lt (List.mem_range.mp hk))]
    exact List.take_append_of_le_length (by rw [List.length_drop]; omega)
  have hmod := Nat.div_add_mod' as.length n
  unfold collect
  by_cases hend : hop.length + 1 = n
  · have hdiv : (as ++ [a]).length / n = as.length / n + 1 := by
      rw [List.length_append, List.length_singleton,
        show as.length + 1 = (as.length / n + 1) * n by rw [Nat.succ_mul]; omega]
      exact Nat.mul_div_cancel _ hn
    rw [if_pos hend, hops, hdiv, List.range_succ, List.map_append, hhops, List.map_singleton,
      hdrop _ (Nat.le_refl _)]
    refine Prod.ext (List.drop_eq_nil_of_le ?_) ?_
    · rw [List.length_append, List.length_singleton, Nat.succ_mul]
      omega
    · exact congrArg (fun last => hops n as ++ [last])
        (List.take_of_length_le (by
          rw [List.length_append, List.length_singleton]
          exact Nat.le_of_eq hend))
  · have hlt := Nat.mod_lt as.length hn
    have hdiv : (as ++ [a]).length / n = as.length / n := by
      rw [List.length_append, List.length_singleton, Nat.div_eq_iff hn]
      omega
    rw [if_neg hend, hops, hdiv, hhops, hdrop _ (Nat.le_refl _), List.append_nil]

theorem length_hops (n : ℕ) (as : List α) : (hops n as).length = as.length / n := by
  rw [hops, List.length_map, List.length_range]

theorem getElem?_hops {n k : ℕ} (hk : k < as.length / n) :
    (hops n as)[k]? = some ((as.drop (k * n)).take n) := by
  rw [hops, List.getElem?_map, List.getElem?_range hk]
  rfl

theorem map_hops (f : α → β) (n : ℕ) (as : List α) :
    (hops n as).map (List.map f) = hops n (as.map f) := by
  rw [hops, hops, List.map_map, List.length_map]
  refine List.map_congr_left fun k _ => ?_
  rw [Function.comp_apply, List.map_take, List.map_drop]

theorem run_collect {n : ℕ} (hn : 0 < n) (as : List α) :
    run (collect n) [] as = (as.drop (as.length / n * n), hops n as) := by
  induction as using List.reverseRecOn with
  | nil => simp [run, hops]
  | append_singleton as a ih =>
    rw [run_concat, ih]
    exact (hops_concat hn as a).symm

end Machine
