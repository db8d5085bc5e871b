import Mathlib.Data.List.Basic
import Mathlib.Logic.Basic
import Mathlib.Order.Basic

/-! Finite runs of a labelled step relation, what holds along them, and their histories. -/
namespace Transition

variable {σ α : Type*} {step : σ → α → σ → Prop} {s t u : σ} {a : α} {as bs : List α}

/-- A finite run: its start, the labels in the order taken, its end. -/
inductive Run (step : σ → α → σ → Prop) : σ → List α → σ → Prop
  | refl {s : σ} : Run step s [] s
  | stepL {s t u : σ} {a : α} {as : List α} :
      step s a t → Run step t as u → Run step s (a :: as) u

theorem Run.append (h : Run step s as t) (ht : Run step t bs u) : Run step s (as ++ bs) u := by
  induction h with
  | refl => exact ht
  | stepL hs _ ih => exact .stepL hs (ih ht)

/-- A run splits where its labels do. -/
theorem Run.of_append (h : Run step s (as ++ bs) u) : ∃ t, Run step s as t ∧ Run step t bs u := by
  induction as generalizing s with
  | nil => exact ⟨s, .refl, h⟩
  | cons a as ih =>
    cases h with
    | stepL hs hrun =>
      obtain ⟨t, hrun, hrun'⟩ := ih hrun
      exact ⟨t, .stepL hs hrun, hrun'⟩

theorem Run.single (h : step s a t) : Run step s [a] t := .stepL h .refl

theorem Run.mono {step' : σ → α → σ → Prop} (h : ∀ s a t, step s a t → step' s a t)
    (hrun : Run step s as t) : Run step' s as t := by
  induction hrun with
  | refl => exact .refl
  | stepL hs _ ih => exact .stepL (h _ _ _ hs) ih

/-- What every step preserves, every run preserves. -/
theorem Run.invariant {I : σ → Prop} (hI : ∀ s a t, step s a t → I s → I t)
    (h : Run step s as t) (hs : I s) : I t := by
  induction h with
  | refl => exact hs
  | stepL hstep _ ih => exact ih (hI _ _ _ hstep hs)

/-- The steps taken from states in which `cond` allows the label. -/
def restrict (cond : σ → α → Prop) (step : σ → α → σ → Prop) (s : σ) (a : α) (t : σ) : Prop :=
  cond s a ∧ step s a t

theorem Run.of_restrict {cond : σ → α → Prop} (h : Run (restrict cond step) s as t) :
    Run step s as t := by
  induction h with
  | refl => exact .refl
  | stepL hs _ ih => exact .stepL hs.2 ih

/-- What every step allowed preserves, every run of such steps preserves. -/
theorem Run.invariant_restrict {cond : σ → α → Prop} {I : σ → Prop}
    (hI : ∀ {s a t}, I s → cond s a → step s a t → I t)
    (h : Run (restrict cond step) s as t) (hs : I s) : I t :=
  h.invariant (fun _ _ _ hstep hs => hI hs hstep.1 hstep.2) hs

/-- `P` holds at every step of the run that `exec` makes of the labels `as` from `s`. -/
def Always (exec : σ → α → σ) (P : σ → α → Prop) : σ → List α → Prop
  | _, [] => True
  | s, a :: as => P s a ∧ Always exec P (exec s a) as

variable {exec : σ → α → σ} {P Q R : σ → α → Prop} {I : σ → Prop}

/-- Two conditions that agree in every state of an invariant agree along every run in it. The
invariant need only survive the steps at which `P` holds, as either side supplies `P` there. -/
theorem always_congr (hPQ : ∀ s a, I s → R s a → (P s a ↔ Q s a))
    (hI : ∀ s a, I s → R s a → P s a → I (exec s a)) (hs : I s) (hR : Always exec R s as) :
    Always exec P s as ↔ Always exec Q s as := by
  induction as generalizing s with
  | nil => exact Iff.rfl
  | cons a as ih =>
    have hiff := hPQ s a hs hR.1
    constructor
    · rintro ⟨hp, htail⟩
      exact ⟨hiff.mp hp, (ih (hI s a hs hR.1 hp) hR.2).mp htail⟩
    · rintro ⟨hq, htail⟩
      have hp := hiff.mpr hq
      exact ⟨hp, (ih (hI s a hs hR.1 hp) hR.2).mpr htail⟩

/-- Two executions in a relation agree along a run on conditions that agree in it. The relation need
only survive the steps at which `P` holds. -/
theorem always_bisim {τ : Type*} {exec' : τ → α → τ} {P' : τ → α → Prop} {R : σ → τ → Prop}
    {t : τ} (hP : ∀ s t a, R s t → (P s a ↔ P' t a))
    (hR : ∀ s t a, R s t → P s a → R (exec s a) (exec' t a)) (h : R s t) :
    Always exec P s as ↔ Always exec' P' t as := by
  induction as generalizing s t with
  | nil => exact Iff.rfl
  | cons a as ih =>
    have hiff := hP s t a h
    constructor
    · rintro ⟨hp, htail⟩
      exact ⟨hiff.mp hp, (ih (hR s t a h hp)).mp htail⟩
    · rintro ⟨hp, htail⟩
      have hp' := hiff.mpr hp
      exact ⟨hp', (ih (hR s t a h hp')).mpr htail⟩

/-- An execution that reads its labels through `f`. -/
theorem always_map {β : Type*} {exec' : σ → β → σ} {P' : σ → β → Prop} {bs : List β} (f : β → α)
    (he : ∀ s b, exec' s b = exec s (f b)) (hP : ∀ s b, P' s b ↔ P s (f b)) :
    Always exec' P' s bs ↔ Always exec P s (bs.map f) := by
  induction bs generalizing s with
  | nil => exact Iff.rfl
  | cons b bs ih =>
    have htail := @ih (exec' s b)
    rw [he] at htail
    simp only [Always, List.map_cons, hP, he, htail]

theorem always_append :
    Always exec P s (as ++ bs) ↔ Always exec P s as ∧ Always exec P (as.foldl exec s) bs := by
  induction as generalizing s with
  | nil => exact (and_iff_right trivial).symm
  | cons a as ih =>
    rw [List.cons_append, List.foldl_cons]
    exact (and_congr_right fun _ => ih).trans and_assoc.symm

/-- A condition on the labels alone. -/
theorem always_of_forall {cond : α → Prop} (h : ∀ a ∈ as, cond a) :
    Always exec (fun _ a => cond a) s as := by
  induction as generalizing s with
  | nil => trivial
  | cons a as ih => exact ⟨h a List.mem_cons_self, ih fun b hb => h b (List.mem_cons_of_mem a hb)⟩

theorem always_mono (h : ∀ s a, P s a → Q s a) (hs : Always exec P s as) : Always exec Q s as := by
  induction as generalizing s with
  | nil => trivial
  | cons a as ih => exact ⟨h s a hs.1, ih hs.2⟩

/-- What holds at each step out of an invariant kept by the steps allowed holds along the run. -/
theorem always_of_invariant (hP : ∀ s a, I s → R s a → P s a)
    (hI : ∀ s a, I s → R s a → I (exec s a)) (hs : I s) (hR : Always exec R s as) :
    Always exec P s as := by
  induction as generalizing s with
  | nil => trivial
  | cons a as ih => exact ⟨hP s a hs hR.1, ih (hI s a hs hR.1) hR.2⟩

/-! Histories, the newest happening last. -/

variable {η : Type*} {P : List η → Prop} {x y : η} {h : List η}

/-- `x` has happened, after a history of which `P` holds. -/
def After (P : List η → Prop) (x : η) (h : List η) : Prop :=
  ∃ before later, h = before ++ x :: later ∧ P before

theorem not_after_nil : ¬ After P x [] := by
  rintro ⟨before, later, heq, -⟩
  cases before <;> cases heq

/-- What happens next is after the whole history. -/
theorem after_concat : After P x (h ++ [y]) ↔ After P x h ∨ y = x ∧ P h := by
  constructor
  · rintro ⟨before, later, heq, hP⟩
    rcases List.eq_nil_or_concat later with rfl | ⟨later, z, rfl⟩
    · obtain ⟨rfl, hx⟩ := List.append_inj' heq rfl
      exact .inr ⟨List.head_eq_of_cons_eq hx, hP⟩
    · rw [List.concat_eq_append, ← List.cons_append, ← List.append_assoc] at heq
      exact .inl ⟨before, later, (List.append_inj' heq rfl).1, hP⟩
  · rintro (⟨before, later, rfl, hP⟩ | ⟨rfl, hP⟩)
    · exact ⟨before, later ++ [y], by rw [List.append_assoc, List.cons_append], hP⟩
    · exact ⟨h, [], rfl, hP⟩

theorem after_concat_of_ne (hne : y ≠ x) : After P x (h ++ [y]) ↔ After P x h := by
  rw [after_concat]
  exact ⟨fun hor => hor.resolve_right fun hy => hne hy.1, .inl⟩

end Transition
