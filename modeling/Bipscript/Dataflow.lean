import Bipscript.Library.Run
import Bipscript.ContentsRuns
import Bipscript.OrderFree

/-! A period of the engine solves the equations of its graph: each processor's `doProcess`, on what
its sources end the period with. -/
namespace Bipscript.Contents

open Audio Transition

variable {P S : Type} [DecidableEq P]

/-- What the processors end a period with, said without an order: those reached hold what their own
`doProcess` makes of what all of them hold, the others what they held. -/
structure Solves (C : Cycle P S) (s : Memory P S) (reached : P → Prop) (σ : P → Processor P S) :
    Prop where
  flow : ∀ p, reached p → σ p = Setting.flow ⟨C, s, reached, σ⟩ p (s.processors p)
  rest : ∀ p, ¬ reached p → σ p = s.processors p

section Period

variable {C : Cycle P S} {s : Memory P S} {rank : P → ℕ} {depth : ℕ}
  {deletedProcessors activeProcessors : List P}

/-- There is a solution: what each processor reached leaves when it is processed alone. -/
theorem exists_solves (u : Unspecified P) {reached : P → Prop}
    (h : ∀ σ, (⟨C, s, reached, σ⟩ : Setting P S).Sound rank) : ∃ σ, Solves C s reached σ := by
  classical
  obtain ⟨σ, hσ⟩ : ∃ σ : P → Processor P S,
      σ = fun p => if reached p then Setting.solve C s u rank p else s.processors p := ⟨_, rfl⟩
  have hsolve : ∀ p, reached p → (⟨C, s, reached, σ⟩ : Setting P S).CallsEnd rank p →
      σ p = Setting.flow ⟨C, s, reached, σ⟩ p (s.processors p) := by
    intro p hp hcalls
    have halone : σ p = Setting.solve C s u rank p := by
      rw [hσ]
      exact if_pos hp
    exact Setting.solve_eq (h σ) halone hp hcalls
  refine ⟨σ, fun p hp => hsolve p hp fun u depth hle q hq known => ?_, fun p hp => ?_⟩
  · have hlt := (h σ).rank_lt p q hq
    exact Setting.process_ends_of (h σ) hsolve u ((h σ).reached p q hp hq) (hlt.trans_le hle) known
  · rw [hσ]
    exact if_neg hp

/-- The recursive calls, with the guard on `processedUntil`, find the one solution there is. -/
theorem period_solves (hacyclic : ∀ p q, s.graph.Calls p q → rank q < rank p)
    (hdepth : ∀ p, rank p < depth) (hdefined : ∀ p, (s.graph p).pulls ≠ none)
    (hdue : ∀ p, s.processedUntil p < C.time) (hclean : ∀ p, Clean C s (s.processors p))
    (u : Unspecified P) :
    ∃ t, period C u depth deletedProcessors activeProcessors s = some (⟨⟩, t) ∧
      Solves C s (Reached s (activeProcessors.diff deletedProcessors)) t.processors ∧
      ∀ σ, Solves C s (Reached s (activeProcessors.diff deletedProcessors)) σ →
        σ = t.processors := by
  have hsound : ∀ l σ, (⟨C, s, Reached s l, σ⟩ : Setting P S).Sound rank := fun _ _ =>
    ⟨hacyclic, hdue, fun _ _ ⟨a, ha, hap⟩ hpq => ⟨a, ha, hap.tail hpq⟩, fun p _ => hdefined p,
      fun p _ => hclean p⟩
  generalize hl : activeProcessors.diff deletedProcessors = l
  have hperiod : ∀ σ, Solves C s (Reached s l) σ → ∃ t,
      period C u depth deletedProcessors activeProcessors s = some (⟨⟩, t) ∧
        σ = t.processors := by
    intro σ hσ
    obtain ⟨t, hx, ht⟩ := Setting.period_ends_of (hsound l σ) (fun p hp _ => hσ.flow p hp) u
      (fun p hp => ⟨⟨p, hp, .refl⟩, hdepth p⟩) fun p hp => hp
    rw [← hl] at hx
    refine ⟨t, hx, funext fun p => ?_⟩
    by_cases hp : Reached s l p
    · exact ((ht p).1 hp).symm
    · rw [(ht p).2 hp, hσ.rest p hp]
  obtain ⟨σ, hσ⟩ := exists_solves u (hsound l)
  obtain ⟨t, hx, rfl⟩ := hperiod σ hσ
  refine ⟨t, hx, hσ, fun σ' hσ' => ?_⟩
  obtain ⟨t', hx', rfl⟩ := hperiod σ' hσ'
  cases hx.symm.trans hx'
  rfl

end Period

/-! Runs of periods, with the script at work between them. -/

/-- The processors, and the time of the last period. -/
structure Clocked (P S : Type) where
  memory : Memory P S
  now : ℕ

inductive Act (P S : Type)
  | script
  | period (C : Cycle P S) (u : Unspecified P) (deletedProcessors activeProcessors : List P)

/-- The chains of calls are no longer than the stack allows, and there is no null connector. -/
def Arranged (depth : ℕ) (s : Memory P S) : Prop :=
  ∃ rank : P → ℕ, (∀ p q, s.graph.Calls p q → rank q < rank p) ∧ (∀ p, rank p < depth) ∧
    ∀ p, (s.graph p).pulls ≠ none

/-- The script adds events and connections, which it keeps arranged; periods follow each other in
time. -/
inductive Step (depth : ℕ) (s : Clocked P S) : Act P S → Clocked P S → Prop
  | script {memory} (hp : memory.processedUntil = s.memory.processedUntil)
      (ha : Arranged depth memory) : Step depth s .script { s with memory }
  | period {C u deletedProcessors activeProcessors memory} (ht : s.now < C.time)
      (hx : period C u depth deletedProcessors activeProcessors s.memory = some (⟨⟩, memory)) :
      Step depth s (.period C u deletedProcessors activeProcessors) ⟨memory, C.time⟩

section Runs

variable {depth : ℕ} {s t : Clocked P S} {a : Act P S}

/-- Nothing has run after the last period. -/
structure Ready (depth : ℕ) (s : Clocked P S) : Prop where
  arranged : Arranged depth s.memory
  processedUntil : ∀ p, s.memory.processedUntil p ≤ s.now

theorem Ready.step (h : Ready depth s) (hstep : Step depth s a t) : Ready depth t := by
  cases hstep with
  | script hp ha =>
    refine ⟨ha, fun p => ?_⟩
    rw [hp]
    exact h.processedUntil p
  | @period C u deletedProcessors activeProcessors memory ht hx =>
    obtain ⟨rank, hrank, hdepth, hdefined⟩ := h.arranged
    obtain ⟨new, t, hx', -, htracks⟩ : ∃ new t,
        Contents.period C u depth deletedProcessors activeProcessors s.memory = some (⟨⟩, t) ∧
          Runs rank depth C.time (activeProcessors.diff deletedProcessors)
            ⟨s.memory.processedUntil, []⟩ new ∧
          Tracks s.memory.graph t (Progress.mark new C.time ⟨s.memory.processedUntil, []⟩) :=
      period_runs C u ⟨s.memory.graph, rank, hrank, hdefined⟩ rfl fun p _ => hdepth p
    cases hx.symm.trans hx'
    have hcalls : ∀ p q, memory.graph.Calls p q → s.memory.graph.Calls p q := by
      rintro p q ⟨l, hl, hq⟩
      exact ⟨l, (htracks.pulls p).symm.trans hl, hq⟩
    refine ⟨⟨rank, fun p q hpq => hrank p q (hcalls p q hpq), hdepth, fun p => ?_⟩, fun p => ?_⟩
    · rw [htracks.pulls p]
      exact hdefined p
    · rw [htracks.processedUntil]
      have hp := h.processedUntil p
      simp only [Progress.mark]
      split
      · exact le_refl _
      · omega

end Runs

end Bipscript.Contents
