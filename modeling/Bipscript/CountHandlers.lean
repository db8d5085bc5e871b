import Bipscript.ObjectCache
import Bipscript.Library.Run
import Mathlib.Data.Nat.PSub

/-! The handler that a beat tracker calls while it is counted in: set and released by the script
thread, used by the process thread. -/
namespace Bipscript.CountHandlers

open Transition

/-- The handlers by the numbers of their creation, true while a `ScriptFunction` is not deleted.
`loaded` is what a `dispatchCountInEvent` under way has loaded. -/
structure State where
  onCountHandler : Pointer ℕ
  handlers : List Bool
  loaded : Pointer ℕ
deriving DecidableEq

/-- The calls, `dispatchCountInEvent` in its two steps. `numargs` is that of the function given. -/
inductive Op
  | onCount (numargs : ℕ)
  | reset
  | load
  | use

namespace State

/-- The constructor has called `reset` with no handler. -/
def initial : State := ⟨none, [], none⟩

def Alive (s : State) (handler : ℕ) : Prop := s.handlers[handler]? = some true

/-- Any other number of arguments throws. The handler set before is not deleted. -/
def onCount (s : State) (numargs : ℕ) : State :=
  if numargs = 2 then
    { s with handlers := s.handlers ++ [true], onCountHandler := some s.handlers.length }
  else s

/-- `release` and `delete`. The assignment after them is to the local `handler`. -/
def reset (s : State) : State :=
  match s.onCountHandler with
  | none => s
  | some handler => { s with handlers := s.handlers.set handler false }

def exec (s : State) : Op → State
  | .onCount numargs => s.onCount numargs
  | .reset => s.reset
  | .load => { s with loaded := s.onCountHandler }
  | .use => { s with loaded := none }

/-- What `reset` releases and deletes, and what `OnCountClosure` is made of, is not deleted. -/
def Safe (s : State) : Op → Prop
  | .reset => ∀ handler, s.onCountHandler = some handler → s.Alive handler
  | .use => ∀ handler, s.loaded = some handler → s.Alive handler
  | _ => True

end State

/-- The calls alone: how many handlers were accepted, how many had been at each `reset`, and how
many when `dispatchCountInEvent` loaded, 0 while it is not under way. -/
structure Calls where
  accepted : ℕ
  reset : List ℕ
  seen : ℕ

namespace Calls

def initial : Calls := ⟨0, [], 0⟩

def exec (c : Calls) : Op → Calls
  | .onCount numargs => if numargs = 2 then { c with accepted := c.accepted + 1 } else c
  | .reset => { c with reset := c.accepted :: c.reset }
  | .load => { c with seen := c.accepted }
  | .use => { c with seen := 0 }

/-- No `reset` is the second one since the last handler was accepted, and no handler is used that
was the last one accepted at a `reset`. -/
def Timely (c : Calls) : Op → Prop
  | .reset => c.accepted ≠ 0 → c.accepted ∉ c.reset
  | .use => c.seen ≠ 0 → c.seen ∉ c.reset
  | _ => True

instance (c : Calls) (op : Op) : Decidable (c.Timely op) := by
  cases op <;> unfold Timely <;> infer_instance

end Calls

open State

/-- The handlers are those accepted, and deleted are those that were the last at a `reset`. -/
structure Counts (s : State) (c : Calls) : Prop where
  length : s.handlers.length = c.accepted
  handler : s.onCountHandler = c.accepted.ppred
  alive : ∀ handler < c.accepted, (s.Alive handler ↔ handler + 1 ∉ c.reset)
  loaded : s.loaded = c.seen.ppred
  seen : c.seen ≤ c.accepted
  reset : ∀ n ∈ c.reset, n ≤ c.accepted

variable {s : State} {c : Calls}

theorem counts_initial : Counts .initial .initial :=
  ⟨rfl, rfl, fun _ h => absurd h (Nat.not_lt_zero _), rfl, le_rfl, nofun⟩

/-- A pointer to the last of the first `n` handlers. -/
theorem Counts.alive_iff (h : Counts s c) {n : ℕ} (hn : n ≤ c.accepted) :
    (∀ handler, n.ppred = some handler → s.Alive handler) ↔ (n ≠ 0 → n ∉ c.reset) := by
  cases n with
  | zero => exact iff_of_true (fun _ h => by cases h) fun h => absurd rfl h
  | succ handler =>
    have halive := h.alive handler hn
    constructor
    · exact fun hsafe _ => halive.mp (hsafe handler rfl)
    · rintro htimely n ⟨⟩
      exact halive.mpr (htimely (Nat.succ_ne_zero handler))

theorem Counts.safe_iff (h : Counts s c) (op : Op) : s.Safe op ↔ c.Timely op := by
  cases op with
  | reset =>
    have hiff := h.alive_iff le_rfl
    rwa [← h.handler] at hiff
  | use =>
    have hiff := h.alive_iff h.seen
    rwa [← h.loaded] at hiff
  | _ => exact Iff.rfl

theorem Counts.onCount (h : Counts s c) (numargs : ℕ) :
    Counts (s.onCount numargs) (c.exec (.onCount numargs)) := by
  unfold State.onCount Calls.exec
  dsimp only
  by_cases hargs : numargs = 2
  · rw [if_pos hargs, if_pos hargs]
    refine ⟨?_, ?_, fun handler hlt => ?_, h.loaded, Nat.le_succ_of_le h.seen,
      fun n hn => Nat.le_succ_of_le (h.reset n hn)⟩
    · rw [List.length_append, h.length]
      rfl
    · rw [h.length]
      rfl
    · unfold State.Alive
      dsimp only
      rcases Nat.lt_succ_iff_lt_or_eq.mp hlt with hlt | rfl
      · rw [List.getElem?_append_left (h.length ▸ hlt)]
        exact h.alive handler hlt
      · rw [← h.length, List.getElem?_concat_length, h.length]
        exact iff_of_true rfl fun hn => absurd (h.reset _ hn) (Nat.not_succ_le_self _)
  · rw [if_neg hargs, if_neg hargs]
    exact h

theorem Counts.resetHandler (h : Counts s c) : Counts s.reset (c.exec .reset) := by
  have hreset : ∀ n ∈ c.accepted :: c.reset, n ≤ c.accepted :=
    List.forall_mem_cons.mpr ⟨le_rfl, h.reset⟩
  unfold State.reset Calls.exec
  dsimp only
  cases hc : c.accepted with
  | zero =>
    have hnone : s.onCountHandler = none := by rw [h.handler, hc]; rfl
    rw [hnone]
    rw [hc] at hreset
    exact ⟨h.length.trans hc, hnone, fun _ hlt => absurd hlt (Nat.not_lt_zero _), h.loaded,
      hc ▸ h.seen, hreset⟩
  | succ last =>
    have hlast : s.onCountHandler = some last := by rw [h.handler, hc]; rfl
    have hlength : s.handlers.length = last + 1 := h.length.trans hc
    rw [hlast]
    rw [hc] at hreset
    refine ⟨?_, rfl, fun handler hlt => ?_, h.loaded, hc ▸ h.seen, hreset⟩
    · rw [List.length_set]
      exact hlength
    · unfold State.Alive
      dsimp only
      rw [List.mem_cons, not_or, Nat.succ_inj]
      by_cases he : handler = last
      · subst he
        rw [List.getElem?_set_self (hlength ▸ hlt)]
        exact iff_of_false (by simp) fun hn => hn.1 rfl
      · rw [List.getElem?_set_ne (Ne.symm he)]
        exact (h.alive handler (hc ▸ hlt)).trans (and_iff_right he).symm

theorem Counts.exec (h : Counts s c) (op : Op) : Counts (s.exec op) (c.exec op) := by
  cases op with
  | onCount numargs => exact h.onCount numargs
  | reset => exact h.resetHandler
  | load => exact ⟨h.length, h.handler, h.alive, h.handler, le_rfl, h.reset⟩
  | use => exact ⟨h.length, h.handler, h.alive, rfl, Nat.zero_le _, h.reset⟩

/-- Along every sequence of the calls, with those of the process thread anywhere in between, no
deleted handler is used and none is deleted twice exactly when the calls are timely. -/
theorem always_timely_iff (ops : List Op) :
    Always State.exec Safe .initial ops ↔ Always Calls.exec Calls.Timely .initial ops :=
  always_bisim (fun _ _ op h => h.safe_iff op) (fun _ _ op h _ => h.exec op) counts_initial

/-- A second run of a script that sets no handler of its own: the cached tracker still calls the
deleted one, and at its third use deletes it again. -/
theorem second_run_not_safe :
    ¬ Always State.exec Safe .initial [.onCount 2, .reset, .load, .use] ∧
      ¬ Always State.exec Safe .initial [.onCount 2, .reset, .reset] := by
  constructor
  · rintro ⟨-, -, -, h, -⟩
    exact absurd (h 0 rfl) (by unfold Alive; decide)
  · rintro ⟨-, -, h, -⟩
    exact absurd (h 0 rfl) (by unfold Alive; decide)

end Bipscript.CountHandlers
