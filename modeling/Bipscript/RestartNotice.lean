import Bipscript.Library.Run
import Mathlib.Algebra.Order.Floor.Ring
import Mathlib.Data.List.Count
import Mathlib.Data.List.Nodup
import Mathlib.Data.List.Perm.Subperm

/-! Who is told of a restart, over the callbacks that wait for it. -/
namespace Bipscript.RestartNotice

open Transition

/-- `waiting` says that the latest `sync` was not ready, `began` which processors were active when
the latest restart began, and `notified` whose `reposition` has been called since. -/
structure State (P : Type*) where
  runningFrame : ℕ
  multiplePeriodRestart : ℕ
  activeProcessors : List P
  /-- the queue of `activeProcessors` -/
  queue : List P
  deletedProcessors : List P
  waiting : Bool
  began : List P
  notified : List P

/-- What the two threads do. `running` is that of the script host when it is asked, and `complete`
the `repositionComplete` of each processor. -/
inductive Act (P : Type*)
  | addProcessor (p : P)
  | removeProcessor (p : P)
  | process (rolling : Bool) (frame : ℕ)
  | sync (frame : ℕ) (running : Bool) (complete : P → Bool)

namespace State

variable {P : Type*} [DecidableEq P]

def initial : State P where
  runningFrame := 0
  multiplePeriodRestart := 0
  activeProcessors := []
  queue := []
  deletedProcessors := []
  waiting := false
  began := []
  notified := []

/-- Deleted processors are removed. -/
def removeDeleted (s : State P) : State P :=
  { s with
    activeProcessors := s.activeProcessors.diff s.deletedProcessors
    deletedProcessors := [] }

/-- `activeProcessors.getFirst()` links what is queued. -/
def getFirst (s : State P) : State P :=
  { s with activeProcessors := s.queue.reverse ++ s.activeProcessors, queue := [] }

/-- Each active processor is told. -/
def notify (s : State P) : State P :=
  { s.getFirst with notified := s.notified ++ s.getFirst.activeProcessors }

/-- `reposition`: whether it is ready, and the state it leaves. The parameter is a `uint16_t`. -/
def reposition (attempt : ℕ) (running : Bool) (complete : P → Bool) (s : State P) :
    Bool × State P :=
  let s := s.removeDeleted
  let s := if attempt % 2 ^ 16 = 0 then s.notify else s
  if running then (false, s)
  else (s.getFirst.activeProcessors.all complete, s.getFirst)

def sync (frame : ℕ) (running : Bool) (complete : P → Bool) (s : State P) : Bool × State P :=
  if s.multiplePeriodRestart ≠ 0 then
    let r := s.reposition s.multiplePeriodRestart running complete
    if r.1 then (true, { r.2 with multiplePeriodRestart := 0, runningFrame := 0 })
    else (false, { r.2 with multiplePeriodRestart := (s.multiplePeriodRestart + 1) % 2 ^ 32 })
  else if frame < s.runningFrame then
    let r := s.reposition 0 running complete
    if r.1 then (true, { r.2 with runningFrame := 0 })
    else (false, { r.2 with multiplePeriodRestart := 1 })
  else (true, s)

/-- The processors active once the deleted ones are removed. -/
def active (s : State P) : List P := s.removeDeleted.getFirst.activeProcessors

/-- A restart begins after a jump backwards, when none is waited for. -/
def begin (frame : ℕ) (s : State P) : State P :=
  if s.waiting = false ∧ s.multiplePeriodRestart = 0 ∧ frame < s.runningFrame then
    { s with began := s.active, notified := [] }
  else s

def exec (s : State P) : Act P → State P
  | .addProcessor p => { s with queue := s.queue ++ [p] }
  | .removeProcessor p => { s with deletedProcessors := s.deletedProcessors ++ [p] }
  | .process rolling frame =>
    { s.removeDeleted.getFirst with runningFrame := if rolling then frame else s.runningFrame }
  | .sync frame running complete =>
    let r := (s.begin frame).sync frame running complete
    { r.2 with waiting := !r.1 }

/-- A processor is added once, and `remove` finds those that are deleted. -/
def Valid (s : State P) : Act P → Prop
  | .addProcessor p => p ∉ s.activeProcessors ∧ p ∉ s.queue
  | .removeProcessor _ => True
  | .process _ _ | .sync _ _ _ => s.deletedProcessors.Subperm s.activeProcessors

/-- Each processor active when the restart began has been told once. -/
def Once (s : State P) : Prop := ∀ p ∈ s.began, s.notified.count p = 1

/-- The callback is a further one of a restart, and tells the processors of it again: its attempt is
a multiple of `2 ^ 16`. -/
def Repeats (frame : ℕ) (s : State P) : Prop :=
  (s.multiplePeriodRestart ≠ 0 ∧ s.multiplePeriodRestart % 2 ^ 16 = 0) ∨
    (s.multiplePeriodRestart = 0 ∧ s.waiting = true ∧ frame < s.runningFrame)

/-- No processor is left that a repeated notification would tell twice. -/
def Gone (s : State P) : Act P → Prop
  | .sync frame _ _ => s.Repeats frame → ∀ p ∈ s.began, p ∉ s.active
  | _ => True

/-- No processor is linked or queued twice. -/
def Distinct (s : State P) : Prop := (s.queue.reverse ++ s.activeProcessors).Nodup

/-- `reposition` tells the active processors or nobody. -/
theorem reposition_notified (attempt : ℕ) (running : Bool) (complete : P → Bool) (s : State P) :
    (s.reposition attempt running complete).2.began = s.began ∧
      (s.reposition attempt running complete).2.notified =
        s.notified ++ if attempt % 2 ^ 16 = 0 then s.active else [] := by
  unfold reposition
  by_cases ha : attempt % 2 ^ 16 = 0
  · simp only [if_pos ha]
    cases running <;> simp [notify, active, getFirst, removeDeleted]
  · simp only [if_neg ha]
    cases running <;> simp [getFirst, removeDeleted]

omit [DecidableEq P] in
theorem Distinct.getFirst {s : State P} (h : s.Distinct) : s.getFirst.Distinct := by
  simpa [Distinct, State.getFirst] using h

theorem Distinct.removeDeleted {s : State P} (h : s.Distinct) : s.removeDeleted.Distinct := by
  refine List.Nodup.sublist ?_ h
  exact (List.Sublist.refl _).append (List.diff_sublist _ _)

theorem Distinct.active {s : State P} (h : s.Distinct) : s.active.Nodup := by
  simpa [Distinct, State.active, State.getFirst] using h.removeDeleted

theorem Distinct.reposition {s : State P} (h : s.Distinct) (attempt : ℕ) (running : Bool)
    (complete : P → Bool) : (s.reposition attempt running complete).2.Distinct := by
  unfold State.reposition
  have hd := h.removeDeleted
  by_cases ha : attempt % 2 ^ 16 = 0
  · have hn : s.removeDeleted.notify.Distinct := hd.getFirst
    simp only [if_pos ha]
    cases running
    · exact hn.getFirst
    · exact hn
  · simp only [if_neg ha]
    cases running
    · exact hd.getFirst
    · exact hd

/-- What a callback does to the record: it calls `reposition` and extends it, or leaves it. -/
theorem sync_cases (frame : ℕ) (running : Bool) (complete : P → Bool) (s : State P) :
    let t := (s.sync frame running complete).2
    (∃ attempt, (s.multiplePeriodRestart ≠ 0 ∧ attempt = s.multiplePeriodRestart ∨
          s.multiplePeriodRestart = 0 ∧ frame < s.runningFrame ∧ attempt = 0) ∧
        (s.Distinct → t.Distinct) ∧ t.began = s.began ∧
        t.notified = s.notified ++ if attempt % 2 ^ 16 = 0 then s.active else []) ∨
      (s.multiplePeriodRestart = 0 ∧ ¬ frame < s.runningFrame ∧ t = s) := by
  intro t
  simp only [t, sync]
  have hkeep : ∀ attempt, let r := (s.reposition attempt running complete).2
      (s.Distinct → r.Distinct) ∧ r.began = s.began ∧
        r.notified = s.notified ++ if attempt % 2 ^ 16 = 0 then s.active else [] := fun attempt =>
    ⟨fun h => h.reposition attempt running complete, reposition_notified attempt running complete s⟩
  by_cases hm : s.multiplePeriodRestart ≠ 0
  · refine Or.inl ⟨s.multiplePeriodRestart, Or.inl ⟨hm, rfl⟩, ?_⟩
    rw [if_pos hm]
    split
    · exact hkeep _
    · exact hkeep _
  · rw [if_neg hm]
    by_cases hf : frame < s.runningFrame
    · refine Or.inl ⟨0, Or.inr ⟨not_not.mp hm, hf, rfl⟩, ?_⟩
      rw [if_pos hf]
      split
      · exact hkeep _
      · exact hkeep _
    · exact Or.inr ⟨not_not.mp hm, hf, by rw [if_neg hf]⟩

theorem distinct_exec {s : State P} {a : Act P} (h : s.Distinct) (hv : s.Valid a) :
    (s.exec a).Distinct := by
  cases a with
  | addProcessor p =>
    have hp : p ∉ s.queue.reverse ++ s.activeProcessors := by
      simp [hv.1, hv.2]
    simpa [exec, Distinct] using List.nodup_cons.mpr ⟨hp, h⟩
  | removeProcessor p => exact h
  | process rolling frame => exact h.removeDeleted.getFirst
  | sync frame running complete =>
    have hb : (s.begin frame).Distinct := by
      unfold begin
      split
      · exact h
      · exact h
    rcases (s.begin frame).sync_cases frame running complete with
      ⟨_, -, hd, -⟩ | ⟨-, -, he⟩
    · exact hd hb
    · have hs : ((s.begin frame).sync frame running complete).2.Distinct := by rwa [he]
      exact hs

/-- Being told once more keeps everybody at one exactly when they are not active any more. -/
theorem once_append_iff {began notified l : List P} (h : ∀ p ∈ began, notified.count p = 1) :
    (∀ p ∈ began, (notified ++ l).count p = 1) ↔ ∀ p ∈ began, p ∉ l := by
  refine forall₂_congr fun p hp => ?_
  rw [List.count_append, h p hp, ← List.count_eq_zero]
  omega

/-- The callback that a restart begins with tells all that are active, of whom none had been told.
-/
theorem once_begin {s : State P} {frame : ℕ} (hd : s.Distinct) (hm : s.multiplePeriodRestart = 0)
    (hf : frame < s.runningFrame) (running : Bool) (complete : P → Bool) :
    (State.sync frame running complete { s with began := s.active, notified := [] }).2.Once := by
  rcases sync_cases frame running complete { s with began := s.active, notified := [] } with
    ⟨attempt, hattempt, -, hbegan, hnotified⟩ | ⟨-, hnot, -⟩
  · obtain rfl : attempt = 0 := by
      rcases hattempt with ⟨hne, -⟩ | ⟨-, -, h0⟩
      · exact absurd hm hne
      · exact h0
    intro p hp
    rw [hbegan] at hp
    rw [hnotified]
    exact List.count_eq_one_of_mem hd.active hp
  · exact absurd hf hnot

omit [DecidableEq P] in
/-- Where no restart begins, the attempts that tell the processors are those that repeat it. -/
theorem attempt_iff_repeats {s : State P} {frame attempt : ℕ}
    (hb : ¬ (s.waiting = false ∧ s.multiplePeriodRestart = 0 ∧ frame < s.runningFrame))
    (hattempt : s.multiplePeriodRestart ≠ 0 ∧ attempt = s.multiplePeriodRestart ∨
      s.multiplePeriodRestart = 0 ∧ frame < s.runningFrame ∧ attempt = 0) :
    attempt % 2 ^ 16 = 0 ↔ s.Repeats frame := by
  rcases hattempt with ⟨hm, rfl⟩ | ⟨hm, hf, rfl⟩
  · constructor
    · exact fun ha => Or.inl ⟨hm, ha⟩
    · rintro (⟨-, ha⟩ | ⟨h0, -⟩)
      · exact ha
      · exact absurd h0 hm
  · have hw : s.waiting = true := by
      by_contra hw
      exact hb ⟨Bool.not_eq_true _ ▸ hw, hm, hf⟩
    exact iff_of_true rfl (Or.inr ⟨hm, hw, hf⟩)

/-- A step keeps the notifications at one each exactly when no further callback repeats one. -/
theorem once_exec_iff {s : State P} {a : Act P} (hd : s.Distinct) (h : s.Once) :
    (s.exec a).Once ↔ s.Gone a := by
  cases a with
  | addProcessor p => exact iff_of_true h trivial
  | removeProcessor p => exact iff_of_true h trivial
  | process rolling frame => exact iff_of_true h trivial
  | sync frame running complete =>
    simp only [exec, Once, Gone]
    by_cases hb : s.waiting = false ∧ s.multiplePeriodRestart = 0 ∧ frame < s.runningFrame
    · have hbegin : s.begin frame = { s with began := s.active, notified := [] } := if_pos hb
      rw [hbegin]
      refine iff_of_true (once_begin hd hb.2.1 hb.2.2 running complete) ?_
      rintro (⟨hm, -⟩ | ⟨-, hw, -⟩)
      · exact absurd hb.2.1 hm
      · cases hb.1.symm.trans hw
    · have hbegin : s.begin frame = s := if_neg hb
      rw [hbegin]
      rcases s.sync_cases frame running complete with
        ⟨attempt, hattempt, -, hbegan, hnotified⟩ | ⟨hm, hf, he⟩
      · have hrepeats := attempt_iff_repeats hb hattempt
        rw [hbegan, hnotified, once_append_iff h]
        by_cases ha : attempt % 2 ^ 16 = 0
        · rw [if_pos ha]
          exact ⟨fun hg _ => hg, fun hg => hg (hrepeats.mp ha)⟩
        · rw [if_neg ha]
          exact iff_of_true (fun _ _ => List.not_mem_nil) fun hr => absurd (hrepeats.mpr hr) ha
      · rw [he]
        refine iff_of_true h ?_
        rintro (⟨h0, -⟩ | ⟨-, -, hlt⟩)
        · exact absurd hm h0
        · exact absurd hlt hf

/-- Along every run each restart tells the processors active at its beginning once, exactly when
none of them is left at a callback that repeats the notification. -/
theorem always_once_iff_gone (as : List (Act P)) (hv : Always exec Valid initial as) :
    Always exec (fun s a => (exec s a).Once) (initial : State P) as ↔
      Always exec Gone initial as := by
  apply always_congr (I := fun s => s.Distinct ∧ s.Once) (R := Valid)
  · rintro s a ⟨hd, ho⟩ -
    exact once_exec_iff hd ho
  · rintro s a ⟨hd, -⟩ ha ho
    exact ⟨distinct_exec hd ha, ho⟩
  · refine ⟨?_, ?_⟩
    · simp [Distinct, initial]
    · simp [Once, initial]
  · exact hv

/-- A processor is added, the transport rolls, and jumps back while the script is running. -/
def jumpBack : List (Act ℕ) :=
  [.addProcessor 0, .process true 4096, .sync 0 true fun _ => true]

/-- The script ends before the second callback. -/
theorem always_once_soon :
    Always exec (fun s a => (exec s a).Once) (initial : State ℕ)
      (jumpBack ++ [.sync 0 false fun _ => true]) := by
  refine (always_once_iff_gone _ ?_).mpr ?_
  · simp [jumpBack, Always, Valid, initial, exec, getFirst, removeDeleted, begin, sync, reposition,
      notify, active]
  · simp [jumpBack, Always, Gone, Repeats, initial, exec, getFirst, removeDeleted, begin, sync,
      reposition, notify, active]

/-- The restart of `jumpBack`, at its `attempt`. -/
def waited (attempt : ℕ) : State ℕ where
  runningFrame := 4096
  multiplePeriodRestart := attempt
  activeProcessors := [0]
  queue := []
  deletedProcessors := []
  waiting := true
  began := [0]
  notified := [0]

theorem exec_waited {attempt : ℕ} (h : attempt % 2 ^ 16 ≠ 0) (hlt : attempt < 2 ^ 16) :
    (waited attempt).exec (.sync 0 true fun _ => true) = waited (attempt + 1) := by
  have h0 : attempt ≠ 0 := by
    rintro rfl
    exact h rfl
  have hmod : (attempt + 1) % 2 ^ 32 = attempt + 1 := Nat.mod_eq_of_lt (by omega)
  simp only [exec, begin, waited, Bool.true_eq_false, false_and, if_false, sync, ne_eq, h0,
    not_false_eq_true, if_true, reposition, if_neg h, hmod]
  rfl

theorem waited_long (n : ℕ) {attempt : ℕ} (hpos : attempt ≠ 0) (h : attempt + n = 2 ^ 16) :
    ¬ Always exec (fun s a => (exec s a).Once) (waited attempt)
      (List.replicate (n + 1) (.sync 0 true fun _ => true)) := by
  induction n generalizing attempt with
  | zero =>
    obtain rfl : attempt = 2 ^ 16 := h
    rintro ⟨hone, -⟩
    have hcount := hone 0 (List.mem_singleton_self 0)
    exact absurd hcount (by decide)
  | succ n ih =>
    rintro ⟨-, htail⟩
    have hmod : attempt % 2 ^ 16 ≠ 0 := by
      rw [Nat.mod_eq_of_lt (by omega)]
      exact hpos
    rw [exec_waited hmod (by omega)] at htail
    exact ih (by omega) (by omega) htail

/-- A callback leaves no deleted processor in its queue. -/
theorem sync_deletedProcessors (frame : ℕ) (running : Bool) (complete : P → Bool) {s : State P}
    (h : s.deletedProcessors = []) :
    (s.sync frame running complete).2.deletedProcessors = [] := by
  have hr : ∀ attempt, (s.reposition attempt running complete).2.deletedProcessors = [] := by
    intro attempt
    unfold reposition
    by_cases ha : attempt % 2 ^ 16 = 0
    · simp only [if_pos ha]
      cases running <;> rfl
    · simp only [if_neg ha]
      cases running <;> rfl
  simp only [sync]
  split
  · split
    · exact hr _
    · exact hr _
  · split
    · split
      · exact hr _
      · exact hr _
    · exact h

theorem valid_of_syncs {s : State P} {as : List (Act P)} (h : s.deletedProcessors = [])
    (has : ∀ a ∈ as, ∃ frame running complete, a = .sync frame running complete) :
    Always exec Valid s as := by
  refine always_of_invariant (I := fun s => s.deletedProcessors = []) ?_ ?_ h
    (always_of_forall has)
  · rintro s _ hs ⟨frame, running, complete, rfl⟩
    simp only [Valid, hs]
    exact List.nil_subperm
  · rintro s _ hs ⟨frame, running, complete, rfl⟩
    have hb : (s.begin frame).deletedProcessors = [] := by
      unfold begin
      split
      · exact hs
      · exact hs
    exact sync_deletedProcessors frame running complete hb

/-- The script keeps running, and the further callback `2 ^ 16` tells the processor again. -/
theorem not_always_once_long :
    Always exec Valid (initial : State ℕ)
        (jumpBack ++ List.replicate (2 ^ 16) (.sync 0 true fun _ => true)) ∧
      ¬ Always exec (fun s a => (exec s a).Once) (initial : State ℕ)
        (jumpBack ++ List.replicate (2 ^ 16) (.sync 0 true fun _ => true)) := by
  have hstart : ((initial.exec (.addProcessor 0)).exec (.process true 4096)).exec
      (.sync 0 true fun _ => true) = waited 1 := rfl
  simp only [jumpBack, List.cons_append, List.nil_append, Always, hstart]
  refine ⟨⟨?_, ?_, ?_, valid_of_syncs rfl ?_⟩, ?_⟩
  · exact ⟨List.not_mem_nil, List.not_mem_nil⟩
  · exact List.nil_subperm
  · exact List.nil_subperm
  · intro a ha
    exact ⟨_, _, _, (List.mem_replicate.mp ha).2⟩
  · rintro ⟨-, -, -, hlong⟩
    have hn : 2 ^ 16 = 65535 + 1 := by omega
    rw [hn] at hlong
    exact waited_long 65535 Nat.one_ne_zero (by omega) hlong

end State

end Bipscript.RestartNotice
