import Bipscript.ObjectCollector

/-! The object collector between its threads: what is read of objects already pushed. -/
namespace Bipscript.CollectorThreads

open Transition

/-- Where the process thread is: between calls; before the push of `recycle`, or after it failed;
before the `addAll` of `recycleAll`, or before the `getFirst` of either loop; before the test of the
loop, or, its push made, before `pop` reads `first->next`. -/
inductive ProcessPC
  | idle
  | recycling (evt : ℕ)
  | refused (evt : ℕ)
  | appending (list : LinkedList)
  | starting
  | testing (next : Option ℕ)
  | popping

/-- `deleting` is what the loop of `free` has popped and not deleted yet; `pushed` and `freed` keep
account. -/
structure State where
  collector : ObjectCollector
  process : ProcessPC
  deleting : Option ℕ
  pushed : List ℕ

/-- Calls and next steps of the process thread, with the outcome of a push, and steps of `free` on
the script thread. -/
inductive Act
  | recycle (evt : ℕ)
  | recycleAll (list : LinkedList)
  | update
  | step (accepted : Bool)
  | free

namespace State

def initial (next : ℕ → Option ℕ) : State := ⟨.initial next, .idle, none, []⟩

def push (evt : ℕ) (pc : ProcessPC) (s : State) : State :=
  { s with collector := s.collector.push evt, process := pc, pushed := s.pushed ++ [evt] }

/-- The next step of the process thread. -/
def advance (accepted : Bool) (s : State) : State :=
  match s.process with
  | .idle => s
  | .recycling evt => if accepted then s.push evt .idle else { s with process := .refused evt }
  | .refused evt => { s with collector := s.collector.addWaiting evt, process := .idle }
  | .appending list => { s with collector := s.collector.addAllWaiting list, process := .starting }
  | .starting => { s with process := .testing s.collector.waitingList.first }
  | .testing none => { s with process := .idle }
  | .testing (some next) => if accepted then s.push next .popping else { s with process := .idle }
  | .popping =>
    { s with
      collector := s.collector.popWaiting
      process := .testing s.collector.popWaiting.waitingList.first }

/-- The process thread makes one call at a time. -/
def call (pc : ProcessPC) (s : State) : State :=
  match s.process with
  | .idle => { s with process := pc }
  | _ => s

/-- The loop of `free`: an object is popped, or the one popped is deleted. -/
def free (s : State) : State :=
  match s.deleting with
  | some event =>
    { s with
      deleting := none, collector := { s.collector with freed := s.collector.freed ++ [event] } }
  | none =>
    match s.collector.objectQueue with
    | [] => s
    | event :: rest =>
      { s with deleting := some event, collector := { s.collector with objectQueue := rest } }

def exec (s : State) : Act → State
  | .recycle evt => s.call (.recycling evt)
  | .recycleAll list => s.call (.appending list)
  | .update => s.call .starting
  | .step accepted => s.advance accepted
  | .free => s.free

/-- The process thread is about to read a field of this object. -/
def Reads (s : State) (a : ℕ) : Prop :=
  s.process = .popping ∧ s.collector.waitingList.first = some a

/-- What it reads has not been pushed. -/
def Safe (s : State) : Prop := ∀ a, s.Reads a → a ∉ s.pushed

/-- At a test of either loop nothing waits, or the queue refuses it. -/
def Refused (s : State) : Act → Prop
  | .step accepted => ∀ next, s.process = .testing (some next) → accepted = false
  | _ => True

/-- The test of a loop is about the first of those waiting. -/
def Tests (s : State) : Prop :=
  ∀ next, s.process = .testing next → s.collector.waitingList.first = next

theorem call_process (pc : ProcessPC) (s : State) :
    (s.call pc).process = pc ∧ s.process = .idle ∨ s.call pc = s := by
  unfold call
  split
  · rename_i h
    exact Or.inl ⟨rfl, h⟩
  · exact Or.inr rfl

theorem free_spec (s : State) :
    s.free.process = s.process ∧ s.free.pushed = s.pushed ∧
      s.free.collector.waitingList = s.collector.waitingList := by
  unfold free
  split
  · exact ⟨rfl, rfl, rfl⟩
  · split
    · exact ⟨rfl, rfl, rfl⟩
    · exact ⟨rfl, rfl, rfl⟩

theorem tests_exec {s : State} {a : Act} (h : s.Tests) : (s.exec a).Tests := by
  have hcall : ∀ pc, (∀ next, pc ≠ .testing next) → (s.call pc).Tests := by
    intro pc hpc next hnext
    rcases call_process pc s with ⟨hp, -⟩ | he
    · exact absurd (hp.symm.trans hnext) (hpc next)
    · rw [he] at hnext ⊢
      exact h next hnext
  cases a with
  | recycle evt => exact hcall _ (by simp)
  | recycleAll list => exact hcall _ (by simp)
  | update => exact hcall _ (by simp)
  | free =>
    obtain ⟨hp, -, hw⟩ := s.free_spec
    intro next hnext
    change s.free.process = _ at hnext
    change s.free.collector.waitingList.first = _
    rw [hp] at hnext
    rw [hw]
    exact h next hnext
  | step accepted =>
    intro next hnext
    change (s.advance accepted).process = _ at hnext
    change (s.advance accepted).collector.waitingList.first = _
    unfold advance at hnext ⊢
    cases hp : s.process with
    | idle =>
      rw [hp] at hnext
      exact h next (hp.trans (hp.symm.trans hnext))
    | recycling evt => cases accepted <;> simp [hp, push] at hnext
    | refused evt => simp [hp] at hnext
    | appending list => simp [hp] at hnext
    | starting => simpa [hp] using hnext
    | testing w =>
      cases w with
      | none => simp [hp] at hnext
      | some x => cases accepted <;> simp [hp, push] at hnext
    | popping => simpa [hp] using hnext

/-- `pop` is reached by a push of what it reads, and only so. -/
theorem safe_exec_iff {s : State} {a : Act} (ht : s.Tests) (hs : s.process ≠ .popping) :
    ((s.exec a).Safe ↔ s.Refused a) ∧ ((s.exec a).Safe → (s.exec a).process ≠ .popping) := by
  have hquiet : ∀ t : State, t.process ≠ .popping → t.Safe := fun t h x hx => absurd hx.1 h
  have hother : (s.exec a).process ≠ .popping → s.Refused a →
      ((s.exec a).Safe ↔ s.Refused a) ∧ ((s.exec a).Safe → (s.exec a).process ≠ .popping) :=
    fun hp hr => ⟨iff_of_true (hquiet _ hp) hr, fun _ => hp⟩
  have hcall : ∀ pc, pc ≠ .popping → (s.call pc).process ≠ .popping := by
    intro pc hpc
    rcases call_process pc s with ⟨hp, -⟩ | he
    · rwa [hp]
    · rwa [he]
  cases a with
  | recycle evt => exact hother (hcall _ (by simp)) trivial
  | recycleAll list => exact hother (hcall _ (by simp)) trivial
  | update => exact hother (hcall _ (by simp)) trivial
  | free =>
    refine hother ?_ trivial
    change s.free.process ≠ _
    rwa [s.free_spec.1]
  | step accepted =>
    change ((s.advance accepted).Safe ↔ _) ∧ ((s.advance accepted).Safe → _)
    have hstep : (∀ next, s.process ≠ .testing (some next)) →
        (s.advance accepted).process ≠ .popping →
        ((s.advance accepted).Safe ↔ s.Refused (.step accepted)) ∧
          ((s.advance accepted).Safe → (s.advance accepted).process ≠ .popping) :=
      fun hp hq => hother hq fun next hn => absurd hn (hp next)
    cases hp : s.process with
    | idle => exact hstep (by simp [hp]) (by simp [advance, hp])
    | recycling evt =>
      refine hstep (by simp [hp]) ?_
      cases accepted <;> simp [advance, hp, push]
    | refused evt => exact hstep (by simp [hp]) (by simp [advance, hp])
    | appending list => exact hstep (by simp [hp]) (by simp [advance, hp])
    | starting => exact hstep (by simp [hp]) (by simp [advance, hp])
    | popping => exact absurd hp hs
    | testing w =>
      cases w with
      | none => exact hstep (by simp [hp]) (by simp [advance, hp])
      | some x =>
        cases accepted with
        | false =>
          have hidle : (s.advance false).process ≠ .popping := by simp [advance, hp]
          exact hother hidle fun _ _ => rfl
        | true =>
          -- the object pushed is still the first one, and its `next` is read now
          have hpush : s.advance true = s.push x .popping := by simp [advance, hp]
          have hread : (s.push x .popping).Reads x := ⟨rfl, ht (some x) hp⟩
          have hunsafe : ¬ (s.push x .popping).Safe := fun hsafe =>
            hsafe x hread (by simp [push])
          rw [hpush]
          refine ⟨iff_of_false hunsafe ?_, fun hsafe => absurd hsafe hunsafe⟩
          intro hr
          cases hr x hp

/-- Along every run of the two threads nothing pushed is read exactly when neither loop ever hands
over an object that was waiting. -/
theorem always_safe_iff (next : ℕ → Option ℕ) (as : List Act) :
    Always exec (fun s a => (exec s a).Safe) (initial next) as ↔
      Always exec Refused (initial next) as := by
  refine always_congr (I := fun s => s.Tests ∧ s.process ≠ .popping) (R := fun _ _ => True)
    ?_ ?_ ?_ (always_of_forall fun _ _ => trivial)
  · rintro s a ⟨ht, hp⟩ -
    exact (safe_exec_iff ht hp).1
  · rintro s a ⟨ht, hp⟩ - hsafe
    exact ⟨tests_exec ht, (safe_exec_iff ht hp).2 hsafe⟩
  · refine ⟨?_, by simp [initial]⟩
    intro next h
    cases h

/-- An object waits, `update` hands it over, and before `pop` reads its `next` it is deleted. -/
theorem not_always_safe :
    let as : List Act := [.recycle 0, .step false, .step false, .update, .step false, .step true,
      .free, .free]
    ¬ Always exec (fun s a => (exec s a).Safe) (initial fun _ => none) as ∧
      (as.foldl exec (initial fun _ => none)).Reads 0 ∧
      0 ∈ (as.foldl exec (initial fun _ => none)).collector.freed := by
  refine ⟨?_, ⟨rfl, rfl⟩, by decide⟩
  rintro ⟨-, -, -, -, -, hsafe, -⟩
  exact hsafe 0 ⟨rfl, rfl⟩ (by decide)

/-- The steps of a loop of which the first `pushes` pushes succeed. -/
def loop : ℕ → List Act
  | 0 => [.step false]
  | pushes + 1 => .step true :: .step true :: loop pushes

theorem idle_loop {s : State} (pushes : ℕ) (h : s.process = .idle) :
    (loop pushes).foldl exec s = s := by
  have hstep : ∀ accepted, s.exec (.step accepted) = s := by
    intro accepted
    simp [exec, advance, h]
  induction pushes with
  | zero => exact hstep false
  | succ pushes ih => simpa only [loop, List.foldl_cons, hstep] using ih

/-- Left alone, the loop does what `pushWaiting` does. -/
theorem loop_pushWaiting {s : State} (pushes : ℕ)
    (h : s.process = .testing s.collector.waitingList.first) :
    ((loop pushes).foldl exec s).process = .idle ∧
      ((loop pushes).foldl exec s).collector = s.collector.pushWaiting pushes := by
  induction pushes generalizing s with
  | zero =>
    cases hf : s.collector.waitingList.first with
    | none => simp [loop, exec, advance, h, hf, ObjectCollector.pushWaiting]
    | some x => simp [loop, exec, advance, h, hf, ObjectCollector.pushWaiting]
  | succ pushes ih =>
    cases hf : s.collector.waitingList.first with
    | none =>
      have hidle : (s.exec (.step true)).process = .idle := by simp [exec, advance, h, hf]
      have hc : (s.exec (.step true)).collector = s.collector := by simp [exec, advance, h, hf]
      have hsame : (s.exec (.step true)).exec (.step true) = s.exec (.step true) := by
        simp [exec, advance, h, hf]
      simp only [loop, List.foldl_cons, hsame, idle_loop pushes hidle, hidle, hc,
        ObjectCollector.pushWaiting, hf, and_self]
    | some x =>
      have hpush : s.exec (.step true) = s.push x .popping := by simp [exec, advance, h, hf]
      have hpop : (s.push x .popping).exec (.step true) =
          { s.push x .popping with
            collector := (s.collector.push x).popWaiting
            process := .testing (s.collector.push x).popWaiting.waitingList.first } := rfl
      simp only [loop, List.foldl_cons, hpush, hpop, ObjectCollector.pushWaiting, hf]
      exact ih rfl

end State

end Bipscript.CollectorThreads
