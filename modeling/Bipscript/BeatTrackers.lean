import Bipscript.MasterCache
import Mathlib.Logic.Function.Basic

/-! Beat trackers and the master they force beats on: the script thread, which creates both and
whose caches give them up after a run, and the process thread, which runs the trackers. -/
namespace Bipscript.BeatTrackers

open Transition Transport

inductive Kind
  | audio | midi
deriving DecidableEq

/-- The caches, in the order of `main`. -/
inductive Cache
  | audioInputPort | audioOutputPort | audioStereoInput | mixer | plugin | midiInputPort
  | midiOutputPort | master | beatTracker (kind : Kind) | oscInput | oscOutput | onsetDetector
deriving DecidableEq

def caches : List Cache :=
  [.audioInputPort, .audioOutputPort, .audioStereoInput, .mixer, .plugin, .midiInputPort,
    .midiOutputPort, .master, .beatTracker .audio, .beatTracker .midi, .oscInput, .oscOutput,
    .onsetDetector]

/-- Where the script thread is: in the body, in the loop of `waitForRestart` over the caches, in its
loop for a restart, where it executes handlers, or done. -/
inductive Script
  | body
  | completing (rest : List Cache) (activeObjects : Bool)
  | polling
  | done
deriving DecidableEq

inductive Callback
  | process | sync
deriving DecidableEq

/-- Where the process thread is: between callbacks, at the deleted processors, before
`activeProcessors.getFirst()`, or at a tracker, with those after it in the list. -/
inductive Process
  | idle
  | deleting (callback : Callback)
  | fetching (callback : Callback)
  | processing (tracker : ℕ) (rest : List ℕ)
deriving DecidableEq

/-- What a `doProcess` asks of its tracker's master: a beat that is due, or the tempo of a count-in
that ends. -/
inductive Call
  | forceBeat (bpm : ℚ)
  | setBpm (bpm : ℚ)
deriving DecidableEq

/-- The trackers by the numbers of their creation, with the master each points to. Other processors
use no master and are left out. `removing` is what a `scriptComplete` has yet to push, and `queue`
and `activeProcessors` are the two halves of the engine's list. -/
structure State where
  masterCache : MasterCache
  master : ℕ → Pointer ℕ
  trackers : ℕ
  cache : Kind → ActiveCache ℕ
  script : Script
  removing : List (Pointer ℕ)
  process : Process
  queue : List ℕ
  activeProcessors : List ℕ
  deletedProcessors : List (Pointer ℕ)
  /-- The trackers that were given their master since the master was last found unused. -/
  current : Finset ℕ

/-- `error` is what `jack_set_timebase_callback` would return, `others` whether another cache or an
extension has active objects, and `call` is made by the tracker at hand. -/
inductive Op
  | getTransportMaster (bpm beatsPerBar beatUnit : ℚ) (error : Bool)
  | getBeatTracker (kind : Kind) (bpm beatsPerBar beatUnit : ℚ) (error : Bool)
  | waitForRestart
  | scriptComplete
  | removeProcessor
  | completed (others : Bool)
  | restart
  | fail
  | process
  | sync
  | pop
  | popped
  | fetch
  | skip
  | call (call : Call)
  | next

/-- The script thread goes on from where it is, and does nothing else. -/
def Op.Script : Op → Prop
  | .waitForRestart | .completed _ | .restart | .fail => True
  | _ => False

/-- The process thread goes on from where it is, and does nothing else. -/
def Op.Process : Op → Prop
  | .process | .sync | .popped | .skip | .next => True
  | _ => False

/-- A call on the master at a pointer. -/
def Call.perform (t : Masters) (m : ℕ) : Call → Masters
  | .forceBeat bpm => t.forceBeat m bpm
  | .setBpm bpm => t.setBpm m bpm

/-- At the first of the list, or through with it. -/
def Process.loop : List ℕ → Process
  | [] => .idle
  | tracker :: rest => .processing tracker rest

namespace State

def initial : State where
  masterCache := .initial
  master := fun _ => none
  trackers := 0
  cache := fun _ => .empty
  script := .body
  removing := []
  process := .idle
  queue := []
  activeProcessors := []
  deletedProcessors := []
  current := ∅

/-- The body and the handlers can call a factory. -/
def Calls (s : State) : Prop := s.script = .body ∨ s.script = .polling

instance (s : State) : Decidable s.Calls := inferInstanceAs (Decidable (_ ∨ _))

def getTransportMaster (s : State) (bpm beatsPerBar beatUnit : ℚ) (error : Bool) : State :=
  if s.Calls then
    { s with masterCache := (s.masterCache.getTransportMaster bpm beatsPerBar beatUnit error).2 }
  else s

/-- `BeatTracker::reset`, as far as the master. -/
def reset (s : State) (tracker : ℕ) (bpm beatsPerBar beatUnit : ℚ) (error : Bool) : State :=
  match s.masterCache.getTransportMaster bpm beatsPerBar beatUnit error with
  | (none, c) => { s with masterCache := c }
  | (some m, c) =>
    { s with
      masterCache := c
      master := Function.update s.master tracker (some m)
      current := insert tracker s.current }

/-- `registerObject(1, tracker)` of the tracker just created: into the cache, and into the engine's
queue. -/
def register (s : State) (kind : Kind) : State :=
  { s with
    trackers := s.trackers + 1
    cache := Function.update s.cache kind ((s.cache kind).registerObject 1 s.trackers)
    queue := s.queue ++ [s.trackers] }

/-- What `findObject(1)` leaves in the cache. -/
def findObject (s : State) (kind : Kind) : State :=
  { s with cache := Function.update s.cache kind ((s.cache kind).findObject 1).2 }

/-- `new BeatTracker`, and its registration unless the constructor throws. -/
def create (s : State) (kind : Kind) (bpm beatsPerBar beatUnit : ℚ) (error : Bool) : State :=
  let new := s.reset s.trackers bpm beatsPerBar beatUnit error
  match (s.masterCache.getTransportMaster bpm beatsPerBar beatUnit error).1 with
  | none => new
  | some _ => new.register kind

/-- `getBeatTracker` and `getMidiBeatTracker` -/
def getBeatTracker (s : State) (kind : Kind) (bpm beatsPerBar beatUnit : ℚ) (error : Bool) :
    State :=
  if s.Calls then
    match ((s.cache kind).findObject 1).1 with
    | some tracker => (s.findObject kind).reset tracker bpm beatsPerBar beatUnit error
    | none => (s.findObject kind).create kind bpm beatsPerBar beatUnit error
  else s

def waitForRestart (s : State) : State :=
  match s.script with
  | .body => { s with script := .completing caches false }
  | _ => s

/-- The next `scriptComplete` of the loop; its `removeObject` calls follow. -/
def scriptComplete (s : State) : State :=
  match s.script, s.removing with
  | .completing (.master :: rest) activeObjects, [] =>
    { s with
      masterCache := s.masterCache.scriptComplete
      current := if s.masterCache.Unused then ∅ else s.current
      script := .completing rest activeObjects }
  | .completing (.beatTracker kind :: rest) activeObjects, [] =>
    let r := (s.cache kind).scriptComplete
    { s with
      cache := Function.update s.cache kind r.cache
      removing := r.removed
      script := .completing rest (activeObjects || r.activeObjects) }
  | .completing (_ :: rest) activeObjects, [] => { s with script := .completing rest activeObjects }
  | _, _ => s

/-- `deletedProcessors.push(obj)`, when there is room. -/
def removeProcessor (s : State) : State :=
  match s.removing with
  | obj :: rest => { s with removing := rest, deletedProcessors := s.deletedProcessors ++ [obj] }
  | [] => s

/-- The end of the loop over the caches. -/
def completed (s : State) (others : Bool) : State :=
  match s.script, s.removing with
  | .completing [] activeObjects, [] =>
    { s with script := if activeObjects || others then .polling else .done }
  | _, _ => s

/-- The script is run again. -/
def restart (s : State) : State :=
  match s.script with
  | .polling => { s with script := .body }
  | _ => s

/-- The script ends with an error. -/
def fail (s : State) : State :=
  match s.script with
  | .body => { s with script := .done }
  | _ => s

def start (s : State) (callback : Callback) : State :=
  match s.process with
  | .idle => { s with process := .deleting callback }
  | _ => s

/-- `activeProcessors.remove(done)` comes to an end only for a tracker that is in the list. -/
def pop (s : State) : State :=
  match s.process, s.deletedProcessors with
  | .deleting _, some done :: rest =>
    if done ∈ s.activeProcessors then
      { s with deletedProcessors := rest, activeProcessors := s.activeProcessors.erase done }
    else s
  | _, _ => s

/-- Nothing is left to pop. -/
def popped (s : State) : State :=
  match s.process, s.deletedProcessors with
  | .deleting callback, [] => { s with process := .fetching callback }
  | _, _ => s

/-- `activeProcessors.getFirst()`, which puts what is in the queue before the list. What a
reposition asks of trackers does nothing. -/
def fetch (s : State) : State :=
  match s.process with
  | .fetching callback =>
    let list := s.queue.reverse ++ s.activeProcessors
    { s with
      queue := []
      activeProcessors := list
      process := match callback with
        | .process => .loop list
        | .sync => .idle }
  | _ => s

/-- A further attempt of a reposition ends at `running()`. -/
def skip (s : State) : State :=
  match s.process with
  | .fetching .sync => { s with process := .idle }
  | _ => s

/-- The `doProcess` of the tracker at hand makes a call. -/
def call (s : State) (call : Call) : State :=
  match s.process with
  | .processing tracker _ =>
    match s.master tracker with
    | some m =>
      { s with masterCache := { s.masterCache with
          toMasters := call.perform s.masterCache.toMasters m } }
    | none => s
  | _ => s

/-- It returns, and the loop goes on with `getNext`. -/
def next (s : State) : State :=
  match s.process with
  | .processing _ rest => { s with process := .loop rest }
  | _ => s

def exec (s : State) : Op → State
  | .getTransportMaster bpm beatsPerBar beatUnit error =>
    s.getTransportMaster bpm beatsPerBar beatUnit error
  | .getBeatTracker kind bpm beatsPerBar beatUnit error =>
    s.getBeatTracker kind bpm beatsPerBar beatUnit error
  | .waitForRestart => s.waitForRestart
  | .scriptComplete => s.scriptComplete
  | .removeProcessor => s.removeProcessor
  | .completed others => s.completed others
  | .restart => s.restart
  | .fail => s.fail
  | .process => s.start .process
  | .sync => s.start .sync
  | .pop => s.pop
  | .popped => s.popped
  | .fetch => s.fetch
  | .skip => s.skip
  | .call call => s.call call
  | .next => s.next

/-- The tracker at hand calls no master that is deleted. -/
def Safe (s : State) : Op → Prop
  | .call _ => ∀ tracker rest m, s.process = .processing tracker rest →
      s.master tracker = some m → s.masterCache.Alive m
  | _ => True

/-- A beat is due or a count-in ends only in a tracker that was given its master since a run of the
script last ended without a use of the master. -/
def Current (s : State) : Op → Prop
  | .call _ => ∀ tracker rest, s.process = .processing tracker rest → tracker ∈ s.current
  | _ => True

end State

/-- The trackers of the list that are still to be processed. -/
def Process.ahead : Process → List ℕ
  | .processing tracker rest => tracker :: rest
  | _ => []

@[simp] theorem Process.ahead_loop (list : List ℕ) : (Process.loop list).ahead = list := by
  cases list <;> rfl

namespace State

/-- What the engine has of trackers. -/
def listed (s : State) : List ℕ := s.queue ++ s.activeProcessors ++ s.process.ahead

theorem exec_script (s : State) {op : Op} (h : op.Script) :
    ∃ script, s.exec op = { s with script := script } := by
  cases op with
  | waitForRestart =>
    show ∃ script, s.waitForRestart = _
    unfold State.waitForRestart
    split
    · exact ⟨_, rfl⟩
    · exact ⟨s.script, rfl⟩
  | completed others =>
    show ∃ script, s.completed others = _
    unfold State.completed
    split
    · exact ⟨_, rfl⟩
    · exact ⟨s.script, rfl⟩
  | restart =>
    show ∃ script, s.restart = _
    unfold State.restart
    split
    · exact ⟨_, rfl⟩
    · exact ⟨s.script, rfl⟩
  | fail =>
    show ∃ script, s.fail = _
    unfold State.fail
    split
    · exact ⟨_, rfl⟩
    · exact ⟨s.script, rfl⟩
  | _ => cases h

theorem exec_process (s : State) {op : Op} (h : op.Process) :
    ∃ process, s.exec op = { s with process := process } ∧
      ∀ p ∈ process.ahead, p ∈ s.process.ahead := by
  cases op with
  | process | sync =>
    show ∃ process, s.start _ = _ ∧ _
    unfold State.start
    split
    · exact ⟨_, rfl, fun _ hp => by cases hp⟩
    · exact ⟨s.process, rfl, fun _ hp => hp⟩
  | popped =>
    show ∃ process, s.popped = _ ∧ _
    unfold State.popped
    split
    · exact ⟨_, rfl, fun _ hp => by cases hp⟩
    · exact ⟨s.process, rfl, fun _ hp => hp⟩
  | skip =>
    show ∃ process, s.skip = _ ∧ _
    unfold State.skip
    split
    · exact ⟨_, rfl, fun _ hp => by cases hp⟩
    · exact ⟨s.process, rfl, fun _ hp => hp⟩
  | next =>
    show ∃ process, s.next = _ ∧ _
    unfold State.next
    split
    · rename_i tracker rest hprocess
      refine ⟨_, rfl, fun p hp => ?_⟩
      rw [Process.ahead_loop] at hp
      rw [hprocess]
      exact List.mem_cons_of_mem _ hp
    · exact ⟨s.process, rfl, fun _ hp => hp⟩
  | _ => cases h

/-- The current trackers are those whose master is alive. -/
structure Tracked (s : State) : Prop where
  single : s.masterCache.Single
  created : ∀ p m, s.master p = some m → m < s.masterCache.masters.length
  current : ∀ p ∈ s.current, ∃ m, s.master p = some m ∧ s.masterCache.cachedMaster = some m
  alive : ∀ p m, s.master p = some m → s.masterCache.Alive m → p ∈ s.current
  listed : ∀ p ∈ s.listed, s.master p ≠ none

variable {s t : State}

theorem tracked_initial : Tracked initial where
  single := MasterCache.single_initial
  created p m hm := by cases hm
  current p hp := by cases hp
  alive p m hm := by cases hm
  listed p hp := by cases hp

/-- Trackers move along. -/
theorem Tracked.moved (h : Tracked s) (hc : t.masterCache = s.masterCache)
    (hm : t.master = s.master) (hcur : t.current = s.current)
    (hl : ∀ p ∈ t.listed, p ∈ s.listed) : Tracked t where
  single := hc ▸ h.single
  created := by
    rw [hc, hm]
    exact h.created
  current := by
    rw [hc, hm, hcur]
    exact h.current
  alive := by
    rw [hc, hm, hcur]
    exact h.alive
  listed p hp := hm ▸ h.listed p (hl p hp)

/-- The script has the master. -/
theorem Tracked.getMaster (h : Tracked s) (bpm beatsPerBar beatUnit : ℚ) (error : Bool) :
    Tracked { s with
      masterCache := (s.masterCache.getTransportMaster bpm beatsPerBar beatUnit error).2 } := by
  obtain ⟨hsingle, hold, hle, hcases⟩ :=
    MasterCache.getTransportMaster_spec h.single bpm beatsPerBar beatUnit error
  refine ⟨hsingle, ?_, ?_, ?_, h.listed⟩
  · intro p m hm
    exact (h.created p m hm).trans_le hle
  · intro p hp
    obtain ⟨m, hm, hcached⟩ := h.current p hp
    rcases hcases with ⟨m', -, hcached', -, heq⟩ | ⟨-, hnone, -⟩
    · exact ⟨m, hm, heq m hcached ▸ hcached'⟩
    · rw [hnone] at hcached
      cases hcached
  · intro p m hm halive
    exact h.alive p m hm ((hold m (h.created p m hm)).mp halive)

theorem reset_of_none {tracker : ℕ} {bpm beatsPerBar beatUnit : ℚ} {error : Bool}
    (hm : (s.masterCache.getTransportMaster bpm beatsPerBar beatUnit error).1 = none) :
    s.reset tracker bpm beatsPerBar beatUnit error = { s with
      masterCache := (s.masterCache.getTransportMaster bpm beatsPerBar beatUnit error).2 } := by
  unfold State.reset
  split
  · rename_i heq
    rw [heq]
  · rename_i heq
    rw [heq] at hm
    cases hm

theorem reset_of_some {tracker m : ℕ} {bpm beatsPerBar beatUnit : ℚ} {error : Bool}
    (hm : (s.masterCache.getTransportMaster bpm beatsPerBar beatUnit error).1 = some m) :
    s.reset tracker bpm beatsPerBar beatUnit error = { s with
      masterCache := (s.masterCache.getTransportMaster bpm beatsPerBar beatUnit error).2
      master := Function.update s.master tracker (some m)
      current := insert tracker s.current } := by
  unfold State.reset
  split
  · rename_i heq
    rw [heq] at hm
    cases hm
  · rename_i heq
    rw [heq] at hm ⊢
    cases hm
    rfl

/-- A tracker is given the master, unless the engine throws. -/
theorem Tracked.reset (h : Tracked s) (tracker : ℕ) (bpm beatsPerBar beatUnit : ℚ)
    (error : Bool) : Tracked (s.reset tracker bpm beatsPerBar beatUnit error) := by
  have hmaster := h.getMaster bpm beatsPerBar beatUnit error
  rcases (MasterCache.getTransportMaster_spec h.single bpm beatsPerBar beatUnit error).2.2.2 with
    ⟨m, hm, hcached, -⟩ | ⟨hnone, -⟩
  · rw [reset_of_some hm]
    have hgiven : ∀ p n, Function.update s.master tracker (some m) p = some n →
        p = tracker ∧ n = m ∨ p ≠ tracker ∧ s.master p = some n := by
      intro p n hn
      by_cases hp : p = tracker
      · subst hp
        rw [Function.update_self] at hn
        exact .inl ⟨rfl, (Option.some.inj hn).symm⟩
      · rw [Function.update_of_ne hp] at hn
        exact .inr ⟨hp, hn⟩
    refine ⟨hmaster.single, ?_, ?_, ?_, ?_⟩
    · intro p n hn
      rcases hgiven p n hn with ⟨rfl, rfl⟩ | ⟨-, hn⟩
      · exact ((hmaster.single.alive n).mpr (hmaster.single.cached n hcached)).lt
      · exact hmaster.created p n hn
    · intro p hp
      by_cases hpt : p = tracker
      · subst hpt
        exact ⟨m, Function.update_self .., hcached⟩
      · obtain ⟨n, hn, hcached'⟩ :=
          hmaster.current p ((Finset.mem_insert.mp hp).resolve_left hpt)
        exact ⟨n, (Function.update_of_ne hpt ..).trans hn, hcached'⟩
    · intro p n hn halive
      rcases hgiven p n hn with ⟨rfl, -⟩ | ⟨-, hn⟩
      · exact Finset.mem_insert_self _ _
      · exact Finset.mem_insert_of_mem (hmaster.alive p n hn halive)
    · intro p hp hnone
      change Function.update s.master tracker (some m) p = none at hnone
      by_cases hpt : p = tracker
      · subst hpt
        rw [Function.update_self] at hnone
        cases hnone
      · rw [Function.update_of_ne hpt] at hnone
        exact hmaster.listed p hp hnone
  · rw [reset_of_none hnone]
    exact hmaster

theorem Tracked.register (h : Tracked s) (kind : Kind) (hm : s.master s.trackers ≠ none) :
    Tracked (s.register kind) := by
  refine ⟨h.single, h.created, h.current, h.alive, ?_⟩
  intro p hp
  rcases List.mem_append.mp hp with hp | hahead
  · rcases List.mem_append.mp hp with hqueue | hactive
    · rcases List.mem_append.mp hqueue with hold | hnew
      · exact h.listed p (List.mem_append_left _ (List.mem_append_left _ hold))
      · obtain rfl := List.mem_singleton.mp hnew
        exact hm
    · exact h.listed p (List.mem_append_left _ (List.mem_append_right _ hactive))
  · exact h.listed p (List.mem_append_right _ hahead)

theorem create_of_none {kind : Kind} {bpm beatsPerBar beatUnit : ℚ} {error : Bool}
    (hm : (s.masterCache.getTransportMaster bpm beatsPerBar beatUnit error).1 = none) :
    s.create kind bpm beatsPerBar beatUnit error = { s with
      masterCache := (s.masterCache.getTransportMaster bpm beatsPerBar beatUnit error).2 } := by
  simp only [State.create, hm, reset_of_none hm]

theorem create_of_some {kind : Kind} {m : ℕ} {bpm beatsPerBar beatUnit : ℚ} {error : Bool}
    (hm : (s.masterCache.getTransportMaster bpm beatsPerBar beatUnit error).1 = some m) :
    s.create kind bpm beatsPerBar beatUnit error =
      (s.reset s.trackers bpm beatsPerBar beatUnit error).register kind := by
  simp only [State.create, hm]

theorem Tracked.create (h : Tracked s) (kind : Kind) (bpm beatsPerBar beatUnit : ℚ)
    (error : Bool) : Tracked (s.create kind bpm beatsPerBar beatUnit error) := by
  have hnew := h.reset s.trackers bpm beatsPerBar beatUnit error
  cases hm : (s.masterCache.getTransportMaster bpm beatsPerBar beatUnit error).1 with
  | none =>
    rw [create_of_none hm]
    rwa [reset_of_none hm] at hnew
  | some m =>
    rw [create_of_some hm]
    apply hnew.register kind
    rw [reset_of_some hm]
    change Function.update s.master s.trackers (some m) s.trackers ≠ none
    rw [Function.update_self]
    exact Option.some_ne_none m

theorem Tracked.getBeatTracker (h : Tracked s) (kind : Kind) (bpm beatsPerBar beatUnit : ℚ)
    (error : Bool) : Tracked (s.getBeatTracker kind bpm beatsPerBar beatUnit error) := by
  have hfound : Tracked (s.findObject kind) := h.moved rfl rfl rfl fun _ hp => hp
  unfold State.getBeatTracker
  split
  · split
    · exact hfound.reset _ bpm beatsPerBar beatUnit error
    · exact hfound.create kind bpm beatsPerBar beatUnit error
  · exact h

theorem Tracked.scriptComplete (h : Tracked s) : Tracked s.scriptComplete := by
  unfold State.scriptComplete
  split
  · split
    · rename_i hu
      obtain ⟨hsingle, -, hlength, hdead⟩ := MasterCache.scriptComplete_unused h.single hu
      refine ⟨hsingle, ?_, ?_, ?_, h.listed⟩
      · intro p m hm
        exact (h.created p m hm).trans_eq hlength.symm
      · intro p hp
        cases hp
      · intro p m _ halive
        exact absurd halive (hdead m)
    · rename_i hu
      rw [MasterCache.scriptComplete_used hu]
      exact ⟨⟨h.single.alive, h.single.cached⟩, h.created, h.current, h.alive, h.listed⟩
  · exact h.moved rfl rfl rfl fun _ hp => hp
  · exact h.moved rfl rfl rfl fun _ hp => hp
  · exact h

/-- The list is told what is popped off it, and nothing else of trackers changes. -/
theorem Tracked.pop (h : Tracked s) : Tracked s.pop := by
  unfold State.pop
  split
  · split
    · refine h.moved rfl rfl rfl ?_
      intro p hp
      rcases List.mem_append.mp hp with hp | hahead
      · rcases List.mem_append.mp hp with hqueue | hactive
        · exact List.mem_append_left _ (List.mem_append_left _ hqueue)
        · exact List.mem_append_left _ (List.mem_append_right _ (List.mem_of_mem_erase hactive))
      · exact List.mem_append_right _ hahead
    · exact h
  · exact h

theorem Tracked.fetch (h : Tracked s) : Tracked s.fetch := by
  unfold State.fetch
  split
  · rename_i callback _
    refine h.moved rfl rfl rfl ?_
    have hlink : ∀ p ∈ s.queue.reverse ++ s.activeProcessors, p ∈ s.listed := by
      intro p hp
      exact List.mem_append_left _ (((List.reverse_perm _).append_right _).mem_iff.mp hp)
    intro p hp
    rcases List.mem_append.mp hp with hp | hahead
    · exact hlink p hp
    · cases callback with
      | process =>
        change p ∈ (Process.loop _).ahead at hahead
        rw [Process.ahead_loop] at hahead
        exact hlink p hahead
      | sync => cases hahead
  · exact h

theorem perform_eq_write (t : Masters) (m : ℕ) (call : Call) :
    ∃ f, call.perform t m = t.write m f := by
  cases call with
  | forceBeat bpm => exact ⟨_, rfl⟩
  | setBpm bpm => exact ⟨_, rfl⟩

theorem Tracked.call (h : Tracked s) (call : Call) : Tracked (s.call call) := by
  unfold State.call
  split
  · split
    · rename_i m _
      obtain ⟨f, hf⟩ := perform_eq_write s.masterCache.toMasters m call
      rw [hf]
      refine ⟨h.single.of_write f m _, ?_, h.current, ?_, h.listed⟩
      · intro p n hn
        exact (h.created p n hn).trans_eq (Masters.write_length f).symm
      · intro p n hn halive
        exact h.alive p n hn ((Masters.alive_write f).mp halive)
    · exact h
  · exact h

theorem Tracked.script (h : Tracked s) {op : Op} (hop : op.Script) : Tracked (s.exec op) := by
  obtain ⟨script, heq⟩ := exec_script s hop
  rw [heq]
  exact h.moved rfl rfl rfl fun _ hp => hp

theorem Tracked.process (h : Tracked s) {op : Op} (hop : op.Process) : Tracked (s.exec op) := by
  obtain ⟨process, heq, hahead⟩ := exec_process s hop
  rw [heq]
  refine h.moved rfl rfl rfl fun p hp => ?_
  rcases List.mem_append.mp hp with hp | hp
  · exact List.mem_append_left _ hp
  · exact List.mem_append_right _ (hahead p hp)

theorem tracked_exec (h : Tracked s) (op : Op) : Tracked (s.exec op) := by
  cases op with
  | getTransportMaster bpm beatsPerBar beatUnit error =>
    show Tracked (s.getTransportMaster bpm beatsPerBar beatUnit error)
    unfold State.getTransportMaster
    split
    · exact h.getMaster bpm beatsPerBar beatUnit error
    · exact h
  | getBeatTracker kind bpm beatsPerBar beatUnit error =>
    exact h.getBeatTracker kind bpm beatsPerBar beatUnit error
  | scriptComplete => exact h.scriptComplete
  | removeProcessor =>
    show Tracked s.removeProcessor
    unfold State.removeProcessor
    split
    · exact h.moved rfl rfl rfl fun _ hp => hp
    · exact h
  | pop => exact h.pop
  | fetch => exact h.fetch
  | call call => exact h.call call
  | waitForRestart | completed | restart | fail => exact h.script trivial
  | process | sync | popped | skip | next => exact h.process trivial

/-- The tracker at hand calls no deleted master iff it is current. -/
theorem Tracked.safe_iff (h : Tracked s) (op : Op) : s.Safe op ↔ s.Current op := by
  cases op with
  | call call =>
    constructor
    · intro hsafe tracker rest hprocess
      have hlisted : tracker ∈ s.listed := by
        apply List.mem_append_right
        rw [hprocess]
        exact List.mem_cons_self
      obtain ⟨m, hm⟩ := Option.ne_none_iff_exists'.mp (h.listed tracker hlisted)
      exact h.alive tracker m hm (hsafe tracker rest m hprocess hm)
    · intro hcurrent tracker rest m hprocess hm
      obtain ⟨n, hn, hcached⟩ := h.current tracker (hcurrent tracker rest hprocess)
      rw [hm] at hn
      cases hn
      exact (h.single.alive m).mpr (h.single.cached m hcached)
  | _ => exact Iff.rfl

/-- In every interleaving no tracker calls a deleted master exactly when every beat that is due, and
every count-in that ends, is in a tracker given its master since a run of the script last ended
without a use of the master. -/
theorem always_undeleted_iff (ops : List Op) :
    Always exec Safe initial ops ↔ Always exec Current initial ops :=
  always_congr (I := Tracked) (R := fun _ _ => True) (fun _ op h _ => h.safe_iff op)
    (fun _ op h _ _ => tracked_exec h op) tracked_initial (always_of_forall fun _ _ => trivial)

/-- The script makes a tracker; when it is run again it does not. A period comes after the master
was deleted and before the tracker is removed, and a beat is due. -/
theorem not_always_undeleted :
    ¬ Always exec Safe initial
      ([.getBeatTracker .audio 120 4 4 false, .waitForRestart] ++
        List.replicate 13 Op.scriptComplete ++
        [.completed false, .process, .popped, .fetch, .next, .restart, .waitForRestart] ++
        List.replicate 8 Op.scriptComplete ++ [.process, .popped, .fetch] ++
        [.call (.forceBeat 121)]) := by
  intro h
  obtain ⟨-, hsafe, -⟩ := always_append.mp h
  obtain ⟨settings, hsettings⟩ := hsafe 0 [] 0 (by decide +kernel) (by decide +kernel)
  have hdeleted : ∀ s : State, s.masterCache.masters = [none] →
      s.masterCache.masters[0]? ≠ some (some settings) := by
    intro s hs heq
    rw [hs] at heq
    cases heq
  exact hdeleted _ (by decide +kernel) hsettings

end State

end Bipscript.BeatTrackers
