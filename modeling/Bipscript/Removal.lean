import Bipscript.Lifetime
import Bipscript.Library.Run

/-! Processors on their way into the engine's list and out of it, over the steps of its threads. -/
namespace Bipscript.Removal

open Transition

/-- Where the script thread is: running the body, in the loop of `waitForRestart` over the caches,
in its loop for a restart, past its `restartFlag.load()` or `restartFlag.store(false)`, or done. -/
inductive ScriptPC
  | body
  | completing (objectCacheList : List CacheId) (activeObjects : Bool)
  | polling | loaded | lowered | done

/-- A callback of the process thread. -/
inductive Callback
  | process
  | reposition (attempt : ℕ)

/-- A use of `activeProcessors`, which fetches what is in its queue first: the loop of `process`,
the notification of a reposition, or its last loop. -/
inductive Loop
  | process | notify | complete
deriving DecidableEq

/-- Where the process thread is: between callbacks, at the deleted processors, at the queue of
`activeProcessors`, at `running()`, in the loop over `repositionComplete`, or before `restart()`. -/
inductive ProcessPC
  | idle
  | deleting (callback : Callback)
  | fetching (loop : Loop)
  | checking | awaiting | ready

variable {P : Type*}

/-- `pushing` is what the script thread is about to push in `addProcessor`, `removing` what its
`scriptComplete` has yet to push in `removeProcessor`, and `cancelled` are the OSC outputs whose
threads have yet to do so. `storing` is what the script thread is pushing to `deletedProcessors`,
`outputs` what the outputs' threads are, and `raced` is up once two such pushes have overlapped.
`queue` and `activeProcessors` are the two halves of the engine's list. -/
structure State (P : Type*) where
  script : ScriptPC
  process : ProcessPC
  runningFlag : Bool
  restartFlag : Bool
  caches : CacheId → ActiveCache P
  pushing : Option P
  removing : List (Pointer P)
  cancelled : List P
  storing : Option (Pointer P)
  outputs : List P
  raced : Bool
  queue : List P
  activeProcessors : List P
  deletedProcessors : List (Pointer P)

inductive Act (P : Type*)
  | factory (c : CacheId) (key : ℤ) (create : Option P)
  | transport (p : P)
  | addProcessor
  | waitForRestart | scriptComplete | removeProcessor | removed | completed (others : Bool)
  | load | lower | rerun | fail | shutdown
  | run (output : P) | ended (output : P)
  | process | sync (attempt : ℕ) | pop | popped | fetch | fetched
  | checkRunning | repositionComplete (all : Bool) | restart

/-- The caches of processors, in the order of `main`. -/
def objectCacheList : List CacheId :=
  [.audioInputPort, .audioOutputPort, .audioStereoInput, .mixer, .plugin, .midiInputPort,
    .midiOutputPort, .audioBeatTracker, .midiBeatTracker, .oscOutput, .onsetDetector]

/-- The capacities of the two queues. -/
def ACTIVE : ℕ := 128
def DELETED : ℕ := 16

namespace State

def initial : State P where
  script := .body
  process := .idle
  runningFlag := true
  restartFlag := false
  caches := fun _ => .empty
  pushing := none
  removing := []
  cancelled := []
  storing := none
  outputs := []
  raced := false
  queue := []
  activeProcessors := []
  deletedProcessors := []

/-- The body or a dispatched method can call a factory. -/
def Calls (s : State P) : Prop := (s.script = .body ∨ s.script = .polling) ∧ s.pushing = none

def Cached (s : State P) (p : P) : Prop := ∃ c, p ∈ ActiveCache.objects (s.caches c).instanceMap

/-- On its way into the engine's list, or there. -/
def places (s : State P) : List P := s.pushing.toList ++ s.queue ++ s.activeProcessors

/-- On its way out. -/
def leaving (s : State P) : List P :=
  s.removing.reduceOption ++ s.storing.toList.reduceOption ++ s.cancelled ++ s.outputs ++
    s.deletedProcessors.reduceOption

/-- A push to `deletedProcessors` is under way. -/
def Storing (s : State P) : Prop := s.storing ≠ none ∨ s.outputs ≠ []

theorem storing_iff (s : State P) :
    (s.storing.isSome = true ∨ s.outputs.isEmpty = false) ↔ s.Storing := by
  simp [Storing, Option.isSome_iff_ne_none]

instance (s : State P) : Decidable s.Storing := decidable_of_iff _ s.storing_iff

/-- A newly created object is none that is still known. -/
def New (s : State P) (p : P) : Prop := ¬ s.Cached p ∧ p ∉ s.places ∧ p ∉ s.leaving

variable [DecidableEq P]

/-- What a completed cache removes is pushed, or cancelled if it is the OSC outputs'. -/
def remove (c : CacheId) (removed : List (Pointer P)) (s : State P) : State P :=
  if c = .oscOutput then { s with cancelled := s.cancelled ++ removed.reduceOption }
  else { s with removing := removed }

/-- `osc::OutputFactory::shutdown`. -/
def removeAll (s : State P) : State P :=
  { s with
    caches := Function.update s.caches .oscOutput (s.caches .oscOutput).removeAll.1
    cancelled := s.cancelled ++ (s.caches .oscOutput).removeAll.2.reduceOption }

end State

section Step

variable [DecidableEq P]

/-- The steps of the script thread, of the threads of OSC outputs and of the process thread. A push
to a full queue is tried again, so it is not a step. `deletedProcessors` is for one producer: once
two pushes have overlapped it may hold anything. A null pointer is neither cancelled nor removed
from the list, and the search in `List::remove` ends only at the processor. -/
inductive Step : State P → Act P → State P → Prop
  | found {s : State P} {c : CacheId} {key : ℤ} {create : Option P} {p : P} (hs : s.Calls)
      (hf : ((s.caches c).findObject key).1 = some p) :
      Step s (.factory c key create) { s with
        caches := Function.update s.caches c ((s.caches c).findObject key).2 }
  | created {s : State P} {c : CacheId} {key : ℤ} {p : P} (hs : s.Calls)
      (hf : ((s.caches c).findObject key).1 = none) (hp : s.New p) :
      Step s (.factory c key (some p)) { s with
        caches := Function.update s.caches c (((s.caches c).findObject key).2.registerObject key p)
        pushing := some p }
  | failed {s : State P} {c : CacheId} {key : ℤ} (hs : s.Calls)
      (hf : ((s.caches c).findObject key).1 = none) :
      Step s (.factory c key none) { s with
        caches := Function.update s.caches c ((s.caches c).findObject key).2 }
  /-- the transport is a processor that no cache holds -/
  | transport {s : State P} {p : P} (hs : s.Calls) (hp : s.New p) :
      Step s (.transport p) { s with pushing := some p }
  | addProcessor {s : State P} {p : P} (hs : s.script = .body ∨ s.script = .polling)
      (hp : s.pushing = some p) (hroom : s.queue.length < ACTIVE) :
      Step s .addProcessor { s with pushing := none, queue := s.queue ++ [p] }
  | waitForRestart {s : State P} (hs : s.script = .body) (hp : s.pushing = none) :
      Step s .waitForRestart { s with
        script := .completing objectCacheList false, runningFlag := false }
  | scriptComplete {s : State P} {c : CacheId} {rest : List CacheId} {activeObjects : Bool}
      (hs : s.script = .completing (c :: rest) activeObjects)
      (hr : s.removing = [] ∧ s.storing = none)
      (hnull : c = .oscOutput → none ∉ (s.caches c).scriptComplete.removed) :
      Step s .scriptComplete (State.remove c (s.caches c).scriptComplete.removed { s with
        script := .completing rest (activeObjects || (s.caches c).scriptComplete.activeObjects)
        caches := Function.update s.caches c (s.caches c).scriptComplete.cache })
  | removeProcessor {s : State P} {p : Pointer P} {rest : List (Pointer P)} {cs : List CacheId}
      {activeObjects : Bool} (hs : s.script = .completing cs activeObjects)
      (hr : s.removing = p :: rest ∧ s.storing = none)
      (hroom : s.deletedProcessors.length < DELETED) :
      Step s .removeProcessor { s with
        removing := rest, storing := some p, raced := s.raced || decide s.Storing }
  | removed {s : State P} {p : Pointer P} {deletedProcessors : List (Pointer P)}
      {cs : List CacheId} {activeObjects : Bool} (hs : s.script = .completing cs activeObjects)
      (hp : s.storing = some p)
      (hd : s.raced = false → deletedProcessors = s.deletedProcessors ++ [p]) :
      Step s .removed { s with storing := none, deletedProcessors }
  /-- `others` for the caches without processors and the extensions -/
  | completed {s : State P} {activeObjects others : Bool}
      (hs : s.script = .completing [] activeObjects) (hr : s.removing = [] ∧ s.storing = none) :
      Step s (.completed others) { s with
        script := if activeObjects || others then .polling else .done }
  | load {s : State P} (hs : s.script = .polling) (hp : s.pushing = none)
      (hf : s.restartFlag = true) : Step s .load { s with script := .loaded }
  | lower {s : State P} (hs : s.script = .loaded) :
      Step s .lower { s with script := .lowered, restartFlag := false }
  | rerun {s : State P} (hs : s.script = .lowered) :
      Step s .rerun { s with script := .body, runningFlag := true }
  /-- the script ends with an error -/
  | fail {s : State P} (hs : s.script = .body) (hp : s.pushing = none) :
      Step s .fail { s with script := .done }
  /-- the end of `main`, or a signal at any time, where a push of the script's stays unfinished -/
  | shutdown {s : State P} (hnull : none ∉ (s.caches .oscOutput).removeAll.2) :
      Step s .shutdown { s.removeAll with script := .done, storing := none }
  | run {s : State P} {output : P} (hc : output ∈ s.cancelled)
      (hroom : s.deletedProcessors.length < DELETED) :
      Step s (.run output) { s with
        cancelled := s.cancelled.erase output
        outputs := output :: s.outputs
        raced := s.raced || decide s.Storing }
  | ended {s : State P} {output : P} {deletedProcessors : List (Pointer P)}
      (hp : output ∈ s.outputs)
      (hd : s.raced = false → deletedProcessors = s.deletedProcessors ++ [some output]) :
      Step s (.ended output) { s with outputs := s.outputs.erase output, deletedProcessors }
  | process {s : State P} (he : s.process = .idle) :
      Step s .process { s with process := .deleting .process }
  | sync {s : State P} {attempt : ℕ} (he : s.process = .idle) :
      Step s (.sync attempt) { s with process := .deleting (.reposition attempt) }
  | pop {s : State P} {callback : Callback} {done : P} {rest : List (Pointer P)}
      (he : s.process = .deleting callback) (hd : s.deletedProcessors = some done :: rest)
      (ha : done ∈ s.activeProcessors) :
      Step s .pop { s with
        deletedProcessors := rest, activeProcessors := s.activeProcessors.erase done }
  | popped {s : State P} {callback : Callback} (he : s.process = .deleting callback)
      (hd : s.deletedProcessors = []) :
      Step s .popped { s with
        process := match callback with
          | .process => .fetching .process
          | .reposition attempt => if attempt = 0 then .fetching .notify else .checking }
  | fetch {s : State P} {loop : Loop} {fresh : P} {rest : List P}
      (he : s.process = .fetching loop) (hq : s.queue = fresh :: rest) :
      Step s .fetch { s with queue := rest, activeProcessors := fresh :: s.activeProcessors }
  | fetched {s : State P} {loop : Loop} (he : s.process = .fetching loop) (hq : s.queue = []) :
      Step s .fetched { s with
        process := match loop with
          | .process => .idle
          | .notify => .checking
          | .complete => .awaiting }
  | checkRunning {s : State P} (he : s.process = .checking) :
      Step s .checkRunning { s with
        process := if s.runningFlag then .idle else .fetching .complete }
  | repositionComplete {s : State P} {all : Bool} (he : s.process = .awaiting) :
      Step s (.repositionComplete all) { s with process := if all then .ready else .idle }
  | restart {s : State P} (he : s.process = .ready) :
      Step s .restart { s with process := .idle, restartFlag := true }

end Step

/-- The check of `running()` is past. -/
def PastCheck (s : State P) : Prop :=
  s.process = .fetching .complete ∨ s.process = .awaiting ∨ s.process = .ready

/-- The search in `List::remove` for a processor just popped finds it. -/
def Linked (s : State P) : Prop :=
  ∀ callback done rest, s.process = .deleting callback →
    s.deletedProcessors = some done :: rest → done ∈ s.activeProcessors ∧ done ∉ s.queue

/-- A shutdown finds every cached OSC output linked in the engine's list, a run of the script
starts with no restart under way, and no two pushes to `deletedProcessors` overlap. -/
def Settled (s : State P) : Act P → Prop
  | .shutdown => ∀ p ∈ ActiveCache.objects (s.caches .oscOutput).instanceMap,
      p ∈ s.activeProcessors
  | .rerun => s.restartFlag = false ∧ ¬ PastCheck s
  | .removeProcessor | .run _ => ¬ s.Storing
  | _ => True

/-- Each processor that a cache holds is on its way into the engine's list or there, and each on its
way out is linked in it, with no two in one place. No pushes have overlapped. -/
structure Placed (s : State P) : Prop where
  alone : s.raced = false
  nodup : ∀ c, (ActiveCache.objects (s.caches c).instanceMap).Nodup
  used : ∀ c, none ∉ (s.caches c).activeScriptObjects
  apart : ∀ c c' p, p ∈ ActiveCache.objects (s.caches c).instanceMap →
    p ∈ ActiveCache.objects (s.caches c').instanceMap → c = c'
  places : s.places.Nodup
  cached : ∀ p, s.Cached p → p ∈ s.places ∧ p ∉ s.leaving
  leaving : s.leaving.Nodup
  linked : ∀ p ∈ s.leaving, p ∈ s.activeProcessors

/-- What the script has used this time, of what the engine has not linked yet. -/
def Marked (s : State P) (c : CacheId) : Prop :=
  ∀ p ∈ ActiveCache.objects (s.caches c).instanceMap, p ∈ s.pushing.toList ++ s.queue →
    some p ∈ (s.caches c).activeScriptObjects

theorem placed_initial : Placed (P := P) .initial := by
  constructor <;>
    simp [State.initial, ActiveCache.empty, ActiveCache.objects, State.places, State.leaving,
      State.Cached]

/-- Processors move along, none into a cache or out of one. -/
theorem Placed.moved {s t : State P} (h : Placed s) (hraced : t.raced = false)
    (hc : t.caches = s.caches)
    (hp : t.places.Perm s.places) (hl : t.leaving.Perm s.leaving)
    (ha : ∀ p ∈ s.activeProcessors, p ∈ t.activeProcessors) : Placed t where
  alone := hraced
  nodup := hc ▸ h.nodup
  used := hc ▸ h.used
  apart := hc ▸ h.apart
  places := hp.nodup_iff.mpr h.places
  cached := by
    intro p hcached
    have hs : s.Cached p := by
      unfold State.Cached at hcached ⊢
      rwa [hc] at hcached
    rw [hp.mem_iff, hl.mem_iff]
    exact h.cached p hs
  leaving := hl.nodup_iff.mpr h.leaving
  linked := fun p hmem => ha p (h.linked p (hl.mem_iff.mp hmem))

/-- A cache is read. -/
theorem Placed.touch {s : State P} {c : CacheId} {cache : ActiveCache P} (h : Placed s)
    (ho : ActiveCache.objects cache.instanceMap = ActiveCache.objects (s.caches c).instanceMap)
    (hu : none ∉ cache.activeScriptObjects) :
    Placed { s with caches := Function.update s.caches c cache } := by
  have hobjects : ∀ c' p,
      p ∈ ActiveCache.objects (Function.update s.caches c cache c').instanceMap →
        p ∈ ActiveCache.objects (s.caches c').instanceMap := by
    intro c' p hp
    rw [World.mem_update] at hp
    split at hp
    · rename_i hc
      rwa [hc, ← ho]
    · exact hp
  refine ⟨h.alone, World.nodup_update h.nodup (ho ▸ h.nodup c), World.used_update h.used hu, ?_,
    h.places, ?_, h.leaving, h.linked⟩
  · exact fun c' c'' p hp hp' => h.apart c' c'' p (hobjects c' p hp) (hobjects c'' p hp')
  · rintro p ⟨c', hp⟩
    exact h.cached p ⟨c', hobjects c' p hp⟩

/-- A new processor is about to be pushed, from a cache or without. -/
theorem Placed.create {s t : State P} {p : P} (h : Placed s) (hpushing : s.pushing = none)
    (hraced : t.raced = s.raced)
    (hp : p ∉ s.places ∧ p ∉ s.leaving) (hpushed : t.pushing = some p) (hq : t.queue = s.queue)
    (ha : t.activeProcessors = s.activeProcessors) (hl : t.leaving = s.leaving)
    (hn : ∀ c, (ActiveCache.objects (t.caches c).instanceMap).Nodup)
    (hu : ∀ c, none ∉ (t.caches c).activeScriptObjects)
    (hapart : ∀ c c' x, x ∈ ActiveCache.objects (t.caches c).instanceMap →
      x ∈ ActiveCache.objects (t.caches c').instanceMap → c = c')
    (hcached : ∀ x, t.Cached x → x = p ∨ s.Cached x) : Placed t := by
  have hplaces : t.places = p :: s.places := by
    simp only [State.places, hpushed, hpushing, hq, ha, Option.toList_some, Option.toList_none,
      List.nil_append, List.cons_append]
  refine ⟨hraced.trans h.alone, hn, hu, hapart, ?_, ?_, ?_, ?_⟩
  · rw [hplaces]
    exact List.nodup_cons.mpr ⟨hp.1, h.places⟩
  · intro x hx
    rw [hplaces, hl]
    rcases hcached x hx with rfl | hx
    · exact ⟨List.mem_cons_self, hp.2⟩
    · exact ⟨List.mem_cons_of_mem _ (h.cached x hx).1, (h.cached x hx).2⟩
  · rw [hl]
    exact h.leaving
  · rw [hl, ha]
    exact h.linked

/-- Processors leave a cache, all of them linked in the engine's list. -/
theorem Placed.leave {s t : State P} (gone : List P) (h : Placed s) (hraced : t.raced = s.raced)
    (hgone : gone.Nodup)
    (hlinked : ∀ p ∈ gone, s.Cached p ∧ p ∈ s.activeProcessors)
    (hn : ∀ c, (ActiveCache.objects (t.caches c).instanceMap).Nodup)
    (hu : ∀ c, none ∉ (t.caches c).activeScriptObjects)
    (ho : ∀ c p, p ∈ ActiveCache.objects (t.caches c).instanceMap →
      p ∈ ActiveCache.objects (s.caches c).instanceMap ∧ p ∉ gone)
    (hp : t.places = s.places) (ha : t.activeProcessors = s.activeProcessors)
    (hl : t.leaving.Perm (gone ++ s.leaving)) : Placed t := by
  refine ⟨hraced.trans h.alone, hn, hu, ?_, ?_, ?_, ?_, ?_⟩
  · intro c c' p hc hc'
    exact h.apart c c' p (ho c p hc).1 (ho c' p hc').1
  · rw [hp]
    exact h.places
  · rintro p ⟨c, hc⟩
    obtain ⟨hold, hkept⟩ := ho c p hc
    rw [hp, hl.mem_iff]
    refine ⟨(h.cached p ⟨c, hold⟩).1, ?_⟩
    intro hmem
    rcases List.mem_append.mp hmem with hmem | hmem
    · exact hkept hmem
    · exact (h.cached p ⟨c, hold⟩).2 hmem
  · rw [hl.nodup_iff]
    refine List.nodup_append.mpr ⟨hgone, h.leaving, ?_⟩
    rintro p hpg q hq rfl
    exact (h.cached p (hlinked p hpg).1).2 hq
  · intro p hmem
    rw [ha]
    rcases List.mem_append.mp (hl.mem_iff.mp hmem) with hmem | hmem
    · exact (hlinked p hmem).2
    · exact h.linked p hmem

/-- A processor on its way out is unlinked. -/
theorem Placed.pop [DecidableEq P] {s : State P} {done : P} {rest : List (Pointer P)}
    (h : Placed s) (hd : s.deletedProcessors = some done :: rest) :
    Placed { s with
      deletedProcessors := rest, activeProcessors := s.activeProcessors.erase done } := by
  have hleaving : s.leaving.Perm (done :: State.leaving { s with
      deletedProcessors := rest, activeProcessors := s.activeProcessors.erase done }) := by
    rw [State.leaving, hd, List.reduceOption_cons_of_some]
    exact List.perm_middle
  have hnodup := h.leaving
  rw [hleaving.nodup_iff, List.nodup_cons] at hnodup
  have hactive : s.activeProcessors.Nodup := (List.nodup_append.mp h.places).2.1
  have hne : ∀ p, p ≠ done → p ∈ s.activeProcessors → p ∈ s.activeProcessors.erase done :=
    fun p hp hmem => (List.mem_erase_of_ne hp).mpr hmem
  refine ⟨h.alone, h.nodup, h.used, h.apart, ?_, ?_, hnodup.2, ?_⟩
  · exact h.places.sublist (List.Sublist.append_left List.erase_sublist _)
  · intro p hp
    obtain ⟨hplace, hout⟩ := h.cached p hp
    rw [hleaving.mem_iff, List.mem_cons, not_or] at hout
    refine ⟨?_, hout.2⟩
    rcases List.mem_append.mp hplace with hplace | hplace
    · exact List.mem_append_left _ hplace
    · exact List.mem_append_right _ (hne p hout.1 hplace)
  · intro p hp
    have hpd : p ≠ done := fun he => hnodup.1 (he ▸ hp)
    exact hne p hpd (h.linked p (hleaving.mem_iff.mpr (List.mem_cons_of_mem _ hp)))

theorem remove_leaving {s : State P} {c : CacheId} (removed : List (Pointer P))
    (hr : s.removing = [] ∧ s.storing = none) :
    (s.remove c removed).leaving.Perm (removed.reduceOption ++ s.leaving) := by
  obtain ⟨hremoving, hstoring⟩ := hr
  unfold State.remove
  split
  · simp only [State.leaving, hremoving, hstoring, Option.toList_none, List.reduceOption_nil,
      List.nil_append, ← List.append_assoc]
    exact (List.perm_append_comm.append_right _).append_right _
  · simp only [State.leaving, hremoving, hstoring, Option.toList_none, List.reduceOption_nil,
      List.nil_append, List.append_nil, List.append_assoc]
    exact List.Perm.refl _

/-- The script thread gets no further with its push. -/
theorem Placed.abandon {s : State P} (h : Placed s) : Placed { s with storing := none } := by
  have hsub : (State.leaving { s with storing := none }).Sublist s.leaving := by
    unfold State.leaving
    refine List.Sublist.append_right ?_ _
    refine List.Sublist.append_right ?_ _
    refine List.Sublist.append_right ?_ _
    exact List.Sublist.append_left (List.nil_sublist _) _
  refine ⟨h.alone, h.nodup, h.used, h.apart, h.places, ?_, h.leaving.sublist hsub, ?_⟩
  · intro p hp
    obtain ⟨hplace, hout⟩ := h.cached p hp
    exact ⟨hplace, fun hmem => hout (hsub.subset hmem)⟩
  · exact fun p hmem => h.linked p (hsub.subset hmem)

section Caches

variable [DecidableEq P] {s : State P} {c : CacheId}

theorem Placed.created {key : ℤ} {p : P} (h : Placed s) (hpushing : s.pushing = none)
    (hf : ((s.caches c).findObject key).1 = none) (hp : s.New p) :
    Placed { s with
      caches := Function.update s.caches c (((s.caches c).findObject key).2.registerObject key p)
      pushing := some p } := by
  have hobjects := ActiveCache.objects_registerObject p hf
  refine h.create hpushing rfl hp.2 rfl rfl rfl rfl ?_ ?_ ?_ ?_
  · apply World.nodup_update h.nodup
    exact hobjects.nodup_iff.mpr (List.nodup_cons.mpr ⟨fun hc => hp.1 ⟨c, hc⟩, h.nodup c⟩)
  · apply World.used_update h.used
    simpa [ActiveCache.registerObject] using ActiveCache.none_notMem_findObject key (h.used c)
  · exact World.apart_created hobjects hp.1 h.apart
  · rintro x ⟨c', hx⟩
    rcases (World.mem_created hobjects c' x).mp hx with ⟨rfl, -⟩ | hx
    · exact Or.inl rfl
    · exact Or.inr ⟨c', hx⟩

/-- The objects of a cache that the last script run has not used. -/
def unused (s : State P) (c : CacheId) : List P :=
  (ActiveCache.objects (s.caches c).instanceMap).filter
    fun p => some p ∉ (s.caches c).activeScriptObjects

theorem Placed.reduceOption_removed (h : Placed s) :
    (s.caches c).scriptComplete.removed.reduceOption = unused s c := by
  obtain ⟨-, hremoved, -, -⟩ := ActiveCache.completeEntries_spec (h.nodup c) (h.used c)
  simp only [ActiveCache.scriptComplete, hremoved, World.reduceOption_filter, unused]

/-- A completed cache removes what the script run has not used, all of which is linked. -/
theorem Placed.scriptComplete {script : ScriptPC} (h : Placed s)
    (hr : s.removing = [] ∧ s.storing = none) (hmarked : Marked s c) :
    Placed (State.remove c (s.caches c).scriptComplete.removed { s with
      script := script
      caches := Function.update s.caches c (s.caches c).scriptComplete.cache }) := by
  obtain ⟨hmap, -, hactive, -⟩ := ActiveCache.completeEntries_spec (h.nodup c) (h.used c)
  have hcaches : (State.remove c (s.caches c).scriptComplete.removed { s with
      script := script
      caches := Function.update s.caches c (s.caches c).scriptComplete.cache }).caches =
        Function.update s.caches c (s.caches c).scriptComplete.cache := by
    unfold State.remove
    split <;> rfl
  refine h.leave (unused s c) ?_ ((h.nodup c).filter _) ?_ ?_ ?_ ?_ ?_ ?_ ?_
  · unfold State.remove
    split <;> rfl
  · intro p hp
    obtain ⟨hmem, hunused⟩ := List.mem_filter.mp hp
    refine ⟨⟨c, hmem⟩, ?_⟩
    rcases List.mem_append.mp (h.cached p ⟨c, hmem⟩).1 with hplace | hplace
    · exact absurd (hmarked p hmem hplace) (of_decide_eq_true hunused)
    · exact hplace
  · rw [hcaches]
    apply World.nodup_update h.nodup
    simp only [ActiveCache.scriptComplete, hmap]
    exact (h.nodup c).filter _
  · rw [hcaches]
    apply World.used_update h.used
    simp only [ActiveCache.scriptComplete, hactive]
    exact fun hn => h.used c hn.1
  · rw [hcaches]
    intro c' p hp
    rw [World.mem_update] at hp
    split at hp
    · rename_i hc
      subst hc
      simp only [ActiveCache.scriptComplete, hmap, List.mem_filter, decide_eq_true_eq] at hp
      refine ⟨hp.1, fun hu => ?_⟩
      exact of_decide_eq_true (List.mem_filter.mp hu).2 hp.2
    · rename_i hc
      exact ⟨hp, fun hu => hc (h.apart c' c p hp (List.mem_filter.mp hu).1)⟩
  · unfold State.remove
    split <;> rfl
  · unfold State.remove
    split <;> rfl
  · rw [← h.reduceOption_removed]
    exact remove_leaving _ hr

/-- A shutdown removes the OSC outputs, all of which are linked. -/
theorem Placed.removeAll {script : ScriptPC} (h : Placed s)
    (hlinked : ∀ p ∈ ActiveCache.objects (s.caches .oscOutput).instanceMap,
      p ∈ s.activeProcessors) : Placed { s.removeAll with script := script } := by
  have hempty : (s.caches .oscOutput).removeAll.1.instanceMap = [] := rfl
  have hgone : (s.caches .oscOutput).removeAll.2.reduceOption =
      ActiveCache.objects (s.caches .oscOutput).instanceMap := by
    simp only [ActiveCache.removeAll, ActiveCache.objects, List.reduceOption, List.filterMap_map]
    rfl
  refine h.leave (ActiveCache.objects (s.caches .oscOutput).instanceMap) rfl
    (h.nodup .oscOutput) (fun p hp => ⟨⟨.oscOutput, hp⟩, hlinked p hp⟩) ?_ ?_ ?_ rfl rfl ?_
  · apply World.nodup_update h.nodup
    rw [hempty]
    exact List.nodup_nil
  · apply World.used_update h.used
    simp only [ActiveCache.removeAll, ActiveCache.mem_removeEntries]
    exact fun hn => h.used .oscOutput hn.1
  · intro c' p hp
    simp only [State.removeAll, World.mem_update] at hp
    split at hp
    · rw [hempty] at hp
      cases hp
    · rename_i hc
      exact ⟨hp, fun hu => hc (h.apart c' .oscOutput p hp hu)⟩
  · simp only [State.leaving, State.removeAll, hgone, ← List.append_assoc]
    refine List.Perm.append_right _ (List.Perm.append_right _ ?_)
    refine List.perm_append_comm.trans (List.Perm.of_eq ?_)
    simp only [List.append_assoc]

end Caches

end Bipscript.Removal
