import Bipscript.Connect
import Bipscript.ObjectCache
import Mathlib.Data.List.Nodup

/-! Which processors are handed to the collector while others still read from them. -/
namespace Bipscript

open Audio

/-- The caches of processors. -/
inductive CacheId
  | audioInputPort | audioOutputPort | audioStereoInput | mixer | plugin | midiInputPort
  | midiOutputPort | audioBeatTracker | midiBeatTracker | oscOutput | onsetDetector
deriving DecidableEq

variable {P : Type*}

namespace Node

/-- The node holds a connection that `q` owns. -/
def Connected : Node P → P → Prop
  | audioStereoInput _ _, _ => False
  | n, q => n.Stores q

/-- The owners of the connections that `doProcess` reads. -/
def reads : Node P → List P
  | mixer m => ((List.range m.connectedInputs).filterMap m.audioInput).map AudioConnection.source ++
      m.controlConnections.map fun c => c.2.connection.source
  | plugin p => p.midiInputList.reduceOption.map MidiConnection.source ++ p.audioSources ++
      p.controlConnections.map MidiConnection.source
  | audioListener audioInput => audioInput.toList.map AudioConnection.source
  | midiListener midiInput => midiInput.toList.map MidiConnection.source
  | _ => []

/-- `reposition` of a processor, as far as its connections go. -/
def reposition : Node P → Node P
  | mixer m => mixer m.reposition
  | plugin p => plugin { p with controlConnections := [] }
  | n => n

/-- A controller connection is added to a mixer or a plugin. -/
def addController (connection : MidiConnection P) : Node P → Node P
  | mixer m => mixer { m with
      controlConnections := m.controlConnections ++
        [(m.controlConnections.length, ⟨[], connection, 0, 0⟩)] }
  | plugin p => plugin { p with controlConnections := p.controlConnections ++ [connection] }
  | n => n

/-- `connect` of an `AudioOutputPort`, an `audio::BeatTracker` or an `OnsetDetector`. -/
def listen (connection : AudioConnection P) : Node P → Node P
  | audioListener _ => audioListener (some connection)
  | n => n

/-- `connectMidi` of a `midi::BeatTracker`. -/
def listenMidi (connection : MidiConnection P) : Node P → Node P
  | midiListener _ => midiListener (some connection)
  | n => n

theorem connected_of_reads {n : Node P} {q : P} (h : q ∈ n.reads) : n.Connected q := by
  cases n with
  | mixer m =>
    rcases List.mem_append.mp h with h | h
    · obtain ⟨conn, hconn, rfl⟩ := List.mem_map.mp h
      obtain ⟨i, -, hi⟩ := List.mem_filterMap.mp hconn
      exact Or.inl ⟨i, conn, hi, rfl⟩
    · obtain ⟨c, hc, rfl⟩ := List.mem_map.mp h
      exact Or.inr ⟨c, hc, rfl⟩
  | plugin p => exact stores_of_pulls (n := .plugin p) rfl h
  | audioListener audioInput => exact stores_of_pulls (n := .audioListener audioInput) rfl h
  | midiListener midiInput => exact stores_of_pulls (n := .midiListener midiInput) rfl h
  | audioStereoInput _ _ | audioInputPort | midiInputPort | endpoint => cases h

theorem connected_of_reposition {n : Node P} {q : P} (h : n.reposition.Connected q) :
    n.Connected q := by
  cases n with
  | mixer m =>
    rcases h with h | ⟨c, hc, -⟩
    · exact Or.inl h
    · cases hc
  | plugin p =>
    rcases h with h | h | ⟨c, hc, -⟩
    · exact Or.inl h
    · exact Or.inr (Or.inl h)
    · cases hc
  | _ => exact h

theorem connected_of_addController {n : Node P} {connection : MidiConnection P} {q : P}
    (h : (n.addController connection).Connected q) : n.Connected q ∨ q = connection.source := by
  cases n with
  | mixer m =>
    rcases h with h | ⟨c, hc, rfl⟩
    · exact Or.inl (Or.inl h)
    · rcases List.mem_append.mp hc with hc | hc
      · exact Or.inl (Or.inr ⟨c, hc, rfl⟩)
      · cases List.mem_singleton.mp hc
        exact Or.inr rfl
  | plugin p =>
    rcases h with h | h | ⟨c, hc, rfl⟩
    · exact Or.inl (Or.inl h)
    · exact Or.inl (Or.inr (Or.inl h))
    · rcases List.mem_append.mp hc with hc | hc
      · exact Or.inl (Or.inr (Or.inr ⟨c, hc, rfl⟩))
      · cases List.mem_singleton.mp hc
        exact Or.inr rfl
  | _ => exact Or.inl h

/-- What listens, to audio or to MIDI, is connected to its source alone. -/
theorem connected_of_listen {n n' : Node P} {source q : P}
    (hn : (∃ connection, connection.source = source ∧ n' = n.listen connection) ∨
      ∃ connection, connection.source = source ∧ n' = n.listenMidi connection)
    (h : n'.Connected q) : n.Connected q ∨ q = source := by
  rcases hn with ⟨connection, rfl, rfl⟩ | ⟨connection, rfl, rfl⟩ <;> cases n
  case inl.audioListener | inr.midiListener =>
    obtain ⟨conn, he, rfl⟩ := h
    cases he
    exact Or.inr rfl
  all_goals exact Or.inl h

end Node

/-- The script thread's caches and connections, and the engine's lists. `removing` is what a
`scriptComplete` has taken from its cache and not yet passed to `removeProcessor`. -/
structure World (P : Type*) where
  graph : Graph P
  caches : CacheId → ActiveCache P
  removing : List (Pointer P)
  activeProcessors : List P
  deletedProcessors : List (Pointer P)
  collected : List P

/-- The steps of the two threads. -/
inductive Act (P : Type*)
  | factory (c : CacheId) (key : ℤ) (create : Option (P × Node P))
  | connect (call : Graph.Connect P)
  | listen (p : P) (connection : AudioConnection P)
  | listenMidi (p : P) (connection : MidiConnection P)
  | addController (p : P) (connection : MidiConnection P)
  | scriptComplete (c : CacheId)
  | removeObject
  | reposition (attempt : ℕ)
  | period

namespace World

/-- The capacity of `deletedProcessors`. -/
def CAPACITY : ℕ := 16

def initial : World P := ⟨fun _ => .endpoint, fun _ => .empty, [], [], [], []⟩

/-- Registered in a cache and not removed from it: what the script can hold. -/
def Cached (s : World P) (p : P) : Prop :=
  ∃ c, p ∈ ActiveCache.objects (s.caches c).instanceMap

/-- A newly created object is none that is still known. -/
def New (s : World P) (p : P) : Prop :=
  ¬ s.Cached p ∧ some p ∉ s.removing ∧ some p ∉ s.deletedProcessors ∧ p ∉ s.collected

variable [DecidableEq P]

/-- Deleted processors are removed from the engine and handed to the collector. -/
def drain (s : World P) (deleted : List P) : World P :=
  { s with
    activeProcessors := s.activeProcessors.diff deleted
    deletedProcessors := []
    collected := s.collected ++ deleted }

/-- The notification of a first attempt. -/
def notify (s : World P) : World P :=
  { s with
    graph := fun p => if p ∈ s.activeProcessors then (s.graph p).reposition else s.graph p }

/-- The script can use a processor that is cached, and only between removals; the engine cannot take
a null pointer from `deletedProcessors`. -/
inductive Step (depth : ℕ) (s : World P) : Act P → World P → Prop
  | found {c key obj create} (hr : s.removing = [])
      (hf : ((s.caches c).findObject key).1 = some obj) :
      Step depth s (.factory c key create)
        { s with caches := Function.update s.caches c ((s.caches c).findObject key).2 }
  | created {c key p n} (hr : s.removing = []) (hf : ((s.caches c).findObject key).1 = none)
      (hp : s.New p) (hn : ∀ q, ¬ n.Connected q) :
      Step depth s (.factory c key (some (p, n)))
        { s with
          graph := Function.update s.graph p n
          caches := Function.update s.caches c
            (((s.caches c).findObject key).2.registerObject key p)
          activeProcessors := p :: s.activeProcessors }
  | failed {c key} (hr : s.removing = []) (hf : ((s.caches c).findObject key).1 = none) :
      Step depth s (.factory c key none)
        { s with caches := Function.update s.caches c ((s.caches c).findObject key).2 }
  | connect {call g} (hr : s.removing = []) (hp : s.Cached call.receiver)
      (ho : ∀ q ∈ s.graph.offered call, s.Cached q) (hg : (s.graph.perform depth call).Ends g) :
      Step depth s (.connect call) { s with graph := g }
  | listen {p connection} (hr : s.removing = []) (hp : s.Cached p)
      (ho : s.Cached connection.source) :
      Step depth s (.listen p connection)
        { s with graph := Function.update s.graph p ((s.graph p).listen connection) }
  | listenMidi {p connection} (hr : s.removing = []) (hp : s.Cached p)
      (ho : s.Cached connection.source) :
      Step depth s (.listenMidi p connection)
        { s with graph := Function.update s.graph p ((s.graph p).listenMidi connection) }
  | addController {p connection} (hr : s.removing = []) (hp : s.Cached p)
      (ho : s.Cached connection.source) :
      Step depth s (.addController p connection)
        { s with graph := Function.update s.graph p ((s.graph p).addController connection) }
  | scriptComplete {c} (hr : s.removing = []) :
      Step depth s (.scriptComplete c)
        { s with
          caches := Function.update s.caches c (s.caches c).scriptComplete.cache
          removing := (s.caches c).scriptComplete.removed }
  | removeObject {p rest} (hr : s.removing = p :: rest)
      (hq : s.deletedProcessors.length < CAPACITY) :
      Step depth s .removeObject
        { s with removing := rest, deletedProcessors := s.deletedProcessors ++ [p] }
  | reposition {attempt deleted} (hd : s.deletedProcessors = deleted.map some) :
      Step depth s (.reposition attempt)
        (if attempt = 0 then (s.drain deleted).notify else s.drain deleted)
  | period {deleted} (hd : s.deletedProcessors = deleted.map some) :
      Step depth s .period (s.drain deleted)

/-- The objects of a cache that the last script run has not used, in the order of their keys. -/
def unused (s : World P) (c : CacheId) : List P :=
  (ActiveCache.objects (s.caches c).instanceMap).filter
    fun p => some p ∉ (s.caches c).activeScriptObjects

/-- No object that `scriptComplete` is about to remove owns a connection of one that stays cached,
or of one that it removes later. -/
def Kept (s : World P) : Act P → Prop
  | .scriptComplete c =>
    (∀ q ∈ s.unused c, ∀ p, s.Cached p → p ∉ s.unused c → ¬ (s.graph p).Connected q) ∧
      (s.unused c).Pairwise fun q p => ¬ (s.graph p).Connected q
  | _ => True

/-- Each processor is cached, on its way out, or gone, and none still to be read from is ahead on
its way out of one that reads it. -/
structure Orderly (s : World P) : Prop where
  nodup : ∀ c, (ActiveCache.objects (s.caches c).instanceMap).Nodup
  used : ∀ c, none ∉ (s.caches c).activeScriptObjects
  apart : ∀ c c' p, p ∈ ActiveCache.objects (s.caches c).instanceMap →
    p ∈ ActiveCache.objects (s.caches c').instanceMap → c = c'
  cached : ∀ p, s.Cached p →
    some p ∉ s.removing ∧ some p ∉ s.deletedProcessors ∧ p ∉ s.collected
  removing : ∀ p, some p ∈ s.removing → some p ∉ s.deletedProcessors ∧ p ∉ s.collected
  removingNodup : s.removing.reduceOption.Nodup
  active : ∀ p ∈ s.activeProcessors,
    s.Cached p ∨ some p ∈ s.removing ∨ some p ∈ s.deletedProcessors
  activeNodup : s.activeProcessors.Nodup
  owners : ∀ p q, s.Cached p → (s.graph p).Connected q → s.Cached q
  leaving : ∀ p q, some p ∈ s.removing → (s.graph p).Connected q →
    s.Cached q ∨ some q ∈ s.removing
  order : s.removing.reduceOption.Pairwise fun q p => ¬ (s.graph p).Connected q

omit [DecidableEq P] in
theorem orderly_initial : Orderly (P := P) .initial := by
  constructor <;> simp [initial, ActiveCache.empty, ActiveCache.objects, Cached]

section Steps

variable {s : World P} {c : CacheId}

omit [DecidableEq P] in
/-- Connections change, and new ones are owned by cached processors. -/
theorem Orderly.connect {g : Graph P} (hs : s.Orderly) (hr : s.removing = [])
    (hg : ∀ p q, (g p).Connected q → (s.graph p).Connected q ∨ s.Cached q) :
    Orderly { s with graph := g } where
  nodup := hs.nodup
  used := hs.used
  apart := hs.apart
  cached := hs.cached
  removing := hs.removing
  removingNodup := hs.removingNodup
  active := hs.active
  activeNodup := hs.activeNodup
  owners := by
    intro p q hp hq
    rcases hg p q hq with hq | hq
    · exact hs.owners p q hp hq
    · exact hq
  leaving := by simp [hr]
  order := by simp [hr]

/-- One node changes so. -/
theorem Orderly.connect_node {p : P} {n : Node P} (hs : s.Orderly) (hr : s.removing = [])
    {o : P} (ho : s.Cached o) (hn : ∀ q, n.Connected q → (s.graph p).Connected q ∨ q = o) :
    Orderly { s with graph := Function.update s.graph p n } := by
  refine hs.connect hr fun x q hq => ?_
  by_cases hx : x = p
  · subst hx
    rw [Function.update_self] at hq
    rcases hn q hq with h | rfl
    · exact Or.inl h
    · exact Or.inr ho
  · rw [Function.update_of_ne hx] at hq
    exact Or.inl hq

theorem connected_of_perform {g : Graph P} {call : Graph.Connect P} {depth : ℕ}
    (hg : (s.graph.perform depth call).Ends g) (ho : ∀ q ∈ s.graph.offered call, s.Cached q) :
    ∀ p q, (g p).Connected q → (s.graph p).Connected q ∨ s.Cached q := by
  obtain ⟨hothers, hstores⟩ := Graph.perform_ends hg
  intro p q hq
  by_cases hp : p = call.receiver
  · subst hp
    have hq' : g.Stores call.receiver q := by
      cases hn : g call.receiver <;> rw [hn] at hq <;> simp only [Graph.Stores, hn] <;>
        first | exact hq | cases hq
    rcases hstores q hq' with hold | hnew
    · rcases Graph.perform_receiver hg with ⟨m, hm⟩ | ⟨pl, hpl⟩
      · simp only [Graph.Stores, hm] at hold
        exact Or.inl (by rw [hm]; exact hold)
      · simp only [Graph.Stores, hpl] at hold
        exact Or.inl (by rw [hpl]; exact hold)
    · exact Or.inr (ho q hnew.1)
  · rw [hothers p hp] at hq
    exact Or.inl hq

/-! What holds of the caches once one of them is replaced -/

section Update

omit [DecidableEq P]

variable {caches : CacheId → ActiveCache P} {cache : ActiveCache P} {p : P}

theorem nodup_update (h : ∀ c, (ActiveCache.objects (caches c).instanceMap).Nodup)
    (hn : (ActiveCache.objects cache.instanceMap).Nodup) :
    ∀ c', (ActiveCache.objects (Function.update caches c cache c').instanceMap).Nodup :=
  (Function.forall_update_iff caches
    fun _ cache => (ActiveCache.objects cache.instanceMap).Nodup).mpr ⟨hn, fun c' _ => h c'⟩

theorem used_update (h : ∀ c, none ∉ (caches c).activeScriptObjects)
    (hu : none ∉ cache.activeScriptObjects) :
    ∀ c', none ∉ (Function.update caches c cache c').activeScriptObjects :=
  (Function.forall_update_iff caches
    fun _ cache => none ∉ cache.activeScriptObjects).mpr ⟨hu, fun c' _ => h c'⟩

theorem mem_update {c' : CacheId} {x : P} :
    x ∈ ActiveCache.objects (Function.update caches c cache c').instanceMap ↔
      if c' = c then x ∈ ActiveCache.objects cache.instanceMap
      else x ∈ ActiveCache.objects (caches c').instanceMap := by
  by_cases hc : c' = c
  · subst hc
    simp
  · simp [hc]

theorem mem_created
    (ho : (ActiveCache.objects cache.instanceMap).Perm
      (p :: ActiveCache.objects (caches c).instanceMap)) (c' : CacheId) (x : P) :
    x ∈ ActiveCache.objects (Function.update caches c cache c').instanceMap ↔
      (x = p ∧ c' = c) ∨ x ∈ ActiveCache.objects (caches c').instanceMap := by
  rw [mem_update]
  split
  · rename_i hc
    subst hc
    simp [ho.mem_iff]
  · rename_i hc
    simp [hc]

/-- What is new to all the caches is in none but the one that it is registered with. -/
theorem apart_created
    (ho : (ActiveCache.objects cache.instanceMap).Perm
      (p :: ActiveCache.objects (caches c).instanceMap))
    (hnew : ¬ ∃ c, p ∈ ActiveCache.objects (caches c).instanceMap)
    (hapart : ∀ c c' x, x ∈ ActiveCache.objects (caches c).instanceMap →
      x ∈ ActiveCache.objects (caches c').instanceMap → c = c') (c' c'' : CacheId) (x : P)
    (h : x ∈ ActiveCache.objects (Function.update caches c cache c').instanceMap)
    (h' : x ∈ ActiveCache.objects (Function.update caches c cache c'').instanceMap) :
    c' = c'' := by
  rw [mem_created ho] at h h'
  rcases h with ⟨rfl, rfl⟩ | h
  · rcases h' with ⟨-, rfl⟩ | h'
    · rfl
    · exact absurd ⟨c'', h'⟩ hnew
  · rcases h' with ⟨rfl, -⟩ | h'
    · exact absurd ⟨c', h⟩ hnew
    · exact hapart c' c'' x h h'

end Update

omit [DecidableEq P] in
/-- A cache is read, and holds the objects it held. -/
theorem Orderly.touch {cache : ActiveCache P} (hs : s.Orderly)
    (ho : ActiveCache.objects cache.instanceMap = ActiveCache.objects (s.caches c).instanceMap)
    (hu : none ∉ cache.activeScriptObjects) :
    Orderly { s with caches := Function.update s.caches c cache } := by
  have hmem : ∀ c' x, x ∈ ActiveCache.objects (Function.update s.caches c cache c').instanceMap ↔
      x ∈ ActiveCache.objects (s.caches c').instanceMap := by
    intro c' x
    rw [mem_update, ho]
    split
    · rename_i hc
      rw [hc]
    · exact Iff.rfl
  have hcached : ∀ p, Cached { s with caches := Function.update s.caches c cache } p ↔ s.Cached p :=
    fun p => exists_congr fun c' => hmem c' p
  exact { hs with
    nodup := nodup_update hs.nodup (ho ▸ hs.nodup c)
    used := used_update hs.used hu
    apart := fun c' c'' p h h' => hs.apart c' c'' p ((hmem c' p).mp h) ((hmem c'' p).mp h')
    cached := fun p hp => hs.cached p ((hcached p).mp hp)
    active := fun p hp => (hs.active p hp).imp_left (hcached p).mpr
    owners := fun p q hp hq => (hcached q).mpr (hs.owners p q ((hcached p).mp hp) hq)
    leaving := fun p q hp hq => (hs.leaving p q hp hq).imp_left (hcached q).mpr }

section Create

variable {cache : ActiveCache P} {p : P} {n : Node P}

omit [DecidableEq P] in
theorem cached_created {graph : Graph P} {activeProcessors : List P}
    (ho : (ActiveCache.objects cache.instanceMap).Perm
      (p :: ActiveCache.objects (s.caches c).instanceMap)) (x : P) :
    Cached { s with
      graph := graph, caches := Function.update s.caches c cache
      activeProcessors := activeProcessors } x ↔ x = p ∨ s.Cached x := by
  simp only [Cached, mem_created ho]
  constructor
  · rintro ⟨c', ⟨hx, -⟩ | hx⟩
    · exact Or.inl hx
    · exact Or.inr ⟨c', hx⟩
  · rintro (hx | ⟨c', hx⟩)
    · exact ⟨c, Or.inl ⟨hx, rfl⟩⟩
    · exact ⟨c', Or.inr hx⟩

/-- A new processor is registered. -/
theorem Orderly.create (hs : s.Orderly) (hr : s.removing = [])
    (ho : (ActiveCache.objects cache.instanceMap).Perm
      (p :: ActiveCache.objects (s.caches c).instanceMap))
    (hu : none ∉ cache.activeScriptObjects) (hp : s.New p) (hn : ∀ q, ¬ n.Connected q) :
    Orderly { s with
      graph := Function.update s.graph p n
      caches := Function.update s.caches c cache
      activeProcessors := p :: s.activeProcessors } where
  nodup := by
    apply nodup_update hs.nodup
    exact ho.nodup_iff.mpr (List.nodup_cons.mpr ⟨fun h => hp.1 ⟨c, h⟩, hs.nodup c⟩)
  used := used_update hs.used hu
  apart := apart_created ho hp.1 hs.apart
  cached := by
    intro x hx
    rcases (cached_created ho x).mp hx with rfl | hx
    · exact hp.2
    · exact hs.cached x hx
  removing := hs.removing
  removingNodup := hs.removingNodup
  active := by
    intro x hx
    rw [cached_created ho]
    rcases List.mem_cons.mp hx with rfl | hx
    · exact Or.inl (Or.inl rfl)
    · exact (hs.active x hx).imp_left Or.inr
  activeNodup := by
    refine List.nodup_cons.mpr ⟨fun h => ?_, hs.activeNodup⟩
    obtain ⟨hpc, hpr, hpd, -⟩ := hp
    rcases hs.active p h with h | h | h
    · exact hpc h
    · exact hpr h
    · exact hpd h
  owners := by
    intro x q hx hq
    rw [cached_created ho] at hx ⊢
    by_cases hxp : x = p
    · subst hxp
      simp only [Function.update_self] at hq
      exact absurd hq (hn q)
    · simp only [Function.update_of_ne hxp] at hq
      exact Or.inr (hs.owners x q (hx.resolve_left hxp) hq)
  leaving := by simp [hr]
  order := by simp [hr]

end Create

/-- What a cache keeps and what it removes, when its script has completed. -/
theorem mem_completed (hs : s.Orderly) (p : P) :
    (p ∈ ActiveCache.objects (s.caches c).scriptComplete.cache.instanceMap ↔
        p ∈ ActiveCache.objects (s.caches c).instanceMap ∧ p ∉ s.unused c) ∧
      (some p ∈ (s.caches c).scriptComplete.removed ↔ p ∈ s.unused c) := by
  obtain ⟨hmap, hremoved, -, -⟩ :=
    ActiveCache.completeEntries_spec (hs.nodup c) (hs.used c)
  constructor
  · simp only [ActiveCache.scriptComplete, hmap, unused, List.mem_filter, decide_eq_true_eq,
      not_and, not_not]
    exact and_congr_right fun h => ⟨fun hu _ => hu, fun hu => hu h⟩
  · simp [ActiveCache.scriptComplete, hremoved, unused, ActiveCache.mem_objects]

omit [DecidableEq P] in
theorem reduceOption_filter (map : List (ℤ × Pointer P)) (keep : Pointer P → Bool) :
    ((map.map Prod.snd).filter keep).reduceOption =
      (ActiveCache.objects map).filter fun p => keep (some p) := by
  induction map with
  | nil => rfl
  | cons entry rest ih =>
    obtain ⟨key, p⟩ := entry
    cases p with
    | none =>
      simp only [List.map_cons, List.filter_cons, ActiveCache.objects_cons]
      split
      · exact ih
      · exact ih
    | some p =>
      simp only [List.map_cons, List.filter_cons, ActiveCache.objects_cons, Option.toList_some,
        List.singleton_append]
      split
      · exact congrArg (p :: ·) ih
      · exact ih

theorem reduceOption_removed (hs : s.Orderly) :
    (s.caches c).scriptComplete.removed.reduceOption = s.unused c := by
  obtain ⟨-, hremoved, -, -⟩ := ActiveCache.completeEntries_spec (hs.nodup c) (hs.used c)
  simp only [ActiveCache.scriptComplete, hremoved, reduceOption_filter, unused]

theorem mem_of_unused {p : P} (h : p ∈ s.unused c) :
    p ∈ ActiveCache.objects (s.caches c).instanceMap :=
  (List.mem_filter.mp h).1

theorem mem_after_completed (hs : s.Orderly) (c' : CacheId) (p : P) :
    p ∈ ActiveCache.objects (Function.update s.caches c
      (s.caches c).scriptComplete.cache c').instanceMap ↔
        p ∈ ActiveCache.objects (s.caches c').instanceMap ∧ p ∉ s.unused c := by
  rw [mem_update]
  split
  · rename_i hc
    subst hc
    exact (mem_completed hs p).1
  · rename_i hc
    exact ⟨fun h => ⟨h, fun hu => hc (hs.apart c' c p h (mem_of_unused hu))⟩, fun h => h.1⟩

theorem cached_after_completed (hs : s.Orderly) (p : P) :
    Cached { s with
      caches := Function.update s.caches c (s.caches c).scriptComplete.cache
      removing := (s.caches c).scriptComplete.removed } p ↔ s.Cached p ∧ p ∉ s.unused c := by
  simp only [Cached, mem_after_completed hs]
  exact exists_and_right

theorem Orderly.scriptComplete (hs : s.Orderly) (hr : s.removing = [])
    (hk : s.Kept (.scriptComplete c)) :
    Orderly { s with
      caches := Function.update s.caches c (s.caches c).scriptComplete.cache
      removing := (s.caches c).scriptComplete.removed } where
  nodup := by
    obtain ⟨hmap, -, -, -⟩ := ActiveCache.completeEntries_spec (hs.nodup c) (hs.used c)
    apply nodup_update hs.nodup
    simp only [ActiveCache.scriptComplete, hmap]
    exact (hs.nodup c).filter _
  used := by
    obtain ⟨-, -, hactive, -⟩ := ActiveCache.completeEntries_spec (hs.nodup c) (hs.used c)
    apply used_update hs.used
    simp only [ActiveCache.scriptComplete, hactive]
    exact fun h => hs.used c h.1
  apart := by
    intro c' c'' p h h'
    rw [mem_after_completed hs] at h h'
    exact hs.apart c' c'' p h.1 h'.1
  cached := by
    intro p hp
    obtain ⟨hp, hn⟩ := (cached_after_completed hs p).mp hp
    obtain ⟨-, hd, hk⟩ := hs.cached p hp
    exact ⟨fun h => hn ((mem_completed hs p).2.mp h), hd, hk⟩
  removing := by
    intro p hp
    obtain ⟨-, hd, hk⟩ := hs.cached p ⟨c, mem_of_unused ((mem_completed hs p).2.mp hp)⟩
    exact ⟨hd, hk⟩
  removingNodup := by
    simp only [reduceOption_removed hs]
    exact (hs.nodup c).filter _
  active := by
    intro p hp
    rw [cached_after_completed hs]
    rcases hs.active p hp with h | h | h
    · by_cases hu : p ∈ s.unused c
      · exact Or.inr (Or.inl ((mem_completed hs p).2.mpr hu))
      · exact Or.inl ⟨h, hu⟩
    · simp [hr] at h
    · exact Or.inr (Or.inr h)
  activeNodup := hs.activeNodup
  owners := by
    intro p q hp hq
    rw [cached_after_completed hs] at hp ⊢
    exact ⟨hs.owners p q hp.1 hq, fun hu => hk.1 q hu p hp.1 hp.2 hq⟩
  leaving := by
    intro p q hp hq
    rw [cached_after_completed hs]
    have hq' := hs.owners p q ⟨c, mem_of_unused ((mem_completed hs p).2.mp hp)⟩ hq
    by_cases hu : q ∈ s.unused c
    · exact Or.inr ((mem_completed hs q).2.mpr hu)
    · exact Or.inl ⟨hq', hu⟩
  order := by
    simp only [reduceOption_removed hs]
    exact hk.2

omit [DecidableEq P] in
theorem Orderly.removeObject {p : Pointer P} {rest : List (Pointer P)} (hs : s.Orderly)
    (hr : s.removing = p :: rest) :
    Orderly { s with removing := rest, deletedProcessors := s.deletedProcessors ++ [p] } := by
  have hrest : ∀ x, some x ∈ rest → some x ∈ s.removing :=
    fun x hx => hr ▸ List.mem_cons_of_mem _ hx
  have hsub : rest.reduceOption.Sublist s.removing.reduceOption := by
    rw [hr]
    exact (List.sublist_cons_self p rest).filterMap _
  have hdeleted : ∀ x, some x ∉ s.deletedProcessors → some x ≠ p →
      some x ∉ s.deletedProcessors ++ [p] := by
    intro x hx hne hmem
    rcases List.mem_append.mp hmem with hmem | hmem
    · exact hx hmem
    · exact hne (List.mem_singleton.mp hmem)
  -- nothing that stays in `removing` is pushed now
  have hne : ∀ x, some x ∈ rest → some x ≠ p := by
    rintro x hx rfl
    have hd := hs.removingNodup
    rw [hr, List.reduceOption_cons_of_some, List.nodup_cons] at hd
    exact hd.1 (List.reduceOption_mem_iff.mpr hx)
  refine { hs with
    cached := ?cached, removing := ?removing, removingNodup := hs.removingNodup.sublist hsub
    active := ?active, leaving := ?leaving, order := hs.order.sublist hsub }
  case cached =>
    intro x hx
    obtain ⟨hxr, hxd, hxk⟩ := hs.cached x hx
    refine ⟨fun h => hxr (hrest x h), hdeleted x hxd ?_, hxk⟩
    rintro rfl
    exact hxr (hr ▸ List.mem_cons_self)
  case removing =>
    intro x hx
    obtain ⟨hxd, hxk⟩ := hs.removing x (hrest x hx)
    exact ⟨hdeleted x hxd (hne x hx), hxk⟩
  case active =>
    intro x hx
    rcases hs.active x hx with h | h | h
    · exact Or.inl h
    · rw [hr] at h
      rcases List.mem_cons.mp h with h | h
      · exact Or.inr (Or.inr (by simp [h]))
      · exact Or.inr (Or.inl h)
    · exact Or.inr (Or.inr (List.mem_append_left _ h))
  case leaving =>
    intro x q hx hq
    rcases hs.leaving x q (hrest x hx) hq with h | h
    · exact Or.inl h
    · rw [hr] at h
      rcases List.mem_cons.mp h with rfl | h
      · have ho := hs.order
        rw [hr, List.reduceOption_cons_of_some, List.pairwise_cons] at ho
        exact absurd hq (ho.1 x (List.reduceOption_mem_iff.mpr hx))
      · exact Or.inr h

theorem Orderly.drain {deleted : List P} (hs : s.Orderly)
    (hd : s.deletedProcessors = deleted.map some) : Orderly (s.drain deleted) := by
  have hin : ∀ p, p ∈ deleted ↔ some p ∈ s.deletedProcessors := by simp [hd]
  refine ⟨hs.nodup, hs.used, hs.apart, ?_, ?_, hs.removingNodup, ?_, ?_, hs.owners, hs.leaving,
    hs.order⟩
  · intro p hp
    obtain ⟨hr, hn, hk⟩ := hs.cached p hp
    refine ⟨hr, List.not_mem_nil, ?_⟩
    simp only [World.drain, List.mem_append, not_or]
    exact ⟨hk, fun h => hn ((hin p).mp h)⟩
  · intro p hp
    obtain ⟨hn, hk⟩ := hs.removing p hp
    refine ⟨List.not_mem_nil, ?_⟩
    simp only [World.drain, List.mem_append, not_or]
    exact ⟨hk, fun h => hn ((hin p).mp h)⟩
  · intro p hp
    obtain ⟨hp, hn⟩ := (hs.activeNodup.mem_sdiff_iff).mp hp
    rcases hs.active p hp with h | h | h
    · exact Or.inl h
    · exact Or.inr (Or.inl h)
    · exact absurd ((hin p).mpr h) hn
  · exact hs.activeNodup.diff

theorem Orderly.notify (hs : s.Orderly) : Orderly s.notify := by
  have hnode : ∀ p q, (s.notify.graph p).Connected q → (s.graph p).Connected q := by
    intro p q hq
    simp only [World.notify] at hq
    split at hq
    · exact Node.connected_of_reposition hq
    · exact hq
  refine ⟨hs.nodup, hs.used, hs.apart, hs.cached, hs.removing, hs.removingNodup, hs.active,
    hs.activeNodup, ?_, ?_, ?_⟩
  · exact fun p q hp hq => hs.owners p q hp (hnode p q hq)
  · exact fun p q hp hq => hs.leaving p q hp (hnode p q hq)
  · exact hs.order.imp fun h hq => h (hnode _ _ hq)

theorem orderly_step {depth : ℕ} {a : Act P} {t : World P} (hs : s.Orderly) (hk : s.Kept a)
    (h : Step depth s a t) : t.Orderly := by
  cases h with
  | found hr hf =>
    exact hs.touch (ActiveCache.objects_findObject _ _)
      (ActiveCache.none_notMem_findObject _ (hs.used _))
  | created hr hf hp hn =>
    refine hs.create hr (ActiveCache.objects_registerObject _ hf) ?_ hp hn
    simpa [ActiveCache.registerObject] using ActiveCache.none_notMem_findObject _ (hs.used _)
  | failed hr hf =>
    exact hs.touch (ActiveCache.objects_findObject _ _)
      (ActiveCache.none_notMem_findObject _ (hs.used _))
  | connect hr hp ho hg => exact hs.connect hr (connected_of_perform hg ho)
  | listen hr hp ho =>
    exact hs.connect_node hr ho fun q hq => Node.connected_of_listen (.inl ⟨_, rfl, rfl⟩) hq
  | listenMidi hr hp ho =>
    exact hs.connect_node hr ho fun q hq => Node.connected_of_listen (.inr ⟨_, rfl, rfl⟩) hq
  | addController hr hp ho =>
    exact hs.connect_node hr ho fun q hq => Node.connected_of_addController hq
  | scriptComplete hr => exact hs.scriptComplete hr hk
  | removeObject hr hq => exact hs.removeObject hr
  | reposition hd =>
    split
    · exact (hs.drain hd).notify
    · exact hs.drain hd
  | period hd => exact hs.drain hd

end Steps

/-- In every run in which scripts keep what is still read, no active processor reads, in any period,
a connection of one that has been handed to the collector. -/
theorem reads_uncollected {depth : ℕ} {acts : List (Act P)} {s t : World P}
    (h : Transition.Run (Transition.restrict Kept (Step depth)) .initial acts s)
    (hp : Step depth s .period t) :
    ∀ p ∈ t.activeProcessors, ∀ q ∈ (t.graph p).reads, q ∉ t.collected := by
  have hstart : s.Orderly := h.invariant_restrict (I := Orderly) orderly_step orderly_initial
  have hs : t.Orderly := orderly_step (a := .period) hstart trivial hp
  intro p hpa q hq
  have hconn := Node.connected_of_reads hq
  have hempty : t.deletedProcessors = [] := by
    cases hp
    rfl
  rcases hs.active p hpa with h | h | h
  · exact (hs.cached q (hs.owners p q h hconn)).2.2
  · rcases hs.leaving p q h hconn with h | h
    · exact (hs.cached q h).2.2
    · exact (hs.removing q h).2
  · rw [hempty] at h
    cases h

/-- A script run that reads an input port through an output port. -/
def patch : List (Act ℕ) :=
  [.factory .audioInputPort 0 (some (0, .audioInputPort)),
    .factory .audioOutputPort 1 (some (1, .audioListener none)), .listen 1 ⟨0, 0⟩,
    .scriptComplete .audioInputPort, .scriptComplete .audioOutputPort]

theorem kept_of_unused {s : World ℕ} {c : CacheId} (h : s.unused c = []) :
    s.Kept (.scriptComplete c) := by
  simp [Kept, h]

theorem new_of_not_known {s : World ℕ} {p : ℕ}
    (hc : ∀ c, p ∉ ActiveCache.objects (s.caches c).instanceMap) (hr : some p ∉ s.removing)
    (hd : some p ∉ s.deletedProcessors) (hk : p ∉ s.collected) : s.New p :=
  ⟨fun ⟨c, h⟩ => hc c h, hr, hd, hk⟩

/-- After it both ports are cached and active, and one reads the other. -/
structure Patched (s : World ℕ) : Prop where
  input : s.caches .audioInputPort = ⟨[(0, some 0)], ∅⟩
  output : s.caches .audioOutputPort = ⟨[(1, some 1)], ∅⟩
  graph : s.graph 1 = .audioListener (some ⟨0, 0⟩)
  active : s.activeProcessors = [1, 0]
  removing : s.removing = []
  deleted : s.deletedProcessors = []

theorem patch_run :
    ∃ s, Transition.Run (Transition.restrict Kept (Step 1)) .initial patch s ∧ Patched s := by
  refine ⟨_, .stepL ⟨trivial, .created rfl rfl (new_of_not_known ?_ ?_ ?_ ?_) ?_⟩
    (.stepL ⟨trivial, .created rfl rfl (new_of_not_known ?_ ?_ ?_ ?_) ?_⟩
    (.stepL ⟨trivial, .listen rfl ⟨.audioOutputPort, ?_⟩ ⟨.audioInputPort, ?_⟩⟩
    (.stepL ⟨kept_of_unused ?_, .scriptComplete rfl⟩
      (.single ⟨kept_of_unused ?_, .scriptComplete rfl⟩)))), ?_⟩
  · intro c
    cases c <;> decide
  · decide
  · decide
  · decide
  · rintro q ⟨⟩
  · intro c
    cases c <;> decide
  · decide
  · decide
  · decide
  · rintro q ⟨_, ⟨⟩, _⟩
  · decide
  · decide
  · decide
  · decide
  · exact ⟨rfl, rfl, rfl, rfl, rfl, rfl⟩

theorem reads_uncollected_patch :
    ∃ s t, Transition.Run (Step 1) .initial patch s ∧ Step 1 s .period t ∧
      ∀ p ∈ t.activeProcessors, ∀ q ∈ (t.graph p).reads, q ∉ t.collected := by
  obtain ⟨s, hs, hp⟩ := patch_run
  have ht : Step 1 s .period (s.drain []) := .period hp.deleted
  exact ⟨s, _, hs.of_restrict, ht, reads_uncollected hs ht⟩

/-- The next script run uses only the output port: the input port is removed and handed to the
collector, and the output port still reads from it. -/
theorem reads_collected :
    ∃ s t, Transition.Run (Step 1) .initial
        (patch ++ [.factory .audioOutputPort 1 none, .scriptComplete .audioInputPort,
          .removeObject])
        s ∧ Step 1 s .period t ∧
      ¬ ∀ p ∈ t.activeProcessors, ∀ q ∈ (t.graph p).reads, q ∉ t.collected := by
  obtain ⟨s, hs, hp⟩ := patch_run
  have hfound : ((s.caches .audioOutputPort).findObject 1).1 = some 1 := by
    rw [hp.output]
    rfl
  obtain ⟨s₁, hs₁, hinput, hgraph₁, hactive₁, hr₁, hd₁⟩ :
      ∃ s₁, Step 1 s (.factory .audioOutputPort 1 none) s₁ ∧
        s₁.caches .audioInputPort = ⟨[(0, some 0)], ∅⟩ ∧ s₁.graph = s.graph ∧
        s₁.activeProcessors = [1, 0] ∧ s₁.removing = [] ∧ s₁.deletedProcessors = [] :=
    ⟨_, .found hp.removing hfound, hp.input, rfl, hp.active, hp.removing, hp.deleted⟩
  obtain ⟨s₂, hs₂, hgraph₂, hactive₂, hr₂, hd₂⟩ :
      ∃ s₂, Step 1 s₁ (.scriptComplete .audioInputPort) s₂ ∧ s₂.graph = s.graph ∧
        s₂.activeProcessors = [1, 0] ∧ s₂.removing = [some 0] ∧ s₂.deletedProcessors = [] := by
    refine ⟨_, .scriptComplete hr₁, hgraph₁, hactive₁, ?_, hd₁⟩
    simp only [hinput]
    rfl
  obtain ⟨s₃, hs₃, hgraph₃, hactive₃, hd₃⟩ :
      ∃ s₃, Step 1 s₂ .removeObject s₃ ∧ s₃.graph = s.graph ∧
        s₃.activeProcessors = [1, 0] ∧ s₃.deletedProcessors = [0].map some :=
    ⟨_, .removeObject hr₂ (by simp [hd₂, CAPACITY]), hgraph₂, hactive₂, by simp [hd₂]⟩
  refine ⟨s₃, _, hs.of_restrict.append (.stepL hs₁ (.stepL hs₂ (.single hs₃))), .period hd₃, ?_⟩
  intro h
  refine h 1 ?_ 0 ?_ ?_
  · simp [drain, hactive₃]
  · simp [drain, hgraph₃, hp.graph, Node.reads]
  · simp [drain]

end World

end Bipscript
