import Bipscript.BeatTrackers
import Mathlib.Data.List.Infix

/-! Which trackers the engine still has when their master is gone: those on their way out, and those
of a cache that the loop of `waitForRestart` comes to after the master's. -/
namespace Bipscript.BeatTrackers

open Transition Transport ActiveCache

/-- The loop of `waitForRestart` is past the master's cache, and not yet at the trackers'. -/
def Doomed (script : Script) (kind : Kind) : Prop :=
  ∃ rest activeObjects, script = .completing rest activeObjects ∧ .master ∉ rest ∧
    .beatTracker kind ∈ rest

/-- Its `removeObject` was called. -/
def Leaving (s : State) (p : ℕ) : Prop := some p ∈ s.removing ++ s.deletedProcessors

/-- On its way out of the engine's list, or about to be. -/
def Departing (s : State) (p : ℕ) : Prop :=
  Leaving s p ∨ ∃ kind, p ∈ objects (s.cache kind).instanceMap ∧ Doomed s.script kind

/-- The trackers of a cache were created, and those marked are current. -/
structure Sound (c : ActiveCache ℕ) (trackers : ℕ) (current : Finset ℕ) : Prop where
  nodup : (objects c.instanceMap).Nodup
  null : none ∉ c.activeScriptObjects
  marked : ∀ p, some p ∈ c.activeScriptObjects → p ∈ objects c.instanceMap ∧ p ∈ current
  numbered : ∀ p ∈ objects c.instanceMap, p < trackers

namespace Sound

variable {c : ActiveCache ℕ} {trackers : ℕ} {current : Finset ℕ}

theorem mono (h : Sound c trackers current) {current' : Finset ℕ} (hc : current ⊆ current') :
    Sound c trackers current' :=
  ⟨h.nodup, h.null, fun p hp => ⟨(h.marked p hp).1, hc (h.marked p hp).2⟩, h.numbered⟩

theorem found (h : Sound c trackers current) {tracker : ℕ}
    (hf : (c.findObject 1).1 = some tracker) :
    tracker ∈ objects c.instanceMap ∧
      Sound (c.findObject 1).2 trackers (insert tracker current) := by
  unfold ActiveCache.findObject at hf ⊢
  cases hr : (subscript 1 c.instanceMap).1 with
  | none => simp [hr] at hf
  | some obj =>
    simp only [hr] at hf ⊢
    cases hf
    have hmem := mem_objects_of_subscript hr
    refine ⟨hmem, ?_, ?_, ?_, ?_⟩
    · rw [objects_subscript]
      exact h.nodup
    · rw [Finset.mem_insert]
      rintro (hnone | hnone)
      · cases hnone
      · exact h.null hnone
    · intro p hp
      rw [objects_subscript]
      rcases Finset.mem_insert.mp hp with heq | hp
      · cases heq
        exact ⟨hmem, Finset.mem_insert_self _ _⟩
      · exact ⟨(h.marked p hp).1, Finset.mem_insert_of_mem (h.marked p hp).2⟩
    · rw [objects_subscript]
      exact h.numbered

/-- On a miss `findObject` leaves a null pointer, and marks nothing. -/
theorem missed (h : Sound c trackers current) (hf : (c.findObject 1).1 = none) :
    Sound (c.findObject 1).2 trackers current ∧
      (c.findObject 1).2.activeScriptObjects = c.activeScriptObjects := by
  have hmarks : (c.findObject 1).2.activeScriptObjects = c.activeScriptObjects := by
    unfold ActiveCache.findObject at hf ⊢
    cases hr : (subscript 1 c.instanceMap).1 with
    | none => simp only [hr]
    | some obj => simp [hr] at hf
  refine ⟨⟨?_, hmarks ▸ h.null, ?_, ?_⟩, hmarks⟩
  · rw [objects_findObject]
    exact h.nodup
  · intro p hp
    rw [objects_findObject]
    exact h.marked p (hmarks ▸ hp)
  · rw [objects_findObject]
    exact h.numbered

/-- A tracker just created is registered. -/
theorem registered (h : Sound c trackers current) (hf : (c.findObject 1).1 = none)
    (hc : trackers ∈ current) :
    (∀ p, p ∈ objects ((c.findObject 1).2.registerObject 1 trackers).instanceMap ↔
      p = trackers ∨ p ∈ objects c.instanceMap) ∧
    Sound ((c.findObject 1).2.registerObject 1 trackers) (trackers + 1) current := by
  have hperm : (objects ((c.findObject 1).2.registerObject 1 trackers).instanceMap).Perm
      (trackers :: objects c.instanceMap) := objects_registerObject trackers hf
  have hmem : ∀ p, p ∈ objects ((c.findObject 1).2.registerObject 1 trackers).instanceMap ↔
      p = trackers ∨ p ∈ objects c.instanceMap := by
    intro p
    rw [hperm.mem_iff, List.mem_cons]
  obtain ⟨hsound, hmarks⟩ := h.missed hf
  refine ⟨hmem, ?_, ?_, ?_, ?_⟩
  · rw [hperm.nodup_iff, List.nodup_cons]
    exact ⟨fun hold => absurd (h.numbered trackers hold) (Nat.lt_irrefl _), h.nodup⟩
  · intro hnone
    rcases Finset.mem_insert.mp hnone with hnone | hnone
    · cases hnone
    · exact hsound.null hnone
  · intro p hp
    rcases Finset.mem_insert.mp hp with heq | hp
    · cases heq
      exact ⟨(hmem trackers).mpr (.inl rfl), hc⟩
    · rw [hmarks] at hp
      exact ⟨(hmem p).mpr (.inr (h.marked p hp).1), (h.marked p hp).2⟩
  · intro p hp
    rcases (hmem p).mp hp with rfl | hp
    · exact Nat.lt_succ_self _
    · exact Nat.lt_succ_of_lt (h.numbered p hp)

/-- What is not marked is removed, and what stays is current. -/
theorem completed (h : Sound c trackers current) :
    Sound c.scriptComplete.cache trackers current ∧
      c.scriptComplete.cache.activeScriptObjects = ∅ ∧
      (∀ p ∈ objects c.scriptComplete.cache.instanceMap, p ∈ current) ∧
      ∀ p ∈ objects c.instanceMap,
        p ∈ objects c.scriptComplete.cache.instanceMap ∨ some p ∈ c.scriptComplete.removed := by
  obtain ⟨hmap, hremoved, hactive, -⟩ := completeEntries_spec h.nodup h.null
  change objects c.scriptComplete.cache.instanceMap = _ at hmap
  change c.scriptComplete.removed = _ at hremoved
  change ∀ p, p ∈ c.scriptComplete.cache.activeScriptObjects ↔ _ at hactive
  have hempty : c.scriptComplete.cache.activeScriptObjects = ∅ := by
    apply Finset.eq_empty_of_forall_notMem
    intro p hp
    obtain ⟨hp, hne⟩ := (hactive p).mp hp
    cases p with
    | none => exact h.null hp
    | some p => exact hne p (h.marked p hp).1 rfl
  have hstay : ∀ p, p ∈ objects c.scriptComplete.cache.instanceMap ↔
      p ∈ objects c.instanceMap ∧ some p ∈ c.activeScriptObjects := by
    intro p
    rw [hmap, List.mem_filter, decide_eq_true_eq]
  refine ⟨⟨?_, ?_, ?_, ?_⟩, hempty, ?_, ?_⟩
  · rw [hmap]
    exact h.nodup.filter _
  · rw [hempty]
    exact Finset.notMem_empty _
  · intro p hp
    rw [hempty] at hp
    cases hp
  · exact fun p hp => h.numbered p ((hstay p).mp hp).1
  · exact fun p hp => (h.marked p ((hstay p).mp hp).2).2
  · intro p hp
    by_cases hmark : some p ∈ c.activeScriptObjects
    · exact .inl ((hstay p).mpr ⟨hp, hmark⟩)
    · rw [hremoved, List.mem_filter, decide_eq_true_eq]
      exact .inr ⟨mem_objects.mp hp, hmark⟩

end Sound

/-- The trackers' caches come after the master's. -/
theorem caches_order {c : Cache} {rest : List Cache} (h : (c :: rest) <:+ caches) :
    c ∉ rest ∧ (c = .master → ∀ kind, .beatTracker kind ∈ rest) ∧
      ∀ kind, c = .beatTracker kind → .master ∉ rest := by
  have horder : ∀ l ∈ caches.tails, ∀ c ∈ l.head?, c ∉ l.tail ∧
      (c = .master → ∀ kind ∈ [Kind.audio, .midi], .beatTracker kind ∈ l.tail) ∧
      ∀ kind ∈ [Kind.audio, .midi], c = .beatTracker kind → .master ∉ l.tail := by decide
  have hkinds : ∀ kind, kind ∈ [Kind.audio, .midi] := by
    intro kind
    cases kind <;> decide
  obtain ⟨hnot, hmaster, htracker⟩ := horder _ ((List.mem_tails _ _).mpr h) c rfl
  exact ⟨hnot, fun hc kind => hmaster hc kind (hkinds kind),
    fun kind hc => htracker kind (hkinds kind) hc⟩

/-- The loop has yet to come to the master's cache, if it is on. -/
def Before (script : Script) : Prop :=
  ∀ rest activeObjects, script = .completing rest activeObjects → .master ∈ rest

namespace State

/-- Trackers are marked only with the master in use, and those that are not doomed are current. -/
structure Kept (s : State) : Prop where
  sound : ∀ kind, Sound (s.cache kind) s.trackers s.current
  suffix : ∀ rest activeObjects, s.script = .completing rest activeObjects → rest <:+ caches
  unused : Before s.script → s.masterCache.active = false →
    ∀ kind, (s.cache kind).activeScriptObjects = ∅
  through : ∀ rest activeObjects kind, s.script = .completing rest activeObjects →
    .master ∉ rest → .beatTracker kind ∉ rest → (s.cache kind).activeScriptObjects = ∅
  cached : ∀ kind, ∀ p ∈ objects (s.cache kind).instanceMap, p ∈ s.current ∨ Doomed s.script kind

variable {s t : State}

theorem kept_initial : Kept initial where
  sound kind := by
    constructor
    · exact List.nodup_nil
    · exact Finset.notMem_empty _
    · exact fun p hp => by cases hp
    · exact fun p hp => by cases hp
  suffix rest activeObjects hs := by cases hs
  unused _ _ kind := rfl
  through rest activeObjects kind hs := by cases hs
  cached kind p hp := by cases hp

theorem Kept.moved (h : Kept s) (hc : t.cache = s.cache) (hn : t.trackers = s.trackers)
    (hcur : t.current = s.current) (hs : t.script = s.script)
    (ha : t.masterCache.active = s.masterCache.active) : Kept t where
  sound := by
    rw [hc, hn, hcur]
    exact h.sound
  suffix := hs ▸ h.suffix
  unused := by
    rw [hs, ha, hc]
    exact h.unused
  through := by
    rw [hs, hc]
    exact h.through
  cached := by
    rw [hc, hcur, hs]
    exact h.cached

/-- Outside the loop over the caches nothing is doomed. -/
theorem Calls.not_completing (h : s.Calls) (rest : List Cache) (activeObjects : Bool) :
    s.script ≠ .completing rest activeObjects := by
  intro hs
  rcases h with h | h
  · rw [hs] at h
    cases h
  · rw [hs] at h
    cases h

theorem Kept.current (h : Kept s) (hcalls : s.Calls) {kind : Kind} {p : ℕ}
    (hp : p ∈ objects (s.cache kind).instanceMap) : p ∈ s.current := by
  refine (h.cached kind p hp).resolve_right ?_
  rintro ⟨rest, activeObjects, hs, -⟩
  exact hcalls.not_completing rest activeObjects hs

/-- A call of a factory: what it marks it makes current, with the master in use. -/
theorem Kept.call (h : Kept s) (hcalls : s.Calls) (hs : t.script = s.script)
    (hsound : ∀ kind, Sound (t.cache kind) t.trackers t.current)
    (hobjects : ∀ kind, ∀ p ∈ objects (t.cache kind).instanceMap,
      p ∈ objects (s.cache kind).instanceMap ∨ p ∈ t.current)
    (hcur : s.current ⊆ t.current)
    (hunused : t.masterCache.active = false → s.masterCache.active = false ∧
      ∀ kind, (t.cache kind).activeScriptObjects = (s.cache kind).activeScriptObjects) :
    Kept t where
  sound := hsound
  suffix := hs ▸ h.suffix
  unused _ ha kind := by
    obtain ⟨ha, hmarks⟩ := hunused ha
    rw [hmarks]
    exact h.unused (fun rest _ hs => absurd hs (hcalls.not_completing rest _)) ha kind
  through rest activeObjects kind ht := by
    rw [hs] at ht
    exact absurd ht (hcalls.not_completing rest activeObjects)
  cached kind p hp := by
    rcases hobjects kind p hp with hold | hnew
    · exact .inl (hcur (h.current hcalls hold))
    · exact .inl hnew

theorem Kept.getTransportMaster (h : Kept s) (ht : Tracked s) (bpm beatsPerBar beatUnit : ℚ)
    (error : Bool) : Kept (s.getTransportMaster bpm beatsPerBar beatUnit error) := by
  unfold State.getTransportMaster
  split
  · rename_i hcalls
    refine h.call hcalls rfl h.sound (fun _ _ hp => .inl hp) (Finset.Subset.refl _) ?_
    intro ha
    rcases (MasterCache.getTransportMaster_spec ht.single bpm beatsPerBar beatUnit error).2.2.2 with
      ⟨m, -, -, hactive, -⟩ | ⟨-, -, -, hactive⟩
    · exact absurd (hactive.symm.trans ha) Bool.noConfusion
    · exact ⟨hactive.symm.trans ha, fun _ => rfl⟩
  · exact h

theorem Kept.found (h : Kept s) (ht : Tracked s) (hcalls : s.Calls) {kind : Kind} {tracker : ℕ}
    (hf : ((s.cache kind).findObject 1).1 = some tracker) (bpm beatsPerBar beatUnit : ℚ)
    (error : Bool) :
    Kept ((s.findObject kind).reset tracker bpm beatsPerBar beatUnit error) := by
  obtain ⟨hmem, hsound⟩ := (h.sound kind).found hf
  -- a tracker of the cache has a master, which the script then has too
  obtain ⟨m, -, hcached⟩ := ht.current tracker (h.current hcalls hmem)
  rcases (MasterCache.getTransportMaster_spec ht.single bpm beatsPerBar beatUnit error).2.2.2 with
    ⟨m', hm', -, hactive, -⟩ | ⟨-, hnone, -⟩
  · have hlookup : ((s.findObject kind).masterCache.getTransportMaster bpm beatsPerBar beatUnit
        error).1 = some m' := hm'
    rw [reset_of_some hlookup]
    refine h.call hcalls rfl ?_ ?_ (Finset.subset_insert _ _) ?_
    · intro kind'
      by_cases hk : kind' = kind
      · subst hk
        change Sound (Function.update s.cache kind' _ kind') _ _
        rw [Function.update_self]
        exact hsound
      · change Sound (Function.update s.cache kind _ kind') _ _
        rw [Function.update_of_ne hk]
        exact (h.sound kind').mono (Finset.subset_insert _ _)
    · intro kind' p hp
      change p ∈ objects (Function.update s.cache kind _ kind').instanceMap at hp
      by_cases hk : kind' = kind
      · subst hk
        rw [Function.update_self, objects_findObject] at hp
        exact .inl hp
      · rw [Function.update_of_ne hk] at hp
        exact .inl hp
    · intro ha
      exact absurd (hactive.symm.trans ha) Bool.noConfusion
  · rw [hnone] at hcached
    cases hcached

theorem Kept.created (h : Kept s) (ht : Tracked s) (hcalls : s.Calls) {kind : Kind}
    (hf : ((s.cache kind).findObject 1).1 = none) (bpm beatsPerBar beatUnit : ℚ) (error : Bool) :
    Kept ((s.findObject kind).create kind bpm beatsPerBar beatUnit error) := by
  obtain ⟨hmissed, hmarks⟩ := (h.sound kind).missed hf
  have hlookup : ∀ kind', Sound ((s.findObject kind).cache kind') s.trackers s.current ∧
      ((s.findObject kind).cache kind').activeScriptObjects = (s.cache kind').activeScriptObjects ∧
      objects ((s.findObject kind).cache kind').instanceMap =
        objects (s.cache kind').instanceMap := by
    intro kind'
    unfold State.findObject
    by_cases hk : kind' = kind
    · subst hk
      dsimp only
      rw [Function.update_self]
      exact ⟨hmissed, hmarks, objects_findObject 1 _⟩
    · dsimp only
      rw [Function.update_of_ne hk]
      exact ⟨h.sound kind', rfl, rfl⟩
  rcases (MasterCache.getTransportMaster_spec ht.single bpm beatsPerBar beatUnit error).2.2.2 with
    ⟨m, hm, -, hactive, -⟩ | ⟨hm, -, -, hactive⟩
  · have hfound : ((s.findObject kind).masterCache.getTransportMaster bpm beatsPerBar beatUnit
        error).1 = some m := hm
    obtain ⟨hmem, hnew⟩ :=
      ((h.sound kind).mono (Finset.subset_insert s.trackers _)).registered hf
        (Finset.mem_insert_self _ _)
    rw [create_of_some hfound, reset_of_some hfound]
    have hself : (s.findObject kind).cache kind = ((s.cache kind).findObject 1).2 :=
      Function.update_self ..
    refine h.call hcalls rfl ?_ ?_ (Finset.subset_insert _ _) ?_
    · intro kind'
      change Sound (Function.update (s.findObject kind).cache kind
        (((s.findObject kind).cache kind).registerObject 1 s.trackers) kind') _ _
      by_cases hk : kind' = kind
      · subst hk
        rw [Function.update_self, hself]
        exact hnew
      · rw [Function.update_of_ne hk]
        obtain ⟨hsound, -⟩ := hlookup kind'
        have hmono := hsound.mono (Finset.subset_insert s.trackers _)
        exact ⟨hmono.nodup, hmono.null, hmono.marked,
          fun p hp => Nat.lt_succ_of_lt (hmono.numbered p hp)⟩
    · intro kind' p hp
      change p ∈ objects (Function.update (s.findObject kind).cache kind
        (((s.findObject kind).cache kind).registerObject 1 s.trackers) kind').instanceMap at hp
      by_cases hk : kind' = kind
      · subst hk
        rw [Function.update_self, hself] at hp
        rcases (hmem p).mp hp with rfl | hold
        · exact .inr (Finset.mem_insert_self _ _)
        · exact .inl hold
      · rw [Function.update_of_ne hk] at hp
        exact .inl ((hlookup kind').2.2 ▸ hp)
    · intro ha
      exact absurd (hactive.symm.trans ha) Bool.noConfusion
  · have hfound : ((s.findObject kind).masterCache.getTransportMaster bpm beatsPerBar beatUnit
        error).1 = none := hm
    rw [create_of_none hfound]
    refine h.call hcalls rfl (fun kind' => (hlookup kind').1) ?_ (Finset.Subset.refl _) ?_
    · intro kind' p hp
      exact .inl ((hlookup kind').2.2 ▸ hp)
    · intro ha
      exact ⟨hactive.symm.trans ha, fun kind' => (hlookup kind').2.1⟩

theorem Kept.getBeatTracker (h : Kept s) (ht : Tracked s) (kind : Kind)
    (bpm beatsPerBar beatUnit : ℚ) (error : Bool) :
    Kept (s.getBeatTracker kind bpm beatsPerBar beatUnit error) := by
  unfold State.getBeatTracker
  split
  · rename_i hcalls
    split
    · rename_i tracker hf
      exact h.found ht hcalls hf bpm beatsPerBar beatUnit error
    · rename_i hf
      exact h.created ht hcalls hf bpm beatsPerBar beatUnit error
  · exact h

theorem Kept.waitForRestart (h : Kept s) : Kept s.waitForRestart := by
  unfold State.waitForRestart
  split
  · rename_i hbody
    have hcalls : s.Calls := .inl hbody
    refine ⟨h.sound, ?_, ?_, ?_, fun kind p hp => .inl (h.current hcalls hp)⟩
    · rintro rest activeObjects ⟨⟩
      exact List.suffix_refl _
    · intro _ ha kind
      exact h.unused (fun rest _ hs => absurd hs (hcalls.not_completing rest _)) ha kind
    · rintro rest activeObjects kind ⟨⟩ hmaster
      exact absurd (by decide) hmaster
  · exact h

/-- A cache is completed that is no tracker cache and not the master's. -/
theorem Kept.other (h : Kept s) {c : Cache} {rest : List Cache} {activeObjects : Bool}
    (hs : s.script = .completing (c :: rest) activeObjects) (hm : c ≠ .master)
    (ht : ∀ kind, c ≠ .beatTracker kind) :
    Kept { s with script := .completing rest activeObjects } := by
  have hsuffix := h.suffix _ _ hs
  refine ⟨h.sound, ?_, ?_, ?_, ?_⟩
  · rintro rest activeObjects ⟨⟩
    exact (List.suffix_cons _ _).trans hsuffix
  · intro hbefore ha kind
    refine h.unused ?_ ha kind
    rintro _ _ hs'
    rw [hs] at hs'
    cases hs'
    exact List.mem_cons_of_mem _ (hbefore rest _ rfl)
  · rintro rest activeObjects kind ⟨⟩ hmaster htracker
    refine h.through _ _ kind hs ?_ ?_
    · exact fun hmem => hmaster ((List.mem_cons.mp hmem).resolve_left hm.symm)
    · exact fun hmem => htracker ((List.mem_cons.mp hmem).resolve_left (ht kind).symm)
  · intro kind p hp
    refine (h.cached kind p hp).imp_right ?_
    rintro ⟨_, _, hs', hmaster, htracker⟩
    rw [hs] at hs'
    cases hs'
    refine ⟨rest, _, rfl, fun hmem => hmaster (List.mem_cons_of_mem _ hmem), ?_⟩
    exact (List.mem_cons.mp htracker).resolve_left (ht kind).symm

/-- The master's cache is completed: a master unused has marked no tracker, and all are doomed. -/
theorem Kept.master (h : Kept s) {rest : List Cache} {activeObjects : Bool}
    (hs : s.script = .completing (.master :: rest) activeObjects) :
    Kept { s with
      masterCache := s.masterCache.scriptComplete
      current := if s.masterCache.Unused then ∅ else s.current
      script := .completing rest activeObjects } := by
  have hsuffix := h.suffix _ _ hs
  obtain ⟨hmaster, htrackers, -⟩ := caches_order hsuffix
  have hbefore : Before s.script := by
    rintro _ _ hs'
    rw [hs] at hs'
    cases hs'
    exact List.mem_cons_self
  refine ⟨?_, ?_, ?_, ?_, ?_⟩
  · intro kind
    dsimp only
    split
    · rename_i hu
      have hempty := h.unused hbefore hu.2 kind
      refine ⟨(h.sound kind).nodup, (h.sound kind).null, ?_, (h.sound kind).numbered⟩
      intro p hp
      rw [hempty] at hp
      cases hp
    · exact h.sound kind
  · rintro rest activeObjects ⟨⟩
    exact (List.suffix_cons _ _).trans hsuffix
  · intro hbefore'
    exact absurd (hbefore' rest activeObjects rfl) hmaster
  · rintro rest activeObjects kind ⟨⟩ - htracker
    exact absurd (htrackers rfl kind) htracker
  · intro kind p _
    exact .inr ⟨rest, activeObjects, rfl, hmaster, htrackers rfl kind⟩

/-- A trackers' cache is completed: those that stay were marked, so they are current. -/
theorem Kept.trackers (h : Kept s) {kind : Kind} {rest : List Cache} {activeObjects active : Bool}
    (hs : s.script = .completing (.beatTracker kind :: rest) activeObjects) :
    Kept { s with
      cache := Function.update s.cache kind (s.cache kind).scriptComplete.cache
      removing := (s.cache kind).scriptComplete.removed
      script := .completing rest active } := by
  have hsuffix := h.suffix _ _ hs
  obtain ⟨hkind, -, hmaster⟩ := caches_order hsuffix
  obtain ⟨hsound, hempty, hcurrent, -⟩ := (h.sound kind).completed
  refine ⟨?_, ?_, ?_, ?_, ?_⟩
  · intro kind'
    by_cases hk : kind' = kind
    · subst hk
      dsimp only
      rw [Function.update_self]
      exact hsound
    · dsimp only
      rw [Function.update_of_ne hk]
      exact h.sound kind'
  · rintro rest activeObjects ⟨⟩
    exact (List.suffix_cons _ _).trans hsuffix
  · intro hbefore
    exact absurd (hbefore rest active rfl) (hmaster kind rfl)
  · rintro rest activeObjects kind' ⟨⟩ hm htracker
    by_cases hk : kind' = kind
    · subst hk
      dsimp only
      rw [Function.update_self]
      exact hempty
    · dsimp only
      rw [Function.update_of_ne hk]
      refine h.through _ _ kind' hs ?_ ?_
      · exact fun hmem => hm ((List.mem_cons.mp hmem).resolve_left Cache.noConfusion)
      · intro hmem
        refine htracker ((List.mem_cons.mp hmem).resolve_left ?_)
        rintro ⟨⟩
        exact hk rfl
  · intro kind' p hp
    by_cases hk : kind' = kind
    · subst hk
      dsimp only at hp
      rw [Function.update_self] at hp
      exact .inl (hcurrent p hp)
    · dsimp only at hp
      rw [Function.update_of_ne hk] at hp
      refine (h.cached kind' p hp).imp_right ?_
      rintro ⟨_, _, hs', hm, htracker⟩
      rw [hs] at hs'
      cases hs'
      refine ⟨rest, _, rfl, fun hmem => hm (List.mem_cons_of_mem _ hmem), ?_⟩
      refine (List.mem_cons.mp htracker).resolve_left ?_
      rintro ⟨⟩
      exact hk rfl

theorem Kept.scriptComplete (h : Kept s) : Kept s.scriptComplete := by
  unfold State.scriptComplete
  split
  · rename_i hs _
    exact h.master hs
  · rename_i hs _
    exact h.trackers hs
  · rename_i c rest activeObjects hmaster htracker hs _
    exact h.other hs (fun hc => hmaster hc) fun kind hc => htracker kind hc
  · exact h

/-- The loop over the caches has come to its end, and the script thread goes on. -/
theorem Kept.ended (h : Kept s) {activeObjects : Bool} {script : Script}
    (hs : s.script = .completing [] activeObjects)
    (hne : ∀ rest activeObjects, script ≠ .completing rest activeObjects) :
    Kept { s with script := script } := by
  refine ⟨h.sound, fun rest _ hs' => absurd hs' (hne rest _), ?_,
    fun rest _ _ hs' => absurd hs' (hne rest _), ?_⟩
  · intro _ _ kind
    exact h.through [] activeObjects kind hs List.not_mem_nil List.not_mem_nil
  · intro kind p hp
    refine .inl ((h.cached kind p hp).resolve_right ?_)
    rintro ⟨_, _, hs', -, htracker⟩
    rw [hs] at hs'
    cases hs'
    cases htracker

/-- The script thread leaves its body or its loop for a restart. -/
theorem Kept.go (h : Kept s) (hcalls : s.Calls) {script : Script}
    (hne : ∀ rest activeObjects, script ≠ .completing rest activeObjects) :
    Kept { s with script := script } := by
  refine ⟨h.sound, fun rest _ hs' => absurd hs' (hne rest _), ?_,
    fun rest _ _ hs' => absurd hs' (hne rest _), fun kind p hp => .inl (h.current hcalls hp)⟩
  intro _ ha kind
  exact h.unused (fun rest _ hs => absurd hs (hcalls.not_completing rest _)) ha kind

theorem Kept.process (h : Kept s) {op : Op} (hop : op.Process) : Kept (s.exec op) := by
  obtain ⟨process, heq, -⟩ := exec_process s hop
  rw [heq]
  exact h.moved rfl rfl rfl rfl rfl

theorem kept_exec (h : Kept s) (ht : Tracked s) (op : Op) : Kept (s.exec op) := by
  cases op with
  | getTransportMaster bpm beatsPerBar beatUnit error =>
    exact h.getTransportMaster ht bpm beatsPerBar beatUnit error
  | getBeatTracker kind bpm beatsPerBar beatUnit error =>
    exact h.getBeatTracker ht kind bpm beatsPerBar beatUnit error
  | waitForRestart => exact h.waitForRestart
  | scriptComplete => exact h.scriptComplete
  | removeProcessor =>
    show Kept s.removeProcessor
    unfold State.removeProcessor
    split
    · exact h.moved rfl rfl rfl rfl rfl
    · exact h
  | completed others =>
    show Kept (s.completed others)
    unfold State.completed
    split
    · rename_i hs _
      apply h.ended hs
      intro rest activeObjects hne
      split at hne <;> cases hne
    · exact h
  | restart =>
    show Kept s.restart
    unfold State.restart
    split
    · rename_i hs
      exact h.go (.inr hs) fun _ _ => Script.noConfusion
    · exact h
  | fail =>
    show Kept s.fail
    unfold State.fail
    split
    · rename_i hs
      exact h.go (.inl hs) fun _ _ => Script.noConfusion
    · exact h
  | pop =>
    show Kept s.pop
    unfold State.pop
    split
    · split
      · exact h.moved rfl rfl rfl rfl rfl
      · exact h
    · exact h
  | fetch =>
    show Kept s.fetch
    unfold State.fetch
    split
    · exact h.moved rfl rfl rfl rfl rfl
    · exact h
  | call call =>
    show Kept (s.call call)
    unfold State.call
    split
    · split
      · exact h.moved rfl rfl rfl rfl rfl
      · exact h
    · exact h
  | process | sync | popped | skip | next => exact h.process trivial

/-- Every tracker of the engine's is in its cache or on its way out. -/
structure Placed (s : State) : Prop where
  nodup : (s.queue ++ s.activeProcessors).Nodup
  numbered : ∀ p ∈ s.queue ++ s.activeProcessors, p < s.trackers
  placed : ∀ p ∈ s.queue ++ s.activeProcessors,
    (∃ kind, p ∈ objects (s.cache kind).instanceMap) ∨ Leaving s p
  ahead : ∀ p ∈ s.process.ahead, p ∈ s.activeProcessors

theorem placed_initial : Placed initial where
  nodup := List.nodup_nil
  numbered p hp := by cases hp
  placed p hp := by cases hp
  ahead p hp := by cases hp

/-- The engine's list stays as it is. -/
theorem Placed.stay (h : Placed s) (hq : t.queue = s.queue)
    (ha : t.activeProcessors = s.activeProcessors) (hn : t.trackers = s.trackers)
    (hp : ∀ p, (∃ kind, p ∈ objects (s.cache kind).instanceMap) ∨ Leaving s p →
      (∃ kind, p ∈ objects (t.cache kind).instanceMap) ∨ Leaving t p)
    (hahead : ∀ p ∈ t.process.ahead, p ∈ s.process.ahead) : Placed t where
  nodup := by
    rw [hq, ha]
    exact h.nodup
  numbered := by
    rw [hq, ha, hn]
    exact h.numbered
  placed p hmem := by
    rw [hq, ha] at hmem
    exact hp p (h.placed p hmem)
  ahead p hmem := by
    rw [ha]
    exact h.ahead p (hahead p hmem)

theorem objects_lookup (kind kind' : Kind) :
    objects ((s.findObject kind).cache kind').instanceMap =
      objects (s.cache kind').instanceMap := by
  unfold State.findObject
  by_cases hk : kind' = kind
  · subst hk
    dsimp only
    rw [Function.update_self]
    exact objects_findObject 1 _
  · dsimp only
    rw [Function.update_of_ne hk]

theorem Placed.reset (h : Placed s) (tracker : ℕ) (bpm beatsPerBar beatUnit : ℚ) (error : Bool) :
    Placed (s.reset tracker bpm beatsPerBar beatUnit error) := by
  unfold State.reset
  split
  · exact h.stay rfl rfl rfl (fun _ hp => hp) fun _ hp => hp
  · exact h.stay rfl rfl rfl (fun _ hp => hp) fun _ hp => hp

/-- A tracker just created is put into the queue. -/
theorem Placed.register (h : Placed s) {kind : Kind}
    (hobjects : ∀ kind', ∀ p, p ∈ objects ((s.register kind).cache kind').instanceMap ↔
      kind' = kind ∧ p = s.trackers ∨ p ∈ objects (s.cache kind').instanceMap) :
    Placed (s.register kind) := by
  have hmem : ∀ p, p ∈ (s.register kind).queue ++ (s.register kind).activeProcessors ↔
      p = s.trackers ∨ p ∈ s.queue ++ s.activeProcessors := by
    intro p
    simp only [State.register, List.mem_append, List.mem_singleton]
    tauto
  refine ⟨?_, ?_, ?_, h.ahead⟩
  · have hperm : ((s.register kind).queue ++ (s.register kind).activeProcessors).Perm
        (s.trackers :: (s.queue ++ s.activeProcessors)) := by
      simp only [State.register, List.append_assoc, List.singleton_append]
      exact List.perm_middle
    rw [hperm.nodup_iff, List.nodup_cons]
    exact ⟨fun hold => absurd (h.numbered _ hold) (Nat.lt_irrefl _), h.nodup⟩
  · intro p hp
    rcases (hmem p).mp hp with rfl | hp
    · exact Nat.lt_succ_self _
    · exact Nat.lt_succ_of_lt (h.numbered p hp)
  · intro p hp
    rcases (hmem p).mp hp with rfl | hp
    · exact .inl ⟨kind, (hobjects kind _).mpr (.inl ⟨rfl, rfl⟩)⟩
    · rcases h.placed p hp with ⟨kind', hcache⟩ | hleaving
      · exact .inl ⟨kind', (hobjects kind' p).mpr (.inr hcache)⟩
      · exact .inr hleaving

theorem Placed.getBeatTracker (h : Placed s) (hk : Kept s) (kind : Kind)
    (bpm beatsPerBar beatUnit : ℚ) (error : Bool) :
    Placed (s.getBeatTracker kind bpm beatsPerBar beatUnit error) := by
  have hlookup : Placed (s.findObject kind) := by
    refine h.stay rfl rfl rfl ?_ fun _ hp => hp
    rintro p (⟨kind', hp⟩ | hp)
    · exact .inl ⟨kind', (objects_lookup kind kind').symm ▸ hp⟩
    · exact .inr hp
  unfold State.getBeatTracker
  split
  · split
    · exact hlookup.reset _ bpm beatsPerBar beatUnit error
    · rename_i hf
      have hreset := hlookup.reset s.trackers bpm beatsPerBar beatUnit error
      cases hm : ((s.findObject kind).masterCache.getTransportMaster bpm beatsPerBar beatUnit
          error).1 with
      | none =>
        rw [create_of_none hm]
        exact (reset_of_none hm) ▸ hreset
      | some m =>
        obtain ⟨hmem, -⟩ := ((hk.sound kind).mono (Finset.subset_insert s.trackers _)).registered hf
          (Finset.mem_insert_self _ _)
        rw [create_of_some hm]
        apply hreset.register
        rw [reset_of_some hm]
        intro kind' p
        change p ∈ objects (Function.update (s.findObject kind).cache kind
          (((s.findObject kind).cache kind).registerObject 1 s.trackers) kind').instanceMap ↔
            kind' = kind ∧ p = s.trackers ∨
              p ∈ objects ((s.findObject kind).cache kind').instanceMap
        rw [objects_lookup]
        by_cases hkind : kind' = kind
        · subst hkind
          have hself : (s.findObject kind').cache kind' = ((s.cache kind').findObject 1).2 :=
            Function.update_self ..
          rw [Function.update_self, hself, hmem]
          exact or_congr_left (and_iff_right rfl).symm
        · rw [Function.update_of_ne hkind, objects_lookup]
          exact (or_iff_right fun heq => hkind heq.1).symm
  · exact h

theorem Placed.scriptComplete (h : Placed s) (hk : Kept s) : Placed s.scriptComplete := by
  unfold State.scriptComplete
  split
  · exact h.stay rfl rfl rfl (fun _ hp => hp) fun _ hp => hp
  · rename_i kind rest activeObjects hs hr
    obtain ⟨-, -, -, hgone⟩ := (hk.sound kind).completed
    refine h.stay rfl rfl rfl ?_ fun _ hp => hp
    rintro p (⟨kind', hp⟩ | hp)
    · by_cases hkind : kind' = kind
      · subst hkind
        rcases hgone p hp with hstays | hremoved
        · refine .inl ⟨kind', ?_⟩
          dsimp only
          rw [Function.update_self]
          exact hstays
        · exact .inr (List.mem_append_left _ hremoved)
      · refine .inl ⟨kind', ?_⟩
        dsimp only
        rw [Function.update_of_ne hkind]
        exact hp
    · unfold Leaving at hp
      rw [hr] at hp
      exact .inr (List.mem_append_right _ hp)
  · exact h.stay rfl rfl rfl (fun _ hp => hp) fun _ hp => hp
  · exact h

theorem Placed.removeProcessor (h : Placed s) : Placed s.removeProcessor := by
  unfold State.removeProcessor
  split
  · rename_i obj rest hr
    refine h.stay rfl rfl rfl ?_ fun _ hp => hp
    intro p hp
    refine hp.imp_right ?_
    intro hleaving
    unfold Leaving at hleaving ⊢
    rw [hr] at hleaving
    simp only [List.mem_append, List.mem_cons] at hleaving ⊢
    tauto
  · exact h

/-- What is popped is gone from the list: it was there once. -/
theorem Placed.pop (h : Placed s) : Placed s.pop := by
  unfold State.pop
  split
  · rename_i callback done rest hprocess hd
    split
    · rename_i hactive
      have hsub : ∀ p, p ∈ s.queue ++ s.activeProcessors.erase done →
          p ∈ s.queue ++ s.activeProcessors ∧ p ≠ done := by
        intro p hp
        have hnodup := List.nodup_append'.mp h.nodup
        rcases List.mem_append.mp hp with hqueue | hrest
        · refine ⟨List.mem_append_left _ hqueue, ?_⟩
          rintro rfl
          exact hnodup.2.2 hqueue hactive
        · refine ⟨List.mem_append_right _ (List.mem_of_mem_erase hrest), ?_⟩
          rintro rfl
          exact hnodup.2.1.not_mem_erase hrest
      refine ⟨?_, fun p hp => h.numbered p (hsub p hp).1, ?_, ?_⟩
      · exact h.nodup.sublist (List.erase_sublist.append_left _)
      · intro p hp
        obtain ⟨hmem, hne⟩ := hsub p hp
        refine (h.placed p hmem).imp_right ?_
        intro hleaving
        unfold Leaving at hleaving ⊢
        rw [hd] at hleaving
        rcases List.mem_append.mp hleaving with hremoving | hdeleted
        · exact List.mem_append_left _ hremoving
        · refine List.mem_append_right _ ((List.mem_cons.mp hdeleted).resolve_left ?_)
          exact fun heq => hne (Option.some.inj heq)
      · intro p hp
        dsimp only at hp
        rw [hprocess] at hp
        cases hp
    · exact h
  · exact h

theorem Placed.fetch (h : Placed s) : Placed s.fetch := by
  unfold State.fetch
  split
  · rename_i callback hprocess
    have hperm : (s.queue.reverse ++ s.activeProcessors).Perm (s.queue ++ s.activeProcessors) :=
      (List.reverse_perm _).append_right _
    refine ⟨hperm.nodup_iff.mpr h.nodup, fun p hp => h.numbered p (hperm.mem_iff.mp hp),
      fun p hp => h.placed p (hperm.mem_iff.mp hp), ?_⟩
    intro p hp
    cases callback with
    | process =>
      change p ∈ (Process.loop _).ahead at hp
      rwa [Process.ahead_loop] at hp
    | sync => cases hp
  · exact h

theorem Placed.script (h : Placed s) {op : Op} (hop : op.Script) : Placed (s.exec op) := by
  obtain ⟨script, heq⟩ := exec_script s hop
  rw [heq]
  exact h.stay rfl rfl rfl (fun _ hp => hp) fun _ hp => hp

theorem Placed.process (h : Placed s) {op : Op} (hop : op.Process) : Placed (s.exec op) := by
  obtain ⟨process, heq, hahead⟩ := exec_process s hop
  rw [heq]
  exact h.stay rfl rfl rfl (fun _ hp => hp) hahead

theorem placed_exec (h : Placed s) (hk : Kept s) (op : Op) : Placed (s.exec op) := by
  cases op with
  | getTransportMaster bpm beatsPerBar beatUnit error =>
    show Placed (s.getTransportMaster bpm beatsPerBar beatUnit error)
    unfold State.getTransportMaster
    split
    · exact h.stay rfl rfl rfl (fun _ hp => hp) fun _ hp => hp
    · exact h
  | getBeatTracker kind bpm beatsPerBar beatUnit error =>
    exact h.getBeatTracker hk kind bpm beatsPerBar beatUnit error
  | scriptComplete => exact h.scriptComplete hk
  | removeProcessor => exact h.removeProcessor
  | pop => exact h.pop
  | fetch => exact h.fetch
  | call call =>
    show Placed (s.call call)
    unfold State.call
    split
    · split
      · exact h.stay rfl rfl rfl (fun _ hp => hp) fun _ hp => hp
      · exact h
    · exact h
  | waitForRestart | completed | restart | fail => exact h.script trivial
  | process | sync | popped | skip | next => exact h.process trivial

/-- A tracker that the engine still has, and that is not current, is departing. -/
theorem departing_of_not_current (hk : Kept s) (hp : Placed s) {p : ℕ}
    (hmem : p ∈ s.activeProcessors) (hcurrent : p ∉ s.current) : Departing s p := by
  rcases hp.placed p (List.mem_append_right _ hmem) with ⟨kind, hcache⟩ | hleaving
  · exact .inr ⟨kind, hcache, (hk.cached kind p hcache).resolve_left hcurrent⟩
  · exact .inl hleaving

/-- A beat is due or a count-in ends only in a tracker that is not departing. -/
def Staying (s : State) : Op → Prop
  | .call _ => ∀ tracker rest, s.process = .processing tracker rest → ¬ Departing s tracker
  | _ => True

/-- A deleted master is called only by a tracker on its way out, or between the completion of the
master's cache and that of the trackers'. -/
theorem safe_of_staying {ops : List Op} (hstay : Always exec Staying initial ops) :
    Always exec Safe initial ops := by
  refine always_of_invariant (I := fun s => Tracked s ∧ Kept s ∧ Placed s) (R := Staying) ?_ ?_
    ⟨tracked_initial, kept_initial, placed_initial⟩ hstay
  · rintro s op ⟨ht, hk, hp⟩ hstay
    rw [ht.safe_iff op]
    cases op with
    | call call =>
      intro tracker rest hprocess
      by_contra hcurrent
      apply hstay tracker rest hprocess
      apply departing_of_not_current hk hp (hp.ahead tracker _) hcurrent
      rw [hprocess]
      exact List.mem_cons_self
    | _ => trivial
  · rintro s op ⟨ht, hk, hp⟩ -
    exact ⟨tracked_exec ht op, kept_exec hk ht op, placed_exec hp hk op⟩

end State

end Bipscript.BeatTrackers
