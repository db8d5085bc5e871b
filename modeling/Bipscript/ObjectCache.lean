import Bipscript.Library.OrderedMap
import Bipscript.Library.Run
import Mathlib.Data.Finset.Image
import Mathlib.Data.List.Perm.Basic

/-! Caches of reusable objects, and which objects they remove over a run of scripts. -/
namespace Bipscript

/-- A pointer, null when none. -/
abbrev Pointer (T : Type*) := Option T

/-- `instanceMap` in the order of its keys, and the objects the script has used. -/
structure ActiveCache (T : Type*) where
  instanceMap : List (ℤ × Pointer T)
  activeScriptObjects : Finset (Pointer T)

/-- What `scriptComplete` leaves and returns, and its calls of `removeObject`. -/
structure Completion (T : Type*) where
  cache : ActiveCache T
  activeObjects : Bool
  removed : List (Pointer T)

namespace ActiveCache

variable {T : Type*}

/-- `instanceMap[key]`, which inserts a null pointer under a new key: what it reads, and the map. -/
def subscript (key : ℤ) : List (ℤ × Pointer T) → Pointer T × List (ℤ × Pointer T)
  | [] => (none, [(key, none)])
  | (k, obj) :: rest =>
    if k = key then (obj, (k, obj) :: rest)
    else if key < k then (none, (key, none) :: (k, obj) :: rest)
    else ((subscript key rest).1, (k, obj) :: (subscript key rest).2)

/-- `instanceMap[key] = obj`. -/
def assign (key : ℤ) (obj : Pointer T) (map : List (ℤ × Pointer T)) : List (ℤ × Pointer T) :=
  OrderedMap.assign key obj map

/-- The objects in the map. -/
def objects (map : List (ℤ × Pointer T)) : List T := map.filterMap Prod.snd

def empty : ActiveCache T := ⟨[], ∅⟩

variable [DecidableEq T]

def findObject (key : ℤ) (c : ActiveCache T) : Pointer T × ActiveCache T :=
  let r := subscript key c.instanceMap
  match r.1 with
  | some obj => (r.1, ⟨r.2, insert (some obj) c.activeScriptObjects⟩)
  | none => (none, ⟨r.2, c.activeScriptObjects⟩)

def registerObject (key : ℤ) (obj : T) (c : ActiveCache T) : ActiveCache T :=
  ⟨assign key (some obj) c.instanceMap, insert (some obj) c.activeScriptObjects⟩

/-- A factory call: find, and on a miss create and register; none is a creation that throws. -/
def factory (key : ℤ) (create : Option T) (c : ActiveCache T) : Pointer T × ActiveCache T :=
  match c.findObject key with
  | (some obj, c) => (some obj, c)
  | (none, c) =>
    match create with
    | some obj => (some obj, c.registerObject key obj)
    | none => (none, c)

/-- The loop of `removeAll`: the map ends empty. -/
def removeEntries : List (ℤ × Pointer T) → Finset (Pointer T) → Finset (Pointer T)
  | [], active => active
  | (_, obj) :: rest, active => removeEntries rest (active.erase obj)

/-- The cache, and the calls of `removeObject`. -/
def removeAll (c : ActiveCache T) : ActiveCache T × List (Pointer T) :=
  (⟨[], removeEntries c.instanceMap c.activeScriptObjects⟩, c.instanceMap.map Prod.snd)

/-- The loop of `scriptComplete`. -/
def completeEntries : List (ℤ × Pointer T) → Finset (Pointer T) → Completion T
  | [], active => ⟨⟨[], active⟩, false, []⟩
  | (key, obj) :: rest, active =>
    -- object was used in the last script run?
    if obj ∈ active then
      let r := completeEntries rest (active.erase obj)
      ⟨⟨(key, obj) :: r.cache.instanceMap, r.cache.activeScriptObjects⟩, true, r.removed⟩
    else
      let r := completeEntries rest active
      ⟨r.cache, r.activeObjects, obj :: r.removed⟩

def scriptComplete (c : ActiveCache T) : Completion T :=
  completeEntries c.instanceMap c.activeScriptObjects

/-! Runs of a cache -/

inductive Op (T : Type*)
  | factory (key : ℤ) (create : Option T)
  | scriptComplete
  | removeAll

/-- A cache with its history: the objects registered and not yet removed, and those found or
registered since the previous `scriptComplete`. -/
structure History (T : Type*) where
  cache : ActiveCache T
  live : Finset T
  used : Finset T

def History.initial : History T := ⟨empty, ∅, ∅⟩

/-- The calls `removeObject` in `removed` are made. -/
def unlisted (live : Finset T) (removed : List (Pointer T)) : Finset T :=
  live.filter fun obj => some obj ∉ removed

def exec (h : History T) : Op T → History T
  | .factory key create =>
    match h.cache.findObject key, create with
    | (some obj, _), _ => ⟨(h.cache.factory key create).2, h.live, insert obj h.used⟩
    | (none, _), some obj =>
      ⟨(h.cache.factory key create).2, insert obj h.live, insert obj h.used⟩
    | (none, _), none => ⟨(h.cache.factory key create).2, h.live, h.used⟩
  | .scriptComplete =>
    let r := h.cache.scriptComplete
    ⟨r.cache, unlisted h.live r.removed, ∅⟩
  | .removeAll =>
    let r := h.cache.removeAll
    ⟨r.1, unlisted h.live r.2, h.used⟩

/-- Each call `removeObject` is made on an object registered and not yet removed. -/
def RemovesLive : Finset T → List (Pointer T) → Prop
  | _, [] => True
  | _, none :: _ => False
  | live, some obj :: rest => obj ∈ live ∧ RemovesLive (live.erase obj) rest

/-- What is asked of one call. -/
def Correct (h : History T) : Op T → Prop
  | .factory _ _ => True
  | .scriptComplete =>
    RemovesLive h.live h.cache.scriptComplete.removed ∧
    (∀ obj, some obj ∈ h.cache.scriptComplete.removed ↔ obj ∈ h.live ∧ obj ∉ h.used) ∧
    (h.cache.scriptComplete.activeObjects = true ↔
      ∃ obj ∈ h.live, some obj ∉ h.cache.scriptComplete.removed)
  | .removeAll => RemovesLive h.live h.cache.removeAll.2

/-- The object a factory creates on a miss is fresh. -/
def Fresh (h : History T) : Op T → Prop
  | .factory key (some obj) => (h.cache.findObject key).1 = none → obj ∉ h.live
  | _ => True

/-- When objects are removed the map has no null pointer: no key has missed, failed to be created,
and not been registered after all. -/
def NoneMissing (h : History T) : Op T → Prop
  | .factory _ _ => True
  | .scriptComplete | .removeAll => none ∉ h.cache.instanceMap.map Prod.snd

section Map

omit [DecidableEq T]

theorem objects_cons (key : ℤ) (p : Pointer T) (map : List (ℤ × Pointer T)) :
    objects ((key, p) :: map) = p.toList ++ objects map := by
  cases p <;> rfl

/-- Reading a key changes no object. -/
theorem objects_subscript (key : ℤ) (map : List (ℤ × Pointer T)) :
    objects (subscript key map).2 = objects map := by
  induction map with
  | nil => rfl
  | cons entry rest ih =>
    obtain ⟨k, obj⟩ := entry
    simp only [subscript]
    split
    · rfl
    · split
      · rfl
      · simp only [objects_cons, ih]

theorem mem_objects_of_subscript {key : ℤ} {map : List (ℤ × Pointer T)} {obj : T}
    (h : (subscript key map).1 = some obj) : obj ∈ objects map := by
  induction map with
  | nil => cases h
  | cons entry rest ih =>
    obtain ⟨k, p⟩ := entry
    simp only [subscript] at h
    simp only [objects_cons, List.mem_append]
    split at h
    · cases h
      exact Or.inl (List.mem_singleton_self _)
    · split at h
      · cases h
      · exact Or.inr (ih h)

/-- An assignment after a miss adds its object. -/
theorem objects_assign {key : ℤ} {map : List (ℤ × Pointer T)} (obj : T)
    (h : (subscript key map).1 = none) :
    (objects (assign key (some obj) (subscript key map).2)).Perm (obj :: objects map) := by
  unfold assign
  induction map with
  | nil => simp [subscript, OrderedMap.assign, objects]
  | cons entry rest ih =>
    obtain ⟨k, p⟩ := entry
    simp only [subscript] at h ⊢
    by_cases hk : k = key
    · simp only [if_pos hk] at h ⊢
      subst h
      simp [OrderedMap.assign, hk, objects_cons]
    · simp only [if_neg hk] at h ⊢
      by_cases hlt : key < k
      · simp [if_pos hlt, OrderedMap.assign, objects_cons]
      · simp only [if_neg hlt] at h ⊢
        simp only [OrderedMap.assign, if_neg hk, if_neg hlt, objects_cons]
        exact ((ih h).append_left _).trans List.perm_middle

theorem mem_objects {map : List (ℤ × Pointer T)} {obj : T} :
    obj ∈ objects map ↔ some obj ∈ map.map Prod.snd := by
  simp [objects]

/-- A map without null pointers holds just its objects. -/
theorem map_snd_of_none {map : List (ℤ × Pointer T)} (h : none ∉ map.map Prod.snd) :
    map.map Prod.snd = (objects map).map some := by
  induction map with
  | nil => rfl
  | cons entry rest ih =>
    obtain ⟨k, p⟩ := entry
    cases p with
    | none => simp at h
    | some obj =>
      simp only [List.map_cons, List.mem_cons, not_or] at h
      simp only [List.map_cons, ih h.2, objects_cons, Option.toList_some, List.singleton_append]

end Map

/-- What the loop of `scriptComplete` does to a map without duplicates. -/
theorem completeEntries_spec {map : List (ℤ × Pointer T)} {active : Finset (Pointer T)}
    (hd : (objects map).Nodup) (hnone : none ∉ active) :
    objects (completeEntries map active).cache.instanceMap =
        (objects map).filter (fun obj => some obj ∈ active) ∧
      (completeEntries map active).removed = (map.map Prod.snd).filter (fun p => p ∉ active) ∧
      (∀ p, p ∈ (completeEntries map active).cache.activeScriptObjects ↔
        p ∈ active ∧ ∀ obj ∈ objects map, p ≠ some obj) ∧
      ((completeEntries map active).activeObjects = true ↔
        ∃ obj ∈ objects map, some obj ∈ active) := by
  induction map generalizing active with
  | nil => simp [completeEntries, objects]
  | cons entry rest ih =>
    obtain ⟨key, p⟩ := entry
    cases p with
    | none =>
      obtain ⟨hmap, hremoved, hactive, hkept⟩ := ih hd hnone
      simp only [completeEntries, List.map_cons, List.filter_cons, hnone]
      exact ⟨hmap, by simp [hremoved], hactive, hkept⟩
    | some o =>
      obtain ⟨ho, hrest⟩ := List.nodup_cons.mp hd
      by_cases hin : some o ∈ active
      · obtain ⟨hmap, hremoved, hactive, hkept⟩ := @ih (active.erase (some o)) hrest
          (fun h => hnone (Finset.mem_of_mem_erase h))
        -- erasing `o` does not change what is asked of the entries after it
        have herase : ∀ p ∈ rest.map Prod.snd, (p ∈ active.erase (some o) ↔ p ∈ active) := by
          intro p hp
          refine ⟨Finset.mem_of_mem_erase, fun h => Finset.mem_erase.mpr ⟨?_, h⟩⟩
          rintro rfl
          exact ho (mem_objects.mpr hp)
        simp only [completeEntries, if_pos hin, objects_cons]
        refine ⟨?_, ?_, ?_, ?_⟩
        · simp only [Option.toList_some, List.singleton_append]
          rw [hmap, List.filter_cons_of_pos (by simpa using hin)]
          congr 1
          refine List.filter_congr fun obj hobj => ?_
          simp [herase _ (mem_objects.mp hobj)]
        · rw [hremoved, List.map_cons, List.filter_cons_of_neg (by simpa using hin)]
          refine List.filter_congr fun p hp => ?_
          simp [herase p hp]
        · intro p
          simp [hactive p, and_assoc, and_comm]
        · simp [hin]
      · obtain ⟨hmap, hremoved, hactive, hkept⟩ := ih hrest hnone
        simp only [completeEntries, if_neg hin, objects_cons]
        refine ⟨?_, ?_, ?_, ?_⟩
        · simp [hmap, hin]
        · simp [hremoved, hin]
        · intro p
          rw [hactive p]
          constructor
          · rintro ⟨hp, hne⟩
            refine ⟨hp, ?_⟩
            simp only [Option.toList_some, List.singleton_append, List.forall_mem_cons]
            exact ⟨fun he => hin (he ▸ hp), hne⟩
          · rintro ⟨hp, hne⟩
            exact ⟨hp, fun obj hobj => hne obj (List.mem_append_right _ hobj)⟩
        · simp [hkept, hin]

/-- Calls on objects, each registered and no two the same, and on nothing else. -/
theorem removesLive_iff {live : Finset T} {removed : List (Pointer T)} :
    RemovesLive live removed ↔
      removed.Nodup ∧ ∀ p ∈ removed, ∃ obj ∈ live, p = some obj := by
  induction removed generalizing live with
  | nil => simp [RemovesLive]
  | cons p rest ih =>
    cases p with
    | none => simp [RemovesLive]
    | some o =>
      simp only [RemovesLive, ih, List.nodup_cons, List.forall_mem_cons]
      constructor
      · rintro ⟨ho, hd, hrest⟩
        refine ⟨⟨?_, hd⟩, ⟨o, ho, rfl⟩, ?_⟩
        · intro hmem
          obtain ⟨x, hx, he⟩ := hrest _ hmem
          cases he
          exact Finset.notMem_erase o live hx
        · intro p hp
          obtain ⟨x, hx, rfl⟩ := hrest p hp
          exact ⟨x, Finset.mem_of_mem_erase hx, rfl⟩
      · rintro ⟨⟨ho, hd⟩, ⟨x, hx, he⟩, hrest⟩
        cases he
        refine ⟨hx, hd, ?_⟩
        intro p hp
        obtain ⟨y, hy, rfl⟩ := hrest p hp
        refine ⟨y, Finset.mem_erase.mpr ⟨?_, hy⟩, rfl⟩
        rintro rfl
        exact ho hp

theorem objects_findObject (key : ℤ) (c : ActiveCache T) :
    objects (c.findObject key).2.instanceMap = objects c.instanceMap := by
  simp only [findObject]
  split <;> exact objects_subscript key c.instanceMap

theorem none_notMem_findObject {c : ActiveCache T} (key : ℤ) (h : none ∉ c.activeScriptObjects) :
    none ∉ (c.findObject key).2.activeScriptObjects := by
  simp only [findObject]
  split
  · simpa using h
  · exact h

theorem objects_registerObject {key : ℤ} {c : ActiveCache T} (obj : T)
    (h : (c.findObject key).1 = none) :
    (objects ((c.findObject key).2.registerObject key obj).instanceMap).Perm
      (obj :: objects c.instanceMap) := by
  simp only [findObject] at h ⊢
  split at h
  · rename_i hs
    rw [hs] at h
    cases h
  · rename_i hs
    exact objects_assign obj hs

/-- The cache in step with its history. -/
structure InStep (h : History T) : Prop where
  nodup : (objects h.cache.instanceMap).Nodup
  live : ∀ obj, obj ∈ objects h.cache.instanceMap ↔ obj ∈ h.live
  active : ∀ p, p ∈ h.cache.activeScriptObjects ↔ ∃ obj ∈ h.live, obj ∈ h.used ∧ p = some obj

omit [DecidableEq T] in
theorem inStep_initial : InStep (T := T) .initial where
  nodup := List.nodup_nil
  live := by simp [History.initial, empty, objects]
  active := by simp [History.initial, empty]

omit [DecidableEq T] in
theorem InStep.none_notMem {h : History T} (hs : InStep h) :
    none ∉ h.cache.activeScriptObjects := by
  intro hn
  obtain ⟨_, _, _, he⟩ := (hs.active none).mp hn
  cases he

/-- An object found or registered is live and used. -/
theorem mem_active_insert {live live' used : Finset T} {obj : T}
    (hlive : ∀ x, x ∈ live' ↔ x = obj ∨ x ∈ live) (p : Pointer T) :
    (p = some obj ∨ ∃ x ∈ live, x ∈ used ∧ p = some x) ↔
      ∃ x ∈ live', x ∈ insert obj used ∧ p = some x := by
  simp only [hlive, Finset.mem_insert]
  constructor
  · rintro (rfl | ⟨x, hx, hu, rfl⟩)
    · exact ⟨obj, Or.inl rfl, Or.inl rfl, rfl⟩
    · exact ⟨x, Or.inr hx, Or.inr hu, rfl⟩
  · rintro ⟨x, hx, hu, rfl⟩
    rcases hx with rfl | hx
    · exact Or.inl rfl
    · rcases hu with rfl | hu
      · exact Or.inl rfl
      · exact Or.inr ⟨x, hx, hu, rfl⟩

theorem inStep_factory {h : History T} (hs : InStep h) {key : ℤ} {create : Option T}
    (hf : Fresh h (.factory key create)) : InStep (exec h (.factory key create)) := by
  obtain ⟨hd, hl, ha⟩ := hs
  cases hr : (subscript key h.cache.instanceMap).1 with
  | some obj =>
    have hobj : obj ∈ h.live := (hl obj).mp (mem_objects_of_subscript hr)
    have hlive : ∀ x, x ∈ h.live ↔ x = obj ∨ x ∈ h.live :=
      fun x => (or_iff_right_of_imp fun hx => hx ▸ hobj).symm
    simp only [exec, factory, findObject, hr]
    refine ⟨?_, ?_, ?_⟩
    · rwa [objects_subscript]
    · intro x
      rw [objects_subscript, hl]
    · intro p
      rw [Finset.mem_insert, ha]
      exact mem_active_insert hlive p
  | none =>
    cases create with
    | none =>
      simp only [exec, factory, findObject, hr]
      refine ⟨?_, ?_, ha⟩
      · rwa [objects_subscript]
      · intro x
        rw [objects_subscript, hl]
    | some obj =>
      have hfresh : obj ∉ h.live := hf (by simp only [findObject, hr])
      have hperm := objects_assign obj hr
      simp only [exec, factory, findObject, hr, registerObject]
      refine ⟨?_, ?_, ?_⟩
      · rw [hperm.nodup_iff, List.nodup_cons]
        exact ⟨fun hm => hfresh ((hl obj).mp hm), hd⟩
      · intro x
        rw [hperm.mem_iff, List.mem_cons, hl, Finset.mem_insert]
      · intro p
        rw [Finset.mem_insert, ha]
        exact mem_active_insert (fun x => Finset.mem_insert) p

/-- The objects that `scriptComplete` removes, besides null pointers. -/
theorem mem_removed {h : History T} (hs : InStep h) (obj : T) :
    some obj ∈ h.cache.scriptComplete.removed ↔ obj ∈ h.live ∧ obj ∉ h.used := by
  obtain ⟨-, hremoved, -, -⟩ := completeEntries_spec hs.nodup hs.none_notMem
  simp only [scriptComplete, hremoved, List.mem_filter, ← mem_objects, hs.live, hs.active,
    decide_eq_true_eq]
  constructor
  · rintro ⟨hl, hn⟩
    exact ⟨hl, fun hu => hn ⟨obj, hl, hu, rfl⟩⟩
  · rintro ⟨hl, hn⟩
    refine ⟨hl, ?_⟩
    rintro ⟨x, -, hu, he⟩
    cases he
    exact hn hu

theorem inStep_scriptComplete {h : History T} (hs : InStep h) :
    InStep (exec h .scriptComplete) := by
  obtain ⟨hmap, -, hactive, -⟩ := completeEntries_spec hs.nodup hs.none_notMem
  refine ⟨?_, ?_, ?_⟩
  · simp only [exec, scriptComplete, hmap]
    exact hs.nodup.filter _
  · intro obj
    simp only [exec, unlisted, Finset.mem_filter, mem_removed hs]
    simp only [scriptComplete, hmap, List.mem_filter, hs.live, hs.active, decide_eq_true_eq]
    constructor
    · rintro ⟨hl, x, -, hu, he⟩
      cases he
      exact ⟨hl, fun hn => hn.2 hu⟩
    · rintro ⟨hl, hn⟩
      refine ⟨hl, obj, hl, ?_, rfl⟩
      by_contra hu
      exact hn ⟨hl, hu⟩
  · intro p
    simp only [exec, scriptComplete, hactive, hs.active]
    constructor
    · rintro ⟨⟨obj, hl, -, rfl⟩, hne⟩
      exact absurd rfl (hne obj ((hs.live obj).mpr hl))
    · rintro ⟨obj, -, hu, -⟩
      exact absurd hu (Finset.notMem_empty obj)

theorem mem_removeEntries (map : List (ℤ × Pointer T)) (active : Finset (Pointer T))
    (p : Pointer T) : p ∈ removeEntries map active ↔ p ∈ active ∧ p ∉ map.map Prod.snd := by
  induction map generalizing active with
  | nil => simp [removeEntries]
  | cons entry rest ih =>
    obtain ⟨k, q⟩ := entry
    simp only [removeEntries, ih, Finset.mem_erase, List.map_cons, List.mem_cons, not_or]
    constructor
    · rintro ⟨⟨hq, hp⟩, hr⟩
      exact ⟨hp, hq, hr⟩
    · rintro ⟨hp, hq, hr⟩
      exact ⟨⟨hq, hp⟩, hr⟩

theorem inStep_removeAll {h : History T} (hs : InStep h) : InStep (exec h .removeAll) := by
  have hlive : ∀ obj, obj ∉ unlisted h.live h.cache.removeAll.2 := by
    intro obj hm
    obtain ⟨hl, hn⟩ := Finset.mem_filter.mp hm
    exact hn (mem_objects.mp ((hs.live obj).mpr hl))
  refine ⟨List.nodup_nil, ?_, ?_⟩
  · intro obj
    simp only [exec, hlive, iff_false]
    exact List.not_mem_nil
  · intro p
    simp only [exec, removeAll, mem_removeEntries, hs.active]
    constructor
    · rintro ⟨⟨obj, hl, -, rfl⟩, hn⟩
      exact absurd (mem_objects.mp ((hs.live obj).mpr hl)) hn
    · rintro ⟨obj, hl, -, -⟩
      exact absurd hl (hlive obj)

theorem inStep_exec {h : History T} (hs : InStep h) {op : Op T} (hf : Fresh h op) :
    InStep (exec h op) := by
  cases op with
  | factory key create => exact inStep_factory hs hf
  | scriptComplete => exact inStep_scriptComplete hs
  | removeAll => exact inStep_removeAll hs

/-- Whether any object stays in use. -/
theorem activeObjects_iff {h : History T} (hs : InStep h) :
    h.cache.scriptComplete.activeObjects = true ↔
      ∃ obj ∈ h.live, some obj ∉ h.cache.scriptComplete.removed := by
  obtain ⟨-, -, -, hkept⟩ := completeEntries_spec hs.nodup hs.none_notMem
  constructor
  · intro h'
    obtain ⟨obj, -, ha⟩ := hkept.mp h'
    obtain ⟨x, hl, hu, he⟩ := (hs.active _).mp ha
    cases he
    exact ⟨obj, hl, fun hm => ((mem_removed hs obj).mp hm).2 hu⟩
  · rintro ⟨obj, hl, hm⟩
    refine hkept.mpr ⟨obj, (hs.live obj).mpr hl, (hs.active _).mpr ⟨obj, hl, ?_, rfl⟩⟩
    by_contra hu
    exact hm ((mem_removed hs obj).mpr ⟨hl, hu⟩)

/-- Of the pointers in the map `keep`, each that is not null can be removed, and null ones
cannot. -/
theorem removesLive_filter_iff {h : History T} (hs : InStep h) (keep : Pointer T → Bool)
    (hnone : keep none = true) :
    RemovesLive h.live ((h.cache.instanceMap.map Prod.snd).filter keep) ↔
      none ∉ h.cache.instanceMap.map Prod.snd := by
  rw [removesLive_iff]
  constructor
  · rintro ⟨-, hall⟩ hn
    obtain ⟨_, _, he⟩ := hall none (List.mem_filter.mpr ⟨hn, hnone⟩)
    cases he
  · intro hn
    refine ⟨?_, ?_⟩
    · rw [map_snd_of_none hn]
      exact (hs.nodup.map (Option.some_injective T)).filter keep
    · intro p hp
      have hmem := (List.mem_filter.mp hp).1
      have hne : p ≠ none := fun he => hn (he ▸ hmem)
      obtain ⟨obj, rfl⟩ := Option.ne_none_iff_exists'.mp hne
      exact ⟨obj, (hs.live obj).mp (mem_objects.mpr hmem), rfl⟩

/-- One call is correct exactly when it meets no null pointer. -/
theorem correct_iff_noneMissing {h : History T} (hs : InStep h) (op : Op T) :
    Correct h op ↔ NoneMissing h op := by
  cases op with
  | factory key create => exact Iff.rfl
  | removeAll =>
    have hiff := removesLive_filter_iff hs (fun _ => true) rfl
    rw [List.filter_true] at hiff
    exact hiff
  | scriptComplete =>
    obtain ⟨-, hremoved, -, -⟩ := completeEntries_spec hs.nodup hs.none_notMem
    have hiff := removesLive_filter_iff hs (fun p => decide (p ∉ h.cache.activeScriptObjects))
      (decide_eq_true hs.none_notMem)
    rw [← hremoved] at hiff
    exact ⟨fun hc => hiff.mp hc.1, fun hn => ⟨hiff.mpr hn, mem_removed hs, activeObjects_iff hs⟩⟩

/-- Along every run the calls are correct exactly when no objects are removed while a failed
creation has left a null pointer in the map. -/
theorem always_correct_iff (ops : List (Op T))
    (hf : Transition.Always exec Fresh .initial ops) :
    Transition.Always exec Correct .initial ops ↔
      Transition.Always exec NoneMissing .initial ops :=
  Transition.always_congr (fun _ op hs _ => correct_iff_noneMissing hs op)
    (fun _ _ hs hf _ => inStep_exec hs hf) inStep_initial hf

/-- An object is created in one script run, and not used in the next. -/
theorem always_correct_unused :
    Transition.Always exec Correct .initial
      [.factory 1 (some 7), .scriptComplete, .scriptComplete] :=
  (always_correct_iff [.factory 1 (some 7), .scriptComplete, .scriptComplete]
    ⟨fun _ => Finset.notMem_empty 7, trivial, trivial, trivial⟩).mpr
      ⟨trivial, by simp only [NoneMissing]; decide, by simp only [NoneMissing]; decide, trivial⟩

/-- A plugin that is not installed: the script ends, and a null pointer is removed. -/
theorem not_always_correct :
    Transition.Always exec Fresh (.initial : History ℕ) [.factory 1 none, .scriptComplete] ∧
      ¬ Transition.Always exec Correct (.initial : History ℕ)
        [.factory 1 none, .scriptComplete] := by
  refine ⟨⟨trivial, trivial, trivial⟩, ?_⟩
  rintro ⟨-, ⟨hremoves, -⟩, -⟩
  exact hremoves

end ActiveCache

end Bipscript
