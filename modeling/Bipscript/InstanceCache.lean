import Bipscript.Library.OrderedMap
import Bipscript.ObjectCache
import Mathlib.Data.Finset.Option

/-! Caches keyed by a hash of the request plus a count of the calls with that hash. -/
namespace Bipscript

/-- An object of such a cache: which allocation it is, and the request it was made for. -/
structure Instance (Q : Type*) where
  id : ℕ
  request : Q
deriving DecidableEq

/-- `instanceCount` of a run, from zero; `allocated` numbers the objects. -/
structure InstanceCache (Q : Type*) where
  cache : ActiveCache (Instance Q)
  instanceCount : BitVec 32 → ℕ
  allocated : ℕ

namespace ActiveCache

open OrderedMap (Ordered)

variable {T : Type*}

/-- Reading a key leaves the map as if what was read had been assigned. -/
theorem subscript_snd (key : ℤ) (map : List (ℤ × Pointer T)) :
    (subscript key map).2 = OrderedMap.assign key (subscript key map).1 map := by
  induction map with
  | nil => rfl
  | cons entry rest ih =>
    obtain ⟨k, obj⟩ := entry
    simp only [subscript, OrderedMap.assign]
    split
    · rfl
    · split
      · rfl
      · exact congrArg _ ih

theorem ordered_subscript {key : ℤ} {map : List (ℤ × Pointer T)} (h : Ordered map) :
    Ordered (subscript key map).2 := by
  rw [subscript_snd]
  exact OrderedMap.ordered_assign h

/-- Reading a key finds the entry that has it. -/
theorem subscript_eq_some {key : ℤ} {map : List (ℤ × Pointer T)} {obj : T} (h : Ordered map) :
    (subscript key map).1 = some obj ↔ (key, some obj) ∈ map := by
  induction map with
  | nil => simp [subscript]
  | cons entry rest ih =>
    obtain ⟨k, p⟩ := entry
    obtain ⟨hk, hrest⟩ := List.pairwise_cons.mp h
    simp only [subscript, List.mem_cons, Prod.mk.injEq]
    have hlater : ∀ p, (key, p) ∈ rest → k < key := fun p hp => hk _ hp
    split
    · rename_i he
      constructor
      · rintro rfl
        exact Or.inl ⟨he.symm, rfl⟩
      · rintro (⟨-, rfl⟩ | hin)
        · rfl
        · exact absurd (hlater _ hin) (by omega)
    · rename_i hne
      split
      · rename_i hlt
        constructor
        · intro hn
          cases hn
        · rintro (⟨he, -⟩ | hin)
          · exact absurd he.symm hne
          · exact absurd (hlater _ hin) (by omega)
      · rw [ih hrest]
        constructor
        · exact Or.inr
        · rintro (⟨he, -⟩ | hin)
          · exact absurd he.symm hne
          · exact hin

theorem mem_subscript {key k : ℤ} {map : List (ℤ × Pointer T)} {obj : T} :
    (k, some obj) ∈ (subscript key map).2 ↔ (k, some obj) ∈ map := by
  induction map with
  | nil => simp [subscript]
  | cons entry rest ih =>
    obtain ⟨k', p⟩ := entry
    simp only [subscript]
    split
    · exact Iff.rfl
    · split
      · simp
      · simp only [List.mem_cons, ih]

/-- An object is under one key. -/
theorem key_unique {map : List (ℤ × Pointer T)} (hd : (objects map).Nodup) {k k' : ℤ} {obj : T}
    (h : (k, some obj) ∈ map) (h' : (k', some obj) ∈ map) : k = k' := by
  induction map with
  | nil => cases h
  | cons entry rest ih =>
    obtain ⟨key, p⟩ := entry
    rw [objects_cons] at hd
    have hrest := ih (hd.of_append_right)
    have hout : p = some obj → (some obj) ∉ rest.map Prod.snd := by
      rintro rfl hm
      exact (List.nodup_cons.mp hd).1 (mem_objects.mpr hm)
    rcases List.mem_cons.mp h with he | hin
    · rcases List.mem_cons.mp h' with he' | hin'
      · cases he
        cases he'
        rfl
      · cases he
        exact absurd (List.mem_map_of_mem hin') (hout rfl)
    · rcases List.mem_cons.mp h' with he' | hin'
      · cases he'
        exact absurd (List.mem_map_of_mem hin) (hout rfl)
      · exact hrest hin hin'

section

variable [DecidableEq T]

/-- `scriptComplete` keeps the entries whose objects were used. -/
theorem mem_completeEntries {map : List (ℤ × Pointer T)} {active : Finset (Pointer T)}
    (hd : (objects map).Nodup) {k : ℤ} {obj : T} :
    (k, some obj) ∈ (completeEntries map active).cache.instanceMap ↔
      (k, some obj) ∈ map ∧ some obj ∈ active := by
  induction map generalizing active with
  | nil => simp [completeEntries]
  | cons entry rest ih =>
    obtain ⟨key, p⟩ := entry
    rw [objects_cons] at hd
    have hrest := @ih active hd.of_append_right
    by_cases hin : p ∈ active
    · have hrest' := @ih (active.erase p) hd.of_append_right
      have hne : (k, some obj) ∈ rest → some obj ≠ p := by
        rintro hm rfl
        exact (List.nodup_cons.mp hd).1 (mem_objects.mpr (List.mem_map_of_mem hm))
      simp only [completeEntries, if_pos hin, List.mem_cons, hrest', Finset.mem_erase,
        Prod.mk.injEq]
      constructor
      · rintro (⟨rfl, rfl⟩ | ⟨hm, -, ha⟩)
        · exact ⟨Or.inl ⟨rfl, rfl⟩, hin⟩
        · exact ⟨Or.inr hm, ha⟩
      · rintro ⟨⟨rfl, rfl⟩ | hm, ha⟩
        · exact Or.inl ⟨rfl, rfl⟩
        · exact Or.inr ⟨hm, hne hm, ha⟩
    · simp only [completeEntries, if_neg hin, List.mem_cons, hrest, Prod.mk.injEq]
      constructor
      · rintro ⟨hm, ha⟩
        exact ⟨Or.inr hm, ha⟩
      · rintro ⟨⟨rfl, rfl⟩ | hm, ha⟩
        · exact absurd ha hin
        · exact ⟨hm, ha⟩

theorem ordered_completeEntries {map : List (ℤ × Pointer T)} (active : Finset (Pointer T))
    (h : Ordered map) : Ordered (completeEntries map active).cache.instanceMap := by
  have hsub : ∀ (map : List (ℤ × Pointer T)) active,
      (completeEntries map active).cache.instanceMap.Sublist map := by
    intro map
    induction map with
    | nil => exact fun _ => List.Sublist.refl _
    | cons entry rest ih =>
      intro active
      simp only [completeEntries]
      split
      · exact (ih _).cons_cons entry
      · exact (ih _).cons entry
  exact h.sublist (hsub map active)

end

end ActiveCache

namespace InstanceCache

variable {Q : Type*} [DecidableEq Q]

def new : InstanceCache Q := ⟨.empty, fun _ => 0, 0⟩

/-- `hash + count` as the `int` that the map is keyed by. -/
def key (hash : BitVec 32) (count : ℕ) : ℤ := (hash + BitVec.ofNat 32 count).toInt

/-- What `getMixer` and `getPlugin` share: the count of the calls with this hash, the first of them
`first`, is added to the hash, and the object under that key is found or created. -/
def get (hash : BitVec 32) (first : ℕ) (q : Q) (creates : Bool) (s : InstanceCache Q) :
    Pointer (Instance Q) × InstanceCache Q :=
  let count := s.instanceCount hash
  let r := s.cache.factory (key hash (first + count))
    (if creates then some ⟨s.allocated, q⟩ else none)
  (r.1, ⟨r.2, Function.update s.instanceCount hash (count + 1), s.allocated + 1⟩)

/-- `scriptComplete`, with its call of `scriptReset`. -/
def scriptComplete (s : InstanceCache Q) : InstanceCache Q :=
  ⟨s.cache.scriptComplete.cache, fun _ => 0, s.allocated⟩

/-- `creates` is whether a creation, if it comes to that, succeeds. -/
inductive Call (Q : Type*)
  | get (q : Q) (creates : Bool)
  | scriptComplete

/-- The cache, and the objects returned since the last `scriptComplete`. -/
structure History (Q : Type*) where
  cache : InstanceCache Q
  returned : Finset (Instance Q)

def History.initial : History Q := ⟨new, ∅⟩

variable (hash : Q → BitVec 32) (first : ℕ)

/-- What a call for `q` returns. -/
def History.result (h : History Q) (q : Q) (creates : Bool) : Pointer (Instance Q) :=
  (h.cache.get (hash q) first q creates).1

def History.exec (h : History Q) : Call Q → History Q
  | .get q creates =>
    ⟨(h.cache.get (hash q) first q creates).2,
      h.returned ∪ (h.result hash first q creates).toFinset⟩
  | .scriptComplete => ⟨h.cache.scriptComplete, ∅⟩

/-- What is returned was made for this request. -/
def History.Matches (h : History Q) : Call Q → Prop
  | .get q creates => ∀ p, h.result hash first q creates = some p → p.request = q
  | .scriptComplete => True

/-- What is returned was not yet returned in this run. -/
def History.Distinct (h : History Q) : Call Q → Prop
  | .get q creates => ∀ p, h.result hash first q creates = some p → p ∉ h.returned
  | .scriptComplete => True

/-- The calls so far, without any objects: how many there were in this run with each hash, and by
key the last request served in this run and in the one before. -/
structure Ledger (Q : Type*) where
  previous : ℤ → Option Q
  current : ℤ → Option Q
  calls : BitVec 32 → ℕ

namespace Ledger

def initial : Ledger Q := ⟨fun _ => none, fun _ => none, fun _ => 0⟩

def keyOf (l : Ledger Q) (q : Q) : ℤ := key (hash q) (first + l.calls (hash q))

/-- The last request served under a key, in this run or else in the one before. -/
def served (l : Ledger Q) (k : ℤ) : Option Q := (l.current k).or (l.previous k)

def exec (l : Ledger Q) : Call Q → Ledger Q
  | .get q creates =>
    let k := l.keyOf hash first q
    ⟨l.previous,
      if (l.served k).isSome ∨ creates then Function.update l.current k (some q) else l.current,
      Function.update l.calls (hash q) (l.calls (hash q) + 1)⟩
  | .scriptComplete => ⟨l.current, fun _ => none, fun _ => 0⟩

/-- The request last served under the key of a call is that of the call. -/
def Same (l : Ledger Q) : Call Q → Prop
  | .get q _ => ∀ q', l.served (l.keyOf hash first q) = some q' → q' = q
  | .scriptComplete => True

/-- No call of this run was served under the key. -/
def Unused (l : Ledger Q) : Call Q → Prop
  | .get q _ => l.current (l.keyOf hash first q) = none
  | .scriptComplete => True

end Ledger

/-- A call whose creation succeeds returns an object. -/
theorem get_isSome (hash : BitVec 32) (first : ℕ) (q : Q) (s : InstanceCache Q) :
    ∃ p, (s.get hash first q true).1 = some p := by
  simp only [InstanceCache.get, ActiveCache.factory, if_true]
  split
  · rename_i obj _ _
    exact ⟨obj, rfl⟩
  · exact ⟨_, rfl⟩

open ActiveCache
open OrderedMap (Ordered)

variable {hash first}

/-- The ledger knows the objects in the map, and which of them are in use. -/
structure Mirrors (h : History Q) (l : Ledger Q) : Prop where
  ordered : Ordered h.cache.cache.instanceMap
  nodup : (objects h.cache.cache.instanceMap).Nodup
  count : h.cache.instanceCount = l.calls
  served : ∀ k q, l.served k = some q ↔ ∃ id, (k, some ⟨id, q⟩) ∈ h.cache.cache.instanceMap
  active : ∀ p, p ∈ h.cache.cache.activeScriptObjects ↔
    ∃ k i, p = some i ∧ (k, some i) ∈ h.cache.cache.instanceMap ∧ l.current k ≠ none
  returned : ∀ i, i ∈ h.returned ↔ some i ∈ h.cache.cache.activeScriptObjects
  fresh : ∀ k i, (k, some i) ∈ h.cache.cache.instanceMap → i.id < h.cache.allocated

omit [DecidableEq Q] in
theorem mirrors_initial : Mirrors (Q := Q) .initial .initial where
  ordered := List.Pairwise.nil
  nodup := List.nodup_nil
  count := rfl
  served k q := by simp [Ledger.initial, Ledger.served, History.initial, new, empty]
  active p := by simp [History.initial, new, empty]
  returned i := by simp [History.initial, new, empty]
  fresh k i hi := by cases hi

/-- What a call can do: find, create, or throw. -/
theorem Mirrors.get_cases {h : History Q} {l : Ledger Q} (hm : Mirrors h l)
    (hash : Q → BitVec 32) (first : ℕ) (q : Q) (creates : Bool) :
    let k := l.keyOf hash first q
    let r := h.cache.get (hash q) first q creates
    let made : Instance Q := ⟨h.cache.allocated, q⟩
    (∃ i, (k, some i) ∈ h.cache.cache.instanceMap ∧ r.1 = some i ∧
      r.2.cache = ⟨(subscript k h.cache.cache.instanceMap).2,
        insert (some i) h.cache.cache.activeScriptObjects⟩) ∨
    (l.served k = none ∧ creates = true ∧ r.1 = some made ∧
      r.2.cache = ⟨assign k (some made) (subscript k h.cache.cache.instanceMap).2,
        insert (some made) h.cache.cache.activeScriptObjects⟩) ∨
    (l.served k = none ∧ creates = false ∧ r.1 = none ∧
      r.2.cache = ⟨(subscript k h.cache.cache.instanceMap).2,
        h.cache.cache.activeScriptObjects⟩) := by
  intro k r made
  have hk : key (hash q) (first + h.cache.instanceCount (hash q)) = k := by
    rw [hm.count]
    rfl
  cases hs : (subscript k h.cache.cache.instanceMap).1 with
  | some i =>
    refine Or.inl ⟨i, (subscript_eq_some hm.ordered).mp hs, ?_, ?_⟩ <;>
      simp [r, get, hk, factory, findObject, hs]
  | none =>
    have hnone : l.served k = none := by
      apply Option.eq_none_iff_forall_ne_some.mpr
      intro q' hq
      obtain ⟨id, hin⟩ := (hm.served k q').mp hq
      rw [(subscript_eq_some hm.ordered).mpr hin] at hs
      cases hs
    cases creates with
    | true =>
      refine Or.inr (Or.inl ⟨hnone, rfl, ?_, ?_⟩) <;>
        simp [r, get, hk, factory, findObject, hs, registerObject, made]
    | false =>
      refine Or.inr (Or.inr ⟨hnone, rfl, ?_, ?_⟩) <;>
        simp [r, get, hk, factory, findObject, hs]

theorem Mirrors.matches_iff {h : History Q} {l : Ledger Q} (hm : Mirrors h l) (c : Call Q) :
    h.Matches hash first c ↔ l.Same hash first c := by
  cases c with
  | scriptComplete => exact Iff.rfl
  | get q creates =>
    rcases hm.get_cases hash first q creates with
      ⟨⟨id, q'⟩, hin, hr, -⟩ | ⟨hnone, -, hr, -⟩ | ⟨hnone, -, hr, -⟩
    · have hserved := (hm.served _ q').mpr ⟨id, hin⟩
      simp only [History.Matches, History.result, hr, Ledger.Same, hserved, Option.some.injEq,
        forall_eq']
    · simp [History.Matches, History.result, hr, Ledger.Same, hnone]
    · simp [History.Matches, History.result, hr, Ledger.Same, hnone]

theorem Mirrors.distinct_iff {h : History Q} {l : Ledger Q} (hm : Mirrors h l) (c : Call Q) :
    h.Distinct hash first c ↔ l.Unused hash first c := by
  cases c with
  | scriptComplete => exact Iff.rfl
  | get q creates =>
    have hcurrent : ∀ {k}, l.served k = none → l.current k = none := by
      intro k hk
      exact (Option.or_eq_none_iff.mp hk).1
    rcases hm.get_cases hash first q creates with
      ⟨i, hin, hr, -⟩ | ⟨hnone, -, hr, -⟩ | ⟨hnone, -, hr, -⟩
    · simp only [History.Distinct, History.result, hr, Ledger.Unused, Option.some.injEq, forall_eq']
      rw [hm.returned, hm.active, ← not_iff_not, not_not]
      constructor
      · rintro ⟨k, j, he, hj, hused⟩
        cases he
        rwa [key_unique hm.nodup hin hj]
      · intro hused
        exact ⟨_, i, rfl, hin, hused⟩
    · have hnew : (⟨h.cache.allocated, q⟩ : Instance Q) ∉ h.returned := by
        rw [hm.returned, hm.active]
        rintro ⟨k, j, he, hj, -⟩
        cases he
        exact lt_irrefl _ (hm.fresh k _ hj)
      simp only [History.Distinct, History.result, hr, Ledger.Unused, Option.some.injEq, forall_eq',
        hcurrent hnone, hnew, not_false_eq_true]
    · simp [History.Distinct, History.result, hr, Ledger.Unused, hcurrent hnone]

omit [DecidableEq Q] in
theorem Ledger.served_update (l : Ledger Q) (k k' : ℤ) (q : Q) :
    (Function.update l.current k (some q) k').or (l.previous k') =
      if k' = k then some q else l.served k' := by
  by_cases h : k' = k
  · subst h
    simp
  · simp [h, Ledger.served]

/-- An object used under a key, found there or put there, is the only one under it. -/
theorem Mirrors.use {h : History Q} {l : Ledger Q} (hm : Mirrors h l) {k : ℤ} {i : Instance Q}
    {map : List (ℤ × Pointer (Instance Q))} (hordered : Ordered map) (hnodup : (objects map).Nodup)
    (hmem : ∀ k' j, (k', some j) ∈ map ↔
      if k' = k then j = i else (k', some j) ∈ h.cache.cache.instanceMap)
    (honly : ∀ j, (k, some j) ∈ h.cache.cache.instanceMap → j = i)
    (hfresh : i.id < h.cache.allocated + 1) (calls : BitVec 32 → ℕ) :
    Mirrors ⟨⟨⟨map, insert (some i) h.cache.cache.activeScriptObjects⟩, calls,
        h.cache.allocated + 1⟩, h.returned ∪ {i}⟩
      ⟨l.previous, Function.update l.current k (some i.request), calls⟩ where
  ordered := hordered
  nodup := hnodup
  count := rfl
  served := by
    intro k' q
    simp only [Ledger.served, Ledger.served_update, hmem]
    split
    · constructor
      · intro hq
        exact ⟨i.id, by rw [← Option.some_inj.mp hq]⟩
      · rintro ⟨id, rfl⟩
        rfl
    · exact hm.served k' q
  active := by
    intro p
    simp only [Finset.mem_insert, hm.active, hmem]
    constructor
    · rintro (rfl | ⟨k', j, rfl, hj, hused⟩)
      · exact ⟨k, i, rfl, by rw [if_pos rfl], by simp⟩
      · by_cases hk : k' = k
        · subst hk
          exact ⟨k', j, rfl, by rw [if_pos rfl, honly j hj], by simp⟩
        · exact ⟨k', j, rfl, by rwa [if_neg hk], by rwa [Function.update_of_ne hk]⟩
    · rintro ⟨k', j, rfl, hj, hused⟩
      by_cases hk : k' = k
      · rw [if_pos hk] at hj
        exact Or.inl (congrArg some hj)
      · rw [if_neg hk] at hj
        rw [Function.update_of_ne hk] at hused
        exact Or.inr ⟨k', j, rfl, hj, hused⟩
  returned := by
    intro j
    simp only [Finset.mem_union, Finset.mem_singleton, Finset.mem_insert, hm.returned,
      Option.some.injEq]
    exact or_comm
  fresh := by
    intro k' j hj
    rw [hmem] at hj
    split at hj
    · rw [hj]
      exact hfresh
    · exact Nat.lt_succ_of_lt (hm.fresh k' j hj)

omit [DecidableEq Q] in
/-- A call that throws leaves at most a null pointer in the map. -/
theorem Mirrors.miss {h : History Q} {l : Ledger Q} (hm : Mirrors h l) (k : ℤ)
    (calls : BitVec 32 → ℕ) :
    Mirrors ⟨⟨⟨(subscript k h.cache.cache.instanceMap).2, h.cache.cache.activeScriptObjects⟩, calls,
        h.cache.allocated + 1⟩, h.returned⟩
      ⟨l.previous, l.current, calls⟩ where
  ordered := ordered_subscript hm.ordered
  nodup := by
    rw [objects_subscript]
    exact hm.nodup
  count := rfl
  served := by
    intro k' q
    simp only [mem_subscript]
    exact hm.served k' q
  active := by
    intro p
    simp only [mem_subscript]
    exact hm.active p
  returned := hm.returned
  fresh := by
    intro k' j hj
    exact Nat.lt_succ_of_lt (hm.fresh k' j (mem_subscript.mp hj))

omit [DecidableEq Q] in
/-- The object found under a key is the only one. -/
theorem Mirrors.found_unique {h : History Q} {l : Ledger Q} (hm : Mirrors h l) {k : ℤ}
    {i j : Instance Q} (hi : (k, some i) ∈ h.cache.cache.instanceMap)
    (hj : (k, some j) ∈ h.cache.cache.instanceMap) : j = i := by
  have hi' := (subscript_eq_some hm.ordered).mpr hi
  have hj' := (subscript_eq_some hm.ordered).mpr hj
  exact Option.some_inj.mp (hj'.symm.trans hi')

/-- A call, by what `get` returns and what it leaves in the cache. -/
theorem exec_get (hash : Q → BitVec 32) (first : ℕ) {h : History Q} {q : Q} {creates : Bool}
    {p : Pointer (Instance Q)} {c : ActiveCache (Instance Q)}
    (hr : (h.cache.get (hash q) first q creates).1 = p)
    (hc : (h.cache.get (hash q) first q creates).2.cache = c) :
    h.exec hash first (.get q creates) =
      ⟨⟨c, Function.update h.cache.instanceCount (hash q) (h.cache.instanceCount (hash q) + 1),
        h.cache.allocated + 1⟩, h.returned ∪ p.toFinset⟩ := by
  rw [← hr, ← hc]
  rfl

/-- An object is found, and used again. -/
theorem Mirrors.find {h : History Q} {l : Ledger Q} (hm : Mirrors h l) {k : ℤ} {i : Instance Q}
    (hin : (k, some i) ∈ h.cache.cache.instanceMap) (calls : BitVec 32 → ℕ) :
    Mirrors ⟨⟨⟨(subscript k h.cache.cache.instanceMap).2,
        insert (some i) h.cache.cache.activeScriptObjects⟩, calls, h.cache.allocated + 1⟩,
        h.returned ∪ {i}⟩
      ⟨l.previous, Function.update l.current k (some i.request), calls⟩ := by
  refine hm.use (ordered_subscript hm.ordered) (by rw [objects_subscript]; exact hm.nodup) ?_
    (fun j hj => hm.found_unique hin hj) (Nat.lt_succ_of_lt (hm.fresh k i hin)) calls
  intro k' j
  rw [mem_subscript]
  split
  · rename_i hk
    rw [hk]
    exact ⟨fun hj => hm.found_unique hin hj, fun hj => hj ▸ hin⟩
  · exact Iff.rfl

/-- An object is created under a key that had none. -/
theorem Mirrors.create {h : History Q} {l : Ledger Q} (hm : Mirrors h l) {k : ℤ}
    (honly : ∀ i, (k, some i) ∉ h.cache.cache.instanceMap) (q : Q) (calls : BitVec 32 → ℕ) :
    Mirrors ⟨⟨⟨assign k (some ⟨h.cache.allocated, q⟩) (subscript k h.cache.cache.instanceMap).2,
        insert (some ⟨h.cache.allocated, q⟩) h.cache.cache.activeScriptObjects⟩, calls,
        h.cache.allocated + 1⟩, h.returned ∪ {⟨h.cache.allocated, q⟩}⟩
      ⟨l.previous, Function.update l.current k (some q), calls⟩ := by
  have hmiss : (subscript k h.cache.cache.instanceMap).1 = none :=
    Option.eq_none_iff_forall_ne_some.mpr fun i hi =>
      honly i ((subscript_eq_some hm.ordered).mp hi)
  refine hm.use ?_ ?_ ?_ (fun j hj => (honly j hj).elim) (Nat.lt_succ_self _) calls
  · exact OrderedMap.ordered_assign (ordered_subscript hm.ordered)
  · apply (objects_assign _ hmiss).nodup_iff.mpr
    refine List.nodup_cons.mpr ⟨?_, hm.nodup⟩
    intro hin
    obtain ⟨⟨k', p⟩, hp, he⟩ := List.mem_map.mp (mem_objects.mp hin)
    cases he
    exact lt_irrefl _ (hm.fresh k' _ hp)
  · intro k' j
    unfold assign
    rw [OrderedMap.mem_assign (ordered_subscript hm.ordered), mem_subscript,
      Option.some.injEq]

theorem Mirrors.get {h : History Q} {l : Ledger Q} (hm : Mirrors h l) (q : Q) (creates : Bool)
    (hmatch : h.Matches hash first (.get q creates)) :
    Mirrors (h.exec hash first (.get q creates)) (l.exec hash first (.get q creates)) := by
  rcases hm.get_cases hash first q creates with
    ⟨i, hin, hr, hc⟩ | ⟨hnone, rfl, hr, hc⟩ | ⟨hnone, rfl, hr, hc⟩
  · -- found: the object was made for this request
    obtain rfl : i.request = q := hmatch i hr
    have hserved := (hm.served _ _).mpr ⟨i.id, hin⟩
    have hused := hm.find hin
      (Function.update l.calls (hash i.request) (l.calls (hash i.request) + 1))
    rw [exec_get hash first hr hc, hm.count]
    simpa [Ledger.exec, hserved] using hused
  · -- created under a key that had no object
    have honly : ∀ i, (l.keyOf hash first q, some i) ∉ h.cache.cache.instanceMap := by
      intro i hi
      have hserved := (hm.served _ i.request).mpr ⟨i.id, hi⟩
      rw [hnone] at hserved
      cases hserved
    have hused := hm.create honly q (Function.update l.calls (hash q) (l.calls (hash q) + 1))
    rw [exec_get hash first hr hc, hm.count]
    simpa [Ledger.exec] using hused
  · -- thrown
    have hmissed := hm.miss (l.keyOf hash first q)
      (Function.update l.calls (hash q) (l.calls (hash q) + 1))
    rw [exec_get hash first hr hc, hm.count]
    simpa [Ledger.exec, hnone] using hmissed

theorem Mirrors.scriptComplete {h : History Q} {l : Ledger Q} (hm : Mirrors h l)
    (hash : Q → BitVec 32) (first : ℕ) :
    Mirrors (h.exec hash first .scriptComplete) (l.exec hash first .scriptComplete) := by
  have hnone : none ∉ h.cache.cache.activeScriptObjects := by
    intro hin
    obtain ⟨k, i, he, -⟩ := (hm.active none).mp hin
    cases he
  obtain ⟨hobjects, -, hactive, -⟩ := completeEntries_spec hm.nodup hnone
  have hmem : ∀ k i, (k, some i) ∈
      (completeEntries h.cache.cache.instanceMap
        h.cache.cache.activeScriptObjects).cache.instanceMap ↔
      (k, some i) ∈ h.cache.cache.instanceMap ∧ some i ∈ h.cache.cache.activeScriptObjects :=
    fun k i => mem_completeEntries hm.nodup
  -- whatever was used is in the map, so it is taken out of the set of active objects
  have hempty : ∀ p, p ∉ (completeEntries h.cache.cache.instanceMap
      h.cache.cache.activeScriptObjects).cache.activeScriptObjects := by
    intro p hp
    obtain ⟨hin, hne⟩ := (hactive p).mp hp
    obtain ⟨k, i, rfl, hi, -⟩ := (hm.active p).mp hin
    exact hne i (mem_objects.mpr (List.mem_map_of_mem hi)) rfl
  refine ⟨ordered_completeEntries _ hm.ordered, ?_, rfl, ?_, ?_, ?_, ?_⟩
  · show (objects (completeEntries _ _).cache.instanceMap).Nodup
    rw [hobjects]
    exact hm.nodup.filter _
  · intro k q
    simp only [Ledger.served, Ledger.exec, Option.none_or, History.exec,
      InstanceCache.scriptComplete, ActiveCache.scriptComplete, hmem]
    constructor
    · intro hq
      obtain ⟨id, hin⟩ := (hm.served k q).mp (by simp [Ledger.served, hq])
      exact ⟨id, hin, (hm.active _).mpr ⟨k, _, rfl, hin, by simp [hq]⟩⟩
    · rintro ⟨id, hin, hused⟩
      obtain ⟨k', i, he, hi, hcur⟩ := (hm.active _).mp hused
      cases he
      obtain rfl := key_unique hm.nodup hin hi
      obtain ⟨q', hq'⟩ := Option.ne_none_iff_exists'.mp hcur
      have hserved := (hm.served k q).mpr ⟨id, hin⟩
      simp only [Ledger.served, hq', Option.some_or] at hserved
      rw [hq', hserved]
  · intro p
    refine iff_of_false (hempty p) ?_
    rintro ⟨k, i, -, -, hcur⟩
    exact hcur rfl
  · intro i
    exact iff_of_false (Finset.notMem_empty i) (hempty _)
  · intro k i hi
    exact hm.fresh k i ((hmem k i).mp hi).1

theorem mirrors_step {h : History Q} {l : Ledger Q} (hm : Mirrors h l) (c : Call Q)
    (hmatch : h.Matches hash first c) : Mirrors (h.exec hash first c) (l.exec hash first c) := by
  cases c with
  | get q creates => exact hm.get q creates hmatch
  | scriptComplete => exact hm.scriptComplete hash first

/-- Along every run the objects returned match their requests exactly when the calls with a key
repeat the request that the key last served. -/
theorem always_matches_iff (calls : List (Call Q)) :
    Transition.Always (History.exec hash first) (History.Matches hash first) .initial calls ↔
      Transition.Always (Ledger.exec hash first) (Ledger.Same hash first) .initial calls :=
  Transition.always_bisim (R := Mirrors) (fun _ _ c hm => hm.matches_iff c)
    (fun _ _ c hm => mirrors_step hm c) mirrors_initial

/-- They are moreover distinct in each run exactly when in addition no key is used twice in one. -/
theorem always_distinct_iff (calls : List (Call Q)) :
    Transition.Always (History.exec hash first)
        (fun h c => h.Matches hash first c ∧ h.Distinct hash first c) .initial calls ↔
      Transition.Always (Ledger.exec hash first)
        (fun l c => l.Same hash first c ∧ l.Unused hash first c) .initial calls :=
  Transition.always_bisim (R := Mirrors)
    (fun _ _ c hm => and_congr (hm.matches_iff c) (hm.distinct_iff c))
    (fun _ _ c hm hp => mirrors_step hm c hp.1) mirrors_initial

end InstanceCache

end Bipscript
