import Bipscript.Library.Run
import Mathlib.Data.Finset.Card
import Mathlib.Data.List.Nodup

/-! Keys numbered in the order in which they are first asked for. -/
namespace Interning

open Transition (After after_concat not_after_nil)

variable {K V : Type*} {fresh : ℕ → V} {key key' : K} {v v' : V} {map : List (K × V)}
  {calls : List K}

/-- Each key asked for is there once, and the values are the first fresh ones. -/
structure Numbered (fresh : ℕ → V) (calls : List K) (map : List (K × V)) : Prop where
  nodup : (map.map Prod.fst).Nodup
  mem_iff : ∀ key, key ∈ map.map Prod.fst ↔ key ∈ calls
  values : map.map Prod.snd = (List.range map.length).map fresh

theorem eq_of_mem (hn : (map.map Prod.fst).Nodup) (h : (key, v) ∈ map) (h' : (key, v') ∈ map) :
    v = v' := by
  have heq := List.inj_on_of_nodup_map hn h h' rfl
  exact (Prod.mk.inj heq).2

/-- While the fresh values differ, so do those of different keys. -/
theorem Numbered.key_inj (h : Numbered fresh calls map)
    (hfresh : ∀ m n, m < map.length → n < map.length → fresh m = fresh n → m = n)
    (hv : (key, v) ∈ map) (hv' : (key', v) ∈ map) : key = key' := by
  have hnodup : (map.map Prod.snd).Nodup := by
    rw [h.values]
    exact List.Nodup.map_on (fun m hm n hn => hfresh m n (List.mem_range.mp hm)
      (List.mem_range.mp hn)) List.nodup_range
  have heq := List.inj_on_of_nodup_map hnodup hv hv' rfl
  exact (Prod.mk.inj heq).1

variable [BEq K]

/-- The value under a key, which is the next fresh one when the key has none. -/
def intern (fresh : ℕ → V) (key : K) (map : List (K × V)) : V × List (K × V) :=
  match map.lookup key with
  | none => (fresh map.length, map ++ [(key, fresh map.length)])
  | some v => (v, map)

/-- The map that calls leave, from an empty one. -/
def after (fresh : ℕ → V) (calls : List K) : List (K × V) :=
  calls.foldl (fun map key => (intern fresh key map).2) []

/-- A call has had this value under this key. -/
def Returned (fresh : ℕ → V) (calls : List K) (key : K) (v : V) : Prop :=
  After (fun before => (intern fresh key (after fresh before)).1 = v) key calls

theorem after_concat_eq (calls : List K) (key : K) :
    after fresh (calls ++ [key]) = (intern fresh key (after fresh calls)).2 := by
  unfold after
  rw [List.foldl_append]
  rfl

variable [LawfulBEq K]

theorem mem_of_lookup (h : map.lookup key = some v) : (key, v) ∈ map := by
  obtain ⟨before, later, rfl, -⟩ := List.lookup_eq_some_iff.mp h
  exact List.mem_append_right _ List.mem_cons_self

theorem notMem_of_lookup (h : map.lookup key = none) : key ∉ map.map Prod.fst := by
  intro hmem
  obtain ⟨⟨k, v⟩, hin, rfl⟩ := List.mem_map.mp hmem
  have hne := List.lookup_eq_none_iff.mp h (k, v) hin
  simp at hne

theorem Numbered.intern (h : Numbered fresh calls map) (key : K) :
    Numbered fresh (calls ++ [key]) (intern fresh key map).2 := by
  unfold Interning.intern
  cases hlook : map.lookup key with
  | none =>
    refine ⟨?_, ?_, ?_⟩
    · rw [List.map_append]
      exact List.Nodup.append h.nodup (List.nodup_singleton _)
        (List.disjoint_singleton.mpr (notMem_of_lookup hlook))
    · intro k
      rw [List.map_append, List.mem_append, List.mem_append, h.mem_iff]
      exact Iff.rfl
    · rw [List.map_append, h.values, List.length_append, List.length_singleton, List.range_succ,
        List.map_append]
      rfl
  | some v =>
    have hmem : key ∈ calls :=
      (h.mem_iff key).mp (List.mem_map_of_mem (mem_of_lookup hlook))
    refine ⟨h.nodup, ?_, h.values⟩
    intro k
    rw [h.mem_iff, List.mem_append, List.mem_singleton]
    exact ⟨Or.inl, fun hor => hor.elim id fun he => he ▸ hmem⟩

theorem numbered_after (calls : List K) : Numbered fresh calls (after fresh calls) := by
  induction calls using List.reverseRecOn with
  | nil => exact ⟨List.nodup_nil, fun key => Iff.rfl, rfl⟩
  | append_singleton calls key ih =>
    rw [after_concat_eq]
    exact ih.intern key

/-- A call returns what the map then holds, and takes nothing out of it. -/
theorem mem_intern_iff :
    (key', v) ∈ (intern fresh key map).2 ↔
      (key', v) ∈ map ∨ key = key' ∧ (intern fresh key' map).1 = v := by
  unfold intern
  cases hlook : map.lookup key with
  | none =>
    rw [List.mem_append, List.mem_singleton, Prod.mk.injEq]
    refine or_congr_right ⟨?_, ?_⟩
    · rintro ⟨rfl, rfl⟩
      exact ⟨rfl, by rw [hlook]⟩
    · rintro ⟨rfl, hv⟩
      rw [hlook] at hv
      exact ⟨rfl, hv.symm⟩
  | some v' =>
    refine ⟨Or.inl, fun hor => hor.elim id ?_⟩
    rintro ⟨rfl, hv⟩
    rw [hlook] at hv
    cases hv
    exact mem_of_lookup hlook

/-- What calls have returned is what is in the map. -/
theorem returned_iff : Returned fresh calls key v ↔ (key, v) ∈ after fresh calls := by
  induction calls using List.reverseRecOn with
  | nil => exact iff_of_false not_after_nil List.not_mem_nil
  | append_singleton calls last ih =>
    have hiff : Returned fresh (calls ++ [last]) key v ↔
        Returned fresh calls key v ∨ last = key ∧ (intern fresh key (after fresh calls)).1 = v :=
      after_concat
    rw [hiff, ih, after_concat_eq, mem_intern_iff]

/-- As many entries as keys. -/
theorem length_after [DecidableEq K] (calls : List K) :
    (after fresh calls).length = calls.toFinset.card := by
  have h : Numbered fresh calls (after fresh calls) := numbered_after calls
  have hset : ((after fresh calls).map Prod.fst).toFinset = calls.toFinset := by
    ext key
    rw [List.mem_toFinset, List.mem_toFinset, h.mem_iff]
  rw [← hset, List.toFinset_card_of_nodup h.nodup, List.length_map]

end Interning
