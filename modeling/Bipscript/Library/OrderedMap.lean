import Mathlib.Order.Lattice
import Mathlib.Data.List.Basic

/-! Association lists in the order of their keys. -/
namespace OrderedMap

variable {K V : Type*} [LinearOrder K]

def Ordered (map : List (K × V)) : Prop := map.Pairwise fun a b => a.1 < b.1

/-- Puts a value under a key, new or not. -/
def assign (key : K) (value : V) : List (K × V) → List (K × V)
  | [] => [(key, value)]
  | (k, old) :: rest =>
    if k = key then (k, value) :: rest
    else if key < k then (key, value) :: (k, old) :: rest
    else (k, old) :: assign key value rest

variable {key k : K} {value v : V} {map : List (K × V)}

theorem eq_or_mem_of_mem_assign {e : K × V} (h : e ∈ assign key value map) :
    e = (key, value) ∨ e ∈ map := by
  induction map with
  | nil => exact Or.inl (List.mem_singleton.mp h)
  | cons entry rest ih =>
    obtain ⟨k, old⟩ := entry
    simp only [assign] at h
    split at h
    · rename_i he
      rcases List.mem_cons.mp h with rfl | h
      · exact Or.inl (by rw [he])
      · exact Or.inr (List.mem_cons_of_mem _ h)
    · split at h
      · rcases List.mem_cons.mp h with rfl | h
        · exact Or.inl rfl
        · exact Or.inr h
      · rcases List.mem_cons.mp h with rfl | h
        · exact Or.inr List.mem_cons_self
        · exact (ih h).imp_right (List.mem_cons_of_mem _)

theorem ordered_assign (h : Ordered map) : Ordered (assign key value map) := by
  induction map with
  | nil => exact List.pairwise_singleton _ _
  | cons entry rest ih =>
    obtain ⟨k, old⟩ := entry
    obtain ⟨hk, hrest⟩ := List.pairwise_cons.mp h
    simp only [assign]
    split
    · exact List.pairwise_cons.mpr ⟨hk, hrest⟩
    · rename_i hne
      split
      · rename_i hlt
        refine List.pairwise_cons.mpr ⟨fun e he => ?_, h⟩
        rcases List.mem_cons.mp he with rfl | he
        · exact hlt
        · exact hlt.trans (hk e he)
      · rename_i hle
        refine List.pairwise_cons.mpr ⟨fun e he => ?_, ih hrest⟩
        rcases eq_or_mem_of_mem_assign he with rfl | he
        · exact lt_of_le_of_ne (not_lt.mp hle) hne
        · exact hk e he

/-- The entries after an assignment. -/
theorem mem_assign (h : Ordered map) :
    (k, v) ∈ assign key value map ↔ if k = key then v = value else (k, v) ∈ map := by
  induction map with
  | nil =>
    simp only [assign, List.mem_singleton, Prod.mk.injEq, List.not_mem_nil]
    split <;> simp_all
  | cons entry rest ih =>
    obtain ⟨k', old⟩ := entry
    obtain ⟨hk, hrest⟩ := List.pairwise_cons.mp h
    have hlater : ∀ v, (key, v) ∈ rest → k' < key := fun v hv => hk _ hv
    simp only [assign]
    split
    · rename_i he
      subst he
      by_cases hkk : k = k'
      · subst hkk
        rw [if_pos rfl, List.mem_cons, Prod.mk.injEq]
        exact ⟨fun hm => hm.elim And.right fun hin => absurd (hlater _ hin) (lt_irrefl _),
          fun he => Or.inl ⟨rfl, he⟩⟩
      · simp [hkk]
    · rename_i hne
      split
      · rename_i hlt
        by_cases hkk : k = key
        · subst hkk
          rw [if_pos rfl, List.mem_cons, Prod.mk.injEq]
          refine ⟨fun hm => hm.elim And.right fun hin => ?_, fun he => Or.inl ⟨rfl, he⟩⟩
          rcases List.mem_cons.mp hin with he | hin
          · cases he
            exact absurd rfl hne
          · exact absurd (hlater _ hin) (not_lt.mpr hlt.le)
        · simp [hkk]
      · rw [List.mem_cons, ih hrest]
        by_cases hkk : k = key
        · subst hkk
          rw [if_pos rfl, if_pos rfl, Prod.mk.injEq]
          exact or_iff_right fun he => hne he.1.symm
        · rw [if_neg hkk, if_neg hkk, List.mem_cons]

end OrderedMap
