import Bipscript.Library.Interning
import Bipscript.PluginCache

/-! The ids of URIs: what a plugin asks the mapper for, and what it gets back. -/
namespace Bipscript.LV2.UridMapper

/-- The entries in the order of the map, which is that of the keys. -/
def entries (m : UridMapper) : List (String × URID) :=
  m.uridMap.mergeSort fun a b => decide (a.1 ≤ b.1)

/-- None is `NULL`. -/
def idToUri (urid : URID) (m : UridMapper) : Option String :=
  (m.entries.find? fun iter => iter.2 == urid).map Prod.fst

/-- The mapper after calls of `uriToId`. -/
def after (calls : List String) : UridMapper :=
  calls.foldl (fun m uri => (m.uriToId uri).2) ⟨[]⟩

/-- One of the calls, for `uri`, has returned `id`. -/
def Returned (calls : List String) (uri : String) (id : URID) : Prop :=
  ∃ before later, calls = before ++ uri :: later ∧ ((after before).uriToId uri).1 = id

def newId (size : ℕ) : URID := ⟨(size + 10) % 2 ^ 32, Nat.mod_lt _ (Nat.two_pow_pos 32)⟩

variable {calls : List String} {uri uri' : String} {id : URID}

theorem uriToId_eq (uri : String) (m : UridMapper) :
    m.uriToId uri = ((Interning.intern newId uri m.uridMap).1,
      ⟨(Interning.intern newId uri m.uridMap).2⟩) := by
  unfold uriToId Interning.intern
  cases m.uridMap.lookup uri <;> rfl

theorem after_eq (calls : List String) : after calls = ⟨Interning.after newId calls⟩ := by
  induction calls using List.reverseRecOn with
  | nil => rfl
  | append_singleton calls uri ih =>
    have hstep : after (calls ++ [uri]) = ((after calls).uriToId uri).2 := by
      unfold after
      rw [List.foldl_append]
      rfl
    rw [hstep, ih, uriToId_eq, Interning.after_concat_eq]

theorem returned_iff_mem : Returned calls uri id ↔ (uri, id) ∈ (after calls).uridMap := by
  have hiff : Returned calls uri id ↔ Interning.Returned newId calls uri id := by
    unfold Returned Interning.Returned Transition.After
    simp only [after_eq, uriToId_eq]
  rw [hiff, Interning.returned_iff, after_eq]

/-- Ten and the number of a URI are below `2 ^ 32`. -/
theorem newId_inj {m n bound : ℕ} (hbound : bound < 2 ^ 32 - 10) (hm : m < bound) (hn : n < bound)
    (h : newId m = newId n) : m = n := by
  have hval : (m + 10) % 2 ^ 32 = (n + 10) % 2 ^ 32 := congrArg Fin.val h
  omega

/-- The search finds an entry of the id, if there is one. -/
theorem idToUri_some {m : UridMapper} (h : m.idToUri id = some uri) : (uri, id) ∈ m.uridMap := by
  obtain ⟨⟨uri', id'⟩, hfind, rfl⟩ := Option.map_eq_some_iff.mp h
  have hid : id' = id := by simpa using List.find?_some hfind
  have hmem := List.mem_of_find?_eq_some hfind
  rw [hid] at hmem
  exact List.mem_mergeSort.mp hmem

theorem idToUri_none {m : UridMapper} (h : m.idToUri id = none) : ∀ uri, (uri, id) ∉ m.uridMap := by
  intro uri hmem
  have hnone := List.find?_eq_none.mp (Option.map_eq_none_iff.mp h) (uri, id)
    (List.mem_mergeSort.mpr hmem)
  simp at hnone

/-- Ids and URIs determine each other, from a call of `uriToId` on, and no other id has a URI. -/
theorem uriToId_exact (hfew : calls.toFinset.card < 2 ^ 32 - 10) :
    (∀ uri uri' id id', Returned calls uri id → Returned calls uri' id' →
      (id = id' ↔ uri = uri')) ∧
    (∀ uri id, Returned calls uri id → (after calls).idToUri id = some uri) ∧
    (∀ id, (∀ uri, ¬ Returned calls uri id) → (after calls).idToUri id = none) := by
  have hnumbered : Interning.Numbered newId calls (Interning.after newId calls) :=
    Interning.numbered_after calls
  have hlength : (Interning.after newId calls).length = calls.toFinset.card :=
    Interning.length_after calls
  simp only [returned_iff_mem, after_eq]
  have hinj : ∀ {uri uri' id}, (uri, id) ∈ Interning.after newId calls →
      (uri', id) ∈ Interning.after newId calls → uri = uri' := by
    intro uri uri' id
    apply hnumbered.key_inj
    rw [hlength]
    exact fun m n => newId_inj hfew
  refine ⟨?_, ?_, ?_⟩
  · intro uri uri' id id' h h'
    constructor
    · rintro rfl
      exact hinj h h'
    · rintro rfl
      exact Interning.eq_of_mem hnumbered.nodup h h'
  · intro uri id h
    cases hid : idToUri id ⟨Interning.after newId calls⟩ with
    | none => exact absurd h (idToUri_none hid uri)
    | some uri' => rw [hinj h (idToUri_some hid)]
  · intro id h
    cases hid : idToUri id ⟨Interning.after newId calls⟩ with
    | none => rfl
    | some uri => exact absurd (idToUri_some hid) (h uri)

/-- Two URIs, the first of them asked for again. -/
theorem idToUri_second :
    (after ["atom#Int", "atom#Long", "atom#Int"]).idToUri 11 = some "atom#Long" :=
  (uriToId_exact (by decide)).2.1 _ _
    ⟨["atom#Int"], ["atom#Int"], rfl, by decide⟩

end Bipscript.LV2.UridMapper
