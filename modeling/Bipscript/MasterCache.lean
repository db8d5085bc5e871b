import Bipscript.ObjectCache
import Mathlib.Data.Rat.Defs

/-! The transport master that scripts share: its cache, and the engine's pointer to it. -/
namespace Bipscript.Transport

/-- The fields of a `Master` that are written from outside `setTime`. -/
structure Settings where
  bpm : ℚ
  beatsPerBar : ℚ
  beatUnit : ℚ
  doForceBeat : Bool
deriving DecidableEq

/-- Every `Master` there was, in the order of their creation: none once it is deleted. The engine
has a pointer to one, and JACK calls the timebase callback with one. -/
structure Masters where
  masters : List (Option Settings)
  transportMaster : Pointer ℕ
  callback : Pointer ℕ
deriving DecidableEq

namespace Masters

/-- The master was created and is not deleted. -/
def Alive (t : Masters) (m : ℕ) : Prop := ∃ settings, t.masters[m]? = some (some settings)

/-- A write to a member of a master. Where the master is deleted the source leaves its effect
undefined, and here it has none. -/
def write (t : Masters) (m : ℕ) (f : Settings → Settings) : Masters :=
  { t with masters := t.masters.modify m (Option.map f) }

/-- `Master::setBpm` -/
def setBpm (t : Masters) (m : ℕ) (bpm : ℚ) : Masters := t.write m fun s => { s with bpm := bpm }

/-- `Master::forceBeat` -/
def forceBeat (t : Masters) (m : ℕ) (bpm : ℚ) : Masters :=
  t.write m fun s => { s with bpm := bpm, doForceBeat := true }

/-- `transportMaster = new Master` -/
def create (t : Masters) (settings : Settings) : Masters :=
  { t with masters := t.masters ++ [some settings], transportMaster := some t.masters.length }

/-- `AudioEngine::getTransportMaster`: `error` is what `jack_set_timebase_callback` returns when it
is called, and the null pointer the `logic_error` then thrown. -/
def getTransportMaster (t : Masters) (bpm beatsPerBar beatUnit : ℚ) (error : Bool) :
    Pointer ℕ × Masters :=
  match t.transportMaster with
  | some m => (some m, t)
  | none =>
    let t := t.create ⟨bpm, beatsPerBar, beatUnit, false⟩
    if error then (none, t) else (t.transportMaster, { t with callback := t.transportMaster })

/-- `AudioEngine::releaseTransportMaster` -/
def releaseTransportMaster (t : Masters) : Masters :=
  { t with transportMaster := none, callback := none }

/-- `delete`, with `Master::~Master`. -/
def delete (t : Masters) (m : ℕ) : Masters :=
  { t.releaseTransportMaster with masters := t.masters.set m none }

end Masters

structure MasterCache extends Masters where
  active : Bool
  cachedMaster : Pointer ℕ
deriving DecidableEq

namespace MasterCache

def initial : MasterCache := ⟨⟨[], none, none⟩, false, none⟩

/-- The null pointer stands for what the engine throws. -/
def getTransportMaster (c : MasterCache) (bpm beatsPerBar beatUnit : ℚ) (error : Bool) :
    Pointer ℕ × MasterCache :=
  match c.cachedMaster with
  | some cached =>
    (some cached, { c with toMasters := c.toMasters.setBpm cached bpm, active := true })
  | none =>
    match c.toMasters.getTransportMaster bpm beatsPerBar beatUnit error with
    | (none, t) => (none, { c with toMasters := t })
    | (some m, t) => (some m, ⟨t, true, some m⟩)

/-- The master is in the cache, and the script has not asked for it. -/
def Unused (c : MasterCache) : Prop := c.cachedMaster ≠ none ∧ c.active = false

instance (c : MasterCache) : Decidable c.Unused := inferInstanceAs (Decidable (_ ∧ _))

/-- It always returns false. -/
def scriptComplete (c : MasterCache) : MasterCache :=
  match c.cachedMaster, c.active with
  | some cached, false => ⟨c.toMasters.delete cached, false, none⟩
  | _, _ => { c with active := false }

end MasterCache

/-- The engine's pointer is the only master alive, and the cache has no other. -/
structure MasterCache.Single (c : MasterCache) : Prop where
  alive : ∀ m, c.Alive m ↔ c.transportMaster = some m
  cached : ∀ m, c.cachedMaster = some m → c.transportMaster = some m

namespace Masters

variable {t : Masters} {m n : ℕ}

theorem Alive.lt (h : t.Alive m) : m < t.masters.length := by
  obtain ⟨settings, hm⟩ := h
  exact (List.getElem?_eq_some_iff.mp hm).1

theorem alive_write (f : Settings → Settings) : (t.write n f).Alive m ↔ t.Alive m := by
  simp only [Alive, write, List.getElem?_modify]
  cases ht : t.masters[m]? with
  | none => simp
  | some entry =>
    cases entry with
    | none => simp
    | some settings => by_cases hn : n = m <;> simp [hn]

@[simp] theorem write_length (f : Settings → Settings) :
    (t.write n f).masters.length = t.masters.length := List.length_modify ..

theorem alive_delete : (t.delete n).Alive m ↔ t.Alive m ∧ m ≠ n := by
  simp only [Alive, delete, List.getElem?_set]
  by_cases hmn : n = m
  · subst hmn
    simp
  · simp [hmn, Ne.symm hmn]

theorem alive_create (settings : Settings) :
    (t.create settings).Alive m ↔ t.Alive m ∨ m = t.masters.length := by
  simp only [Alive, create, List.getElem?_append]
  rcases Nat.lt_trichotomy m t.masters.length with hlt | heq | hgt
  · rw [if_pos hlt]
    exact ⟨.inl, fun h => h.resolve_right hlt.ne⟩
  · subst heq
    simp
  · have hnone : t.masters[m]? = none := List.getElem?_eq_none hgt.le
    have hrest : [some settings][m - t.masters.length]? = none :=
      List.getElem?_eq_none (by rw [List.length_singleton]; omega)
    rw [if_neg hgt.le.not_gt, hrest, hnone]
    exact ⟨.inl, fun h => h.resolve_right hgt.ne'⟩

end Masters

namespace MasterCache

variable {c : MasterCache} {bpm beatsPerBar beatUnit : ℚ} {error : Bool} {m : ℕ}

theorem single_initial : Single initial where
  alive m := by
    constructor
    · rintro ⟨settings, hm⟩
      cases hm
    · exact fun hm => by cases hm
  cached m hm := by cases hm

theorem Single.of_write (h : c.Single) (f : Settings → Settings) (m : ℕ) (active : Bool) :
    Single ⟨c.toMasters.write m f, active, c.cachedMaster⟩ where
  alive n := (Masters.alive_write f).trans (h.alive n)
  cached := h.cached

theorem getTransportMaster_of_cached (hc : c.cachedMaster = some m) :
    c.getTransportMaster bpm beatsPerBar beatUnit error =
      (some m, { c with toMasters := c.toMasters.setBpm m bpm, active := true }) := by
  rw [getTransportMaster, hc]

theorem getTransportMaster_of_kept (hc : c.cachedMaster = none) (ht : c.transportMaster = some m) :
    c.getTransportMaster bpm beatsPerBar beatUnit error =
      (some m, ⟨c.toMasters, true, some m⟩) := by
  rw [getTransportMaster, hc, Masters.getTransportMaster, ht]

theorem getTransportMaster_of_new (hc : c.cachedMaster = none) (ht : c.transportMaster = none) :
    c.getTransportMaster bpm beatsPerBar beatUnit false =
      (some c.masters.length,
        ⟨{ c.toMasters.create ⟨bpm, beatsPerBar, beatUnit, false⟩ with
            callback := some c.masters.length }, true, some c.masters.length⟩) := by
  rw [getTransportMaster, hc, Masters.getTransportMaster, ht]
  rfl

theorem getTransportMaster_of_error (hc : c.cachedMaster = none) (ht : c.transportMaster = none) :
    c.getTransportMaster bpm beatsPerBar beatUnit true =
      (none, { c with
        toMasters := c.toMasters.create ⟨bpm, beatsPerBar, beatUnit, false⟩ }) := by
  rw [getTransportMaster, hc, Masters.getTransportMaster, ht]
  rfl

/-- What a call of `getTransportMaster` leaves in the cache: what it gives, or what there was when
it throws. The masters that were there before live on. -/
theorem getTransportMaster_spec (h : c.Single) (bpm beatsPerBar beatUnit : ℚ) (error : Bool) :
    let r := c.getTransportMaster bpm beatsPerBar beatUnit error
    r.2.Single ∧ (∀ n < c.masters.length, (r.2.Alive n ↔ c.Alive n)) ∧
      c.masters.length ≤ r.2.masters.length ∧
      ((∃ m, r.1 = some m ∧ r.2.cachedMaster = some m ∧ r.2.active = true ∧
          ∀ n, c.cachedMaster = some n → m = n) ∨
        r.1 = none ∧ c.cachedMaster = none ∧ r.2.cachedMaster = none ∧ r.2.active = c.active) := by
  cases hc : c.cachedMaster with
  | some cached =>
    rw [getTransportMaster_of_cached hc]
    refine ⟨h.of_write _ cached true, fun n _ => Masters.alive_write _, ?_, .inl ?_⟩
    · exact (Masters.write_length _).ge
    · exact ⟨cached, rfl, hc, rfl, fun n hn => Option.some.inj hn⟩
  | none =>
    cases ht : c.transportMaster with
    | some m =>
      rw [getTransportMaster_of_kept hc ht]
      refine ⟨⟨h.alive, ?_⟩, fun n _ => Iff.rfl, le_rfl, .inl ⟨m, rfl, rfl, rfl, ?_⟩⟩
      · rintro n ⟨⟩
        exact ht
      · exact fun n hn => by cases hn
    | none =>
      have hdead : ∀ n, ¬ c.Alive n := by
        intro n hn
        rw [h.alive, ht] at hn
        cases hn
      -- with the old masters all deleted the new one is the only one
      have hnew : ∀ settings n, (c.toMasters.create settings).Alive n ↔
          (c.toMasters.create settings).transportMaster = some n := by
        intro settings n
        rw [Masters.alive_create]
        constructor
        · exact fun hor => congrArg some (hor.resolve_left (hdead n)).symm
        · exact fun heq => .inr (Option.some.inj heq).symm
      have hold : ∀ settings, ∀ n < c.masters.length,
          ((c.toMasters.create settings).Alive n ↔ c.Alive n) := by
        intro settings n hn
        rw [Masters.alive_create]
        exact ⟨fun hor => hor.resolve_right hn.ne, .inl⟩
      have hle : ∀ settings, c.masters.length ≤ (c.toMasters.create settings).masters.length := by
        intro settings
        exact (List.length_append ..).ge.trans' (Nat.le_add_right _ _)
      cases error with
      | true =>
        rw [getTransportMaster_of_error hc ht]
        refine ⟨⟨hnew _, ?_⟩, hold _, hle _, .inr ⟨rfl, rfl, hc, rfl⟩⟩
        intro n hn
        rw [hc] at hn
        cases hn
      | false =>
        rw [getTransportMaster_of_new hc ht]
        exact ⟨⟨hnew ⟨bpm, beatsPerBar, beatUnit, false⟩, fun _ hn => hn⟩,
          hold ⟨bpm, beatsPerBar, beatUnit, false⟩, hle ⟨bpm, beatsPerBar, beatUnit, false⟩,
          .inl ⟨_, rfl, rfl, rfl, fun n hn => by cases hn⟩⟩

/-- A master unused is deleted, and then none is alive. -/
theorem scriptComplete_unused (h : c.Single) (hu : c.Unused) :
    c.scriptComplete.Single ∧ c.scriptComplete.cachedMaster = none ∧
      c.scriptComplete.masters.length = c.masters.length ∧ ∀ n, ¬ c.scriptComplete.Alive n := by
  obtain ⟨hc, ha⟩ := hu
  obtain ⟨cached, hc⟩ := Option.ne_none_iff_exists'.mp hc
  have hr : c.scriptComplete = ⟨c.toMasters.delete cached, false, none⟩ := by
    rw [scriptComplete, hc, ha]
  have hdead : ∀ n, ¬ (c.toMasters.delete cached).Alive n := by
    intro n hn
    rw [Masters.alive_delete, h.alive, h.cached cached hc] at hn
    exact hn.2 (Option.some.inj hn.1).symm
  rw [hr]
  refine ⟨⟨fun n => ?_, fun n hn => by cases hn⟩, rfl, List.length_set .., hdead⟩
  exact iff_of_false (hdead n) fun hn => by cases hn

theorem scriptComplete_used (hu : ¬ c.Unused) :
    c.scriptComplete = { c with active := false } := by
  unfold scriptComplete
  split
  · rename_i cached hc ha
    exact absurd ⟨by rw [hc]; exact Option.some_ne_none _, ha⟩ hu
  · rfl

end MasterCache

end Bipscript.Transport
