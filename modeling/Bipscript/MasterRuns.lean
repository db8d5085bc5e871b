import Bipscript.MasterCache
import Bipscript.Library.Run

/-! What a script is given when it asks for the transport master, after any history: its meter, and
a place as JACK timebase. -/
namespace Bipscript.Transport

open Transition

/-- `Master::setTimeSignature`, the numbers as the floats they are stored as. -/
def Masters.setTimeSignature (t : Masters) (m : ℕ) (numerator denominator : ℚ) : Masters :=
  t.write m fun s => { s with beatsPerBar := numerator, beatUnit := denominator }

/-- What scripts and trackers do with masters; `error` is what `jack_set_timebase_callback` would
return. -/
inductive MasterOp
  | getTransportMaster (bpm beatsPerBar beatUnit : ℚ) (error : Bool)
  | setBpm (m : ℕ) (bpm : ℚ)
  | forceBeat (m : ℕ) (bpm : ℚ)
  | setTimeSignature (m : ℕ) (numerator denominator : ℚ)
  | scriptComplete

namespace MasterCache

def exec (c : MasterCache) : MasterOp → MasterCache
  | .getTransportMaster bpm beatsPerBar beatUnit error =>
    (c.getTransportMaster bpm beatsPerBar beatUnit error).2
  | .setBpm m bpm => { c with toMasters := c.toMasters.setBpm m bpm }
  | .forceBeat m bpm => { c with toMasters := c.toMasters.forceBeat m bpm }
  | .setTimeSignature m numerator denominator =>
    { c with toMasters := c.toMasters.setTimeSignature m numerator denominator }
  | .scriptComplete => c.scriptComplete

/-- A call that returns a master returns one with the meter asked for. -/
def Obeys (c : MasterCache) : MasterOp → Prop
  | .getTransportMaster bpm beatsPerBar beatUnit error =>
    let r := c.getTransportMaster bpm beatsPerBar beatUnit error
    ∀ m, r.1 = some m → ∃ doForceBeat,
      r.2.masters[m]? = some (some ⟨bpm, beatsPerBar, beatUnit, doForceBeat⟩)
  | _ => True

/-- A master in the cache already has the meter asked for; where there is none but the engine has
kept one, whose registration failed, that one has the tempo as well. -/
def HasMeter (c : MasterCache) : MasterOp → Prop
  | .getTransportMaster bpm beatsPerBar beatUnit _ =>
    (∀ m s, c.cachedMaster = some m → c.masters[m]? = some (some s) →
      s.beatsPerBar = beatsPerBar ∧ s.beatUnit = beatUnit) ∧
    ∀ m s, c.cachedMaster = none → c.transportMaster = some m → c.masters[m]? = some (some s) →
      s.bpm = bpm ∧ s.beatsPerBar = beatsPerBar ∧ s.beatUnit = beatUnit
  | _ => True

/-- JACK calls the timebase callback of this client with the master returned, and a call that throws
leaves everything as it was. -/
def Registers (c : MasterCache) : MasterOp → Prop
  | .getTransportMaster bpm beatsPerBar beatUnit error =>
    let r := c.getTransportMaster bpm beatsPerBar beatUnit error
    (∀ m, r.1 = some m → r.2.callback = some m) ∧ (r.1 = none → r.2 = c)
  | _ => True

/-- `jack_set_timebase_callback` succeeds when it is called. -/
def Accepted (c : MasterCache) : MasterOp → Prop
  | .getTransportMaster _ _ _ error =>
    c.cachedMaster = none → c.transportMaster = none → error = false
  | _ => True

/-- The engine's master is the registered one. -/
structure Registered (c : MasterCache) : Prop where
  callback : ∀ m, c.transportMaster = some m → c.callback = some m
  cached : ∀ m, c.cachedMaster = some m → c.transportMaster = some m

variable {c : MasterCache} {bpm beatsPerBar beatUnit : ℚ} {error : Bool} {m : ℕ}

theorem single_exec (h : c.Single) (op : MasterOp) : (c.exec op).Single := by
  cases op with
  | getTransportMaster bpm beatsPerBar beatUnit error =>
    exact (getTransportMaster_spec h bpm beatsPerBar beatUnit error).1
  | setBpm m bpm => exact h.of_write _ m c.active
  | forceBeat m bpm => exact h.of_write _ m c.active
  | setTimeSignature m numerator denominator => exact h.of_write _ m c.active
  | scriptComplete =>
    by_cases hu : c.Unused
    · exact (scriptComplete_unused h hu).1
    · have hused : c.exec .scriptComplete = { c with active := false } := scriptComplete_used hu
      rw [hused]
      exact ⟨h.alive, h.cached⟩

/-- The one write of the cached path leaves the master alive, with its old meter. -/
theorem setBpm_settings {s : Settings} (hs : c.masters[m]? = some (some s)) :
    (c.toMasters.setBpm m bpm).masters[m]? = some (some { s with bpm := bpm }) := by
  unfold Masters.setBpm Masters.write
  dsimp only
  rw [List.getElem?_modify_eq, hs]
  rfl

/-- At one call, in any state that scripts can bring the cache to. -/
theorem obeys_iff (h : c.Single) (op : MasterOp) : c.Obeys op ↔ c.HasMeter op := by
  cases op with
  | getTransportMaster bpm beatsPerBar beatUnit error =>
    unfold Obeys HasMeter
    dsimp only
    cases hc : c.cachedMaster with
    | some m =>
      obtain ⟨s, hs⟩ := (h.alive m).mpr (h.cached m hc)
      rw [getTransportMaster_of_cached hc]
      constructor
      · intro hobeys
        obtain ⟨doForceBeat, hm⟩ := hobeys m rfl
        rw [setBpm_settings hs] at hm
        obtain ⟨-, hbar, hunit, -⟩ := Settings.mk.inj (Option.some.inj (Option.some.inj hm))
        refine ⟨fun n s' hn hs' => ?_, nofun⟩
        cases hn
        obtain rfl := Option.some.inj (Option.some.inj (hs.symm.trans hs'))
        exact ⟨hbar, hunit⟩
      · rintro ⟨hmeter, -⟩ n ⟨⟩
        obtain ⟨rfl, rfl⟩ := hmeter m s rfl hs
        exact ⟨s.doForceBeat, setBpm_settings hs⟩
    | none =>
      cases ht : c.transportMaster with
      | some m =>
        obtain ⟨s, hs⟩ := (h.alive m).mpr ht
        rw [getTransportMaster_of_kept hc ht]
        constructor
        · intro hobeys
          obtain ⟨doForceBeat, hm⟩ := hobeys m rfl
          have hsame := Option.some.inj (Option.some.inj (hs.symm.trans hm))
          refine ⟨nofun, fun n s' _ hn hs' => ?_⟩
          cases hn
          obtain rfl := Option.some.inj (Option.some.inj (hs.symm.trans hs'))
          rw [hsame]
          exact ⟨rfl, rfl, rfl⟩
        · rintro ⟨-, hmeter⟩ n ⟨⟩
          obtain ⟨rfl, rfl, rfl⟩ := hmeter m s rfl rfl hs
          exact ⟨s.doForceBeat, hs⟩
      | none =>
        refine iff_of_true ?_ ⟨nofun, nofun⟩
        intro m hm
        cases error with
        | true =>
          rw [getTransportMaster_of_error hc ht] at hm
          cases hm
        | false =>
          rw [getTransportMaster_of_new hc ht] at hm ⊢
          obtain rfl := Option.some.inj hm
          exact ⟨false, List.getElem?_concat_length⟩
  | _ => exact Iff.rfl

/-- Along every history, each master returned has the meter asked for exactly when a master that is
handed out again has it already. -/
theorem always_obeys_iff (ops : List MasterOp) :
    Always exec Obeys initial ops ↔ Always exec HasMeter initial ops :=
  always_congr (R := fun _ _ => True) (fun _ op h _ => obeys_iff h op)
    (fun _ op h _ _ => single_exec h op) single_initial (always_of_forall fun _ _ => trivial)

/-- Two scripts, the first in 4/4, the next in 3/4: it gets the master of the first. -/
theorem not_always_obeys :
    ¬ Always exec Obeys initial [.getTransportMaster 120 4 4 false, .scriptComplete,
      .getTransportMaster 90 3 4 false] := by
  rintro ⟨-, -, h, -⟩
  obtain ⟨doForceBeat, hm⟩ := h 0 rfl
  have hbar : some (some (4 : ℚ)) = some (some 3) :=
    congrArg (fun o => o.map (Option.map Settings.beatsPerBar)) hm
  revert hbar
  decide

theorem registered_initial : Registered initial :=
  ⟨nofun, nofun⟩

theorem registered_exec (h : c.Registered) {op : MasterOp} (ha : c.Accepted op) :
    (c.exec op).Registered := by
  cases op with
  | getTransportMaster bpm beatsPerBar beatUnit error =>
    show (c.getTransportMaster bpm beatsPerBar beatUnit error).2.Registered
    cases hc : c.cachedMaster with
    | some m =>
      rw [getTransportMaster_of_cached hc]
      exact ⟨h.callback, h.cached⟩
    | none =>
      cases ht : c.transportMaster with
      | some m =>
        rw [getTransportMaster_of_kept hc ht]
        refine ⟨h.callback, fun n hn => ?_⟩
        cases hn
        exact ht
      | none =>
        obtain rfl := ha hc ht
        rw [getTransportMaster_of_new hc ht]
        exact ⟨fun _ hm => hm, fun _ hm => hm⟩
  | setBpm m bpm => exact ⟨h.callback, h.cached⟩
  | forceBeat m bpm => exact ⟨h.callback, h.cached⟩
  | setTimeSignature m numerator denominator => exact ⟨h.callback, h.cached⟩
  | scriptComplete =>
    show c.scriptComplete.Registered
    unfold scriptComplete
    split
    · exact ⟨nofun, nofun⟩
    · exact ⟨h.callback, h.cached⟩

/-- At one call: what throws has set the engine's pointer already. -/
theorem registers_iff (h : c.Registered) (op : MasterOp) : c.Registers op ↔ c.Accepted op := by
  cases op with
  | getTransportMaster bpm beatsPerBar beatUnit error =>
    unfold Registers Accepted
    dsimp only
    cases hc : c.cachedMaster with
    | some m =>
      rw [getTransportMaster_of_cached hc]
      refine iff_of_true ⟨fun n hn => ?_, nofun⟩ nofun
      cases hn
      exact h.callback m (h.cached m hc)
    | none =>
      cases ht : c.transportMaster with
      | some m =>
        rw [getTransportMaster_of_kept hc ht]
        refine iff_of_true ⟨fun n hn => ?_, nofun⟩ nofun
        cases hn
        exact h.callback m ht
      | none =>
        cases error with
        | false =>
          rw [getTransportMaster_of_new hc ht]
          exact iff_of_true ⟨fun _ hm => hm, nofun⟩ fun _ _ => rfl
        | true =>
          rw [getTransportMaster_of_error hc ht]
          refine iff_of_false (fun hr => ?_) fun ha => nomatch ha rfl rfl
          have hsame := congrArg (fun c : MasterCache => c.transportMaster) (hr.2 rfl)
          rw [ht] at hsame
          cases hsame
  | _ => exact Iff.rfl

/-- Along every history, a master is returned only while JACK has it, and a call that throws changes
nothing, exactly when no registration fails. -/
theorem always_registers_iff (ops : List MasterOp) :
    Always exec Registers initial ops ↔ Always exec Accepted initial ops :=
  always_congr (R := fun _ _ => True) (fun _ op h _ => registers_iff h op)
    (fun _ op h _ hr => registered_exec h ((registers_iff h op).mp hr)) registered_initial
    (always_of_forall fun _ _ => trivial)

/-- The call that throws has left its master in the engine, and the next call returns that, never
registered. -/
theorem not_always_registers :
    let c := initial.exec (.getTransportMaster 120 4 4 true)
    let r := c.getTransportMaster 120 4 4 false
    ¬ Always exec Registers initial [.getTransportMaster 120 4 4 true,
        .getTransportMaster 120 4 4 false] ∧
      c ≠ initial ∧ r.1 = some 0 ∧ r.2.callback = none := by
  refine ⟨?_, by decide, rfl, rfl⟩
  rintro ⟨h, -⟩
  exact absurd (h.2 rfl) (by decide)

end MasterCache

end Bipscript.Transport
