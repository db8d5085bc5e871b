import Bipscript.InstanceCache
import Mathlib.Order.Fin.Basic

/-! The LV2 plugins that the script gets, from run to run. `std::hash` of strings is a parameter. -/
namespace Bipscript.LV2

/-- `LV2_URID`, a `uint32_t`. -/
abbrev URID := Fin (2 ^ 32)

/-- A `ScriptValue`; only strings are told apart here. -/
inductive ScriptValue
  | string (stringValue : String)
  | other

/-- `uridMap`, in the order of its insertions. -/
structure UridMapper where
  uridMap : List (String × URID)

def UridMapper.uriToId (uri : String) (m : UridMapper) : URID × UridMapper :=
  match m.uridMap.lookup uri with
  | none =>
    let newId := Fin.ofNat (2 ^ 32) (m.uridMap.length + 10)
    (newId, ⟨m.uridMap ++ [(uri, newId)]⟩)
  | some id => (id, m)

structure State where
  stateMap : List (URID × String)
  ordered : OrderedMap.Ordered stateMap
deriving DecidableEq

namespace State

def empty : State := ⟨[], List.Pairwise.nil⟩

/-- `stateMap[key] = value`. -/
def set (key : URID) (value : String) (s : State) : State :=
  ⟨OrderedMap.assign key value s.stateMap, OrderedMap.ordered_assign s.ordered⟩

/-- The loop of the constructor over the pairs of a script's table. -/
def addPairs : List (ScriptValue × ScriptValue) → State → UridMapper →
    Except String State × UridMapper
  | [], s, m => (.ok s, m)
  | (.string key, .string value) :: rest, s, m =>
    let (id, m) := m.uriToId key
    addPairs rest (s.set id value) m
  | _ :: _, _, m => (.error "setState: key and value must be of type string", m)

def new (stateHash : List (ScriptValue × ScriptValue)) (m : UridMapper) :
    Except String State × UridMapper :=
  addPairs stateHash empty m

variable (strHash : String → BitVec 64)

/-- One turn of the loop of `getHash`, in 32-bit `int`s. -/
def addHash (hash : BitVec 32) (entry : URID × String) : BitVec 32 :=
  hash ^^^ (BitVec.ofFin entry.1 <<< 1) ^^^ ((strHash entry.2).setWidth 32 <<< 1)

def getHash (s : State) : BitVec 32 := s.stateMap.foldl (addHash strHash) 0

end State

/-- The arguments of `getPlugin`, null pointers as none. -/
structure Request where
  uri : String
  preset : Option String
  state : Option State
deriving DecidableEq

namespace PluginCache

open InstanceCache

variable (strHash : String → BitVec 64)

def keyString (r : Request) : String :=
  match r.preset with
  | some preset => r.uri ++ ":" ++ preset
  | none => r.uri

/-- The `std::size_t hash`; the state's part is an `int`, extended with its sign. -/
def hash (r : Request) : BitVec 64 :=
  match r.state with
  | some state => strHash (keyString r) ^^^ (state.getHash strHash <<< 1).signExtend 64
  | none => strHash (keyString r)

/-- What of the hash reaches the `int` keys of `instanceCount` and of the cache. -/
def intHash (r : Request) : BitVec 32 := (hash strHash r).setWidth 32

/-- The factory method; `creates` is whether the plugin, its preset and its state can be loaded. -/
def getPlugin (r : Request) (creates : Bool) (s : InstanceCache Request) :
    Pointer (Instance Request) × InstanceCache Request :=
  s.get (intHash strHash r) 1 r creates

inductive Op
  | getPlugin (r : Request) (creates : Bool)
  | scriptComplete

def Op.call : Op → Call Request
  | .getPlugin r creates => .get r creates
  | .scriptComplete => .scriptComplete

def exec (h : History Request) (op : Op) : History Request := h.exec (intHash strHash) 1 op.call

/-- A plugin that is returned was created for the same uri, preset and state. -/
def Correct (h : History Request) : Op → Prop
  | .getPlugin r creates =>
    ∀ plugin, (getPlugin strHash r creates h.cache).1 = some plugin → plugin.request = r
  | .scriptComplete => True

def Ledger.exec (l : Ledger Request) (op : Op) : Ledger Request :=
  l.exec (intHash strHash) 1 op.call

/-- The call that was last served under the key, in this run or else in the one before, had the same
uri, preset and state. -/
def Repeats (l : Ledger Request) : Op → Prop
  | .getPlugin r _ => ∀ r', l.served (l.keyOf (intHash strHash) 1 r) = some r' → r' = r
  | .scriptComplete => True

theorem correct_iff_matches (h : History Request) (op : Op) :
    Correct strHash h op ↔ h.Matches (intHash strHash) 1 op.call := by
  cases op <;> exact Iff.rfl

theorem repeats_iff (l : Ledger Request) (op : Op) :
    Repeats strHash l op ↔ l.Same (intHash strHash) 1 op.call := by
  cases op <;> exact Iff.rfl

/-- Whatever the hash of strings, along every run the plugins returned are right exactly when calls
with one key repeat one request. -/
theorem always_correct_iff_repeats (ops : List Op) :
    Transition.Always (exec strHash) (Correct strHash) .initial ops ↔
      Transition.Always (Ledger.exec strHash) (Repeats strHash) .initial ops := by
  have hcorrect : Transition.Always (exec strHash) (Correct strHash) .initial ops ↔
      Transition.Always (History.exec (intHash strHash) 1)
        (History.Matches (intHash strHash) 1) .initial (ops.map Op.call) :=
    Transition.always_map Op.call (fun _ _ => rfl) (correct_iff_matches strHash)
  have hrepeats : Transition.Always (Ledger.exec strHash) (Repeats strHash) .initial ops ↔
      Transition.Always (InstanceCache.Ledger.exec (intHash strHash) 1)
        (InstanceCache.Ledger.Same (intHash strHash) 1) .initial (ops.map Op.call) :=
    Transition.always_map Op.call (fun _ _ => rfl) (repeats_iff strHash)
  exact (hcorrect.trans (always_matches_iff _)).trans hrepeats.symm

/-- The colon of a uri is that before a preset: whatever the hash of strings, a plugin cached for
`urn:synth` is returned for the preset `synth` of `urn`. -/
theorem getPlugin_other_uri :
    ¬ ∃ strHash, Transition.Always (exec strHash) (Correct strHash) .initial
      [.getPlugin ⟨"urn:synth", none, none⟩ true, .scriptComplete,
        .getPlugin ⟨"urn", some "synth", none⟩ true] := by
  rintro ⟨strHash, h⟩
  have hhash : intHash strHash ⟨"urn", some "synth", none⟩ =
      intHash strHash ⟨"urn:synth", none, none⟩ := by
    have hkey : keyString ⟨"urn", some "synth", none⟩ = keyString ⟨"urn:synth", none, none⟩ := by
      decide
    simp only [intHash, hash, hkey]
  have hcreated : Mirrors
      (History.exec (intHash strHash) 1 .initial (.get ⟨"urn:synth", none, none⟩ true))
      (InstanceCache.Ledger.exec (intHash strHash) 1 .initial
        (.get ⟨"urn:synth", none, none⟩ true)) :=
    mirrors_step mirrors_initial _ h.1
  have hsame := ((hcreated.scriptComplete (intHash strHash) 1).matches_iff
    (.get ⟨"urn", some "synth", none⟩ true)).mp h.2.2.1
  have hserved : (⟨"urn:synth", none, none⟩ : Request) = ⟨"urn", some "synth", none⟩ := by
    apply hsame
    simp [InstanceCache.Ledger.exec, InstanceCache.Ledger.keyOf, InstanceCache.Ledger.served,
      InstanceCache.Ledger.initial, hhash]
  exact absurd (congrArg Request.preset hserved) (by decide)

end PluginCache

end Bipscript.LV2
