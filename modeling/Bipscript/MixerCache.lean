import Bipscript.InstanceCache

/-! The mixers that the script gets, from run to run. -/
namespace Bipscript.Audio

/-- The arguments of the mixer's constructor. -/
structure Shape where
  inputs : BitVec 16
  outputs : BitVec 16
deriving DecidableEq

namespace MixerCache

open InstanceCache

/-- `((int)inputs << 4) | ((int)outputs << 16)`. -/
def ioHash (shape : Shape) : BitVec 32 :=
  shape.inputs.setWidth 32 <<< 4 ||| shape.outputs.setWidth 32 <<< 16

/-- The factory method. What `restore` does to a mixer that is found does not show here. -/
def getMixer (inputs outputs : BitVec 16) (s : InstanceCache Shape) :
    Pointer (Instance Shape) × InstanceCache Shape :=
  s.get (ioHash ⟨inputs, outputs⟩) 0 ⟨inputs, outputs⟩ true

inductive Op
  | getMixer (inputs outputs : BitVec 16)
  | scriptComplete

def Op.call : Op → Call Shape
  | .getMixer inputs outputs => .get ⟨inputs, outputs⟩ true
  | .scriptComplete => .scriptComplete

def exec (h : History Shape) (op : Op) : History Shape := h.exec ioHash 0 op.call

/-- The mixer returned has the shape asked for, and no other call of this run has returned it. -/
def Correct (h : History Shape) : Op → Prop
  | .getMixer inputs outputs =>
    ∃ mixer, (getMixer inputs outputs h.cache).1 = some mixer ∧
      mixer.request = ⟨inputs, outputs⟩ ∧ mixer ∉ h.returned
  | .scriptComplete => True

def Ledger.exec (l : Ledger Shape) (op : Op) : Ledger Shape := l.exec ioHash 0 op.call

/-- No other call of this run had the key, and the one of the run before that had it asked for the
same shape. -/
def Apart (l : Ledger Shape) : Op → Prop
  | .getMixer inputs outputs =>
    let key := l.keyOf ioHash 0 ⟨inputs, outputs⟩
    l.current key = none ∧ ∀ shape, l.previous key = some shape → shape = ⟨inputs, outputs⟩
  | .scriptComplete => True

theorem correct_iff (h : History Shape) (op : Op) :
    Correct h op ↔ h.Matches ioHash 0 op.call ∧ h.Distinct ioHash 0 op.call := by
  cases op with
  | scriptComplete => exact ⟨fun _ => ⟨trivial, trivial⟩, fun _ => trivial⟩
  | getMixer inputs outputs =>
    obtain ⟨mixer, hmixer⟩ := get_isSome (ioHash ⟨inputs, outputs⟩) 0 ⟨inputs, outputs⟩ h.cache
    simp only [Correct, getMixer, Op.call, History.Matches, History.Distinct, History.result,
      hmixer, Option.some.injEq, exists_eq_left', forall_eq']

theorem apart_iff (l : Ledger Shape) (op : Op) :
    Apart l op ↔ l.Same ioHash 0 op.call ∧ l.Unused ioHash 0 op.call := by
  cases op with
  | scriptComplete => exact ⟨fun _ => ⟨trivial, trivial⟩, fun _ => trivial⟩
  | getMixer inputs outputs =>
    simp only [Apart, Op.call, Ledger.Same, Ledger.Unused]
    constructor
    · rintro ⟨hcurrent, hprevious⟩
      refine ⟨fun shape hserved => hprevious shape ?_, hcurrent⟩
      rwa [Ledger.served, hcurrent, Option.none_or] at hserved
    · rintro ⟨hsame, hcurrent⟩
      refine ⟨hcurrent, fun shape hprevious => hsame shape ?_⟩
      rwa [Ledger.served, hcurrent, Option.none_or]

/-- Along every run the mixers returned are right exactly when the keys of the calls are apart. -/
theorem always_correct_iff_apart (ops : List Op) :
    Transition.Always exec Correct .initial ops ↔
      Transition.Always Ledger.exec Apart .initial ops := by
  have hcorrect : Transition.Always exec Correct .initial ops ↔
      Transition.Always (History.exec ioHash 0)
        (fun h c => h.Matches ioHash 0 c ∧ h.Distinct ioHash 0 c) .initial (ops.map Op.call) :=
    Transition.always_map Op.call (fun _ _ => rfl) correct_iff
  have hapart : Transition.Always Ledger.exec Apart .initial ops ↔
      Transition.Always (InstanceCache.Ledger.exec ioHash 0)
        (fun l c => l.Same ioHash 0 c ∧ l.Unused ioHash 0 c) .initial (ops.map Op.call) :=
    Transition.always_map Op.call (fun _ _ => rfl) apart_iff
  exact (hcorrect.trans (always_distinct_iff _)).trans hapart.symm

/-- A mixer of 4096 inputs in one run, one of a single output in the next: both have key `65536`,
so the second call returns the first mixer. -/
theorem getMixer_other_shape :
    ¬ Transition.Always exec Correct .initial
      [.getMixer 4096 0, .scriptComplete, .getMixer 0 1] := by
  rintro ⟨-, -, ⟨mixer, hmixer, hshape, -⟩, -⟩
  have hcached : (getMixer 0 1 (exec (exec .initial (.getMixer 4096 0)) .scriptComplete).cache).1 =
      some ⟨0, ⟨4096, 0⟩⟩ := by decide +kernel
  obtain rfl := Option.some.inj (hmixer.symm.trans hcached)
  cases hshape

end MixerCache

end Bipscript.Audio
