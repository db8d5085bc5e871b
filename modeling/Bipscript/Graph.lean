import Bipscript.Mixer
import Mathlib.Data.List.ReduceOption
import Bipscript.Library.Digraph

/-! Processors, the connections they store, and the check made before one is stored. -/
namespace Bipscript

open Audio

/-- The connectors of a plugin, and the sources of its control connections. -/
structure Plugin (P : Type*) where
  midiInputList : List (Option (MidiConnection P))
  midiOutputCount : ℕ
  audioInputCount : ℕ
  audioInput : ℕ → Option (AudioConnection P)
  audioOutputCount : ℕ
  controlConnections : List (MidiConnection P)

/-- A processor, with what it reads of others. -/
inductive Node (P : Type*)
  | audioInputPort
  | audioStereoInput (portLeft portRight : P)
  | midiInputPort
  | mixer (m : Mixer P)
  | plugin (plugin : Plugin P)
  /-- `AudioOutputPort`, `audio::BeatTracker` and `OnsetDetector` -/
  | audioListener (audioInput : Option (AudioConnection P))
  /-- `midi::BeatTracker` -/
  | midiListener (midiInput : Option (MidiConnection P))
  /-- `MidiOutputPort`, `Transport` and `osc::Output` -/
  | endpoint

/-- The processors by their addresses. -/
abbrev Graph (P : Type*) := P → Node P

variable {P : Type*}

namespace Plugin

def audioSources (p : Plugin P) : List P :=
  ((List.range p.audioInputCount).filterMap p.audioInput).map AudioConnection.source

end Plugin

namespace Node

/-- What `doProcess` calls `process` on, in order; none when a mixer dereferences a connector
without a connection. -/
def pulls : Node P → Option (List P)
  | audioStereoInput portLeft portRight => some [portLeft, portRight]
  | mixer m => m.connections.map fun audio =>
      audio.map AudioConnection.source ++ m.controlConnections.map fun c => c.2.connection.source
  | plugin p => some (p.midiInputList.reduceOption.map MidiConnection.source ++ p.audioSources ++
      p.controlConnections.map MidiConnection.source)
  | audioListener audioInput => some (audioInput.toList.map AudioConnection.source)
  | midiListener midiInput => some (midiInput.toList.map MidiConnection.source)
  | _ => some []

/-- The node stores a connection of `q`, or is made of it. -/
def Stores : Node P → P → Prop
  | audioStereoInput portLeft portRight, q => q = portLeft ∨ q = portRight
  | mixer m, q => (∃ i conn, m.audioInput i = some conn ∧ conn.source = q) ∨
      ∃ c ∈ m.controlConnections, c.2.connection.source = q
  | plugin p, q => (∃ conn, some conn ∈ p.midiInputList ∧ conn.source = q) ∨
      (∃ i conn, p.audioInput i = some conn ∧ conn.source = q) ∨
      ∃ conn ∈ p.controlConnections, conn.source = q
  | audioListener audioInput, q => ∃ conn, audioInput = some conn ∧ conn.source = q
  | midiListener midiInput, q => ∃ conn, midiInput = some conn ∧ conn.source = q
  | _, _ => False

/-- The connections of an audio source, one for each output; none for other processors. -/
def audioConnections (p : P) : Node P → Option (List (AudioConnection P))
  | audioInputPort => some [⟨p, 0⟩]
  | audioStereoInput portLeft portRight => some [⟨portLeft, 0⟩, ⟨portRight, 0⟩]
  | mixer m => some ((List.range m.audioOutputCount).map fun i => ⟨p, i⟩)
  | plugin pl => some ((List.range pl.audioOutputCount).map fun i => ⟨p, i⟩)
  | _ => none

def midiConnections (p : P) : Node P → Option (List (MidiConnection P))
  | midiInputPort => some [⟨p, 0⟩]
  | plugin pl => some ((List.range pl.midiOutputCount).map fun i => ⟨p, i⟩)
  | _ => none

/-- A processor that others can connect to. -/
def IsSource : Node P → Prop
  | audioListener _ | midiListener _ | endpoint => False
  | _ => True

theorem stores_of_pulls {n : Node P} {l : List P} {q : P} (hl : n.pulls = some l) (hq : q ∈ l) :
    n.Stores q := by
  cases n with
  | audioStereoInput portLeft portRight =>
    cases hl
    simpa [Stores] using hq
  | mixer m =>
    obtain ⟨audio, haudio, rfl⟩ := Option.map_eq_some_iff.mp hl
    rcases List.mem_append.mp hq with hq | hq
    · obtain ⟨conn, hconn, rfl⟩ := List.mem_map.mp hq
      obtain ⟨i, -, hi⟩ := Mixer.exists_of_mem_mapM haudio hconn
      exact Or.inl ⟨i, conn, hi, rfl⟩
    · obtain ⟨c, hc, rfl⟩ := List.mem_map.mp hq
      exact Or.inr ⟨c, hc, rfl⟩
  | plugin p =>
    cases hl
    simp only [List.mem_append, List.mem_map, List.reduceOption_mem_iff] at hq
    rcases hq with (⟨conn, hconn, rfl⟩ | hq) | ⟨conn, hconn, rfl⟩
    · exact Or.inl ⟨conn, hconn, rfl⟩
    · obtain ⟨conn, hconn, rfl⟩ := List.mem_map.mp hq
      obtain ⟨i, -, hi⟩ := List.mem_filterMap.mp hconn
      exact Or.inr (Or.inl ⟨i, conn, hi, rfl⟩)
    · exact Or.inr (Or.inr ⟨conn, hconn, rfl⟩)
  | audioListener audioInput =>
    cases hl
    simpa [Stores] using hq
  | midiListener midiInput =>
    cases hl
    simpa [Stores] using hq
  | audioInputPort | midiInputPort | endpoint =>
    cases hl
    cases hq

end Node

namespace Graph

/-- `p` stores a connection of `q`, or is made of it. -/
def Stores (g : Graph P) (p q : P) : Prop := (g p).Stores q

/-- `doProcess` of `p` calls `process` of `q`. -/
def Calls (g : Graph P) (p q : P) : Prop := ∃ l, (g p).pulls = some l ∧ q ∈ l

theorem stores_of_calls {g : Graph P} {p q : P} (h : g.Calls p q) : g.Stores p q := by
  obtain ⟨l, hl, hq⟩ := h
  exact Node.stores_of_pulls hl hq

/-- No chain of `process` calls that starts at `p` goes on forever. -/
def ProcessFinite (g : Graph P) (p : P) : Prop :=
  ¬ ∃ chain : ℕ → P, chain 0 = p ∧ ∀ n, g.Calls (chain n) (chain (n + 1))

/-- Newly created processors: no mixer or plugin is connected to anything yet. -/
def Fresh (g : Graph P) : Prop :=
  ∀ p, match g p with
    | .audioStereoInput portLeft portRight =>
      g portLeft = .audioInputPort ∧ g portRight = .audioInputPort
    | .mixer m =>
      m.connectedInputs = 0 ∧ (∀ i, m.audioInput i = none) ∧ m.controlConnections = []
    | .plugin pl => (∀ conn ∈ pl.midiInputList, conn = none) ∧ (∀ i, pl.audioInput i = none) ∧
        pl.controlConnections = []
    | .audioListener audioInput => ∀ conn, audioInput = some conn → (g conn.source).IsSource
    | .midiListener midiInput => ∀ conn, midiInput = some conn → (g conn.source).IsSource
    | _ => True

/-- How far a node of a new graph is from a port. -/
def freshRank : Node P → ℕ
  | .audioStereoInput _ _ => 1
  | .audioListener _ | .midiListener _ => 2
  | _ => 0

theorem freshRank_of_isSource {n : Node P} (h : n.IsSource) : freshRank n < 2 := by
  cases n <;> simp_all [freshRank, Node.IsSource]

theorem Fresh.rank_lt {g : Graph P} (h : g.Fresh) {p q : P} (hs : g.Stores p q) :
    freshRank (g q) < freshRank (g p) := by
  have hp := h p
  cases hg : g p with
  | audioStereoInput portLeft portRight =>
    simp only [Stores, hg] at hs hp
    rcases hs with rfl | rfl
    · simp [hp.1, freshRank]
    · simp [hp.2, freshRank]
  | mixer m =>
    simp only [Stores, hg] at hs hp
    rcases hs with ⟨i, conn, hi, -⟩ | ⟨c, hc, -⟩
    · simp [hp.2.1] at hi
    · simp [hp.2.2] at hc
  | plugin pl =>
    simp only [Stores, hg] at hs hp
    rcases hs with ⟨conn, hconn, -⟩ | ⟨i, conn, hi, -⟩ | ⟨conn, hconn, -⟩
    · cases hp.1 _ hconn
    · simp [hp.2.1] at hi
    · simp [hp.2.2] at hconn
  | audioListener audioInput =>
    simp only [Stores, hg] at hs hp
    obtain ⟨conn, hconn, rfl⟩ := hs
    exact freshRank_of_isSource (hp conn hconn)
  | midiListener midiInput =>
    simp only [Stores, hg] at hs hp
    obtain ⟨conn, hconn, rfl⟩ := hs
    exact freshRank_of_isSource (hp conn hconn)
  | audioInputPort | midiInputPort | endpoint =>
    simp only [Stores, hg] at hs
    cases hs

theorem Fresh.terminating {g : Graph P} (h : g.Fresh) : Digraph.Terminating g.Stores :=
  Subrelation.wf (fun hs => h.rank_lt hs) (measure fun p => freshRank (g p)).wf

/-- The first true value, if nothing before it is undefined. -/
def firstTrue {α : Type*} (f : α → Option Bool) : List α → Option Bool
  | [] => some false
  | x :: rest =>
    match f x with
    | none => none
    | some true => some true
    | some false => firstTrue f rest

/-- `connectsTo` of a source, with the depth of recursion that the stack allows. A mixer
dereferences its connectors below `connectedInputs`, a plugin skips those without a connection. -/
def connectsTo (g : Graph P) : ℕ → P → P → Option Bool
  | 0, _, _ => none
  | depth + 1, p, source =>
    match g p with
    | .mixer m => firstTrue (fun i =>
        match m.audioInput i with
        | none => none
        | some conn => connectsTo g depth conn.source source) (List.range m.connectedInputs)
    | .plugin pl => firstTrue (fun q => connectsTo g depth q source)
        (pl.midiInputList.reduceOption.map MidiConnection.source ++ pl.audioSources)
    | _ => some false

variable [DecidableEq P]

/-- The check of `setConnection`: whether it refuses a connection of `connSource` to `source`. -/
def refuses (depth : ℕ) (g : Graph P) (connSource source : P) : Option Bool :=
  if connSource = source then some true else g.connectsTo depth connSource source

end Graph

end Bipscript
