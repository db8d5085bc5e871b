import Bipscript.Settled

/-! A period leaves the same in all audio buffers whatever the order of the active processors. -/
namespace Bipscript.Contents

open Audio Program

variable {P S : Type}

namespace Setting

variable {T : Setting P S} {known : Set P} {s : Memory P S} {p : P} [DecidableEq P]

/-- A processor that has not run yet in the period: `doProcess` runs, and what it leaves is
stored. -/
theorem process_undone {u : Unspecified P} {depth : ℕ} {a : Processor P S}
    (hcalls : ∀ q, T.start.graph.Calls p q → ∀ known, Ends (T.Holds known)
      (process T.cycle u depth q) fun _ => T.Holds (known ∪ {q}))
    (ha : Yields (T.At p ∅)
      (fun i => doProcess T.cycle i.u i.process p (T.start.processors p)) a
      (T.At p {q | T.start.graph.Calls p q}))
    (hs : T.Holds known s) (hp : s.processedUntil p < T.cycle.time) :
    ∃ t, process T.cycle u (depth + 1) p s = some (⟨⟩, { t with
        processors := Function.update t.processors p a
        processedUntil := Function.update t.processedUntil p T.cycle.time }) ∧
      T.Holds (known ∪ {q | T.start.graph.Calls p q}) t := by
  obtain ⟨b, t, hx, rfl, -, ht⟩ := ha ⟨u, process T.cycle u depth, known⟩ s
    ⟨hcalls, by rwa [Set.union_empty]⟩
  refine ⟨t, ?_, ht⟩
  have hguard : ¬ s.processedUntil p ≥ T.cycle.time := not_le.mpr hp
  rw [← hs.rest p hp] at hx
  dsimp only at hx
  rw [process]
  change (if s.processedUntil p ≥ T.cycle.time then (Pure.pure ⟨⟩ : M P S PUnit) else _) s = _
  rw [if_neg hguard]
  change (doProcess T.cycle u (process T.cycle u depth) p (s.processors p) s).bind _ = _
  rw [hx]
  rfl

/-- The processor holds what it ends the period with. -/
theorem Holds.store (h : T.Holds (known ∪ {q | T.start.graph.Calls p q}) s) (hp : T.reached p)
    (hdelivers : ∀ index,
      Delivers T.cycle p index ((T.solution p).messages index) (T.start.processors p)) :
    T.Holds (known ∪ {p}) { s with
      processors := Function.update s.processors p (T.solution p)
      processedUntil := Function.update s.processedUntil p T.cycle.time } := by
  have hgrow : ∀ q, T.cycle.time ≤ s.processedUntil q →
      T.cycle.time ≤ Function.update s.processedUntil p T.cycle.time q := by
    intro q hq
    by_cases hqp : q = p
    · rw [hqp, Function.update_self]
    · rwa [Function.update_of_ne hqp]
  refine ⟨?_, ?_, ?_⟩
  · intro q hq
    by_cases hqp : q = p
    · subst hqp
      exact ⟨hp, Function.update_self .., hdelivers,
        fun r hr => hgrow r (h.known r (Or.inr hr))⟩
    · simp only [Function.update_of_ne hqp] at hq ⊢
      obtain ⟨hreached, hsolution, hd, hcalls⟩ := h.done q hq
      exact ⟨hreached, hsolution, hd, fun r hr => hgrow r (hcalls r hr)⟩
  · intro q hq
    have hqp : q ≠ p := by
      rintro rfl
      simp at hq
    simp only [Function.update_of_ne hqp] at hq ⊢
    exact h.rest q hq
  · rintro q (hq | rfl)
    · exact hgrow q (h.known q (Or.inl hq))
    · simp

/-- What `process` alone leaves in a processor. -/
def solve (C : Cycle P S) (s : Memory P S) (u : Unspecified P) (rank : P → ℕ) (p : P) :
    Processor P S :=
  ((process C u (rank p + 1) p s).map fun r => r.2.processors p).getD (s.processors p)

/-- The arrangement of the processors reached is acyclic and without null pointers, none has run
yet, and their messages are read whole. -/
structure Sound (T : Setting P S) (rank : P → ℕ) : Prop where
  rank_lt : ∀ p q, T.start.graph.Calls p q → rank q < rank p
  due : ∀ p, T.start.processedUntil p < T.cycle.time
  reached : ∀ p q, T.reached p → T.start.graph.Calls p q → T.reached q
  defined : ∀ p, T.reached p → (T.start.graph p).pulls ≠ none
  clean : ∀ p, T.reached p → Clean T.cycle T.start (T.start.processors p)

omit [DecidableEq P] in
theorem holds_start {rank : P → ℕ} (h : T.Sound rank) : T.Holds ∅ T.start where
  done := fun q hq => absurd hq (not_le.mpr (h.due q))
  rest := fun _ _ => rfl
  known := fun _ hq => hq.elim

/-- The processors that `p` calls do what they should. -/
def CallsEnd (T : Setting P S) (rank : P → ℕ) (p : P) : Prop :=
  ∀ u depth, rank p ≤ depth → ∀ q, T.start.graph.Calls p q → ∀ known,
    Ends (T.Holds known) (process T.cycle u depth q) fun _ => T.Holds (known ∪ {q})

/-- Where the solution has in each processor what its own `doProcess` leaves, on the solution. -/
theorem process_ends_of {rank : P → ℕ} (h : T.Sound rank)
    (hsol : ∀ p, T.reached p → T.CallsEnd rank p →
      T.solution p = T.flow p (T.start.processors p)) (u : Unspecified P) {depth : ℕ}
    (hp : T.reached p) (hdepth : rank p < depth) (known : Set P) :
    Ends (T.Holds known) (process T.cycle u depth p) fun _ => T.Holds (known ∪ {p}) := by
  induction hr : rank p using Nat.strong_induction_on generalizing p u depth known with
  | _ n ih =>
    subst hr
    have hcalls : T.CallsEnd rank p := by
      intro u depth hle q hq known
      have hlt := h.rank_lt p q hq
      exact ih (rank q) hlt u (h.reached p q hp hq) (hlt.trans_le hle) known rfl
    have hsolution := hsol p hp hcalls
    have ha := doProcess_flows (h.defined p hp) (h.clean p hp)
    have hdelivers := fun index => flow_delivers (T := T) p (T.start.processors p) index
    rw [← hsolution] at ha hdelivers
    intro s hs
    obtain ⟨depth, rfl⟩ : ∃ d, depth = d + 1 := ⟨depth - 1, by omega⟩
    by_cases hlate : s.processedUntil p < T.cycle.time
    · obtain ⟨t, hx, ht⟩ := process_undone (hcalls u depth (by omega)) ha hs hlate
      exact ⟨⟨⟩, _, hx, ht.store hp hdelivers⟩
    · refine ⟨⟨⟩, s, ?_, hs.done, hs.rest, ?_⟩
      · rw [process]
        change (if s.processedUntil p ≥ T.cycle.time then (Pure.pure ⟨⟩ : M P S PUnit) else _) s = _
        rw [if_pos (not_lt.mp hlate)]
        rfl
      · rintro q (hq | rfl)
        · exact hs.known q hq
        · exact not_lt.mp hlate

/-- Alone a processor leaves what its `doProcess` does on the solution. -/
theorem solve_eq {rank : P → ℕ} (h : T.Sound rank) {u₀ : Unspecified P}
    (hsol : T.solution p = solve T.cycle T.start u₀ rank p) (hp : T.reached p)
    (hcalls : T.CallsEnd rank p) : T.solution p = T.flow p (T.start.processors p) := by
  obtain ⟨t, hx, -⟩ := process_undone (hcalls u₀ (rank p) le_rfl)
    (doProcess_flows (h.defined p hp) (h.clean p hp)) (holds_start h) (h.due p)
  simp [hsol, solve, hx]

/-- After a loop over processors that reaches all the setting does. -/
theorem period_ends_of {rank : P → ℕ} (h : T.Sound rank)
    (hsol : ∀ p, T.reached p → T.CallsEnd rank p →
      T.solution p = T.flow p (T.start.processors p)) (u : Unspecified P) {depth : ℕ} {l : List P}
    (hl : ∀ p ∈ l, T.reached p ∧ rank p < depth)
    (hreached : ∀ p, T.reached p → ∃ a ∈ l, Relation.ReflTransGen T.start.graph.Calls a p) :
    ∃ t, (l.forM (process T.cycle u depth) : M P S PUnit) T.start = some (⟨⟩, t) ∧
      ∀ p, (T.reached p → t.processors p = T.solution p) ∧
        (¬ T.reached p → t.processors p = T.start.processors p) := by
  have hloop := Yields.forM (I := fun (K : Set P) (_ : Unit) => T.Holds K) (l := l)
    (f := fun _ => process T.cycle u depth) (fun p => {p}) (fun p hp K _ => by
      intro s hs
      obtain ⟨_, t, hx, ht⟩ := process_ends_of h hsol u (hl p hp).1 (hl p hp).2 K s hs
      exact ⟨⟨⟩, t, hx, rfl, ht⟩) ∅
  obtain ⟨_, t, hx, -, ht⟩ := hloop () T.start (holds_start h)
  have hdone : ∀ a p, Relation.ReflTransGen T.start.graph.Calls a p →
      T.cycle.time ≤ t.processedUntil a → T.cycle.time ≤ t.processedUntil p := by
    intro a p hap ha
    induction hap with
    | refl => exact ha
    | tail _ hcall ih => exact (ht.done _ ih).2.2.2 _ hcall
  refine ⟨t, hx, fun p => ⟨fun hp => ?_, fun hp => ?_⟩⟩
  · obtain ⟨a, ha, hap⟩ := hreached p hp
    have hknown : a ∈ ∅ ∪ ⋃ p ∈ l, {p} := by simpa using ha
    exact (ht.done p (hdone a p hap (ht.known a hknown))).2.1
  · exact ht.rest p (not_le.mp fun hle => hp (ht.done p hle).1)

theorem period_ends {rank : P → ℕ} (h : T.Sound rank) {u₀ : Unspecified P}
    (hsol : T.solution = solve T.cycle T.start u₀ rank) (u : Unspecified P) {depth : ℕ} {l : List P}
    (hl : ∀ p ∈ l, T.reached p ∧ rank p < depth)
    (hreached : ∀ p, T.reached p → ∃ a ∈ l, Relation.ReflTransGen T.start.graph.Calls a p) :
    ∃ t, (l.forM (process T.cycle u depth) : M P S PUnit) T.start = some (⟨⟩, t) ∧
      ∀ p, (T.reached p → t.processors p = T.solution p) ∧
        (¬ T.reached p → t.processors p = T.start.processors p) :=
  period_ends_of h (fun p => solve_eq h (congrFun hsol p)) u hl hreached

end Setting

variable [DecidableEq P]

/-- The active processors and those that they call, directly or not. -/
def Reached (s : Memory P S) (activeProcessors : List P) (p : P) : Prop :=
  ∃ a ∈ activeProcessors, Relation.ReflTransGen s.graph.Calls a p

/-- Whatever the order of the active processors, the period ends with the same in all audio
buffers. -/
def OrderFree (C : Cycle P S) (depth : ℕ) (deletedProcessors activeProcessors : List P)
    (s : Memory P S) : Prop :=
  ∀ (u u' : Unspecified P) (activeProcessors' : List P), activeProcessors.Perm activeProcessors' →
    ∃ t t', period C u depth deletedProcessors activeProcessors s = some (⟨⟩, t) ∧
      period C u' depth deletedProcessors activeProcessors' s = some (⟨⟩, t') ∧
      ∀ p, (t.processors p).audio = (t'.processors p).audio

/-- A plugin that reads a MIDI input port. -/
def synth : LV2.Plugin ℕ Unit where
  inst := ()
  midiInputList := [⟨some ⟨0, 0⟩, .empty, true, []⟩]
  midiOutputList := []
  handlerDefined := fun _ => false
  audioInputCount := 0
  audioInput := fun _ => none
  audioOutputCount := 1
  audioOutput := fun _ _ => 0
  controlBuffer := .empty
  ports := fun _ => 0
  newControlMappingsQueue := []
  controlConnections := []

/-- Two of them, at one port. -/
def twoSynths : Memory ℕ Unit where
  processors := fun
    | 0 => .midiInputPort [] false
    | 1 | 2 => .plugin synth
    | _ => .endpoint
  processedUntil := fun _ => 0
  lastEvent := fun _ => blank

/-- A period in which the port has these messages; a plugin plays the third byte of its first
event. -/
def playing (messages : List LV2.Message) : Cycle ℕ Unit where
  rolling := true
  pos := ⟨1, 1, 0, 1920, 4, 120, 48000⟩
  nframes := 1
  time := 1
  mul := (· * ·)
  audioBuffer := fun _ _ => 0
  midiBuffer := fun _ => messages
  dummyBuffer := fun _ => 0
  run := fun _ _ ports =>
    { inst := ()
      midiOutput := fun _ => []
      audioOutput := fun _ _ =>
        ((ports.midiInput.flatten.head?.bind fun e => e.buffer[2]?).getD 0).toNat }

theorem twoSynths_acyclic (p q : ℕ) (h : twoSynths.graph.Calls p q) :
    (if q = 0 then 0 else 1) < if p = 0 then 0 else 1 := by
  obtain ⟨l, hl, hq⟩ := h
  match p with
  | 0 =>
    cases hl
    cases hq
  | 1 | 2 =>
    cases hl
    obtain rfl : q = 0 := by simpa [synth, Plugin.audioSources] using hq
    decide
  | n + 3 =>
    cases hl
    cases hq

theorem twoSynths_defined (p : ℕ) : (twoSynths.graph p).pulls ≠ none := by
  match p with
  | 0 | 1 | 2 | n + 3 => exact Option.some_ne_none _

/-- The sample that the first plugin plays. -/
def sample (messages : List LV2.Message) (unset : UInt8) (activeProcessors : List ℕ) : Option ℚ :=
  (period (playing messages) ⟨fun _ _ _ => unset, fun _ => []⟩ 2 [] activeProcessors twoSynths).map
    fun r => (r.2.processors 1).audio 0 0

theorem sample_eq {messages : List LV2.Message}
    (h : OrderFree (playing messages) 2 [] [1, 2] twoSynths) (unset unset' : UInt8)
    {activeProcessors : List ℕ} (hperm : [1, 2].Perm activeProcessors) :
    sample messages unset [1, 2] = sample messages unset' activeProcessors := by
  obtain ⟨t, t', hx, hx', heq⟩ := h ⟨fun _ _ _ => unset, fun _ => []⟩
    ⟨fun _ _ _ => unset', fun _ => []⟩ activeProcessors hperm
  rw [sample, sample, hx, hx', Option.map_some, Option.map_some, heq 1]

end Bipscript.Contents
