import Bipscript.MidiEvent
import Mathlib.Data.List.TakeWhile

/-! What one processor stores to read from another, and the gain changes that MIDI controllers make
while a mixer plays a period. -/
namespace Bipscript

/-- A mono audio connection: the processor that owns it, and which of its outputs it is. -/
structure AudioConnection (P : Type*) where
  source : P
  index : ℕ
deriving DecidableEq

/-- A MIDI connection of the processor that owns it. -/
structure MidiConnection (P : Type*) where
  source : P
  index : ℕ
deriving DecidableEq

namespace Audio

/-- The gain matrix: inputs, then outputs. -/
abbrev Gains := ℕ → ℕ → ℚ

def Gains.set (gain : Gains) (input output : ℕ) (value : ℚ) : Gains :=
  fun i o => if i = input ∧ o = output then value else gain i o

@[simp] theorem Gains.set_same (gain : Gains) (i o : ℕ) (value : ℚ) :
    gain.set i o value i o = value := by simp [Gains.set]

theorem Gains.set_other (gain : Gains) {i o input output : ℕ} (value : ℚ)
    (h : (i, o) ≠ (input, output)) : gain.set input output value i o = gain i o := by
  unfold Gains.set
  rw [if_neg (fun he => h (Prod.ext he.1 he.2))]

structure MixerControlMapping where
  cc : ℕ
  input : ℕ
  output : ℕ
deriving DecidableEq

structure MixerControlConnection (P : Type*) where
  mappings : List MixerControlMapping
  connection : MidiConnection P
  eventCount : ℕ
  eventIndex : ℕ

/-- The check of all mappings against one event. -/
def applyMappings (mappings : List MixerControlMapping) (gain : Gains) (e : Midi.Event) : Gains :=
  if Midi.matchesType e Midi.TYPE_CONTROL then
    mappings.foldl (fun gain mapping =>
      if mapping.cc = e.data.databyte1.toNat then
        gain.set mapping.input mapping.output (e.data.databyte2.toNat / 127)
      else gain) gain
  else gain

namespace MixerControlConnection

variable {P : Type*}

def addMapping (mapping : MixerControlMapping) (c : MixerControlConnection P) :
    MixerControlConnection P :=
  { c with mappings := mapping :: c.mappings }

/-- `process`, once the source has been processed: `events` are what the connection now holds. -/
def process (events : List Midi.Event) (c : MixerControlConnection P) : MixerControlConnection P :=
  { c with eventCount := events.length, eventIndex := 0 }

/-- The `while` loop of `updateGains`: the index and the gains it leaves. -/
def pull (mappings : List MixerControlMapping) (events : List Midi.Event) (eventCount frame : ℕ) :
    ℕ → Option Midi.Event → ℕ → Gains → ℕ × Gains
  | fuel + 1, some nextEvent, eventIndex, gain =>
    if nextEvent.frameOffset = frame then
      let gain := applyMappings mappings gain nextEvent
      -- pull up next event
      if eventIndex < eventCount then
        pull mappings events eventCount frame fuel events[eventIndex]? (eventIndex + 1) gain
      else pull mappings events eventCount frame fuel none eventIndex gain
    else (eventIndex, gain)
  | _, _, eventIndex, gain => (eventIndex, gain)

def updateGains (events : List Midi.Event) (frame : ℕ) (c : MixerControlConnection P)
    (gain : Gains) : MixerControlConnection P × Gains :=
  if c.eventCount ≠ 0 ∧ c.eventIndex < c.eventCount then
    let r := pull c.mappings events c.eventCount frame (c.eventCount + 2) events[c.eventIndex]?
      c.eventIndex gain
    ({ c with eventIndex := r.1 }, r.2)
  else (c, gain)

/-- `process` and then `updateGains` for the first `n` frames. -/
def play (events : List Midi.Event) (n : ℕ) (c : MixerControlConnection P) (gain : Gains) :
    MixerControlConnection P × Gains :=
  (List.range n).foldl (fun s frame => s.1.updateGains events frame s.2) (c.process events, gain)

/-- The value of the last control change on a controller, as a gain. -/
def controlValue (cc : ℕ) (events : List Midi.Event) : Option ℚ :=
  ((events.filter fun e => Midi.matchesType e Midi.TYPE_CONTROL &&
    decide (cc = e.data.databyte1.toNat)).getLast?).map fun e => (e.data.databyte2.toNat : ℚ) / 127

/-- The events after one at frame `last`. One on a later frame than the event before it is
skipped, unless that one was. -/
def unskippedAfter (last : ℤ) (skipped : Bool) : List Midi.Event → List Midi.Event
  | [] => []
  | e :: rest =>
    if e.frameOffset ≠ last ∧ skipped = false then unskippedAfter e.frameOffset true rest
    else e :: unskippedAfter e.frameOffset false rest

def unskipped : List Midi.Event → List Midi.Event
  | [] => []
  | e :: rest => e :: unskippedAfter e.frameOffset false rest

/-- The events of a period that are not skipped; a first event before the period hides all. -/
def heard (events : List Midi.Event) : List Midi.Event :=
  match events with
  | [] => []
  | e :: _ => if e.frameOffset < 0 then [] else unskipped events

def upTo (f : ℕ) (events : List Midi.Event) : List Midi.Event :=
  events.filter fun e => decide (e.frameOffset ≤ f)

theorem unskippedAfter_skipped (last : ℤ) (l : List Midi.Event) :
    unskippedAfter last true l = unskipped l := by
  cases l <;> simp [unskippedAfter, unskipped]

theorem unskippedAfter_subset (last : ℤ) (skipped : Bool) (l : List Midi.Event) :
    unskippedAfter last skipped l ⊆ l := by
  induction l generalizing last skipped with
  | nil => simp [unskippedAfter]
  | cons e rest ih =>
    unfold unskippedAfter
    split
    · exact List.subset_cons_of_subset e (ih _ _)
    · exact List.cons_subset_cons e (ih _ _)

theorem unskipped_subset (l : List Midi.Event) : unskipped l ⊆ l := by
  cases l with
  | nil => simp [unskipped]
  | cons e rest => exact List.cons_subset_cons e (unskippedAfter_subset _ _ rest)

/-- Of the events on one frame, and what follows them: the first one after is skipped. -/
theorem unskippedAfter_group (frame : ℤ) (l : List Midi.Event) :
    unskippedAfter frame false l =
      l.takeWhile (fun e => decide (e.frameOffset = frame)) ++
        unskipped (l.dropWhile (fun e => decide (e.frameOffset = frame))).tail := by
  induction l with
  | nil => rfl
  | cons e rest ih =>
    by_cases he : e.frameOffset = frame
    · simp only [unskippedAfter, he, List.takeWhile_cons, List.dropWhile_cons, decide_true, if_true,
        ne_eq, not_true_eq_false, false_and, if_false, List.cons_append, ih]
    · simp [unskippedAfter, he, unskippedAfter_skipped]

theorem unskipped_group {frame : ℤ} {e : Midi.Event} {rest : List Midi.Event}
    (he : e.frameOffset = frame) :
    unskipped (e :: rest) =
      (e :: rest).takeWhile (fun e => decide (e.frameOffset = frame)) ++
        unskipped ((e :: rest).dropWhile (fun e => decide (e.frameOffset = frame))).tail := by
  rw [unskipped, he, unskippedAfter_group, List.takeWhile_cons, List.dropWhile_cons,
    if_pos (decide_eq_true he), if_pos (decide_eq_true he), List.cons_append]

section Cells

variable {mappings : List MixerControlMapping}

def DistinctCells (mappings : List MixerControlMapping) : Prop :=
  mappings.Pairwise fun a b => (a.input, a.output) ≠ (b.input, b.output)

/-- The check of all mappings sets the cells of those on the event's controller, all to one
value. -/
theorem foldl_mappings (e : Midi.Event) (gain : Gains) (i o : ℕ) :
    mappings.foldl (fun gain mapping =>
      if mapping.cc = e.data.databyte1.toNat then
        gain.set mapping.input mapping.output (e.data.databyte2.toNat / 127)
      else gain) gain i o =
    if ∃ m ∈ mappings, m.cc = e.data.databyte1.toNat ∧ (i, o) = (m.input, m.output) then
      (e.data.databyte2.toNat : ℚ) / 127
    else gain i o := by
  induction mappings generalizing gain with
  | nil => simp
  | cons m rest ih =>
    rw [List.foldl_cons, ih]
    by_cases hrest : ∃ m ∈ rest, m.cc = e.data.databyte1.toNat ∧ (i, o) = (m.input, m.output)
    · rw [if_pos hrest, if_pos]
      obtain ⟨m', hm', h⟩ := hrest
      exact ⟨m', List.mem_cons_of_mem _ hm', h⟩
    · rw [if_neg hrest]
      by_cases hm : m.cc = e.data.databyte1.toNat ∧ (i, o) = (m.input, m.output)
      · rw [if_pos hm.1, if_pos ⟨m, List.mem_cons_self, hm⟩]
        obtain ⟨_, hcell⟩ := hm
        cases hcell
        exact Gains.set_same gain _ _ _
      · have hnone : ¬ ∃ m' ∈ m :: rest,
            m'.cc = e.data.databyte1.toNat ∧ (i, o) = (m'.input, m'.output) := by
          rintro ⟨m', hm', h⟩
          rcases List.mem_cons.mp hm' with rfl | hm'
          · exact hm h
          · exact hrest ⟨m', hm', h⟩
        rw [if_neg hnone]
        split
        · rename_i hcc
          exact Gains.set_other gain _ (fun hcell => hm ⟨hcc, hcell⟩)
        · rfl

/-- Two mappings of one cell are the same mapping. -/
theorem DistinctCells.cell_inj (hd : DistinctCells mappings) {a b : MixerControlMapping}
    (ha : a ∈ mappings) (hb : b ∈ mappings) (h : (a.input, a.output) = (b.input, b.output)) :
    a = b := by
  by_contra hne
  have : Std.Symm fun a b : MixerControlMapping => (a.input, a.output) ≠ (b.input, b.output) :=
    ⟨fun _ _ hab => hab.symm⟩
  exact List.Pairwise.forall hd ha hb hne h

/-- One event sets the cells of its controller. -/
theorem applyMappings_cell (e : Midi.Event) (gain : Gains) {m : MixerControlMapping}
    (hd : DistinctCells mappings) (hm : m ∈ mappings) :
    applyMappings mappings gain e m.input m.output =
      (controlValue m.cc [e]).getD (gain m.input m.output) := by
  unfold applyMappings controlValue
  split
  · rename_i ht
    rw [foldl_mappings]
    by_cases hc : m.cc = e.data.databyte1.toNat
    · rw [if_pos ⟨m, hm, hc, rfl⟩]
      simp [ht, hc]
    · rw [if_neg]
      · simp [hc]
      · rintro ⟨m', hm', hcc, hcell⟩
        exact hc (hd.cell_inj hm hm' hcell ▸ hcc)
  · rename_i ht
    simp [ht]

theorem controlValue_cons (cc : ℕ) (e : Midi.Event) (es : List Midi.Event) (value : ℚ) :
    (controlValue cc (e :: es)).getD value =
      (controlValue cc es).getD ((controlValue cc [e]).getD value) := by
  unfold controlValue
  rw [List.filter_cons]
  split
  · rename_i h
    rw [List.filter_cons, if_pos h, List.getLast?_cons]
    cases (es.filter fun e => Midi.matchesType e Midi.TYPE_CONTROL &&
      decide (cc = e.data.databyte1.toNat)).getLast? <;> simp
  · rename_i h
    rw [List.filter_cons, if_neg h]
    simp

/-- Over a run of events, each cell ends at the last control change on its controller. -/
theorem foldl_applyMappings_cell (es : List Midi.Event) (gain : Gains) {m : MixerControlMapping}
    (hd : DistinctCells mappings) (hm : m ∈ mappings) :
    es.foldl (applyMappings mappings) gain m.input m.output =
      (controlValue m.cc es).getD (gain m.input m.output) := by
  induction es generalizing gain with
  | nil => rfl
  | cons e es ih => rw [List.foldl_cons, ih, controlValue_cons, applyMappings_cell e gain hd hm]

/-- Applying one event twice in a row is applying it once, whatever the mappings. -/
theorem applyMappings_twice (gain : Gains) (e : Midi.Event) :
    applyMappings mappings (applyMappings mappings gain e) e = applyMappings mappings gain e := by
  unfold applyMappings
  split
  · funext i o
    simp only [foldl_mappings]
    split <;> rfl
  · rfl

end Cells

section Run

variable {events : List Midi.Event}

/-- The loop applies the event it holds, then re-reads from `eventIndex` up to the first event on
another frame, and leaves the index behind that one. -/
theorem pull_spec (mappings : List MixerControlMapping) {frame fuel eventIndex : ℕ}
    {e : Midi.Event} (gain : Gains)
    (he : e.frameOffset = frame) (hfuel : (events.drop eventIndex).length + 1 < fuel) :
    ∃ eventIndex', pull mappings events events.length frame fuel (some e) eventIndex gain =
        (eventIndex', ((events.drop eventIndex).takeWhile
          (fun e => decide (e.frameOffset = (frame : ℤ)))).foldl (applyMappings mappings)
            (applyMappings mappings gain e)) ∧
      events.drop eventIndex' = ((events.drop eventIndex).dropWhile
        (fun e => decide (e.frameOffset = (frame : ℤ)))).tail := by
  induction fuel generalizing e eventIndex gain with
  | zero => omega
  | succ fuel ih =>
    rw [pull, if_pos he]
    by_cases hlt : eventIndex < events.length
    · rw [if_pos hlt, List.drop_eq_getElem_cons hlt, List.getElem?_eq_getElem hlt]
      have hlen : (events.drop (eventIndex + 1)).length + 1 < fuel := by
        rw [List.length_drop] at hfuel ⊢
        omega
      by_cases hnext : events[eventIndex].frameOffset = frame
      · obtain ⟨i, hpull, hdrop⟩ := ih (applyMappings mappings gain e) hnext hlen
        refine ⟨i, ?_, ?_⟩
        · rw [hpull, List.takeWhile_cons, if_pos (decide_eq_true hnext), List.foldl_cons]
        · rw [hdrop, List.dropWhile_cons, if_pos (decide_eq_true hnext)]
      · -- the event just read is on a later frame: the index has passed it
        refine ⟨eventIndex + 1, ?_, ?_⟩
        · cases fuel with
          | zero => omega
          | succ fuel =>
            rw [pull, if_neg hnext, List.takeWhile_cons, if_neg (by simpa using hnext),
              List.foldl_nil]
        · rw [List.dropWhile_cons, if_neg (by simpa using hnext), List.tail_cons]
    · have hnil : events.drop eventIndex = [] := List.drop_eq_nil_of_le (not_lt.mp hlt)
      refine ⟨eventIndex, ?_, ?_⟩
      · rw [if_neg hlt, hnil]
        cases fuel <;> rfl
      · rw [hnil]
        rfl

/-- The events on one frame, of a sorted list that starts no earlier, and those later. -/
theorem dropWhile_later {frame : ℤ} {l : List Midi.Event}
    (hs : l.Pairwise fun a b => a.frameOffset ≤ b.frameOffset)
    (hge : ∀ e ∈ l, frame ≤ e.frameOffset) :
    ∀ e ∈ l.dropWhile (fun e => decide (e.frameOffset = frame)), frame < e.frameOffset := by
  induction l with
  | nil => simp
  | cons first rest ih =>
    obtain ⟨hfirst, hrest⟩ := List.pairwise_cons.mp hs
    rw [List.dropWhile_cons]
    split
    · exact ih hrest (fun e he => hge e (List.mem_cons_of_mem _ he))
    · rename_i hne
      have hlt : frame < first.frameOffset := by
        have h1 := hge first List.mem_cons_self
        have h2 : first.frameOffset ≠ frame := by simpa using hne
        omega
      intro e he
      rcases List.mem_cons.mp he with rfl | he
      · exact hlt
      · exact hlt.trans_le (hfirst e he)

/-- What has happened before frame `n`: some of the events heard have been applied, and the index
stands before the rest. -/
structure Played (events : List Midi.Event) (c : MixerControlConnection P) (gain : Gains) (n : ℕ)
    (s : MixerControlConnection P × Gains) : Prop where
  mappings : s.1.mappings = c.mappings
  eventCount : s.1.eventCount = events.length
  later : ∀ e ∈ events.drop s.1.eventIndex, (n : ℤ) ≤ e.frameOffset
  applied : ∃ past, unskipped events = past ++ unskipped (events.drop s.1.eventIndex) ∧
    (∀ e ∈ past, e.frameOffset < n) ∧ s.2 = past.foldl (applyMappings c.mappings) gain

theorem played_initial (c : MixerControlConnection P) (gain : Gains)
    (h : ∀ e ∈ events, 0 ≤ e.frameOffset) :
    Played events c gain 0 (c.process events, gain) where
  mappings := rfl
  eventCount := rfl
  later := by simpa [process] using h
  applied := ⟨[], by simp [process], by simp, rfl⟩

/-- No event left is on frame `n`. -/
theorem Played.next {c : MixerControlConnection P} {gain : Gains} {n : ℕ}
    {s : MixerControlConnection P × Gains} (h : Played events c gain n s)
    (hlater : ∀ e ∈ events.drop s.1.eventIndex, ((n + 1 : ℕ) : ℤ) ≤ e.frameOffset) :
    Played events c gain (n + 1) s := by
  obtain ⟨past, hpast, hbefore, hgain⟩ := h.applied
  refine { h with later := hlater, applied := ⟨past, hpast, ?_, hgain⟩ }
  intro e he
  have hlt := hbefore e he
  omega

/-- The event that the index stands before is on frame `n`: it is applied, twice, and the others on
the frame after it. -/
theorem played_due {c : MixerControlConnection P} {gain : Gains} {n : ℕ}
    {s : MixerControlConnection P × Gains}
    (hs : events.Pairwise fun a b => a.frameOffset ≤ b.frameOffset)
    (h : Played events c gain n s) (hlt : s.1.eventIndex < events.length)
    (hnow : events[s.1.eventIndex].frameOffset = n) :
    Played events c gain (n + 1)
      ({ s.1 with eventIndex := (pull s.1.mappings events s.1.eventCount n (s.1.eventCount + 2)
          (some events[s.1.eventIndex]) s.1.eventIndex s.2).1 },
        (pull s.1.mappings events s.1.eventCount n (s.1.eventCount + 2)
          (some events[s.1.eventIndex]) s.1.eventIndex s.2).2) := by
  obtain ⟨past, hpast, hbefore, hgain⟩ := h.applied
  have hrest := hs.sublist (List.drop_sublist s.1.eventIndex events)
  have hcons := List.drop_eq_getElem_cons hlt
  have hfuel : (events.drop s.1.eventIndex).length + 1 < events.length + 2 := by
    rw [List.length_drop]
    omega
  obtain ⟨i, hpull, hdrop⟩ := pull_spec s.1.mappings s.2 hnow hfuel
  rw [← h.eventCount] at hpull
  simp only [hpull]
  refine ⟨h.mappings, h.eventCount, ?_, past ++ (events.drop s.1.eventIndex).takeWhile
    (fun e => decide (e.frameOffset = (n : ℤ))), ?_, ?_, ?_⟩
  · intro e he
    simp only [hdrop] at he
    have hlater := dropWhile_later hrest h.later e (List.mem_of_mem_tail he)
    push_cast
    omega
  · simp only [hdrop]
    rw [hpast, List.append_assoc]
    congr 1
    rw [hcons]
    exact unskipped_group hnow
  · intro e he
    rcases List.mem_append.mp he with he | he
    · have hpastlt := hbefore e he
      omega
    · have hon := List.mem_takeWhile_imp he
      simp only [decide_eq_true_eq] at hon
      push_cast
      omega
  · simp only [List.foldl_append, ← hgain, h.mappings]
    rw [hcons, List.takeWhile_cons, if_pos (decide_eq_true hnow), List.foldl_cons,
      List.foldl_cons, applyMappings_twice]

theorem played_step {c : MixerControlConnection P} {gain : Gains} {n : ℕ}
    {s : MixerControlConnection P × Gains}
    (hs : events.Pairwise fun a b => a.frameOffset ≤ b.frameOffset)
    (h : Played events c gain n s) :
    Played events c gain (n + 1) (s.1.updateGains events n s.2) := by
  have hcount := h.eventCount
  unfold updateGains
  by_cases hlt : s.1.eventIndex < events.length
  · rw [if_pos ⟨by omega, by omega⟩, List.getElem?_eq_getElem hlt]
    by_cases hnow : events[s.1.eventIndex].frameOffset = n
    · exact played_due hs h hlt hnow
    · have hpull : pull s.1.mappings events s.1.eventCount n (s.1.eventCount + 2)
          (some events[s.1.eventIndex]) s.1.eventIndex s.2 = (s.1.eventIndex, s.2) := by
        rw [pull, if_neg hnow]
      simp only [hpull]
      apply h.next
      -- the first event left is later, and the others no earlier than it
      have hrest := hs.sublist (List.drop_sublist s.1.eventIndex events)
      have hcons := List.drop_eq_getElem_cons hlt
      rw [hcons] at hrest ⊢
      have hfirst := h.later _ (hcons ▸ List.mem_cons_self)
      intro e he
      rcases List.mem_cons.mp he with rfl | he
      · push_cast
        omega
      · have hle := (List.pairwise_cons.mp hrest).1 e he
        push_cast
        omega
  · rw [if_neg (fun hc => hlt (by omega))]
    apply h.next
    intro e he
    rw [List.drop_eq_nil_of_le (not_lt.mp hlt)] at he
    cases he

theorem played_play (c : MixerControlConnection P) (gain : Gains) (n : ℕ)
    (hs : events.Pairwise fun a b => a.frameOffset ≤ b.frameOffset)
    (h : ∀ e ∈ events, 0 ≤ e.frameOffset) : Played events c gain n (c.play events n gain) := by
  induction n with
  | zero => exact played_initial c gain h
  | succ n ih =>
    unfold play at ih ⊢
    rw [List.range_succ, List.foldl_append]
    exact played_step hs ih

/-- Behind an event before the period nothing is ever read. -/
theorem play_of_neg {e : Midi.Event} {rest : List Midi.Event} (c : MixerControlConnection P)
    (gain : Gains) (n : ℕ) (he : e.frameOffset < 0) :
    c.play (e :: rest) n gain = (c.process (e :: rest), gain) := by
  induction n with
  | zero => rfl
  | succ n ih =>
    unfold play at ih ⊢
    rw [List.range_succ, List.foldl_append, ih]
    have hne : ¬ e.frameOffset = (n : ℤ) := by omega
    simp [updateGains, process, pull, hne]

/-- After frame `f` exactly the events heard up to `f` have been applied. -/
theorem play_gains (c : MixerControlConnection P) (gain : Gains) (f : ℕ)
    (hs : events.Pairwise fun a b => a.frameOffset ≤ b.frameOffset) :
    (c.play events (f + 1) gain).2 =
      (upTo f (heard events)).foldl (applyMappings c.mappings) gain := by
  have hclosed : (∀ e ∈ events, 0 ≤ e.frameOffset) → (c.play events (f + 1) gain).2 =
      (upTo f (unskipped events)).foldl (applyMappings c.mappings) gain := by
    intro h
    have hp := played_play c gain (f + 1) hs h
    obtain ⟨past, hpast, hbefore, hgain⟩ := hp.applied
    have hupTo : upTo f (unskipped events) = past := by
      unfold upTo
      rw [hpast, List.filter_append, List.filter_eq_self.mpr, List.filter_eq_nil_iff.mpr,
        List.append_nil]
      · intro e he
        have := hp.later e (unskipped_subset _ he)
        push_cast at this
        simp only [decide_eq_true_eq]
        omega
      · intro e he
        have := hbefore e he
        push_cast at this
        simp only [decide_eq_true_eq]
        omega
    rw [hupTo, hgain]
  cases events with
  | nil => exact hclosed (by simp)
  | cons e rest =>
    simp only [heard]
    split
    · rename_i hneg
      rw [play_of_neg c gain _ hneg]
      rfl
    · rename_i hneg
      apply hclosed
      intro x hx
      rcases List.mem_cons.mp hx with rfl | hx
      · exact not_lt.mp hneg
      · exact (not_lt.mp hneg).trans ((List.pairwise_cons.mp hs).1 x hx)

/-- The gains after frame `f` are those of the last control changes exactly when no mapping loses
its last one to a skipped event. -/
theorem play_correct_iff (c : MixerControlConnection P) (events : List Midi.Event) (gain : Gains)
    (f : ℕ) (hd : DistinctCells c.mappings)
    (hs : events.Pairwise fun a b => a.frameOffset ≤ b.frameOffset) :
    (∀ m ∈ c.mappings, (c.play events (f + 1) gain).2 m.input m.output =
      (controlValue m.cc (upTo f events)).getD (gain m.input m.output)) ↔
    ∀ m ∈ c.mappings, (controlValue m.cc (upTo f (heard events))).getD (gain m.input m.output) =
      (controlValue m.cc (upTo f events)).getD (gain m.input m.output) := by
  rw [play_gains c gain f hs]
  refine forall_congr' fun m => forall_congr' fun hm => ?_
  rw [foldl_applyMappings_cell _ gain hd hm]

/-- A controller connection of one mapping, and two of its control changes, five frames apart. -/
def oneMapping : MixerControlConnection ℕ := ⟨[⟨7, 0, 0⟩], ⟨0, 0⟩, 0, 0⟩

def controlAt (frame : ℕ) (value : UInt8) : Midi.Event where
  pos := ⟨⟨1, 0, 1⟩, Nat.one_pos⟩
  frameOffset := frame
  data := ⟨Midi.TYPE_CONTROL, 7, value, 0⟩

def silent : Gains := fun _ _ => 0

theorem play_correct_one_frame :
    (oneMapping.play [controlAt 0 10, controlAt 0 20] 6 silent).2 0 0 =
      (controlValue 7 (upTo 5 [controlAt 0 10, controlAt 0 20])).getD (silent 0 0) :=
  (play_correct_iff oneMapping [controlAt 0 10, controlAt 0 20] silent 5
    (List.pairwise_singleton _ _) (List.pairwise_pair.mpr le_rfl)).mpr (by decide +kernel)
    _ List.mem_cons_self

/-- The second of two control changes is never applied. -/
theorem play_incorrect :
    DistinctCells oneMapping.mappings ∧
    [controlAt 0 10, controlAt 5 20].Pairwise (fun a b => a.frameOffset ≤ b.frameOffset) ∧
    ¬ ∀ m ∈ oneMapping.mappings,
      (oneMapping.play [controlAt 0 10, controlAt 5 20] 6 silent).2 m.input m.output =
        (controlValue m.cc (upTo 5 [controlAt 0 10, controlAt 5 20])).getD
          (silent m.input m.output) := by
  refine ⟨List.pairwise_singleton _ _, List.pairwise_pair.mpr (by decide), ?_⟩
  intro h
  exact absurd (h _ List.mem_cons_self) (by decide +kernel)

end Run

end MixerControlConnection

end Audio

end Bipscript
