import Bipscript.PortRuns

/-! Which runs of a MIDI output port leave a note hanging. -/
namespace Bipscript.PortRuns

open Midi Transition EventBuffer

/-- The note-off of a note-on that has been written is never recycled: it has been written too, is
in the buffer or is about to be pushed into it. -/
def NoStuck (s : State) : Prop :=
  ∀ x ∈ s.written, ∀ i, x.data.part = .on i →
    (∀ y ∈ s.discarded, y.data.part ≠ .off i) ∧
      ∃ y ∈ s.written ++ s.waiting, y.data.part = .off i

/-- The events of each call are orderly among those in the buffer, and no call recycles the note-off
of a note-on that has been written: a period does not start past it, and a reposition does not find
it in the buffer. -/
def Timely (s : State) (a : Act) : Prop :=
  Exact s a ∧
    match a with
    | .getNextEvent => ∀ pos nframes, s.process = .delivering true pos nframes →
        ∀ x ∈ s.buffer.fetched, x.frame pos < -256 → ∀ y ∈ s.written, Follows (key x) (key y)
    | .reposition => ∀ x ∈ s.buffer.pending, ∀ y ∈ s.written, Follows (key x) (key y)
    | _ => True

/-- No note-off has been recycled whose note-on has been written. -/
def Released (s : State) : Prop := ∀ x ∈ s.discarded, ∀ y ∈ s.written, Follows (key x) (key y)

theorem Invariant.noStuck {s : State} (h : Invariant s) (hr : Released s) : NoStuck s := by
  intro x hx i hon
  have hnone : ∀ y ∈ s.discarded, y.data.part ≠ .off i := fun y hy hoff => hr y hy x hx i hoff hon
  refine ⟨hnone, ?_⟩
  have hpart : Part.on i ∈ s.parts := List.mem_map.mpr ⟨x, by simp [hx], hon⟩
  obtain ⟨y, hy, hoff⟩ := List.mem_map.mp ((h.halves i).mp hpart)
  refine ⟨y, ?_, hoff⟩
  simp only [List.mem_append] at hy ⊢
  rcases hy with (hy | hy) | hy
  · exact Or.inl hy
  · exact absurd hoff (hnone y hy)
  · exact Or.inr hy

/-- A period recycles late events only. -/
theorem Released.fetch {s : State} {rolling : Bool} {pos : JackPosition} {nframes : ℕ}
    {r : Fetch Tagged} (h : Invariant s) (hreleased : Released s)
    (hp : s.process = .delivering rolling pos nframes) (ht : Timely s .getNextEvent)
    (hr : s.buffer.getNextEvent mul32 rolling pos nframes = r) : Released (s.fetch r) := by
  intro x hx y hy
  rcases List.mem_append.mp hx with hx | hx
  · rcases List.mem_append.mp hy with hy | hy
    · exact hreleased x hx y hy
    · rw [← hr] at hy
      obtain ⟨y', hy', hpos, hdata⟩ := event_of_getNextEvent (Option.mem_toList.mp hy)
      have hk : key y = key y' := by rw [key, hpos, hdata]; rfl
      rw [hk]
      exact h.past x hx y' (List.mem_append_left _ hy')
  · rcases List.mem_append.mp hy with hy | hy
    · have hlate := hx
      rw [← hr] at hlate
      obtain ⟨rfl, x', hx', hk, hframe⟩ := late_of_recycled hlate
      rw [← hk]
      exact ht.2 pos nframes hp x' hx' hframe y hy
    · exact h.recycled_follows hr hx (List.mem_append_left _ hy)

theorem Released.reposition {s : State} (hreleased : Released s) (ht : Timely s .reposition) :
    Released { s with
      buffer := s.buffer.recycleRemaining.1
      discarded := s.discarded ++ s.buffer.recycleRemaining.2 } := by
  intro x hx y hy
  rcases List.mem_append.mp hx with hx | hx
  · exact hreleased x hx y hy
  · exact ht.2 x (List.perm_append_comm.mem_iff.mp hx) y hy

theorem released_step {s t : State} {a : Act} (h : Invariant s ∧ Released s) (ha : Timely s a)
    (hs : Step s a t) : Invariant t ∧ Released t := by
  refine ⟨invariant_step h.1 ha.1 hs, ?_⟩
  cases hs with
  | schedule hadding hn => exact h.2
  | scheduleMessage hadding he => exact h.2
  | addEvent hadding hb => exact h.2
  | doProcess hp => exact h.2
  | getNextEvent hp => exact h.2.fetch h.1 hp ha rfl
  | reposition hp => exact h.2.reposition ha

/-- A quarter at the start of the first bar. -/
def quarter : Midi.Event × Midi.Event :=
  (Sink.newEvent 0 ⟨⟨1, 0, 4⟩, Position.four_pos⟩ 60 100 0x90 0,
    Sink.newEvent 0 ⟨⟨1, 1, 4⟩, by decide⟩ 60 0 0x80 0)

theorem scheduled_quarter : Scheduled [quarter] :=
  Or.inl ⟨0, ⟨60, 100, ⟨0, 1, 4⟩⟩, ⟨⟨1, 0, 4⟩, Position.four_pos⟩, 1, rfl⟩

/-- The note has been pushed, and the period that starts with it is under way. -/
def started : State where
  process := .delivering true barOne.toJackPosition 1024
  adding := []
  notes := 1
  buffer := ⟨tag 0 [quarter], []⟩
  written := []
  discarded := []

/-- The four steps up to there. -/
def startLabels : List Act :=
  [.schedule [quarter], .addEvent, .addEvent, .doProcess true barOne.toJackPosition 1024]

theorem orderly_quarter : Orderly (tag 0 [quarter]) := by
  refine ⟨by decide, ?_⟩
  intro x hx y hy i hon hoff
  obtain ⟨note, hnote, hxn, hyn⟩ := exists_of_halves hx hy hon hoff
  obtain rfl := List.mem_singleton.mp hnote
  rw [hxn, hyn]
  norm_num [quarter, Sink.newEvent, Duration.value]

theorem run_started : Run (restrict Timely Step) (State.initial []) startLabels started :=
  .stepL ⟨⟨orderly_quarter, trivial⟩, .schedule rfl scheduled_quarter⟩ <|
    .stepL ⟨⟨trivial, trivial⟩, .addEvent rfl rfl⟩ <|
    .stepL ⟨⟨trivial, trivial⟩, .addEvent rfl rfl⟩ <|
    .single ⟨⟨trivial, trivial⟩, .doProcess rfl⟩

/-- No note is stuck in a run whose steps are timely. -/
theorem noStuck_of_timely {labels : List Act} {s : State}
    (h : Run (restrict Timely Step) (State.initial []) labels s) : NoStuck s := by
  have hempty : Released (State.initial []) := by
    intro x hx
    cases hx
  have hs := h.invariant_restrict (I := fun s => Invariant s ∧ Released s)
    (fun hs ha hstep => released_step hs ha hstep) ⟨Invariant.empty, hempty⟩
  exact hs.1.noStuck hs.2

/-- The note-on is written, and the note-off stays in the buffer. -/
theorem noStuck_started :
    ∃ s, Run (restrict Timely Step) (State.initial []) (startLabels ++ [.getNextEvent]) s ∧
      Part.on 0 ∈ s.written.map (fun e => e.data.part) ∧ NoStuck s := by
  have htimely : Timely started .getNextEvent := by
    refine ⟨trivial, ?_⟩
    intro pos nframes hp x hx hlate y hy
    cases hy
  have hrun := run_started.append (.single ⟨htimely, .getNextEvent rfl⟩)
  exact ⟨_, hrun, by decide +kernel, noStuck_of_timely hrun⟩

/-- The period writes the note-on and ends, and a reposition recycles the note-off. -/
theorem not_noStuck :
    ∃ labels s, Run Step (State.initial []) labels s ∧ ¬ NoStuck s := by
  let first := started.fetch (started.buffer.getNextEvent mul32 true barOne.toJackPosition 1024)
  let second := first.fetch (first.buffer.getNextEvent mul32 true barOne.toJackPosition 1024)
  have hfirst : first.process = .delivering true barOne.toJackPosition 1024 :=
    if_pos (by decide +kernel)
  have hsecond : second.process = .idle := if_neg (by decide +kernel)
  have hrun : Run Step started [.getNextEvent, .getNextEvent, .reposition] _ :=
    .stepL (.getNextEvent rfl) <| .stepL (.getNextEvent hfirst) <| .single (.reposition hsecond)
  refine ⟨_, _, run_started.of_restrict.append hrun, ?_⟩
  have hon : Part.on 0 ∈ second.written.map (fun e => e.data.part) := by decide +kernel
  have hoff : Part.off 0 ∈ (second.discarded ++ second.buffer.recycleRemaining.2).map
      (fun e => e.data.part) := by decide +kernel
  obtain ⟨x, hx, hxon⟩ := List.mem_map.mp hon
  obtain ⟨y, hy, hyoff⟩ := List.mem_map.mp hoff
  intro h
  exact (h x hx 0 hxon).1 y hy hyoff

end Bipscript.PortRuns
