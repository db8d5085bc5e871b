import Bipscript.PortRuns

/-! A pattern's notes, from the sink through the port's buffer. -/
namespace Bipscript.PortRuns

open Midi Transition EventBuffer

/-- A note-off that has been written comes after its note-on, unless that has been recycled. -/
def OnFirst (s : State) : Prop :=
  ∀ before e after, s.written = before ++ e :: after → ∀ i, e.data.part = .off i →
    (∃ x ∈ before, x.data.part = .on i) ∨ ∃ x ∈ s.discarded, x.data.part = .on i

theorem Invariant.onFirst {s : State} (h : Invariant s) : OnFirst s := by
  intro before e after hw i hoff
  have hoffPart : Part.off i ∈ s.parts := by
    refine List.mem_map.mpr ⟨e, ?_, hoff⟩
    rw [hw]
    simp
  obtain ⟨x, hx, hon⟩ := List.mem_map.mp ((h.halves i).mpr hoffPart)
  have hline := h.line
  rw [hw, List.append_assoc, List.cons_append, List.map_append, List.map_cons] at hline
  have hlater := (List.pairwise_cons.mp (List.pairwise_append.mp hline).2.1).1
  -- the note-on is neither behind the note-off nor still waiting
  have hbehind : x ∉ after ++ s.waiting :=
    fun hmem => hlater (key x) (List.mem_map_of_mem hmem) i hoff hon
  rw [hw] at hx
  simp only [List.mem_append, List.mem_cons] at hx hbehind
  rcases hx with ((hx | rfl | hx) | hx) | hx
  · exact Or.inl ⟨x, hx, hon⟩
  · rw [hon] at hoff
    cases hoff
  · exact absurd (Or.inl hx) hbehind
  · exact Or.inr ⟨x, hx, hon⟩
  · exact absurd (Or.inr hx) hbehind

/-- The steps that only deliver what has been scheduled. -/
def Delivery : Act → Prop
  | .schedule _ | .scheduleMessage _ => False
  | _ => True

theorem exact_of_delivery {s : State} {a : Act} (h : Delivery a) : Exact s a := by
  cases a with
  | schedule notes => exact h.elim
  | scheduleMessage e => exact h.elim
  | _ => trivial

/-- In every run that delivers the events of `notes` through an empty buffer, no note-off leaves
before its note-on. -/
def DeliversInOrder (notes : List (Midi.Event × Midi.Event)) : Prop :=
  ∀ labels s, Run (restrict (fun _ a => Delivery a) Step) (State.initial notes) labels s → OnFirst s

theorem deliversInOrder_of_orderly {notes : List (Midi.Event × Midi.Event)}
    (h : Orderly (tag 0 notes)) : DeliversInOrder notes := by
  intro labels s hrun
  have hinv := hrun.invariant_restrict (I := Invariant)
    (fun hs ha hstep => invariant_step hs (exact_of_delivery ha) hstep) (Invariant.initial h)
  exact hinv.onFirst

/-- The products of divisions that the sums and the comparisons of a pattern's events form. -/
structure Denominators (unset : ℤ) (notes : List PatternNote) (position : Position)
    (channel : UInt8) : Prop where
  sums : ∀ note ∈ notes, Sink.Products position note
  comparisons : ∀ events, Sink.schedule unset notes position channel = .ok (some events) →
    (Sink.added events).Pairwise fun x y => x.pos.division * y.pos.division < 2 ^ 32

/-- The two events of each note are added where exact arithmetic puts them, and delivered note-on
first. -/
def Faithful (unset : ℤ) (notes : List PatternNote) (position : Position) (channel : UInt8) :
    Prop :=
  ∃ events, Sink.schedule unset notes position channel = .ok (some events) ∧
    (Sink.added events).length = 2 * notes.length ∧
    List.Forall₂ (Sink.Placed position) notes events ∧ DeliversInOrder events

theorem map_tag (k : ℕ) (notes : List (Midi.Event × Midi.Event)) :
    (tag k notes).map (fun e => e.pos) = (Sink.added notes).map fun e => e.pos := by
  induction notes generalizing k with
  | nil => rfl
  | cons note notes ih =>
    simp only [tag, Sink.added, List.flatMap_cons, List.map_cons, List.cons_append,
      List.nil_append, ih (k + 1), tagged]

/-- Added where they belong, no note's events are the wrong way round. -/
theorem spans_of_placed {position : Position} {notes : List PatternNote}
    {events : List (Midi.Event × Midi.Event)}
    (h : List.Forall₂ (Sink.Placed position) notes events) :
    ∀ e ∈ events, e.1.pos.value ≤ e.2.pos.value := by
  induction h with
  | nil => simp
  | cons hplaced _ ih =>
    refine List.forall_mem_cons.mpr ⟨?_, ih⟩
    rw [hplaced.on, hplaced.off]
    exact le_add_of_nonneg_right (Duration.value_nonneg _)

theorem inOrder_refl (e : Event) : e.InOrder e := Or.inr (Or.inl rfl)

instance : Std.Symm (Bipscript.Event.InOrder (α := Tagged)) where
  symm _ _ h := Duration.InOrder.symm h

/-- The events of notes that are where they belong are orderly. -/
theorem orderly_tag {position : Position} {notes : List PatternNote}
    {events : List (Midi.Event × Midi.Event)}
    (hplaced : List.Forall₂ (Sink.Placed position) notes events)
    (hbounded : ∀ e ∈ Sink.added events, Duration.Bounded e.pos.toDuration)
    (hproducts : (Sink.added events).Pairwise fun x y =>
      x.pos.division * y.pos.division < 2 ^ 32) : Orderly (tag 0 events) where
  inOrder := by
    have hadded : ((Sink.added events).map fun e => e.pos).Pairwise
        fun p q => Duration.InOrder p.toDuration q.toDuration := by
      refine List.pairwise_map.mpr ((List.Pairwise.imp_of_mem ?_) hproducts)
      intro x y hx hy hxy
      exact Duration.inOrder_of_division (hbounded x hx) (hbounded y hy) hxy.le
    rw [← map_tag 0, List.pairwise_map] at hadded
    have hpairs : (tag 0 events).Pairwise Bipscript.Event.InOrder := hadded
    exact hpairs.forall_of_forall fun e _ => inOrder_refl e
  spans := by
    intro x hx y hy i hon hoff
    obtain ⟨note, hnote, hxn, hyn⟩ := exists_of_halves hx hy hon hoff
    rw [hxn, hyn]
    exact spans_of_placed hplaced note hnote

/-- A pattern's events are where exact arithmetic puts them, and are delivered note-on first, iff
the numerators and the bars fit along with the denominators. -/
theorem faithful_iff (unset : ℤ) (notes : List PatternNote) (position : Position)
    (channel : UInt8) (hc : 1 ≤ channel ∧ channel ≤ 16)
    (hposition : Duration.Words position.toDuration) (hnotes : ∀ note ∈ notes, note.Stored)
    (hproducts : Denominators unset notes position channel) :
    Faithful unset notes position channel ↔ ∀ note ∈ notes, Sink.Fits position note := by
  obtain ⟨events, hevents, hbounded, hiff⟩ := Sink.exists_schedule unset hc
    hposition.division fun note hnote => ⟨hnotes note hnote, hproducts.sums note hnote⟩
  constructor
  · rintro ⟨events', hevents', -, hplaced, -⟩
    rw [hevents] at hevents'
    obtain rfl : events = events' := Option.some.inj (Except.ok.inj hevents')
    exact hiff.mp hplaced
  · intro hfits
    have hplaced := hiff.mpr hfits
    refine ⟨events, hevents, ?_, hplaced, ?_⟩
    · rw [Sink.length_added, hplaced.length_eq]
    · exact deliversInOrder_of_orderly
        (orderly_tag hplaced hbounded (hproducts.comparisons events hevents))

/-- A note without length and a quarter, both at the start of the pattern. -/
def shortPattern : List PatternNote :=
  [⟨⟨60, 100, ⟨0, 0, 1⟩⟩, ⟨⟨1, 0, 4⟩, by decide⟩⟩, ⟨⟨62, 100, ⟨0, 1, 4⟩⟩, ⟨⟨1, 0, 4⟩, by decide⟩⟩]

theorem comparisons_of_divisions {unset : ℤ} {notes : List PatternNote} {position : Position}
    {channel : UInt8} (divisions : List ℕ)
    (h : (Sink.schedule unset notes position channel).map (Option.map fun events =>
      (Sink.added events).map fun e => e.pos.division) = .ok (some divisions))
    (hd : divisions.Pairwise fun a b => a * b < 2 ^ 32) :
    ∀ events, Sink.schedule unset notes position channel = .ok (some events) →
      (Sink.added events).Pairwise fun x y => x.pos.division * y.pos.division < 2 ^ 32 := by
  intro events he
  rw [he] at h
  have hmap : (Sink.added events).map (fun e => e.pos.division) = divisions :=
    Option.some.inj (Except.ok.inj h)
  rw [← hmap] at hd
  exact List.pairwise_map.mp hd

theorem faithful_short : Faithful 0 shortPattern ⟨⟨1, 0, 4⟩, by decide⟩ 1 := by
  refine (faithful_iff 0 shortPattern ⟨⟨1, 0, 4⟩, by decide⟩ 1 (by decide) ?_ ?_ ?_).mpr ?_
  · exact ⟨by decide, by decide, by decide, by decide⟩
  · refine List.forall_mem_cons.mpr ⟨?_, List.forall_mem_singleton.mpr ?_⟩
    · exact ⟨⟨by decide, by decide, by decide, by decide⟩,
        ⟨by decide, by decide, by decide, by decide⟩⟩
    · exact ⟨⟨by decide, by decide, by decide, by decide⟩,
        ⟨by decide, by decide, by decide, by decide⟩⟩
  · refine ⟨?_, comparisons_of_divisions [4, 4, 4, 4] (by decide +kernel) (by decide)⟩
    refine List.forall_mem_cons.mpr ⟨?_, List.forall_mem_singleton.mpr ?_⟩
    · exact ⟨by decide, by decide +kernel⟩
    · exact ⟨by decide, by decide +kernel⟩
  · refine List.forall_mem_cons.mpr ⟨?_, List.forall_mem_singleton.mpr ?_⟩
    · exact ⟨by decide, by norm_num [Duration.value], by decide +kernel,
        by norm_num [Duration.value]⟩
    · exact ⟨by decide, by norm_num [Duration.value], by decide +kernel,
        by norm_num [Duration.value]⟩

/-- One note just before the end of a bar, in 98304ths, in a pattern that starts just before the end
of a bar, in 32768ths. -/
def latePattern : List PatternNote := [⟨⟨60, 100, ⟨0, 1, 4⟩⟩, ⟨⟨1, 98303, 98304⟩, by decide⟩⟩]

/-- The product of the divisions is `3 * 2 ^ 30`, but the numerator of the sum is twice that, less
`2 ^ 17`. -/
theorem not_faithful :
    (Duration.Words (Duration.mk 1 32767 32768) ∧ (∀ note ∈ latePattern, note.Stored) ∧
      Denominators 0 latePattern ⟨⟨1, 32767, 32768⟩, by decide⟩ 1) ∧
    ¬ Faithful 0 latePattern ⟨⟨1, 32767, 32768⟩, by decide⟩ 1 := by
  have hproducts : Denominators 0 latePattern ⟨⟨1, 32767, 32768⟩, by decide⟩ 1 := by
    refine ⟨List.forall_mem_singleton.mpr ⟨by decide, by decide +kernel⟩, ?_⟩
    exact comparisons_of_divisions [8192, 32768] (by decide +kernel) (by decide)
  have hwords : Duration.Words (Duration.mk 1 32767 32768) :=
    ⟨by decide, by decide, by decide, by decide⟩
  have hstored : ∀ note ∈ latePattern, note.Stored :=
    List.forall_mem_singleton.mpr
      ⟨⟨by decide, by decide, by decide, by decide⟩, ⟨by decide, by decide, by decide, by decide⟩⟩
  have hchannel : (1 : UInt8) ≤ 1 ∧ (1 : UInt8) ≤ 16 := by decide
  refine ⟨⟨hwords, hstored, hproducts⟩, ?_⟩
  rintro ⟨events, hevents, -, hplaced, -⟩
  obtain ⟨events', hevents', -, hiff⟩ := Sink.exists_schedule 0 hchannel
    hwords.division fun note hnote => ⟨hstored note hnote, hproducts.sums note hnote⟩
  rw [hevents] at hevents'
  obtain rfl : events = events' := Option.some.inj (Except.ok.inj hevents')
  have hfits := (hiff.mp hplaced) _ (List.mem_singleton_self _)
  exact absurd hfits.start (by decide)

end Bipscript.PortRuns
