import Bipscript.EventOrder
import Bipscript.MidiSink
import Bipscript.Library.Run

/-! Notes on their way through a MIDI output port, over the steps of both threads. -/
namespace Bipscript.PortRuns

open Midi Transition EventBuffer

/-- Which half of which note an event is, if it is one. -/
inductive Part
  | on (note : ℕ) | off (note : ℕ) | message
deriving DecidableEq

structure Tagged where
  data : EventData
  part : Part
deriving DecidableEq

abbrev Event := Bipscript.Event Tagged

def tagged (part : Part) (e : Midi.Event) : Event := ⟨e.pos, e.frameOffset, ⟨e.data, part⟩⟩

/-- The events of one call, its notes numbered from `notes` on. -/
def tag : ℕ → List (Midi.Event × Midi.Event) → List Event
  | _, [] => []
  | notes, note :: rest =>
    tagged (.on notes) note.1 :: tagged (.off notes) note.2 :: tag (notes + 1) rest

/-- The process thread is between periods or in the loop of `doProcess`. -/
inductive ProcessPC
  | idle
  | delivering (rolling : Bool) (pos : JackPosition) (nframes : ℕ)

/-- `adding` are the events that the script's call of `schedule` has yet to push, `notes` the notes
scheduled so far. The last two fields keep account of what has been written to the JACK buffer and
of what has been recycled without. -/
structure State where
  process : ProcessPC
  adding : List Event
  notes : ℕ
  buffer : EventBuffer Tagged
  written : List Event
  discarded : List Event

namespace State

/-- What a call of `getNextEvent` leads to in `doProcess`. -/
def fetch (r : Fetch Tagged) (s : State) : State :=
  { s with
    process := if r.event.isSome then s.process else .idle
    buffer := r.buffer
    written := s.written ++ r.event.toList
    discarded := s.discarded ++ r.recycled }

/-- A new port, with the events of a call still to push. -/
def initial (notes : List (Midi.Event × Midi.Event)) : State where
  process := .idle
  adding := tag 0 notes
  notes := notes.length
  buffer := .empty
  written := []
  discarded := []

/-- Not yet written or recycled. -/
def waiting (s : State) : List Event := s.buffer.pending ++ s.adding

def parts (s : State) : List Part :=
  (s.written ++ s.discarded ++ s.waiting).map fun e => e.data.part

end State

inductive Act
  | schedule (notes : List (Midi.Event × Midi.Event))
  | scheduleMessage (e : Midi.Event)
  | addEvent
  | doProcess (rolling : Bool) (pos : JackPosition) (nframes : ℕ)
  | getNextEvent
  | reposition

/-- What a call of `schedule` adds, whatever it is given. -/
def Scheduled (notes : List (Midi.Event × Midi.Event)) : Prop :=
  (∃ unset note position channel,
    (Sink.scheduleOne unset note position channel).map (Option.map fun e => [e]) =
      .ok (some notes)) ∨
    ∃ unset pattern position channel,
      Sink.schedule unset pattern position channel = .ok (some notes)

/-- The steps of both threads. A push to the full queue is tried again, so it is not a step; a call
of the process thread into the buffer is one, a push during it being as one before or after it. -/
inductive Step : State → Act → State → Prop
  | schedule {s : State} {notes : List (Midi.Event × Midi.Event)} (ha : s.adding = [])
      (hn : Scheduled notes) :
      Step s (.schedule notes) { s with
        adding := tag s.notes notes, notes := s.notes + notes.length }
  | scheduleMessage {s : State} {unset : ℤ} {mesg : Message} {position : Position}
      {channel : UInt8} {e : Midi.Event} (ha : s.adding = [])
      (he : Sink.scheduleMessage unset mesg position channel = .ok e) :
      Step s (.scheduleMessage e) { s with adding := [tagged .message e] }
  | addEvent {s : State} {e : Event} {rest : List Event} {buffer : EventBuffer Tagged}
      (ha : s.adding = e :: rest) (hb : s.buffer.addEvent e = some buffer) :
      Step s .addEvent { s with adding := rest, buffer := buffer }
  | doProcess {s : State} {rolling : Bool} {pos : JackPosition} {nframes : ℕ}
      (hp : s.process = .idle) :
      Step s (.doProcess rolling pos nframes) { s with process := .delivering rolling pos nframes }
  | getNextEvent {s : State} {rolling : Bool} {pos : JackPosition} {nframes : ℕ}
      (hp : s.process = .delivering rolling pos nframes) :
      Step s .getNextEvent (s.fetch (s.buffer.getNextEvent mul32 rolling pos nframes))
  | reposition {s : State} (hp : s.process = .idle) :
      Step s .reposition { s with
        buffer := s.buffer.recycleRemaining.1
        discarded := s.discarded ++ s.buffer.recycleRemaining.2 }

/-- A note-off is not followed by its own note-on. -/
def Follows (a b : Position × Tagged) : Prop := ∀ i, a.2.part = .off i → b.2.part ≠ .on i

/-- The events in `l` compare as their positions do, and no note ends before it starts. -/
structure Orderly (l : List Event) : Prop where
  inOrder : ∀ x ∈ l, ∀ y ∈ l, x.InOrder y
  spans : ∀ x ∈ l, ∀ y ∈ l, ∀ i, x.data.part = .on i → y.data.part = .off i →
    x.pos.value ≤ y.pos.value

/-- What every step keeps: the events stand in a line in which no note-off is followed by its
note-on, each note is there with both halves or not at all, and when a note-off has been discarded
its note-on has left. -/
structure Invariant (s : State) : Prop where
  sorted : EventList.Sorted s.buffer.sortedEvents
  orderly : Orderly s.waiting
  line : ((s.written ++ s.waiting).map key).Pairwise Follows
  halves : ∀ i, .on i ∈ s.parts ↔ .off i ∈ s.parts
  numbered : ∀ i, .on i ∈ s.parts → i < s.notes
  past : ∀ x ∈ s.discarded, ∀ y ∈ s.waiting, Follows (key x) (key y)

theorem Orderly.of_key {l l' : List Event} (h : Orderly l)
    (hsub : ∀ x ∈ l', ∃ y ∈ l, key x = key y) : Orderly l' where
  inOrder := by
    intro x hx y hy
    obtain ⟨x', hx', hkx⟩ := hsub x hx
    obtain ⟨y', hy', hky⟩ := hsub y hy
    have hin := h.inOrder x' hx' y' hy'
    unfold Event.InOrder at hin ⊢
    rwa [show x.pos = x'.pos from congrArg Prod.fst hkx,
      show y.pos = y'.pos from congrArg Prod.fst hky]
  spans := by
    intro x hx y hy i hon hoff
    obtain ⟨x', hx', hkx⟩ := hsub x hx
    obtain ⟨y', hy', hky⟩ := hsub y hy
    rw [show x.pos = x'.pos from congrArg Prod.fst hkx,
      show y.pos = y'.pos from congrArg Prod.fst hky]
    rw [show x.data = x'.data from congrArg Prod.snd hkx] at hon
    rw [show y.data = y'.data from congrArg Prod.snd hky] at hoff
    exact h.spans x' hx' y' hy' i hon hoff

theorem Orderly.mono {l l' : List Event} (h : Orderly l) (hsub : ∀ x ∈ l', x ∈ l) : Orderly l' :=
  h.of_key fun x hx => ⟨x, hsub x hx, rfl⟩

theorem Orderly.mul32 {b : EventBuffer Tagged} (h : Orderly b.pending) (rolling : Bool)
    (pos : JackPosition) (nframes : ℕ) :
    b.getNextEvent mul32 rolling pos nframes = b.getNextEvent (· * ·) rolling pos nframes :=
  getNextEvent_mul32 h.inOrder rolling pos nframes

/-- A note-on may be sorted in ahead of its note-off, which is not earlier. -/
theorem Orderly.allows {l : List Event} (h : Orderly l) : Allows Follows l := by
  intro x hx y hy hlt _ i hoff hon
  exact absurd (h.spans x hx y hy i hon hoff) (not_le.mpr hlt)

theorem parts_perm {s t : State}
    (h : ((s.written ++ s.discarded ++ s.waiting).map key).Perm
      ((t.written ++ t.discarded ++ t.waiting).map key)) : s.parts.Perm t.parts := by
  have hparts := h.map fun k => k.2.part
  rw [List.map_map, List.map_map] at hparts
  exact hparts

/-- A step that only moves events along. -/
theorem Invariant.moved {s t : State} (h : Invariant s) (hn : t.notes = s.notes)
    (hp : t.parts.Perm s.parts) (hsorted : EventList.Sorted t.buffer.sortedEvents)
    (hwaiting : ∀ x ∈ t.waiting, ∃ y ∈ s.waiting, key x = key y)
    (hline : ((t.written ++ t.waiting).map key).Pairwise Follows)
    (hpast : ∀ x ∈ t.discarded, ∀ y ∈ t.waiting, Follows (key x) (key y)) : Invariant t where
  sorted := hsorted
  orderly := h.orderly.of_key hwaiting
  line := hline
  halves := by
    intro i
    rw [hp.mem_iff, hp.mem_iff]
    exact h.halves i
  numbered := by
    intro i hi
    rw [hn]
    exact h.numbered i (hp.mem_iff.mp hi)
  past := hpast

/-- The parts of the events of one call. -/
theorem mem_tag {k : ℕ} {notes : List (Midi.Event × Midi.Event)} {part : Part} :
    part ∈ (tag k notes).map (fun e => e.data.part) ↔
      ∃ i, k ≤ i ∧ i < k + notes.length ∧ (part = .on i ∨ part = .off i) := by
  induction notes generalizing k with
  | nil =>
    constructor
    · intro h
      cases h
    · rintro ⟨i, hk, hlt, -⟩
      simp only [List.length_nil] at hlt
      omega
  | cons note notes ih =>
    simp only [tag, tagged, List.map_cons, List.mem_cons, ih, List.length_cons]
    constructor
    · rintro (rfl | rfl | ⟨i, hk, hlt, hpart⟩)
      · exact ⟨k, le_rfl, by omega, Or.inl rfl⟩
      · exact ⟨k, le_rfl, by omega, Or.inr rfl⟩
      · exact ⟨i, by omega, by omega, hpart⟩
    · rintro ⟨i, hk, hlt, hpart⟩
      rcases Nat.eq_or_lt_of_le hk with rfl | hk
      · rcases hpart with rfl | rfl
        · exact Or.inl rfl
        · exact Or.inr (Or.inl rfl)
      · exact Or.inr (Or.inr ⟨i, hk, by omega, hpart⟩)

/-- The two halves of a note are those of one scheduled. -/
theorem exists_of_halves {k i : ℕ} {notes : List (Midi.Event × Midi.Event)} {x y : Event}
    (hx : x ∈ tag k notes) (hy : y ∈ tag k notes) (hon : x.data.part = .on i)
    (hoff : y.data.part = .off i) : ∃ note ∈ notes, x.pos = note.1.pos ∧ y.pos = note.2.pos := by
  induction notes generalizing k with
  | nil => cases hx
  | cons note notes ih =>
    -- what follows has larger numbers
    have hlater : ∀ z ∈ tag (k + 1) notes, z.data.part ≠ .on k ∧ z.data.part ≠ .off k := by
      intro z hz
      obtain ⟨j, hj, -, hpart⟩ := mem_tag.mp (List.mem_map_of_mem hz)
      constructor
      · intro he
        rcases hpart with hpart | hpart
        · have := Part.on.inj (he.symm.trans hpart)
          omega
        · cases he.symm.trans hpart
      · intro he
        rcases hpart with hpart | hpart
        · cases he.symm.trans hpart
        · have := Part.off.inj (he.symm.trans hpart)
          omega
    simp only [tag, List.mem_cons] at hx hy
    rcases hx with rfl | rfl | hx
    · obtain rfl : k = i := Part.on.inj hon
      rcases hy with rfl | rfl | hy
      · cases hoff
      · exact ⟨note, List.mem_cons_self, rfl, rfl⟩
      · exact absurd hoff (hlater y hy).2
    · cases hon
    · rcases hy with rfl | rfl | hy
      · cases hoff
      · obtain rfl : k = i := Part.off.inj hoff
        exact absurd hon (hlater x hx).1
      · obtain ⟨note, hnote, he⟩ := ih hx hy
        exact ⟨note, List.mem_cons_of_mem _ hnote, he⟩

theorem tag_pairwise (k : ℕ) (notes : List (Midi.Event × Midi.Event)) :
    ((tag k notes).map key).Pairwise Follows := by
  induction notes generalizing k with
  | nil => exact List.Pairwise.nil
  | cons note notes ih =>
    refine List.pairwise_cons.mpr ⟨?_, List.pairwise_cons.mpr ⟨?_, ih (k + 1)⟩⟩
    · rintro b - i hoff
      cases hoff
    · intro b hb i hoff hon
      obtain rfl : k = i := Part.off.inj hoff
      obtain ⟨e, he, rfl⟩ := List.mem_map.mp hb
      have hmem : Part.on k ∈ (tag (k + 1) notes).map (fun e => e.data.part) :=
        List.mem_map.mpr ⟨e, he, hon⟩
      obtain ⟨j, hj, -, hpart | hpart⟩ := mem_tag.mp hmem
      · have := Part.on.inj hpart
        omega
      · cases hpart

/-- The script's call makes new events. -/
theorem Invariant.add {s : State} {new : List Event} {notes : ℕ} (h : Invariant s)
    (ha : s.adding = []) (hle : s.notes ≤ notes) (horderly : Orderly (s.buffer.pending ++ new))
    (hline : (new.map key).Pairwise Follows)
    (hhalves : ∀ i, .on i ∈ new.map (fun e => e.data.part) ↔
      .off i ∈ new.map (fun e => e.data.part))
    (hnumbered : ∀ i, .on i ∈ new.map (fun e => e.data.part) → s.notes ≤ i ∧ i < notes) :
    Invariant { s with adding := new, notes := notes } := by
  have hwaiting : s.waiting = s.buffer.pending := by rw [State.waiting, ha, List.append_nil]
  have hparts : State.parts { s with adding := new, notes := notes } =
      s.parts ++ new.map (fun e => e.data.part) := by
    rw [State.parts, State.parts, hwaiting, State.waiting, ← List.map_append, List.append_assoc,
      List.append_assoc, List.append_assoc]
  -- an old event is no half of a new note
  have hfresh : ∀ x ∈ s.written ++ s.discarded ++ s.waiting, ∀ y ∈ new,
      Follows (key x) (key y) := by
    intro x hx y hy i hoff hon
    have hold := h.numbered i ((h.halves i).mpr (List.mem_map.mpr ⟨x, hx, hoff⟩))
    have hnew := hnumbered i (List.mem_map.mpr ⟨y, hy, hon⟩)
    omega
  refine ⟨h.sorted, horderly, ?_, ?_, ?_, ?_⟩
  · have hold := h.line
    rw [hwaiting] at hold
    change ((s.written ++ (s.buffer.pending ++ new)).map key).Pairwise Follows
    rw [← List.append_assoc, List.map_append]
    refine List.pairwise_append.mpr ⟨hold, hline, ?_⟩
    intro a hmem b hb
    obtain ⟨x, hx, rfl⟩ := List.mem_map.mp hmem
    obtain ⟨y, hy, rfl⟩ := List.mem_map.mp hb
    apply hfresh x _ y hy
    rw [hwaiting]
    simp only [List.mem_append] at hx ⊢
    tauto
  · intro i
    rw [hparts, List.mem_append, List.mem_append, h.halves i, hhalves i]
  · intro i hi
    rw [hparts] at hi
    rcases List.mem_append.mp hi with hi | hi
    · exact (h.numbered i hi).trans_le hle
    · exact (hnumbered i hi).2
  · intro x hx y hy
    rcases List.mem_append.mp hy with hy | hy
    · exact h.past x hx y (List.mem_append_left _ hy)
    · exact hfresh x (by simp [hx]) y hy

/-- Notes are numbered as they come. -/
theorem Invariant.schedule {s : State} {notes : List (Midi.Event × Midi.Event)} (h : Invariant s)
    (ha : s.adding = []) (horderly : Orderly (s.buffer.pending ++ tag s.notes notes)) :
    Invariant { s with adding := tag s.notes notes, notes := s.notes + notes.length } := by
  refine h.add ha (Nat.le_add_right _ _) horderly (tag_pairwise _ _) ?_ ?_
  · intro i
    simp [mem_tag]
  · intro i hi
    obtain ⟨j, hj, hlt, hpart | hpart⟩ := mem_tag.mp hi
    · obtain rfl := Part.on.inj hpart
      exact ⟨hj, hlt⟩
    · cases hpart

theorem Invariant.scheduleMessage {s : State} {e : Midi.Event} (h : Invariant s)
    (ha : s.adding = []) (horderly : Orderly (s.buffer.pending ++ [tagged .message e])) :
    Invariant { s with adding := [tagged .message e] } := by
  refine h.add ha (le_refl s.notes) horderly (List.pairwise_singleton _ _) ?_ ?_
  · intro i
    simp [tagged]
  · intro i hi
    simp [tagged] at hi

theorem Invariant.empty : Invariant (State.initial []) where
  sorted := List.Pairwise.nil
  orderly := ⟨by simp [State.waiting, State.initial, tag, EventBuffer.empty, pending],
    by simp [State.waiting, State.initial, tag, EventBuffer.empty, pending]⟩
  line := List.Pairwise.nil
  halves := by simp [State.parts, State.waiting, State.initial, tag, EventBuffer.empty, pending]
  numbered := by simp [State.parts, State.waiting, State.initial, tag, EventBuffer.empty, pending]
  past := by simp [State.initial]

theorem Invariant.initial {notes : List (Midi.Event × Midi.Event)} (h : Orderly (tag 0 notes)) :
    Invariant (State.initial notes) := by
  have hadd := Invariant.schedule Invariant.empty (s := State.initial []) rfl h
  have hlen : 0 + notes.length = notes.length := Nat.zero_add _
  change Invariant { State.initial notes with notes := 0 + notes.length } at hadd
  rw [hlen] at hadd
  exact hadd

theorem Invariant.addEvent {s : State} {e : Event} {rest : List Event}
    {buffer : EventBuffer Tagged} (h : Invariant s) (ha : s.adding = e :: rest)
    (hb : s.buffer.addEvent e = some buffer) :
    Invariant { s with adding := rest, buffer := buffer } := by
  obtain rfl := addEvent_eq hb
  have hwaiting : State.waiting { s with
      adding := rest, buffer := ⟨s.buffer.eventQueue ++ [e], s.buffer.sortedEvents⟩ } =
      s.waiting := by
    simp only [State.waiting, pending, ha, List.append_assoc, List.singleton_append]
  refine Invariant.moved (t := { s with
    adding := rest, buffer := ⟨s.buffer.eventQueue ++ [e], s.buffer.sortedEvents⟩ }) h rfl ?_
      h.sorted ?_ ?_ ?_
  · rw [State.parts, State.parts, hwaiting]
  · rw [hwaiting]
    exact fun x hx => ⟨x, hx, rfl⟩
  · rw [hwaiting]
    exact h.line
  · rw [hwaiting]
    exact h.past

section Fetch

variable {s : State} {rolling : Bool} {pos : JackPosition} {nframes : ℕ} {r : Fetch Tagged}

theorem Invariant.fetch_exact (h : Invariant s)
    (hr : s.buffer.getNextEvent mul32 rolling pos nframes = r) :
    s.buffer.getNextEvent (· * ·) rolling pos nframes = r := by
  have hpending : Orderly s.buffer.pending := h.orderly.mono fun x hx => List.mem_append_left _ hx
  rw [← hr, getNextEvent_mul32 hpending.inOrder]

/-- A call takes what it recycles and what it hands out off the front of the line. -/
theorem Invariant.fetch_line (h : Invariant s)
    (hr : s.buffer.getNextEvent mul32 rolling pos nframes = r) :
    ((s.written ++ (r.recycled ++ (r.event.toList ++ r.buffer.pending)) ++ s.adding).map
      key).Pairwise Follows := by
  have hpending : Orderly s.buffer.pending := h.orderly.mono fun x hx => List.mem_append_left _ hx
  have hline : (s.written.map key ++ s.buffer.pending.map key ++ s.adding.map key).Pairwise
      Follows := by
    rw [← List.map_append, ← List.map_append, List.append_assoc]
    exact h.line
  have hmiddle := (List.pairwise_append.mp (List.pairwise_append.mp hline).1).2.1
  rw [List.map_append, List.map_append, ← h.fetch_exact hr, map_key_pending]
  exact pairwise_middle ((update_pending_perm (· * ·) s.buffer).map key)
    (pairwise_update h.sorted hpending.allows hmiddle) hline

/-- What it recycles is ahead of all that has not left before. -/
theorem Invariant.recycled_follows (h : Invariant s)
    (hr : s.buffer.getNextEvent mul32 rolling pos nframes = r) {x y : Event} (hx : x ∈ r.recycled)
    (hy : y ∈ r.event.toList ++ (s.fetch r).waiting) : Follows (key x) (key y) := by
  have hline := h.fetch_line hr
  rw [List.append_assoc, List.append_assoc, List.map_append, List.map_append] at hline
  obtain ⟨-, -, hrest⟩ := List.pairwise_append.mp (List.pairwise_append.mp hline).2.1
  apply hrest _ (List.mem_map_of_mem hx) _ (List.mem_map_of_mem _)
  rw [List.append_assoc]
  exact hy

theorem perm_fetch {β : Type*} (w e d r p a : List β) :
    (w ++ e ++ (d ++ r) ++ (p ++ a)).Perm (w ++ d ++ (r ++ (e ++ p) ++ a)) := by
  have hswap : (e ++ (d ++ r)).Perm (d ++ r ++ e) := List.perm_append_comm
  have hall := (hswap.append_right (p ++ a)).append_left w
  simpa only [List.append_assoc] using hall

theorem fetch_waiting (hr : s.buffer.getNextEvent mul32 rolling pos nframes = r) :
    ∀ x ∈ (s.fetch r).waiting, ∃ y ∈ s.waiting, key x = key y := by
  intro x hx
  rcases List.mem_append.mp hx with hx | hx
  · rw [State.fetch, ← hr] at hx
    obtain ⟨y, hy, hpos, hdata⟩ := mem_getNextEvent hx
    exact ⟨y, List.mem_append_left _ hy, by rw [key, hpos, hdata]; rfl⟩
  · exact ⟨x, List.mem_append_right _ hx, rfl⟩

theorem Invariant.fetch (h : Invariant s)
    (hr : s.buffer.getNextEvent mul32 rolling pos nframes = r) : Invariant (s.fetch r) := by
  have hperm : ((r.recycled ++ (r.event.toList ++ r.buffer.pending)).map key).Perm
      (s.buffer.pending.map key) := by
    rw [← hr]
    exact getNextEvent_perm mul32 rolling pos nframes s.buffer
  have hsorted : EventList.Sorted r.buffer.sortedEvents := by
    rw [← h.fetch_exact hr]
    exact getNextEvent_sorted h.sorted rolling pos nframes
  refine Invariant.moved (t := s.fetch r) h rfl (parts_perm ?_) hsorted (fetch_waiting hr) ?_ ?_
  · refine ((perm_fetch s.written r.event.toList s.discarded r.recycled r.buffer.pending
      s.adding).map key).trans ?_
    simp only [State.waiting, ← List.append_assoc, List.map_append] at hperm ⊢
    refine List.Perm.append_right _ ?_
    simpa only [List.append_assoc] using
      hperm.append_left (s.written.map key ++ s.discarded.map key)
  · refine (h.fetch_line hr).sublist (List.Sublist.map key ?_)
    simp only [State.fetch, State.waiting, List.append_assoc]
    exact (List.sublist_append_right _ _).append_left _
  · intro x hx y hy
    rcases List.mem_append.mp hx with hx | hx
    · obtain ⟨y', hy', hk⟩ := fetch_waiting hr y hy
      rw [hk]
      exact h.past x hx y' hy'
    · exact h.recycled_follows hr hx (List.mem_append_right _ hy)

end Fetch

theorem Invariant.reposition {s : State} (h : Invariant s) : Invariant { s with
    buffer := s.buffer.recycleRemaining.1
    discarded := s.discarded ++ s.buffer.recycleRemaining.2 } := by
  have hsub : ∀ x ∈ s.adding, x ∈ s.waiting := fun x hx => List.mem_append_right _ hx
  refine Invariant.moved (t := { s with
    buffer := s.buffer.recycleRemaining.1
    discarded := s.discarded ++ s.buffer.recycleRemaining.2 }) h rfl (parts_perm ?_)
      List.Pairwise.nil (fun x hx => ⟨x, hsub x hx, rfl⟩) ?_ ?_
  · apply List.Perm.map
    have hswap : (s.buffer.eventQueue ++ s.buffer.sortedEvents).Perm s.buffer.pending :=
      List.perm_append_comm
    simp only [recycleRemaining, State.waiting, EventBuffer.empty, pending, List.nil_append,
      List.append_assoc]
    refine ((?_ : List.Perm _ _).append_left s.discarded).append_left s.written
    simpa only [List.append_assoc, pending] using hswap.append_right s.adding
  · refine h.line.sublist (List.Sublist.map key ?_)
    exact (List.sublist_append_right _ _).append_left _
  · intro x hx y hy
    rcases List.mem_append.mp hx with hx | hx
    · exact h.past x hx y (hsub y hy)
    · -- the buffer is ahead of what has yet to be pushed
      have hline := h.line
      rw [State.waiting, ← List.append_assoc, List.map_append] at hline
      refine (List.pairwise_append.mp hline).2.2 _ (List.mem_map_of_mem ?_) _
        (List.mem_map_of_mem hy)
      exact List.mem_append_right _ (List.perm_append_comm.mem_iff.mp hx)

/-- The events of each call are orderly among those still in the buffer. -/
def Exact (s : State) : Act → Prop
  | .schedule notes => Orderly (s.buffer.pending ++ tag s.notes notes)
  | .scheduleMessage e => Orderly (s.buffer.pending ++ [tagged .message e])
  | _ => True

theorem invariant_step {s t : State} {a : Act} (h : Invariant s) (ha : Exact s a)
    (hs : Step s a t) : Invariant t := by
  cases hs with
  | schedule hadding hn => exact h.schedule hadding ha
  | scheduleMessage hadding he => exact h.scheduleMessage hadding ha
  | addEvent hadding hb => exact h.addEvent hadding hb
  | doProcess hp =>
    exact Invariant.moved h rfl (List.Perm.refl _) h.sorted (fun x hx => ⟨x, hx, rfl⟩) h.line h.past
  | getNextEvent hp => exact h.fetch rfl
  | reposition hp => exact h.reposition

end Bipscript.PortRuns
