import Bipscript.MidiEvent
import Mathlib.Data.List.Perm.Basic

/-! The MIDI output port: one period writes its due events to the JACK buffer. -/
namespace Bipscript.Midi

/-- What one period of a `MidiOutputPort` writes, leaves and recycles. -/
structure PortPeriod where
  /-- the arguments and bytes of each `jack_midi_event_reserve` -/
  written : List (ℕ × List UInt8)
  buffer : EventBuffer EventData
  recycled : List Event

namespace MidiOutputPort

/-- The frame handed to `jack_midi_event_reserve`: `frame >= 0 ? frame : 0`. -/
def reserveFrame (e : Event) : ℕ := e.frameOffset.toNat

/-- The `while` loop of `doProcess`. -/
def deliver (mul : ℕ → ℕ → ℕ) (rolling : Bool) (pos : JackPosition) (nframes : ℕ) :
    ℕ → EventBuffer EventData → PortPeriod
  | 0, b => ⟨[], b, []⟩
  | fuel + 1, b =>
    let r := b.getNextEvent mul rolling pos nframes
    match r.event with
    | none => ⟨[], r.buffer, r.recycled⟩
    | some nextEvent =>
      let rest := deliver mul rolling pos nframes fuel r.buffer
      ⟨(reserveFrame nextEvent, pack nextEvent) :: rest.written, rest.buffer,
        r.recycled ++ nextEvent :: rest.recycled⟩

/-- The loop ends: every event handed out leaves the buffer, and nothing is pushed meanwhile. -/
def doProcess (mul : ℕ → ℕ → ℕ) (rolling : Bool) (pos : JackPosition) (nframes : ℕ)
    (b : EventBuffer EventData) : PortPeriod :=
  deliver mul rolling pos nframes (b.pending.length + 1) b

theorem deliver_stable {mul : ℕ → ℕ → ℕ} {rolling : Bool} {pos : JackPosition} {nframes : ℕ}
    {fuel fuel' : ℕ} {b : EventBuffer EventData}
    (h : b.pending.length < fuel) (h' : b.pending.length < fuel') :
    deliver mul rolling pos nframes fuel b = deliver mul rolling pos nframes fuel' b := by
  induction fuel generalizing b fuel' with
  | zero => omega
  | succ fuel ih =>
    cases fuel' with
    | zero => omega
    | succ fuel' =>
      have hlen := EventBuffer.getNextEvent_length mul rolling pos nframes b
      simp only [deliver]
      cases he : (b.getNextEvent mul rolling pos nframes).event with
      | none => rfl
      | some e =>
        have hlt := hlen (by simp [he])
        rw [ih (by omega) (by omega : _ < fuel')]

/-- The frames passed to `jack_midi_event_reserve`, in the order of the calls. -/
def frames (p : PortPeriod) : List ℕ := p.written.map Prod.fst

/-- The frame an event would be written at in a period that starts at `pos`. -/
def clipped (pos : JackPosition) (e : Event) : ℕ := (e.frame pos).toNat

/-- Inside the grace window or the period. -/
def due (pos : JackPosition) (nframes : ℕ) (e : Event) : Bool :=
  EventBuffer.notLate pos e && decide (e.frame pos < nframes)

/-- What the first `k` calls of `getNextEvent` have drained into the sorted list. -/
def drained (b : EventBuffer EventData) (k : ℕ) : List Event :=
  b.sortedEvents ++ b.eventQueue.take (k * EventBuffer.UPDATE_MAX_EVENTS)

/-- The block of queued events that call `k + 1` drains. -/
def block (b : EventBuffer EventData) (k : ℕ) : List Event :=
  (b.eventQueue.drop (k * EventBuffer.UPDATE_MAX_EVENTS)).take EventBuffer.UPDATE_MAX_EVENTS

/-- `k` events have been delivered: at each call so far an event was due. -/
def Delivers (pos : JackPosition) (nframes : ℕ) (b : EventBuffer EventData) (k : ℕ) : Prop :=
  ∀ j, 1 ≤ j → j ≤ k → j ≤ (drained b j).countP (due pos nframes)

/-- Events drained so far that go no later than `x`. -/
def ahead (pos : JackPosition) (b : EventBuffer EventData) (k : ℕ) (x : Event) : ℕ :=
  (drained b k).countP fun e => EventBuffer.notLate pos e && decide (clipped pos e ≤ clipped pos x)

/-- Once `k` events have been delivered, each event of the next block still finds `k` events that
go no later: it is not due before one that is already written. -/
def InOrder (pos : JackPosition) (nframes : ℕ) (b : EventBuffer EventData) : Prop :=
  ∀ k, 1 ≤ k → Delivers pos nframes b k →
    ∀ x ∈ block b k, EventBuffer.notLate pos x → k ≤ ahead pos b k x

/-- A queue that one call drains has no next block. -/
theorem inOrder_of_short {pos : JackPosition} {nframes : ℕ} {b : EventBuffer EventData}
    (h : b.eventQueue.length ≤ EventBuffer.UPDATE_MAX_EVENTS) : InOrder pos nframes b := by
  intro k hk _ x hx
  have hdrop : b.eventQueue.drop (k * EventBuffer.UPDATE_MAX_EVENTS) = [] :=
    List.drop_eq_nil_of_le (h.trans (Nat.le_mul_of_pos_left _ hk))
  simp [block, hdrop] at hx

section Delivery

variable {pos : BBT} {nframes : ℕ} {b₀ b : EventBuffer EventData} {k : ℕ} {D : List Event}

/-- The loop after `k` deliveries: `D` holds them, `m` is the latest frame among them and every
event still in the sorted list goes no earlier. -/
structure Loop (pos : BBT) (nframes : ℕ) (b₀ b : EventBuffer EventData) (k m : ℕ)
    (D : List Event) : Prop where
  sorted : EventList.Sorted b.sortedEvents
  bars : ∀ e ∈ b.pending, e.getBar ≠ 0
  queue : b.eventQueue = b₀.eventQueue.drop (k * EventBuffer.UPDATE_MAX_EVENTS)
  length : D.length = k
  perm : (D ++ b.sortedEvents.filter (EventBuffer.notLate pos.toJackPosition)).Perm
    ((drained b₀ k).filter (EventBuffer.notLate pos.toJackPosition))
  delivered : ∀ d ∈ D, due pos.toJackPosition nframes d ∧ clipped pos.toJackPosition d ≤ m
  latest : 0 < m → ∃ d ∈ D, clipped pos.toJackPosition d = m
  remaining : ∀ e ∈ b.sortedEvents, EventBuffer.notLate pos.toJackPosition e →
    m ≤ clipped pos.toJackPosition e

theorem drained_succ (b : EventBuffer EventData) (k : ℕ) :
    drained b (k + 1) = drained b k ++ block b k := by
  simp only [drained, block, List.append_assoc, Nat.succ_mul, List.take_add]

/-- Events that were pushed in order of position, none before those of the sorted list, go in order.
-/
theorem inOrder_of_sorted (h : EventList.Sorted b.pending) :
    InOrder pos.toJackPosition nframes b := by
  intro k hk hdel x hx hlate
  have hle : ∀ e ∈ drained b k, e.pos.value ≤ x.pos.value := by
    intro e he
    have hsub : (drained b k ++ block b k).Sublist (b.sortedEvents ++ b.eventQueue) := by
      rw [← drained_succ]
      exact (List.Sublist.refl b.sortedEvents).append (List.take_sublist _ _)
    exact (List.pairwise_append.mp (h.sublist hsub)).2.2 e he x hx
  refine (hdel k hk le_rfl).trans (List.countP_mono_left fun e he hdue => ?_)
  have hframe := calculateFrameOffset_mono e.pos x.pos pos (hle e he)
  simp only [due, Bool.and_eq_true] at hdue ⊢
  exact ⟨hdue.1, decide_eq_true (Int.toNat_le_toNat hframe)⟩

theorem loop_initial (pos : BBT) (nframes : ℕ) (hs : EventList.Sorted b.sortedEvents)
    (hbar : ∀ e ∈ b.pending, e.getBar ≠ 0) : Loop pos nframes b b 0 0 [] where
  sorted := hs
  bars := hbar
  queue := by simp
  length := rfl
  perm := by simp [drained]
  delivered := by simp
  latest := by simp
  remaining := by simp

/-- What the next call finds in the sorted list, after dropping late events. -/
theorem Loop.kept_perm {m : ℕ} (h : Loop pos nframes b₀ b k m D) :
    (D ++ (b.update (· * ·)).sortedEvents.filter (EventBuffer.notLate pos.toJackPosition)).Perm
      ((drained b₀ (k + 1)).filter (EventBuffer.notLate pos.toJackPosition)) := by
  rw [drained_succ, List.filter_append]
  have hu := (EventBuffer.update_perm (· * ·) b).filter (EventBuffer.notLate pos.toJackPosition)
  rw [List.filter_append, h.queue] at hu
  refine (hu.append_left D).trans ?_
  rw [← List.append_assoc]
  exact h.perm.append_right _

/-- With `k` delivered, an event finds `k` ahead of it exactly when it is no earlier than the latest
of them. -/
theorem Loop.le_ahead_iff {m : ℕ} (h : Loop pos nframes b₀ b k m D) (x : Event) :
    k ≤ ahead pos.toJackPosition b₀ k x ↔ m ≤ clipped pos.toJackPosition x := by
  have hcount : ahead pos.toJackPosition b₀ k x =
      D.countP (fun e => decide (clipped pos.toJackPosition e ≤ clipped pos.toJackPosition x)) +
        (b.sortedEvents.filter (EventBuffer.notLate pos.toJackPosition)).countP
          (fun e => decide (clipped pos.toJackPosition e ≤ clipped pos.toJackPosition x)) := by
    rw [← List.countP_append, h.perm.countP_eq, List.countP_filter]
    unfold ahead
    congr 1
    funext e
    exact Bool.and_comm _ _
  constructor
  · intro hk
    by_contra hlt
    -- neither the latest delivered event nor any remaining one is ahead of `x`
    obtain ⟨d, hd, hdm⟩ := h.latest (by omega)
    have hrest : (b.sortedEvents.filter (EventBuffer.notLate pos.toJackPosition)).countP
        (fun e => decide (clipped pos.toJackPosition e ≤ clipped pos.toJackPosition x)) = 0 := by
      rw [List.countP_eq_zero]
      intro e he
      obtain ⟨hmem, hlate⟩ := List.mem_filter.mp he
      have := h.remaining e hmem hlate
      simp only [decide_eq_true_eq]
      omega
    have hD : D.countP
        (fun e => decide (clipped pos.toJackPosition e ≤ clipped pos.toJackPosition x)) <
          D.length := by
      rw [List.countP_lt_length_iff]
      exact ⟨d, hd, by simp only [decide_eq_false_iff_not]; omega⟩
    rw [h.length] at hD
    omega
  · intro hm
    have hD : D.countP
        (fun e => decide (clipped pos.toJackPosition e ≤ clipped pos.toJackPosition x)) =
          D.length := by
      rw [List.countP_eq_length]
      intro d hd
      exact decide_eq_true ((h.delivered d hd).2.trans hm)
    rw [h.length] at hD
    omega

theorem countP_due_eq (pos : BBT) (nframes : ℕ) (l : List Event) :
    l.countP (due pos.toJackPosition nframes) =
      (l.filter (EventBuffer.notLate pos.toJackPosition)).countP
        (fun e => decide (e.frame pos.toJackPosition < (nframes : ℤ))) := by
  rw [List.countP_filter]
  exact List.countP_congr fun e _ => by rw [due, Bool.and_comm]

theorem due_clipped_le {d x : Event} (hd : due pos.toJackPosition nframes d)
    (hx : (nframes : ℤ) ≤ x.frame pos.toJackPosition) :
    clipped pos.toJackPosition d ≤ clipped pos.toJackPosition x := by
  simp only [due, Bool.and_eq_true, decide_eq_true_eq] at hd
  exact Int.toNat_le_toNat (by omega)

/-- The next call finds the events of its block that are not late. -/
theorem Loop.mem_kept {m : ℕ} {kept : List Event} (h : Loop pos nframes b₀ b k m D)
    (hkept : (b.update (· * ·)).sortedEvents.filter (EventBuffer.notLate pos.toJackPosition) = kept)
    {x : Event} (hx : x ∈ block b₀ k) (hlate : EventBuffer.notLate pos.toJackPosition x) :
    x ∈ kept := by
  rw [← hkept]
  refine List.mem_filter.mpr ⟨?_, hlate⟩
  rw [(EventBuffer.update_perm (· * ·) b).mem_iff, h.queue]
  exact List.mem_append_right _ hx

/-- Where the loop stops, nothing that was drained later could have gone earlier. -/
theorem Loop.stopped {m : ℕ} (h : Loop pos nframes b₀ b k m D)
    (hnone : ∀ e ∈ (b.update (· * ·)).sortedEvents.filter (EventBuffer.notLate pos.toJackPosition),
      (nframes : ℤ) ≤ e.frame pos.toJackPosition) :
    ∀ i, k ≤ i → 1 ≤ i → Delivers pos.toJackPosition nframes b₀ i →
      ∀ x ∈ block b₀ i, EventBuffer.notLate pos.toJackPosition x →
        i ≤ ahead pos.toJackPosition b₀ i x := by
  intro i hki hi hdel x hx hlate
  rcases Nat.eq_or_lt_of_le hki with rfl | hlt
  · rw [h.le_ahead_iff]
    have hmem := h.mem_kept rfl hx hlate
    by_cases hm : m = 0
    · omega
    · obtain ⟨d, hd, hdm⟩ := h.latest (by omega)
      rw [← hdm]
      exact due_clipped_le (h.delivered d hd).1 (hnone x hmem)
  · -- a further delivery would need one more due event than were drained
    have hnext := hdel (k + 1) (by omega) (by omega)
    rw [countP_due_eq, ← h.kept_perm.countP_eq, List.countP_append] at hnext
    have hrest : ((b.update (· * ·)).sortedEvents.filter
        (EventBuffer.notLate pos.toJackPosition)).countP
          (fun e => decide (e.frame pos.toJackPosition < (nframes : ℤ))) = 0 := by
      rw [List.countP_eq_zero]
      intro e he
      have := hnone e he
      simp only [decide_eq_true_eq]
      omega
    rw [hrest, Nat.add_zero] at hnext
    have hD := hnext.trans List.countP_le_length
    rw [h.length] at hD
    omega

/-- One more delivery, no earlier than the latest. -/
theorem Loop.step {m : ℕ} {e : Event} {rest : List Event} (h : Loop pos nframes b₀ b k m D)
    (hkept : (b.update (· * ·)).sortedEvents.filter (EventBuffer.notLate pos.toJackPosition) =
      e :: rest)
    (hdue : e.frame pos.toJackPosition < nframes) (hm : m ≤ clipped pos.toJackPosition e) :
    Loop pos nframes b₀ ⟨b.eventQueue.drop EventBuffer.UPDATE_MAX_EVENTS, rest⟩ (k + 1)
      (clipped pos.toJackPosition e) (e :: D) := by
  have hsorted := (EventBuffer.update_sorted h.sorted).sublist
    (List.filter_sublist (p := EventBuffer.notLate pos.toJackPosition))
  rw [hkept] at hsorted
  obtain ⟨he, hrest⟩ := List.pairwise_cons.mp hsorted
  have hmem : ∀ x ∈ e :: rest, x ∈ (b.update (· * ·)).sortedEvents ∧
      EventBuffer.notLate pos.toJackPosition x := by
    intro x hx
    rw [← hkept] at hx
    exact List.mem_filter.mp hx
  have hlate : rest.filter (EventBuffer.notLate pos.toJackPosition) = rest :=
    List.filter_eq_self.mpr fun x hx => (hmem x (List.mem_cons_of_mem _ hx)).2
  refine ⟨hrest, ?_, ?_, by simp [h.length], ?_, ?_, ?_, ?_⟩
  · intro x hx
    rcases List.mem_append.mp hx with hx | hx
    · exact h.bars x (EventBuffer.mem_update_pending (hmem x (List.mem_cons_of_mem _ hx)).1)
    · exact h.bars x (List.mem_append_right _ (List.mem_of_mem_drop hx))
  · simp only [h.queue, List.drop_drop, Nat.succ_mul]
  · rw [hlate]
    refine List.Perm.trans ?_ h.kept_perm
    rw [hkept]
    exact List.perm_middle.symm
  · intro d hd
    rcases List.mem_cons.mp hd with rfl | hd
    · refine ⟨?_, le_rfl⟩
      simp [due, hdue, (hmem d List.mem_cons_self).2]
    · exact ⟨(h.delivered d hd).1, (h.delivered d hd).2.trans hm⟩
  · intro _
    exact ⟨e, List.mem_cons_self, rfl⟩
  · intro x hx _
    exact Int.toNat_le_toNat (calculateFrameOffset_mono e.pos x.pos pos (he x hx))

/-- After one more delivery, one more event was due. -/
theorem Loop.delivers_succ {m : ℕ} (h : Loop pos nframes b₀ b (k + 1) m D)
    (hdel : Delivers pos.toJackPosition nframes b₀ k) :
    Delivers pos.toJackPosition nframes b₀ (k + 1) := by
  intro j hj hjk
  rcases Nat.lt_or_ge k j with hlt | hge
  · obtain rfl : j = k + 1 := by omega
    have hD : D.countP (fun e => decide (e.frame pos.toJackPosition < (nframes : ℤ))) =
        D.length := by
      rw [List.countP_eq_length]
      intro d hd
      have hdue := (h.delivered d hd).1
      simp only [due, Bool.and_eq_true, decide_eq_true_eq] at hdue
      exact decide_eq_true hdue.2
    rw [countP_due_eq, ← h.perm.countP_eq, List.countP_append, hD, h.length]
    omega
  · exact hdel j hj hge

/-- The next frame is no earlier than the latest exactly when the block that the call drains is in
order. -/
theorem Loop.next_iff {m : ℕ} {e : Event} {rest : List Event} (h : Loop pos nframes b₀ b k m D)
    (hkept : (b.update (· * ·)).sortedEvents.filter (EventBuffer.notLate pos.toJackPosition) =
      e :: rest)
    (hdue : e.frame pos.toJackPosition < nframes) :
    m ≤ clipped pos.toJackPosition e ↔
      (1 ≤ k → ∀ x ∈ block b₀ k, EventBuffer.notLate pos.toJackPosition x →
        k ≤ ahead pos.toJackPosition b₀ k x) := by
  constructor
  · intro hm _ x hx hlate
    rw [h.le_ahead_iff]
    rcases List.mem_cons.mp (h.mem_kept hkept hx hlate) with rfl | hmem
    · exact hm
    · exact hm.trans ((h.step hkept hdue hm).remaining x hmem hlate)
  · intro hall
    by_contra hm
    -- the event handed out was drained by this very call and goes before the latest
    have he : e ∈ (b.update (· * ·)).sortedEvents ∧
        EventBuffer.notLate pos.toJackPosition e := by
      apply List.mem_filter.mp
      rw [hkept]
      exact List.mem_cons_self
    have hblock : e ∈ block b₀ k := by
      have hmem := (EventBuffer.update_perm (· * ·) b).mem_iff.mp he.1
      rw [h.queue] at hmem
      rcases List.mem_append.mp hmem with hmem | hmem
      · exact absurd (h.remaining e hmem he.2) hm
      · exact hmem
    have hk : 1 ≤ k := by
      obtain ⟨d, hd, -⟩ := h.latest (by omega)
      rw [← h.length]
      exact List.length_pos_of_mem hd
    exact hm ((h.le_ahead_iff e).mp (hall hk e hblock he.2))

/-- From any point of the loop, the frames still to come are in order exactly when no later block
brings an event that goes before one already written. -/
theorem Loop.inOrder_iff {m fuel : ℕ} (h : Loop pos nframes b₀ b k m D)
    (hdel : Delivers pos.toJackPosition nframes b₀ k) (hfuel : b.pending.length < fuel) :
    (m :: frames (deliver (· * ·) true pos.toJackPosition nframes fuel b)).Pairwise (· ≤ ·) ↔
      ∀ i, k ≤ i → 1 ≤ i → Delivers pos.toJackPosition nframes b₀ i →
        ∀ x ∈ block b₀ i, EventBuffer.notLate pos.toJackPosition x →
          i ≤ ahead pos.toJackPosition b₀ i x := by
  induction fuel generalizing b k m D with
  | zero => omega
  | succ fuel ih =>
    have hlen := EventBuffer.getNextEvent_length (· * ·) true pos.toJackPosition nframes b
    simp only [deliver]
    rcases EventBuffer.getNextEvent_rolling pos nframes (EventBuffer.update_sorted h.sorted)
      h.bars with
      ⟨hnone, hkept⟩ | ⟨e, rest, hkept, hdue, hsome, hbuf⟩
    · simp only [hnone]
      exact ⟨fun _ => h.stopped hkept, fun _ => List.pairwise_singleton _ _⟩
    · have hlt := hlen (by simp [hsome])
      simp only [hsome, hbuf, frames, List.map_cons] at hlt ⊢
      change (m :: clipped pos.toJackPosition e :: _).Pairwise (· ≤ ·) ↔ _
      rw [List.pairwise_cons_cons_iff_of_trans, h.next_iff hkept hdue]
      constructor
      · rintro ⟨hnext, hp⟩ i hki hi hdi
        rcases Nat.eq_or_lt_of_le hki with rfl | hlt'
        · exact hnext hi
        · have hstep := h.step hkept hdue ((h.next_iff hkept hdue).mpr hnext)
          exact (ih hstep (hstep.delivers_succ hdel) (by omega)).mp hp i hlt' hi hdi
      · intro hall
        have hnext := fun hk => hall k le_rfl hk hdel
        have hstep := h.step hkept hdue ((h.next_iff hkept hdue).mpr hnext)
        refine ⟨hnext, (ih hstep (hstep.delivers_succ hdel) (by omega)).mpr ?_⟩
        exact fun i hki => hall i (Nat.le_of_succ_le hki)

end Delivery

/-- The frames of one period are in order exactly when no block of the queue comes too late. -/
theorem doProcess_frames_sorted_iff {pos : BBT} {nframes : ℕ} {b : EventBuffer EventData}
    (hs : EventList.Sorted b.sortedEvents) (hbar : ∀ e ∈ b.pending, 1 ≤ e.getBar) :
    (frames (doProcess (· * ·) true pos.toJackPosition nframes b)).Pairwise (· ≤ ·) ↔
      InOrder pos.toJackPosition nframes b := by
  have hl := loop_initial pos nframes hs
    (fun e he => Nat.one_le_iff_ne_zero.mp (hbar e he))
  have hiff := hl.inOrder_iff (fun j hj hj' => by omega) (Nat.lt_succ_self _)
  rw [List.pairwise_cons] at hiff
  constructor
  · intro hp k hk
    exact hiff.mp ⟨fun _ _ => Nat.zero_le _, hp⟩ k (Nat.zero_le k) hk
  · intro hin
    exact (hiff.mpr fun k _ hk => hin k hk).2

/-- A note-on in the first bar, on a tick. -/
def noteAt (tick : Fin 7680) : Event where
  pos := ⟨⟨1, tick, 7680⟩, tick.isLt⟩
  frameOffset := 0
  data := ⟨TYPE_NOTE_ON, 60, 100, 0⟩

theorem doProcess_frames_sorted_two :
    (frames (doProcess (· * ·) true barOne.toJackPosition 1024
      ⟨[noteAt 8, noteAt 0], []⟩)).Pairwise (· ≤ ·) :=
  (doProcess_frames_sorted_iff (b := ⟨[noteAt 8, noteAt 0], []⟩) List.Pairwise.nil (by decide)).mpr
    (inOrder_of_short (by decide))

/-- 32 notes at frame 100 are pushed before one at frame 0. -/
theorem doProcess_frames_unsorted :
    EventList.Sorted (EventBuffer.mk (List.replicate 32 (noteAt 8) ++ [noteAt 0]) []).sortedEvents ∧
    (∀ e ∈ (EventBuffer.mk (List.replicate 32 (noteAt 8) ++ [noteAt 0]) []).pending, 1 ≤ e.getBar) ∧
    ¬ (frames (doProcess (· * ·) true barOne.toJackPosition 1024
      ⟨List.replicate 32 (noteAt 8) ++ [noteAt 0], []⟩)).Pairwise (· ≤ ·) := by
  refine ⟨List.Pairwise.nil, by decide, by decide +kernel⟩

end MidiOutputPort

end Bipscript.Midi
