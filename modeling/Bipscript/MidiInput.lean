import Bipscript.MidiEvent
import Mathlib.Data.List.Forall2
import Mathlib.Data.List.Perm.Basic

/-! The MIDI input of a plugin: one period merges its scheduled events and those of its connection
into the atom sequence that the plugin reads. -/
namespace Bipscript.LV2

/-- A MIDI message with its frame. -/
structure Message where
  time : ℤ
  bytes : List UInt8
deriving DecidableEq

/-- The length of a channel-voice message, by the upper half of its status. -/
def voiceLength (type : UInt8) : ℕ := if type = 0xC0 ∨ type = 0xD0 then 2 else 3

/-- A channel-voice message. -/
def Message.Voice (m : Message) : Prop :=
  ∃ status data, m.bytes = status :: data ∧ 0x80 ≤ status ∧ status < 0xF0 ∧
    (∀ byte ∈ data, byte < 0x80) ∧ m.bytes.length = voiceLength (status &&& 0xf0)

/-- The message of a scheduled event. -/
def message (e : Midi.Event) : Message where
  time := e.frameOffset
  bytes := [e.data.type + e.data.channel, e.data.databyte1, e.data.databyte2].take
    (voiceLength e.data.type)

/-- A `MidiEvent`: the frame, the size of the body, and the body's buffer. -/
structure AtomEvent where
  frames : ℤ
  size : ℕ
  buffer : List UInt8
deriving DecidableEq

/-- The event is this message. -/
structure AtomEvent.Carries (a : AtomEvent) (m : Message) : Prop where
  frames : a.frames = max m.time 0
  size : a.size = m.bytes.length
  bytes : a.buffer.take a.size = m.bytes

namespace MidiInput

/-- `lv2_atom_sequence_append_event` of an event with a body of three bytes, to a sequence with room
for `room` of these. -/
def append (room : ℕ) (seq : List AtomEvent) (e : AtomEvent) : List AtomEvent :=
  if seq.length < room then seq ++ [e] else seq

/-- A new `MidiEvent` with the frame and data of an event. `unset` is what the stack holds where
`pack` does not write. -/
def lv2Event (unset : UInt8) (e : Midi.Event) : AtomEvent where
  frames := if 0 ≤ e.frameOffset then e.frameOffset else 0
  size := 3
  buffer := (Midi.pack e ++ [unset]).take 3

/-- CC 123 on every channel -/
def allNotesOff : List AtomEvent :=
  (List.range 16).map fun channel =>
    ⟨0, 3, [Midi.TYPE_CONTROL + UInt8.ofNat channel, 0x7b, 0]⟩

/-- What `getEvent` gives for each message of a connection in turn: they all share `lastEvent`. -/
def connectionEvents (lastEvent : Midi.Event) : List Message → List Midi.Event
  | [] => []
  | m :: rest =>
    let e := Midi.setFrameOffset m.time (Midi.unpack lastEvent m.bytes)
    e :: connectionEvents e rest

/-- The `while` loop. `unset` is read by the passes still to come. -/
def loop (room : ℕ) (unset : ℕ → UInt8) :
    ℕ → List Midi.Event → List Midi.Event → List AtomEvent → List AtomEvent
  | 0, _, _, seq => seq
  | _ + 1, [], [], seq => seq
  | fuel + 1, bufferEvent :: buffer, [], seq =>
    loop room unset fuel buffer [] (append room seq (lv2Event (unset fuel) bufferEvent))
  | fuel + 1, [], connectionEvent :: connection, seq =>
    loop room unset fuel [] connection (append room seq (lv2Event (unset fuel) connectionEvent))
  | fuel + 1, bufferEvent :: buffer, connectionEvent :: connection, seq =>
    if bufferEvent.frameOffset < connectionEvent.frameOffset then
      loop room unset fuel buffer (connectionEvent :: connection)
        (append room seq (lv2Event (unset fuel) bufferEvent))
    else
      loop room unset fuel (bufferEvent :: buffer) connection
        (append room seq (lv2Event (unset fuel) connectionEvent))

/-- The atom sequence that `process` leaves, from the events that the event buffer yields and the
messages of the connection. -/
def process (room : ℕ) (unset : ℕ → UInt8) (rolling localRolling : Bool) (buffer : List Midi.Event)
    (lastEvent : Midi.Event) (connection : List Message) : List AtomEvent :=
  loop room unset (buffer.length + connection.length) buffer (connectionEvents lastEvent connection)
    (if localRolling && !rolling then allNotesOff.foldl (append room) [] else [])

/-- The order in which the loop takes the events. -/
def merged (buffer connection : List Midi.Event) : List Midi.Event :=
  buffer.merge connection fun a b => decide (a.frameOffset < b.frameOffset)

/-- An event's frame in the sequence. -/
def clipped (e : Midi.Event) : ℤ := max e.frameOffset 0

/-- The sequence holds each message once, in the order of their frames, behind the events sent when
the transport has stopped. -/
def Complete (stopped : Bool) (buffer : List Midi.Event) (connection : List Message)
    (seq : List AtomEvent) : Prop :=
  ∃ tail order, seq = (if stopped then allNotesOff else []) ++ tail ∧
    order.Perm (buffer.map message ++ connection) ∧
    List.Forall₂ AtomEvent.Carries tail order ∧
    tail.Pairwise fun a b => a.frames ≤ b.frames

/-- All events fit, none is shorter than three bytes, and the event buffer's are in order. -/
def Fits (room : ℕ) (stopped : Bool) (buffer : List Midi.Event) (connection : List Message) :
    Prop :=
  (if stopped then 16 else 0) + buffer.length + connection.length ≤ room ∧
    (∀ m ∈ buffer.map message ++ connection, m.bytes.length = 3) ∧
    buffer.Pairwise fun a b => clipped a ≤ clipped b

variable {room : ℕ} {unset : ℕ → UInt8} {buffer connection : List Midi.Event}
  {seq l : List AtomEvent}

theorem append_eq_take {e : AtomEvent} (h : seq.length ≤ room) :
    append room seq e = (seq ++ [e]).take room := by
  unfold append
  split
  · rw [List.take_of_length_le]
    simp only [List.length_append, List.length_singleton]
    omega
  · have heq : seq.length = room := by omega
    rw [List.take_append_of_le_length (by omega), ← heq, List.take_length]

theorem take_append_take (seq l : List AtomEvent) :
    ((seq.take room) ++ l).take room = (seq ++ l).take room := by
  rcases Nat.le_or_ge seq.length room with h | h
  · rw [List.take_of_length_le h]
  · rw [List.take_append_of_le_length h, List.take_append_of_le_length (by simp [h]),
      List.take_take, Nat.min_self]

theorem foldl_append (h : seq.length ≤ room) (l : List AtomEvent) :
    l.foldl (append room) seq = (seq ++ l).take room := by
  induction l generalizing seq with
  | nil => rw [List.append_nil, List.foldl_nil, List.take_of_length_le h]
  | cons e l ih =>
    rw [List.foldl_cons, append_eq_take h, ih (List.length_take_le _ _), take_append_take,
      List.append_assoc]
    rfl

theorem append_length_le {e : AtomEvent} (h : seq.length ≤ room) :
    (append room seq e).length ≤ room := by
  rw [append_eq_take h]
  exact List.length_take_le _ _

/-- One pass: the event taken comes first. -/
theorem exists_append {e : Midi.Event} {u : UInt8} {order : List Midi.Event}
    {result : List AtomEvent} (h : seq.length ≤ room)
    (hrest : ∃ l, List.Forall₂ (fun a e => ∃ u, a = lv2Event u e) l order ∧
      result = (append room seq (lv2Event u e) ++ l).take room) :
    ∃ l, List.Forall₂ (fun a e => ∃ u, a = lv2Event u e) l (e :: order) ∧
      result = (seq ++ l).take room := by
  obtain ⟨l, hl, hresult⟩ := hrest
  refine ⟨lv2Event u e :: l, .cons ⟨u, rfl⟩ hl, ?_⟩
  rw [hresult, append_eq_take h, take_append_take, List.append_assoc]
  rfl

theorem merged_nil (connection : List Midi.Event) : merged [] connection = connection := by
  simp [merged]

theorem merged_nil_right (buffer : List Midi.Event) : merged buffer [] = buffer := by
  simp [merged]

theorem merged_cons (b c : Midi.Event) (buffer connection : List Midi.Event) :
    merged (b :: buffer) (c :: connection) =
      if b.frameOffset < c.frameOffset then b :: merged buffer (c :: connection)
      else c :: merged (b :: buffer) connection := by
  unfold merged
  rw [List.cons_merge_cons]
  simp only [decide_eq_true_eq]

/-- The loop appends the merged events, as far as there is room. -/
theorem exists_loop_eq (unset : ℕ → UInt8) {fuel : ℕ}
    (hfuel : buffer.length + connection.length ≤ fuel)
    (h : seq.length ≤ room) :
    ∃ l, List.Forall₂ (fun a e => ∃ u, a = lv2Event u e) l (merged buffer connection) ∧
      loop room unset fuel buffer connection seq = (seq ++ l).take room := by
  have hempty : ∀ {seq : List AtomEvent}, seq.length ≤ room → ∀ fuel,
      ∃ l, List.Forall₂ (fun a e => ∃ u, a = lv2Event u e) l (merged [] []) ∧
        loop room unset fuel [] [] seq = (seq ++ l).take room := by
    intro seq h fuel
    refine ⟨[], ?_, ?_⟩
    · rw [merged_nil]
      exact .nil
    · rw [List.append_nil, List.take_of_length_le h]
      cases fuel <;> rfl
  induction fuel generalizing buffer connection seq with
  | zero =>
    obtain rfl := List.eq_nil_of_length_eq_zero (by omega : buffer.length = 0)
    obtain rfl := List.eq_nil_of_length_eq_zero (by omega : connection.length = 0)
    exact hempty h 0
  | succ fuel ih =>
    have hlen : ∀ e, (append room seq (lv2Event (unset fuel) e)).length ≤ room := fun e =>
      append_length_le h
    cases buffer with
    | nil =>
      cases connection with
      | nil => exact hempty h _
      | cons c connection =>
        simp only [List.length_nil, List.length_cons] at hfuel
        have hrest := @ih [] connection _ (by rw [List.length_nil]; omega) (hlen c)
        rw [merged_nil] at hrest ⊢
        exact exists_append h hrest
    | cons b buffer =>
      cases connection with
      | nil =>
        simp only [List.length_nil, List.length_cons] at hfuel
        have hrest := @ih buffer [] _ (by rw [List.length_nil]; omega) (hlen b)
        rw [merged_nil_right] at hrest ⊢
        exact exists_append h hrest
      | cons c connection =>
        simp only [List.length_cons] at hfuel
        rw [merged_cons]
        simp only [loop]
        by_cases hlt : b.frameOffset < c.frameOffset
        · rw [if_pos hlt, if_pos hlt]
          exact exists_append h (ih (by simp; omega) (hlen b))
        · rw [if_neg hlt, if_neg hlt]
          exact exists_append h (ih (by simp; omega) (hlen c))

/-- The merge takes every event once. -/
theorem merged_perm (buffer connection : List Midi.Event) :
    (merged buffer connection).Perm (buffer ++ connection) :=
  List.merge_perm_append _

theorem sublist_merged (buffer connection : List Midi.Event) :
    buffer.Sublist (merged buffer connection) := by
  induction buffer generalizing connection with
  | nil => exact List.nil_sublist _
  | cons b buffer ih =>
    induction connection with
    | nil => rw [merged_nil_right]
    | cons c connection ihc =>
      rw [merged_cons]
      split
      · exact (ih _).cons_cons b
      · exact ihc.cons c

/-- Of two lists in order the merge is in order: the event taken is no later than the other head. -/
theorem merged_pairwise (hb : buffer.Pairwise fun a b => clipped a ≤ clipped b)
    (hc : connection.Pairwise fun a b => clipped a ≤ clipped b) :
    (merged buffer connection).Pairwise fun a b => clipped a ≤ clipped b := by
  induction buffer generalizing connection with
  | nil => rwa [merged_nil]
  | cons b buffer ih =>
    obtain ⟨hbb, hbrest⟩ := List.pairwise_cons.mp hb
    induction connection with
    | nil => rwa [merged_nil_right]
    | cons c connection ihc =>
      obtain ⟨hcc, hcrest⟩ := List.pairwise_cons.mp hc
      rw [merged_cons]
      split
      · rename_i hlt
        have hbc : clipped b ≤ clipped c := max_le_max_right 0 hlt.le
        refine List.pairwise_cons.mpr ⟨fun x hx => ?_, ih hbrest hc⟩
        rcases List.mem_append.mp ((merged_perm _ _).mem_iff.mp hx) with hx | hx
        · exact hbb x hx
        · rcases List.mem_cons.mp hx with rfl | hx
          · exact hbc
          · exact hbc.trans (hcc x hx)
      · rename_i hlt
        have hcb : clipped c ≤ clipped b := max_le_max_right 0 (not_lt.mp hlt)
        refine List.pairwise_cons.mpr ⟨fun x hx => ?_, ihc hcrest⟩
        rcases List.mem_append.mp ((merged_perm _ _).mem_iff.mp hx) with hx | hx
        · rcases List.mem_cons.mp hx with rfl | hx
          · exact hcb
          · exact hcb.trans (hbb x hx)
        · exact hcc x hx

theorem length_connectionEvents (lastEvent : Midi.Event) (ms : List Message) :
    (connectionEvents lastEvent ms).length = ms.length := by
  induction ms generalizing lastEvent with
  | nil => rfl
  | cons m ms ih => simp only [connectionEvents, List.length_cons, ih]

theorem connectionEvents_pairwise (lastEvent : Midi.Event) {ms : List Message}
    (h : ms.Pairwise fun a b => a.time ≤ b.time) :
    (connectionEvents lastEvent ms).Pairwise fun a b => clipped a ≤ clipped b := by
  have hmap : ∀ lastEvent : Midi.Event,
      (connectionEvents lastEvent ms).map clipped = ms.map fun m => max m.time 0 := by
    clear h
    induction ms with
    | nil => exact fun _ => rfl
    | cons m ms ih =>
      intro lastEvent
      simp only [connectionEvents, List.map_cons, ih]
      rfl
  have hclip : ((connectionEvents lastEvent ms).map clipped).Pairwise (· ≤ ·) := by
    rw [hmap, List.pairwise_map]
    exact h.imp fun hab => max_le_max_right 0 hab
  exact List.pairwise_map.mp hclip

/-- `pack` undoes what `unpack` does to a status. -/
theorem status_eq (status : UInt8) : (status &&& 0xf0) + (status &&& 0x0f) = status := by
  have h : ∀ x : Fin 256,
      (UInt8.ofFin x &&& 0xf0) + (UInt8.ofFin x &&& 0x0f) = UInt8.ofFin x := by decide +kernel
  exact h status.toFin

/-- A message of three bytes is read as it is. -/
theorem message_getEvent {m : Message} (hv : m.Voice) (h : m.bytes.length = 3)
    (lastEvent : Midi.Event) :
    message (Midi.setFrameOffset m.time (Midi.unpack lastEvent m.bytes)) = m := by
  obtain ⟨status, data, hbytes, -, -, -, hlen⟩ := hv
  rw [h] at hlen
  obtain ⟨time, bytes⟩ := m
  obtain rfl : bytes = status :: data := hbytes
  match data, h with
  | [d1, d2], _ =>
    simp [message, Midi.setFrameOffset, Midi.unpack, ← hlen, status_eq]

theorem message_connectionEvents {ms : List Message} (hv : ∀ m ∈ ms, m.Voice)
    (h : ∀ m ∈ ms, m.bytes.length = 3) (lastEvent : Midi.Event) :
    (connectionEvents lastEvent ms).map message = ms := by
  induction ms generalizing lastEvent with
  | nil => rfl
  | cons m ms ih =>
    obtain ⟨hvm, hvs⟩ := List.forall_mem_cons.mp hv
    obtain ⟨hm, hms⟩ := List.forall_mem_cons.mp h
    simp only [connectionEvents, List.map_cons, message_getEvent hvm hm, ih hvs hms]

/-- An event whose message has three bytes is packed whole. -/
theorem carries_lv2Event {e : Midi.Event} (unset : UInt8) (h : (message e).bytes.length = 3) :
    (lv2Event unset e).Carries (message e) := by
  have htype : voiceLength e.data.type = 3 := by
    have hle : voiceLength e.data.type ≤ 3 := by
      unfold voiceLength
      split <;> omega
    simp only [message, List.length_take, List.length_cons, List.length_nil] at h
    omega
  have hsize : e.data.type ≠ 0xC0 := by
    intro he
    simp [voiceLength, he] at htype
  refine ⟨?_, ?_, ?_⟩
  · simp only [lv2Event, message]
    split <;> omega
  · exact h.symm
  · simp [lv2Event, message, Midi.pack, Midi.dataSize, hsize, htype]

theorem frames_eq {order : List Midi.Event}
    (h : List.Forall₂ (fun a e => ∃ u, a = lv2Event u e) l order) :
    l.map AtomEvent.frames = order.map clipped := by
  induction h with
  | nil => rfl
  | cons ha _ ih =>
    obtain ⟨u, rfl⟩ := ha
    rw [List.map_cons, List.map_cons, ih]
    congr 1
    simp only [lv2Event, clipped]
    split <;> omega

theorem forall₂_carries {order : List Midi.Event}
    (h : List.Forall₂ (fun a e => ∃ u, a = lv2Event u e) l order)
    (h3 : ∀ e ∈ order, (message e).bytes.length = 3) :
    List.Forall₂ AtomEvent.Carries l (order.map message) := by
  induction h with
  | nil => exact .nil
  | cons ha _ ih =>
    obtain ⟨he, hrest⟩ := List.forall_mem_cons.mp h3
    obtain ⟨u, rfl⟩ := ha
    exact .cons (carries_lv2Event u he) (ih hrest)

/-- The body of every event has three bytes, so what it carries has. -/
theorem length_of_carries {order : List Midi.Event} {ms : List Message}
    (h : List.Forall₂ (fun a e => ∃ u, a = lv2Event u e) l order)
    (hc : List.Forall₂ AtomEvent.Carries l ms) : ∀ m ∈ ms, m.bytes.length = 3 := by
  induction hc generalizing order with
  | nil => simp
  | cons ha _ ih =>
    cases h with
    | cons he hrest =>
      obtain ⟨u, rfl⟩ := he
      refine List.forall_mem_cons.mpr ⟨ha.size.symm, ih hrest⟩

/-- What `process` leaves: the events sent on a stop, and the merged ones, as far as there is
room. -/
theorem exists_process_eq (room : ℕ) (unset : ℕ → UInt8) (rolling localRolling : Bool)
    (buffer : List Midi.Event) (lastEvent : Midi.Event) (ms : List Message) :
    ∃ l, List.Forall₂ (fun a e => ∃ u, a = lv2Event u e) l
        (merged buffer (connectionEvents lastEvent ms)) ∧
      process room unset rolling localRolling buffer lastEvent ms =
        ((if localRolling && !rolling then allNotesOff else []) ++ l).take room := by
  have hfuel : buffer.length + (connectionEvents lastEvent ms).length ≤
      buffer.length + ms.length := by rw [length_connectionEvents]
  unfold process
  by_cases hstop : localRolling && !rolling
  · rw [if_pos hstop, if_pos hstop]
    rw [foldl_append (Nat.zero_le room) allNotesOff, List.nil_append]
    obtain ⟨l, hl, he⟩ := exists_loop_eq unset hfuel
      (List.length_take_le room allNotesOff)
    exact ⟨l, hl, by rw [he, take_append_take]⟩
  · rw [if_neg hstop, if_neg hstop]
    exact exists_loop_eq unset hfuel (Nat.zero_le _)

theorem length_stopped (stopped : Bool) :
    (if stopped then 16 else 0) = (if stopped then allNotesOff else []).length := by
  cases stopped <;> rfl

section Merged

variable {stopped : Bool} {lastEvent : Midi.Event} {messages : List Message}

theorem length_of_merged (hl : List.Forall₂ (fun a e => ∃ u, a = lv2Event u e) l
    (merged buffer (connectionEvents lastEvent messages))) :
    l.length = buffer.length + messages.length := by
  rw [hl.length_eq, (merged_perm _ _).length_eq, List.length_append, length_connectionEvents]

/-- A sequence that has every message has room for every event. -/
theorem fits_of_complete (hl : List.Forall₂ (fun a e => ∃ u, a = lv2Event u e) l
      (merged buffer (connectionEvents lastEvent messages)))
    (h : Complete stopped buffer messages
      (((if stopped then allNotesOff else []) ++ l).take room)) :
    Fits room stopped buffer messages := by
  obtain ⟨tail, order, htake, hperm, hcarries, hordered⟩ := h
  have hlen := length_of_merged hl
  have htail : tail.length = l.length := by
    rw [hcarries.length_eq, hperm.length_eq, hlen]
    simp
  -- nothing was refused, so the tail is all of the merged events
  have hroom : (if stopped then allNotesOff else []).length + l.length ≤ room := by
    have hcount := congrArg List.length htake
    simp only [List.length_take, List.length_append, htail] at hcount
    omega
  rw [List.take_of_length_le (by simpa using hroom)] at htake
  obtain rfl := List.append_cancel_left htake
  refine ⟨by rw [length_stopped]; omega, ?_, ?_⟩
  · intro m hm
    exact length_of_carries hl hcarries m (hperm.mem_iff.mpr hm)
  · have hall : (l.map AtomEvent.frames).Pairwise (· ≤ ·) := List.pairwise_map.mpr hordered
    rw [frames_eq hl, List.pairwise_map] at hall
    exact hall.sublist (sublist_merged _ _)

theorem complete_of_fits (hl : List.Forall₂ (fun a e => ∃ u, a = lv2Event u e) l
      (merged buffer (connectionEvents lastEvent messages)))
    (hv : ∀ m ∈ messages, m.Voice) (hsorted : messages.Pairwise fun a b => a.time ≤ b.time)
    (h : Fits room stopped buffer messages) :
    Complete stopped buffer messages
      (((if stopped then allNotesOff else []) ++ l).take room) := by
  obtain ⟨hroom, hthree, hsortedBuffer⟩ := h
  rw [length_stopped] at hroom
  have hlen := length_of_merged hl
  rw [List.take_of_length_le (by rw [List.length_append]; omega)]
  have hconn := message_connectionEvents hv
    (fun m hm => hthree m (List.mem_append_right _ hm)) lastEvent
  refine ⟨l, (merged buffer (connectionEvents lastEvent messages)).map message, rfl, ?_, ?_, ?_⟩
  · refine ((merged_perm _ _).map message).trans ?_
    rw [List.map_append, hconn]
  · apply forall₂_carries hl
    intro e he
    apply hthree
    rcases List.mem_append.mp ((merged_perm _ _).mem_iff.mp he) with he | he
    · exact List.mem_append_left _ (List.mem_map_of_mem he)
    · exact List.mem_append_right _ (hconn ▸ List.mem_map_of_mem he)
  · have hall := merged_pairwise hsortedBuffer (connectionEvents_pairwise lastEvent hsorted)
    have hmap : ((merged buffer (connectionEvents lastEvent messages)).map clipped).Pairwise
        (· ≤ ·) := List.pairwise_map.mpr hall
    rw [← frames_eq hl, List.pairwise_map] at hmap
    exact hmap

end Merged

/-- The atom sequence has every message of the period, whole and in order, exactly when all of them
fit. -/
theorem process_complete_iff (room : ℕ) (unset : ℕ → UInt8) (rolling localRolling : Bool)
    (buffer : List Midi.Event) (lastEvent : Midi.Event) (connection : List Message)
    (hv : ∀ m ∈ connection, m.Voice)
    (hsorted : connection.Pairwise fun a b => a.time ≤ b.time) :
    Complete (localRolling && !rolling) buffer connection
        (process room unset rolling localRolling buffer lastEvent connection) ↔
      Fits room (localRolling && !rolling) buffer connection := by
  obtain ⟨l, hl, hprocess⟩ :=
    exists_process_eq room unset rolling localRolling buffer lastEvent connection
  rw [hprocess]
  exact ⟨fits_of_complete hl, complete_of_fits hl hv hsorted⟩

/-- A note-on at a frame. -/
def noteOn (frameOffset : ℤ) : Midi.Event where
  pos := ⟨⟨1, 0, 1⟩, Nat.zero_lt_one⟩
  frameOffset := frameOffset
  data := ⟨Midi.TYPE_NOTE_ON, 60, 100, 0⟩

/-- A note of the event buffer behind one of the connection. -/
theorem process_complete_notes :
    Complete false [noteOn 5] [⟨3, [0x90, 64, 100]⟩]
      (process 42 (fun _ => 0) true true [noteOn 5] (noteOn 0) [⟨3, [0x90, 64, 100]⟩]) := by
  refine (process_complete_iff 42 _ true true [noteOn 5] (noteOn 0) [⟨3, [0x90, 64, 100]⟩]
    ?_ (List.pairwise_singleton _ _)).mpr ⟨by decide, by decide, List.pairwise_singleton _ _⟩
  intro m hm
  obtain rfl := List.mem_singleton.mp hm
  refine ⟨0x90, [64, 100], rfl, by decide, by decide, ?_, by decide⟩
  exact List.forall_mem_cons.mpr ⟨by decide, List.forall_mem_singleton.mpr (by decide)⟩

/-- A program change gets a third byte. And when the transport stops, 27 notes do not fit behind the
sixteen events sent: the buffer of 1024 bytes has room for 42. -/
theorem process_incomplete :
    ¬ Complete false [] [⟨0, [0xC0, 5]⟩]
        (process 42 (fun _ => 0) true true [] (noteOn 0) [⟨0, [0xC0, 5]⟩]) ∧
      ¬ Complete true [] (List.replicate 27 ⟨0, [0x90, 64, 100]⟩)
        (process 42 (fun _ => 0) false true [] (noteOn 0)
          (List.replicate 27 ⟨0, [0x90, 64, 100]⟩)) := by
  constructor
  · rintro ⟨tail, order, heq, hperm, hcarries, -⟩
    obtain rfl : order = [⟨0, [0xC0, 5]⟩] := List.perm_singleton.mp hperm
    obtain rfl : tail = [⟨0, 3, [0xC0, 5, 0]⟩] := heq.symm.trans (by decide)
    cases hcarries with
    | cons hm _ => exact absurd hm.size (by decide)
  · rintro ⟨tail, order, heq, hperm, hcarries, -⟩
    have htail : tail.length = 27 := by
      rw [hcarries.length_eq, hperm.length_eq]
      rfl
    have hlen := congrArg List.length heq
    rw [List.length_append, htail] at hlen
    exact absurd hlen (by decide +kernel)

end MidiInput

end Bipscript.LV2
