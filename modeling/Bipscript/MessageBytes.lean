import Bipscript.Contents

/-! The bytes of MIDI messages that are read as events: which of them those of an earlier message
show through. -/
namespace Bipscript

open Audio

namespace LV2

/-- A message of at least three bytes that is no program change. -/
def Message.Packs (m : Message) : Prop :=
  ∃ status data, m.bytes = status :: data ∧ 2 ≤ data.length ∧ status &&& 0xf0 ≠ 0xC0

/-- A control change has at least three bytes. -/
def Message.Controls (m : Message) : Prop :=
  ∃ status data, m.bytes = status :: data ∧
    (status &&& 0xf0 = Midi.TYPE_CONTROL → 2 ≤ data.length)

/-- The event that the message is unpacked into, over what was there. -/
def Message.over (lastEvent : Midi.Event) (m : Message) : Midi.Event :=
  Midi.setFrameOffset m.time (Midi.unpack lastEvent m.bytes)

/-- The events go to the same frame and are packed into the same bytes. -/
structure SamePack (e e' : Midi.Event) : Prop where
  frameOffset : e.frameOffset = e'.frameOffset
  data : e.data = e'.data
  type : e.data.type ≠ 0xC0

theorem samePack_refl {e : Midi.Event} (h : e.data.type ≠ 0xC0) : SamePack e e := ⟨rfl, rfl, h⟩

theorem Message.Packs.samePack {m : Message} (h : m.Packs) (lastEvent lastEvent' : Midi.Event) :
    SamePack (m.over lastEvent) (m.over lastEvent') := by
  obtain ⟨time, bytes⟩ := m
  obtain ⟨status, data, rfl, hlen, htype⟩ := h
  match data, hlen with
  | d1 :: d2 :: rest, _ => exact ⟨rfl, rfl, htype⟩

theorem SamePack.lv2Event_eq {e e' : Midi.Event} (h : SamePack e e') (unset unset' : UInt8) :
    MidiInput.lv2Event unset e = MidiInput.lv2Event unset' e' := by
  have hsize : Midi.dataSize e = 2 := if_neg h.type
  have hsize' : Midi.dataSize e' = 2 := if_neg (h.data ▸ h.type)
  simp [MidiInput.lv2Event, Midi.pack, hsize, hsize', h.frameOffset, h.data]

namespace MidiInput

theorem connectionEvents_samePack {messages : List Message} (h : ∀ m ∈ messages, m.Packs)
    (lastEvent lastEvent' : Midi.Event) :
    List.Forall₂ SamePack (connectionEvents lastEvent messages)
      (connectionEvents lastEvent' messages) := by
  induction messages generalizing lastEvent lastEvent' with
  | nil => exact .nil
  | cons m messages ih =>
    obtain ⟨hm, hrest⟩ := List.forall_mem_cons.mp h
    exact .cons (hm.samePack lastEvent lastEvent') (ih hrest _ _)

/-- Of the events the loop reads their frames and what they are packed into. -/
theorem loop_congr {room : ℕ} {unset unset' : ℕ → UInt8}
    {buffer connection connection' : List Midi.Event}
    (hb : ∀ e ∈ buffer, e.data.type ≠ 0xC0) (hc : List.Forall₂ SamePack connection connection')
    (fuel : ℕ) (seq : List AtomEvent) :
    loop room unset fuel buffer connection seq = loop room unset' fuel buffer connection' seq := by
  induction fuel generalizing buffer connection connection' seq with
  | zero => rfl
  | succ fuel ih =>
    cases buffer with
    | nil =>
      cases hc with
      | nil => rfl
      | cons he hc =>
        simp only [loop]
        rw [he.lv2Event_eq, ih hb hc]
    | cons b buffer =>
      obtain ⟨hb₀, hb'⟩ := List.forall_mem_cons.mp hb
      have hbe := (samePack_refl hb₀).lv2Event_eq (unset fuel) (unset' fuel)
      cases hc with
      | nil =>
        simp only [loop]
        rw [hbe, ih hb' .nil]
      | cons he hc =>
        simp only [loop]
        rw [he.frameOffset, hbe, he.lv2Event_eq (unset fuel) (unset' fuel), ih hb' (.cons he hc),
          ih hb hc]

/-- No byte is read that was there before the period, or is never written. -/
theorem process_congr {room : ℕ} (unset unset' : ℕ → UInt8) (rolling localRolling : Bool)
    {buffer : List Midi.Event} (lastEvent lastEvent' : Midi.Event) {messages : List Message}
    (hb : ∀ e ∈ buffer, e.data.type ≠ 0xC0) (hm : ∀ m ∈ messages, m.Packs) :
    process room unset rolling localRolling buffer lastEvent messages =
      process room unset' rolling localRolling buffer lastEvent' messages :=
  loop_congr hb (connectionEvents_samePack hm lastEvent lastEvent') _ _

end MidiInput

/-- The events change controls alike. -/
structure SameControl (e e' : Midi.Event) : Prop where
  frameOffset : e.frameOffset = e'.frameOffset
  type : e.data.type = e'.data.type
  data : e.data.type = Midi.TYPE_CONTROL → e.data = e'.data

theorem Message.Controls.sameControl {m : Message} (h : m.Controls)
    (lastEvent lastEvent' : Midi.Event) :
    SameControl (m.over lastEvent) (m.over lastEvent') := by
  obtain ⟨time, bytes⟩ := m
  obtain ⟨status, data, rfl, hlen⟩ := h
  refine ⟨rfl, rfl, fun htype => ?_⟩
  match data, hlen htype with
  | d1 :: d2 :: rest, _ => rfl

theorem SameControl.applyMappings_eq {e e' : Midi.Event} (h : SameControl e e')
    (mappings : List MixerControlMapping) (gain : Gains) :
    applyMappings mappings gain e = applyMappings mappings gain e' := by
  by_cases htype : e.data.type = Midi.TYPE_CONTROL
  · rw [applyMappings, applyMappings, Midi.matchesType, Midi.matchesType, h.data htype]
  · have htype' : e'.data.type ≠ Midi.TYPE_CONTROL := h.type ▸ htype
    simp [applyMappings, Midi.matchesType, Ne.symm htype, Ne.symm htype']

theorem SameControl.update_eq {P : Type} {e e' : Midi.Event} (h : SameControl e e')
    (c : ControlConnection P) (ports : ℕ → ℚ) : c.update e ports = c.update e' ports := by
  by_cases htype : e.data.type = Midi.TYPE_CONTROL
  · rw [ControlConnection.update, ControlConnection.update, Midi.matchesType, Midi.matchesType,
      h.data htype]
  · have htype' : e'.data.type ≠ Midi.TYPE_CONTROL := h.type ▸ htype
    simp [ControlConnection.update, Midi.matchesType, Ne.symm htype, Ne.symm htype']

end LV2

end Bipscript
