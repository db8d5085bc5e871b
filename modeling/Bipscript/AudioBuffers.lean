import Mathlib.Data.Nat.Basic
import Bipscript.Library.Run

/-! The buffers of audio connections against the size of a period, which JACK may change. -/
namespace Bipscript.AudioBuffers

/-- A connection, and the frames its own buffer has room for: none where `allocate` was false, and
a port's process call puts JACK's buffer in its place. -/
structure AudioConnection where
  source : ℕ
  buffer : Option ℕ
deriving DecidableEq

/-- The two static members of `AudioConnection`, and the connections of mixers, plugins and input
ports that are alive. -/
structure State where
  dummyBuffer : Option ℕ
  bufferSize : ℕ
  connections : List AudioConnection
deriving DecidableEq

/-- A constructor of a mixer or a plugin makes its connections one at a time, so a period's size may
change between two of them. -/
inductive Op
  | setBufferSize (size : ℕ)
  | connection (source : ℕ) (allocate : Bool)
  | delete (source : ℕ)

namespace State

def initial : State := ⟨none, 0, []⟩

/-- `AudioConnection::setBufferSize` -/
def setBufferSize (s : State) (size : ℕ) : State :=
  { s with dummyBuffer := some size, bufferSize := size }

/-- `new AudioConnection(this)` -/
def connection (s : State) (source : ℕ) (allocate : Bool) : State :=
  { s with connections := s.connections ++
             [⟨source, if allocate then some s.bufferSize else none⟩] }

/-- The destructor of the connections' source. -/
def delete (s : State) (source : ℕ) : State :=
  { s with connections := s.connections.filter fun c => c.source ≠ source }

def exec (s : State) : Op → State
  | .setBufferSize size => s.setBufferSize size
  | .connection source allocate => s.connection source allocate
  | .delete source => s.delete source

/-- The frames that `Mixer::doProcess` and `Plugin::doProcess` write of each of their buffers. -/
def written (s : State) (source nframes : ℕ) : List (AudioConnection × ℕ) :=
  (s.connections.filter fun c => c.source = source).flatMap fun c =>
    (List.range nframes).map fun frame => (c, frame)

/-- Every buffer that a connection owns has room for a period. -/
def Room (s : State) : Prop := ∀ c ∈ s.connections, ∀ room ∈ c.buffer, s.bufferSize ≤ room

/-- No period writes past a buffer. -/
def InBounds (s : State) : Prop :=
  ∀ source nframes, nframes ≤ s.bufferSize → ∀ w ∈ s.written source nframes,
    ∀ room ∈ w.1.buffer, w.2 < room

/-- A size is set that every buffer allocated so far has room for. -/
def Allows (s : State) : Op → Prop
  | .setBufferSize size => ∀ c ∈ s.connections, ∀ room ∈ c.buffer, size ≤ room
  | _ => True

variable {s : State}

theorem mem_written {source nframes : ℕ} {w : AudioConnection × ℕ} :
    w ∈ s.written source nframes ↔
      w.1 ∈ s.connections ∧ w.1.source = source ∧ w.2 < nframes := by
  unfold written
  rw [List.mem_flatMap]
  constructor
  · rintro ⟨c, hc, hw⟩
    obtain ⟨frame, hframe, rfl⟩ := List.mem_map.mp hw
    obtain ⟨hmem, hsource⟩ := List.mem_filter.mp hc
    exact ⟨hmem, of_decide_eq_true hsource, List.mem_range.mp hframe⟩
  · rintro ⟨hmem, hsource, hframe⟩
    exact ⟨w.1, List.mem_filter.mpr ⟨hmem, decide_eq_true hsource⟩,
      List.mem_map.mpr ⟨w.2, List.mem_range.mpr hframe, rfl⟩⟩

/-- Room is what keeps every period in bounds. -/
theorem room_iff_inBounds : s.Room ↔ s.InBounds := by
  constructor
  · intro h source nframes hle w hw room hroom
    obtain ⟨hmem, -, hframe⟩ := mem_written.mp hw
    have hsize : s.bufferSize ≤ room := h w.1 hmem room hroom
    omega
  · intro h c hc room hroom
    by_contra hlt
    have hwrite := h c.source s.bufferSize le_rfl (c, room)
      (mem_written.mpr ⟨hc, rfl, by omega⟩) room hroom
    exact absurd hwrite (lt_irrefl room)

theorem room_exec_iff (hs : s.Room) (op : Op) : (s.exec op).Room ↔ s.Allows op := by
  cases op with
  | setBufferSize size => exact Iff.rfl
  | connection source allocate =>
    refine iff_of_true (fun c hc room hroom => ?_) trivial
    rcases List.mem_append.mp hc with hc | hc
    · exact hs c hc room hroom
    · obtain rfl := List.mem_singleton.mp hc
      cases allocate with
      | true => exact (Option.mem_some_iff.mp hroom).le
      | false => cases hroom
  | delete source =>
    exact iff_of_true (fun c hc room hroom => hs c (List.mem_filter.mp hc).1 room hroom) trivial

theorem room_initial : initial.Room := by
  intro c hc
  cases hc

/-- Whatever the order of resizes, constructions and deletions, every buffer has room for a period,
and no period writes past one, exactly when no size is set that a buffer alive has no room for. -/
theorem always_room_iff (ops : List Op) :
    Transition.Always exec (fun s op => (s.exec op).Room ∧ (s.exec op).InBounds) initial ops ↔
      Transition.Always exec Allows initial ops := by
  refine Transition.always_congr (I := Room) (R := fun _ _ => True) ?_ ?_ room_initial
    (Transition.always_of_forall fun _ _ => trivial)
  · rintro s op hs -
    rw [← room_iff_inBounds, and_self, room_exec_iff hs]
  · exact fun s op _ _ h => h.1

/-- A mixer is made at 256 frames, and JACK's buffer grows to 512. -/
theorem not_always_room :
    ¬ Transition.Always exec (fun s op => (s.exec op).Room ∧ (s.exec op).InBounds) initial
      [.setBufferSize 256, .connection 0 true, .setBufferSize 512] := by
  rintro ⟨-, -, ⟨hroom, -⟩, -⟩
  have hle : 512 ≤ 256 := hroom ⟨0, some 256⟩ List.mem_cons_self 256 rfl
  omega

end State

end Bipscript.AudioBuffers
