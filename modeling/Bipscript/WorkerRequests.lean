import Bipscript.Library.Framing
import Bipscript.Library.Run

/-! The requests of an LV2 worker: `scheduleWork` on one thread, `run` on another, and a ring buffer
of bytes between them. The machine is little-endian. -/
namespace Bipscript.Worker

open Framing

/-- `jack_ringbuffer_create(4096)`: one byte is never used. -/
def ringbuffer : ℕ := 4095

/-- What a caller hands over: as many bytes as its `uint32_t` says. -/
structure Payload where
  data : List UInt8
  size : data.length < 2 ^ 32
deriving DecidableEq

/-- Where a call of `scheduleWork` stands. -/
inductive Scheduling
  | idle
  | sized (p : Payload)
  | written (p : Payload)

/-- Where `run` stands in its loop: at `sem_wait`, or with a buffer for the data. An allocation that
fails ends it. -/
inductive Running
  | waiting
  | sized (size : ℕ) (buffer : List UInt8)
  | dead

/-- The ring buffer and the semaphore, both threads, the payloads for which `scheduleWork` has
succeeded, and what `work` was called with. -/
structure Requests where
  requestBuffer : List UInt8
  semaphore : ℕ
  scheduling : Scheduling
  running : Running
  scheduled : List Payload
  worked : List (ℕ × List UInt8)

/-- One access to the ring buffer or the semaphore. `realloc` gives no buffer, or one of the size
asked for, whatever its bytes are. -/
inductive Op
  | writeSize (p : Payload)
  | writeData
  | post
  | readSize (buffer : Option (ℕ → UInt8))
  | work

namespace Requests

def initial : Requests := ⟨[], 0, .idle, .waiting, [], []⟩

variable (capacity : ℕ)

/-- The first line of `scheduleWork`. -/
def writeSize (s : Requests) (p : Payload) : Requests :=
  match s.scheduling with
  | .idle =>
    { s with requestBuffer := write capacity s.requestBuffer (bytes32 p.data.length),
             scheduling := .sized p }
  | _ => s

/-- The second. -/
def writeData (s : Requests) : Requests :=
  match s.scheduling with
  | .sized p =>
    { s with requestBuffer := write capacity s.requestBuffer p.data, scheduling := .written p }
  | _ => s

/-- `sem_post`, and the success that is returned. -/
def post (s : Requests) : Requests :=
  match s.scheduling with
  | .written p =>
    { s with semaphore := s.semaphore + 1, scheduling := .idle,
             scheduled := s.scheduled ++ [p] }
  | _ => s

/-- `run` from `sem_wait` to the allocation. -/
def readSize (s : Requests) (buffer : Option (ℕ → UInt8)) : Requests :=
  match s.running, s.semaphore with
  | .waiting, n + 1 =>
    let size := number (s.requestBuffer.take 4)
    let s := { s with requestBuffer := s.requestBuffer.drop 4, semaphore := n }
    match buffer with
    | none => { s with running := .dead }
    | some byte => { s with running := .sized size ((List.range size).map byte) }
  | _, _ => s

/-- The rest of `run`'s loop. What the read does not fill of the buffer is left as it is. -/
def work (s : Requests) : Requests :=
  match s.running with
  | .sized size buffer =>
    let data := s.requestBuffer.take size
    { s with requestBuffer := s.requestBuffer.drop size, running := .waiting,
             worked := s.worked ++ [(size, data ++ buffer.drop data.length)] }
  | _ => s

def exec (s : Requests) : Op → Requests
  | .writeSize p => s.writeSize capacity p
  | .writeData => s.writeData capacity
  | .post => s.post
  | .readSize buffer => s.readSize buffer
  | .work => s.work

/-- What was worked is a first part of what was scheduled. -/
def Prefix (s : Requests) : Prop :=
  s.worked <+: s.scheduled.map fun p => (p.data.length, p.data)

/-- As long as `run` goes on, both writes of a call find room. -/
def Fits (s : Requests) : Op → Prop
  | .writeSize _ => s.running ≠ .dead → s.requestBuffer.length + 4 ≤ capacity
  | .writeData => s.running ≠ .dead → ∀ p, s.scheduling = .sized p →
      s.requestBuffer.length + p.data.length ≤ capacity
  | _ => True

end Requests

/-- What a call under way has written. -/
def Scheduling.bytes : Scheduling → List UInt8
  | .idle => []
  | .sized p => bytes32 p.data.length
  | .written p => frame p.data

/-- What the ring buffer holds of the payloads that are not worked. -/
def Running.bytes (rest : List Payload) : Running → List UInt8
  | .waiting => frames (rest.map Payload.data)
  | .sized _ _ => (frames (rest.map Payload.data)).drop 4
  | .dead => []

/-- The payloads that `run` has waited for and not worked. -/
def Running.held : Running → ℕ
  | .sized _ _ => 1
  | _ => 0

namespace Requests

/-- The ring buffer holds the frames of what is scheduled and not worked, and the call under way. -/
structure Framed (s : Requests) (done rest : List Payload) : Prop where
  scheduled : s.scheduled = done ++ rest
  worked : s.worked = done.map fun p => (p.data.length, p.data)
  bytes : s.running ≠ .dead → s.requestBuffer = s.running.bytes rest ++ s.scheduling.bytes
  semaphore : s.running ≠ .dead → s.semaphore + s.running.held = rest.length
  sized : ∀ size buffer, s.running = .sized size buffer →
    ∃ p rest', rest = p :: rest' ∧ size = p.data.length ∧ buffer.length = size

theorem Framed.prefix {s : Requests} {done rest : List Payload} (h : Framed s done rest) :
    s.Prefix := by
  unfold Prefix
  rw [h.worked, h.scheduled, List.map_append]
  exact List.prefix_append _ _

variable {capacity : ℕ} {s : Requests} {done rest : List Payload}

theorem framed_initial : Framed initial [] [] :=
  ⟨rfl, rfl, fun _ => rfl, fun _ => rfl, fun _ _ h => by cases h⟩

theorem Framed.writeSize (h : Framed s done rest) {p : Payload}
    (hfits : s.Fits capacity (.writeSize p)) : Framed (s.writeSize capacity p) done rest := by
  unfold Requests.writeSize
  cases hcall : s.scheduling with
  | idle =>
    refine ⟨h.scheduled, h.worked, fun hrun => ?_, h.semaphore, h.sized⟩
    have hwrite : write capacity s.requestBuffer (bytes32 p.data.length) =
        s.requestBuffer ++ bytes32 p.data.length := write_of_le (hfits hrun)
    have hbytes := h.bytes hrun
    rw [hcall, Scheduling.bytes, List.append_nil] at hbytes
    dsimp only
    rw [hwrite, hbytes]
    rfl
  | sized q => exact h
  | written q => exact h

theorem Framed.writeData (h : Framed s done rest) (hfits : s.Fits capacity .writeData) :
    Framed (s.writeData capacity) done rest := by
  unfold Requests.writeData
  cases hcall : s.scheduling with
  | idle => exact h
  | sized p =>
    refine ⟨h.scheduled, h.worked, fun hrun => ?_, h.semaphore, h.sized⟩
    have hwrite : write capacity s.requestBuffer p.data = s.requestBuffer ++ p.data :=
      write_of_le (hfits hrun p hcall)
    have hbytes := h.bytes hrun
    rw [hcall, Scheduling.bytes] at hbytes
    dsimp only
    rw [hwrite, hbytes, List.append_assoc]
    rfl
  | written p => exact h

theorem Framed.post (h : Framed s done rest) : ∃ rest', Framed s.post done rest' := by
  unfold Requests.post
  cases hcall : s.scheduling with
  | idle => exact ⟨rest, h⟩
  | sized p => exact ⟨rest, h⟩
  | written p =>
    refine ⟨rest ++ [p], ?_, h.worked, fun hrun => ?_, fun hrun => ?_, fun size buffer hsized => ?_⟩
    · dsimp only
      rw [h.scheduled, List.append_assoc]
    · have hbytes := h.bytes hrun
      rw [hcall] at hbytes
      dsimp only
      rw [hbytes, Scheduling.bytes, Scheduling.bytes, List.append_nil]
      cases hr : s.running with
      | waiting =>
        rw [Running.bytes, Running.bytes, List.map_append, List.map_singleton, frames_concat]
      | sized size buffer =>
        obtain ⟨q, rest', rfl, -, -⟩ := h.sized size buffer hr
        rw [Running.bytes, Running.bytes, List.map_append, List.map_singleton, frames_concat,
          List.map_cons, frames_cons, List.append_assoc, drop_bytes32, drop_bytes32]
      | dead => exact absurd hr hrun
    · have hsem := h.semaphore hrun
      dsimp only at hsem ⊢
      rw [List.length_append, List.length_singleton]
      omega
    · obtain ⟨q, rest', rfl, hsize, hlength⟩ := h.sized size buffer hsized
      exact ⟨q, rest' ++ [p], rfl, hsize, hlength⟩

theorem Framed.readSize (h : Framed s done rest) (buffer : Option (ℕ → UInt8)) :
    Framed (s.readSize buffer) done rest := by
  unfold Requests.readSize
  cases hr : s.running with
  | waiting =>
    have hrun : s.running ≠ .dead := by
      rw [hr]
      exact fun h => by cases h
    have hsem := h.semaphore hrun
    have hbytes := h.bytes hrun
    rw [hr] at hsem hbytes
    cases hn : s.semaphore with
    | zero => exact h
    | succ n =>
      cases rest with
      | nil =>
        rw [hn] at hsem
        cases hsem
      | cons p rest =>
        rw [Running.bytes, List.map_cons, frames_cons, List.append_assoc] at hbytes
        have hsize : number (s.requestBuffer.take 4) = p.data.length := by
          rw [hbytes, number_take p.size]
        cases buffer with
        | none =>
          exact ⟨h.scheduled, h.worked, fun hd => absurd rfl hd, fun hd => absurd rfl hd,
            fun _ _ h => by cases h⟩
        | some byte =>
          refine ⟨h.scheduled, h.worked, fun _ => ?_, fun _ => ?_, ?_⟩
          · dsimp only
            rw [hbytes, drop_bytes32, Running.bytes, List.map_cons, frames_cons, drop_bytes32]
          · rw [hn] at hsem
            exact hsem
          · rintro size buffer ⟨⟩
            refine ⟨p, rest, rfl, hsize, ?_⟩
            rw [List.length_map, List.length_range]
  | sized size buffer => exact h
  | dead => exact h

theorem Framed.work (h : Framed s done rest) : ∃ done' rest', Framed s.work done' rest' := by
  unfold Requests.work
  cases hr : s.running with
  | waiting => exact ⟨done, rest, h⟩
  | sized size buffer =>
    have hrun : s.running ≠ .dead := by
      rw [hr]
      exact fun h => by cases h
    obtain ⟨p, rest', rfl, rfl, hlength⟩ := h.sized size buffer hr
    have hsem := h.semaphore hrun
    have hbytes := h.bytes hrun
    rw [hr] at hsem hbytes
    rw [Running.bytes, List.map_cons, frames_cons, drop_bytes32, List.append_assoc] at hbytes
    have hdata : s.requestBuffer.take p.data.length = p.data := by rw [hbytes, List.take_left]
    refine ⟨done ++ [p], rest', ?_, ?_, fun _ => ?_, fun _ => ?_, fun _ _ h => by cases h⟩
    · dsimp only
      rw [h.scheduled, List.append_assoc]
      rfl
    · dsimp only
      rw [hdata, h.worked, List.map_append, List.drop_of_length_le hlength.le, List.append_nil]
      rfl
    · dsimp only
      rw [hbytes, List.drop_left]
      rfl
    · exact Nat.succ.inj hsem
  | dead => exact ⟨done, rest, h⟩

/-- What was scheduled is split where `run` stands. -/
def Accounted (s : Requests) : Prop := ∃ done rest, Framed s done rest

theorem accounted_exec {op : Op} (h : s.Accounted) (hfits : s.Fits capacity op) :
    (s.exec capacity op).Accounted := by
  obtain ⟨done, rest, h⟩ := h
  cases op with
  | writeSize p => exact ⟨done, rest, h.writeSize hfits⟩
  | writeData => exact ⟨done, rest, h.writeData hfits⟩
  | post => exact ⟨done, h.post⟩
  | readSize buffer => exact ⟨done, rest, h.readSize buffer⟩
  | work => exact h.work

/-- In every run of which each write finds room, what is worked is always a first part of what was
scheduled, with its own sizes and bytes. -/
theorem always_prefix {ops : List Op}
    (hfits : Transition.Always (exec capacity) (Fits capacity) initial ops) :
    Transition.Always (exec capacity) (fun s op => (s.exec capacity op).Prefix) initial ops := by
  refine Transition.always_of_invariant (I := Accounted) (R := Fits capacity) ?_
    (fun s op h hfits => accounted_exec h hfits) ⟨[], [], framed_initial⟩ hfits
  intro s op h hfits
  obtain ⟨done, rest, hframed⟩ := accounted_exec h hfits
  exact hframed.prefix

theorem always_prefix_small :
    let p : Payload := ⟨[1, 2], by decide⟩
    Transition.Always (exec ringbuffer) (fun s op => (s.exec ringbuffer op).Prefix) initial
      [.writeSize p, .writeData, .post, .readSize (some fun _ => 0), .work] := by
  intro p
  refine always_prefix ⟨fun _ => by decide, fun _ q hq => ?_, trivial, trivial, trivial, trivial⟩
  cases hq
  decide

/-- What `work` is called with for a payload of which the ring buffer stores a first part: the rest
of its buffer is what the allocation left there. -/
theorem worked_of_long {p : Payload} (h : ringbuffer ≤ 4 + p.data.length) (byte : ℕ → UInt8) :
    ((((initial.writeSize ringbuffer p).writeData ringbuffer).post.readSize
      (some byte)).work).worked =
      [(p.data.length, p.data.take 4091 ++ ((List.range p.data.length).map byte).drop 4091)] := by
  have hlong : 4091 ≤ p.data.length := by
    have : ringbuffer = 4095 := rfl
    omega
  have hstored : write ringbuffer (write ringbuffer [] (bytes32 p.data.length)) p.data =
      bytes32 p.data.length ++ p.data.take 4091 := by
    have hsize : write ringbuffer [] (bytes32 p.data.length) = bytes32 p.data.length := rfl
    rw [hsize]
    rfl
  have hworked : ((((initial.writeSize ringbuffer p).writeData ringbuffer).post.readSize
      (some byte)).work).worked =
      let stored := write ringbuffer (write ringbuffer [] (bytes32 p.data.length)) p.data
      let size := number (stored.take 4)
      let data := (stored.drop 4).take size
      [(size, data ++ ((List.range size).map byte).drop data.length)] := rfl
  have hdata : (p.data.take 4091).length = 4091 := by
    rw [List.length_take]
    omega
  rw [hworked, hstored]
  dsimp only
  rw [number_take p.size, drop_bytes32, List.take_of_length_le (by omega), hdata]

/-- 5000 ones, of which the ring buffer stores 4091: `work` is called with 909 zeros in place of the
others. -/
theorem not_always_prefix :
    let p : Payload := ⟨List.replicate 5000 1, by rw [List.length_replicate]; decide⟩
    ¬ Transition.Always (exec ringbuffer) (fun s op => (s.exec ringbuffer op).Prefix) initial
      [.writeSize p, .writeData, .post, .readSize (some fun _ => 0), .work] := by
  intro p
  rintro ⟨-, -, -, -, hprefix, -⟩
  have hlength : p.data.length = 5000 := List.length_replicate
  have hworked := worked_of_long (p := p) (by rw [hlength]; decide) fun _ => 0
  change List.IsPrefix _ [(p.data.length, p.data)] at hprefix
  change ((((initial.writeSize ringbuffer p).writeData ringbuffer).post.readSize
    (some fun _ => 0)).work).worked <+: [(p.data.length, p.data)] at hprefix
  rw [hworked, List.cons_prefix_cons] at hprefix
  have hbytes := congrArg (fun q : ℕ × List UInt8 => q.2.getLast?) hprefix.1
  have hzero : ((List.range p.data.length).map fun _ => (0 : UInt8)).drop 4091 =
      List.replicate 909 0 := by
    rw [hlength, List.map_const', List.length_range, List.drop_replicate]
  have hone : p.data.getLast? = some 1 := by
    rw [List.getLast?_replicate, if_neg (by norm_num)]
  dsimp only at hbytes
  rw [hzero, hone, List.getLast?_append, List.getLast?_replicate, if_neg (by norm_num)] at hbytes
  cases hbytes

end Requests

end Bipscript.Worker
