import Bipscript.WorkerRequests

/-! The responses of an LV2 worker: `queueResponse` on its thread, `respond` on the process
thread. -/
namespace Bipscript.Worker

open Framing

/-- Where a call of `queueResponse` stands. -/
inductive Queueing
  | idle
  | sized (p : Payload)

/-- Where `respond` stands: not called, at the test of its loop, or between its two reads. -/
inductive Responding
  | idle
  | looping (readSpace : ℕ)
  | sized (readSpace size : ℕ)
deriving DecidableEq

/-- The ring buffer, both threads, `response`, whether a read went past its end, the calls of
`queueResponse` and of `work_response`, and of the last call of `respond` the bytes readable when it
started, those consumed, the turns of its loop and the responses that were whole. -/
structure Responses where
  responseBuffer : List UInt8
  queueing : Queueing
  responding : Responding
  response : List UInt8
  overrun : Bool
  queued : List Payload
  responded : List (ℕ × List UInt8)
  readable : ℕ
  consumed : ℕ
  turns : ℕ
  due : ℕ

/-- `char response[2048]` -/
def responseLength : ℕ := 2048

namespace Responses

/-- One access to the ring buffer, or the test that ends the loop. -/
inductive Op
  | writeSize (p : Payload)
  | writeData
  | respond
  | readSize
  | readData
  | finish

def initial : Responses :=
  ⟨[], .idle, .idle, List.replicate responseLength 0, false, [], [], 0, 0, 0, 0⟩

/-- The first line of `queueResponse`. -/
def writeSize (s : Responses) (p : Payload) : Responses :=
  match s.queueing with
  | .idle =>
    { s with responseBuffer := write ringbuffer s.responseBuffer (bytes32 p.data.length),
             queueing := .sized p, queued := s.queued ++ [p] }
  | .sized _ => s

/-- The second. -/
def writeData (s : Responses) : Responses :=
  match s.queueing with
  | .idle => s
  | .sized p =>
    { s with responseBuffer := write ringbuffer s.responseBuffer p.data, queueing := .idle }

/-- The responses of which both writes are done. -/
def whole (s : Responses) : ℕ :=
  match s.queueing with
  | .idle => s.queued.length
  | .sized _ => s.queued.length - 1

/-- `read_space` -/
def respond (s : Responses) : Responses :=
  match s.responding with
  | .idle =>
    { s with responding := .looping s.responseBuffer.length, readable := s.responseBuffer.length,
             consumed := 0, turns := 0, due := s.whole }
  | _ => s

def readSize (s : Responses) : Responses :=
  match s.responding with
  | .looping (readSpace + 1) =>
    let bytes := s.responseBuffer.take 4
    { s with responseBuffer := s.responseBuffer.drop 4,
             responding := .sized (readSpace + 1) (number bytes),
             consumed := s.consumed + bytes.length, turns := s.turns + 1 }
  | _ => s

/-- The read into `response`, `work_response`, and `read_space -= sizeof(size) + size`. -/
def readData (s : Responses) : Responses :=
  match s.responding with
  | .sized readSpace size =>
    let bytes := s.responseBuffer.take size
    let response := (bytes ++ s.response.drop bytes.length).take responseLength
    { s with responseBuffer := s.responseBuffer.drop size,
             responding := .looping ((readSpace + (2 ^ 33 - (4 + size))) % 2 ^ 32),
             response := response,
             overrun := s.overrun || responseLength < bytes.length,
             responded := s.responded ++ [(size, response.take size)],
             consumed := s.consumed + bytes.length }
  | _ => s

def finish (s : Responses) : Responses :=
  match s.responding with
  | .looping 0 => { s with responding := .idle }
  | _ => s

def exec (s : Responses) : Op → Responses
  | .writeSize p => s.writeSize p
  | .writeData => s.writeData
  | .respond => s.respond
  | .readSize => s.readSize
  | .readData => s.readData
  | .finish => s.finish

/-- The responses passed to `work_response` are the first that were queued, once each and in order;
`response` holds each; a call of `respond` consumes no more than it found, at least four bytes a
turn; and once it is over, all that was whole when it started is passed. -/
structure Proper (s : Responses) : Prop where
  each : s.responded <+: s.queued.map fun p => (p.data.length, p.data)
  within : s.overrun = false
  consumed : s.consumed ≤ s.readable
  turns : 4 * s.turns ≤ s.consumed
  due : s.responding = .idle → s.due ≤ s.responded.length

/-- Both writes find room and the response fits `response`, and `respond` does not start between the
two writes, unless the second writes nothing. -/
def Undivided (s : Responses) : Op → Prop
  | .writeSize p => s.queueing = .idle →
      s.responseBuffer.length + 4 ≤ ringbuffer ∧ p.data.length ≤ responseLength
  | .writeData => ∀ p, s.queueing = .sized p →
      s.responseBuffer.length + p.data.length ≤ ringbuffer
  | .respond => s.responding = .idle → ∀ p, s.queueing = .sized p → p.data = []
  | _ => True

/-- What the second write of a call under way will add. -/
def unwritten (s : Responses) : List UInt8 :=
  match s.queueing with
  | .idle => []
  | .sized p => p.data

/-- Where `respond` stands among the responses `rest` that are not passed: the ring buffer holds
the frames of those it is to pass before it returns. -/
def Stands (s : Responses) (done rest : List Payload) : Prop :=
  match s.responding with
  | .idle => s.responseBuffer ++ s.unwritten = frames (rest.map Payload.data) ∧
      s.due ≤ done.length
  | .looping readSpace => s.responseBuffer ++ s.unwritten = frames (rest.map Payload.data) ∧
      ∃ now later, rest = now ++ later ∧ readSpace = (frames (now.map Payload.data)).length ∧
        readSpace ≤ s.responseBuffer.length ∧ s.consumed + readSpace = s.readable ∧
        s.due ≤ done.length + now.length
  | .sized readSpace size => ∃ p now later, rest = p :: (now ++ later) ∧ size = p.data.length ∧
      s.responseBuffer ++ s.unwritten = p.data ++ frames ((now ++ later).map Payload.data) ∧
        readSpace = 4 + p.data.length + (frames (now.map Payload.data)).length ∧
        p.data.length + (frames (now.map Payload.data)).length ≤ s.responseBuffer.length ∧
        s.consumed + readSpace = s.readable + 4 ∧ s.due ≤ done.length + (now.length + 1)

/-- What was queued is split where `respond` stands. -/
structure Split (s : Responses) (done rest : List Payload) : Prop where
  queued : s.queued = done ++ rest
  responded : s.responded = done.map fun p => (p.data.length, p.data)
  stands : s.Stands done rest
  fits : ∀ p ∈ rest, p.data.length ≤ responseLength
  room : s.responseBuffer.length ≤ ringbuffer
  within : s.overrun = false
  consumed : s.consumed ≤ s.readable
  turns : 4 * s.turns ≤ s.consumed

theorem Split.proper {s : Responses} {done rest : List Payload} (h : Split s done rest) :
    Proper s := by
  refine ⟨?_, h.within, h.consumed, h.turns, fun hidle => ?_⟩
  · rw [h.responded, h.queued, List.map_append]
    exact List.prefix_append _ _
  · have hstands := h.stands
    unfold Stands at hstands
    rw [hidle] at hstands
    rw [h.responded, List.length_map]
    exact hstands.2

variable {s : Responses} {done rest : List Payload}

theorem Split.writeSize (h : Split s done rest) {p : Payload} (hu : s.Undivided (.writeSize p)) :
    ∃ rest', Split (s.writeSize p) done rest' := by
  unfold Responses.writeSize
  cases hcall : s.queueing with
  | sized q => exact ⟨rest, h⟩
  | idle =>
    obtain ⟨hroom, hlength⟩ := hu hcall
    have hwrite : write ringbuffer s.responseBuffer (bytes32 p.data.length) =
        s.responseBuffer ++ bytes32 p.data.length := write_of_le hroom
    have hunwritten : s.unwritten = [] := by
      unfold unwritten
      rw [hcall]
    -- the frame of `p` comes after all that the buffer held
    have hlater : ∀ first : List UInt8, s.responseBuffer ++ s.unwritten = first →
        s.responseBuffer ++ bytes32 p.data.length ++ p.data = first ++ frame p.data := by
      rintro first rfl
      rw [hunwritten, List.append_nil, List.append_assoc]
      rfl
    refine ⟨rest ++ [p], ?_, h.responded, ?_, fun q hq => ?_, length_write_le h.room, h.within,
      h.consumed, h.turns⟩
    · dsimp only
      rw [h.queued, List.append_assoc]
    · have hstands := h.stands
      unfold Stands at hstands ⊢
      dsimp only [unwritten]
      rw [hwrite]
      cases hr : s.responding with
      | idle =>
        rw [hr] at hstands
        refine ⟨?_, hstands.2⟩
        rw [hlater _ hstands.1, List.map_append, List.map_singleton, frames_concat]
      | looping readSpace =>
        rw [hr] at hstands
        obtain ⟨hbytes, now, later, rfl, hspace, hle, hconsumed, hdue⟩ := hstands
        refine ⟨?_, now, later ++ [p], List.append_assoc .., hspace, ?_, hconsumed, hdue⟩
        · rw [hlater _ hbytes, @List.map_append _ _ _ _ [p], List.map_singleton, frames_concat]
        · rw [List.length_append]
          omega
      | sized readSpace size =>
        rw [hr] at hstands
        obtain ⟨q, now, later, rfl, hsize, hbytes, hspace, hle, hconsumed, hdue⟩ := hstands
        refine ⟨q, now, later ++ [p], ?_, hsize, ?_, hspace, ?_, hconsumed, hdue⟩
        · rw [List.cons_append, List.append_assoc]
        · rw [hlater _ hbytes, ← List.append_assoc now, @List.map_append _ _ _ _ [p],
            List.map_singleton, frames_concat, List.append_assoc]
        · rw [List.length_append]
          omega
    · rcases List.mem_append.mp hq with hq | hq
      · exact h.fits q hq
      · rw [List.mem_singleton.mp hq]
        exact hlength

theorem Split.writeData (h : Split s done rest) (hu : s.Undivided .writeData) :
    Split s.writeData done rest := by
  unfold Responses.writeData
  cases hcall : s.queueing with
  | idle => exact h
  | sized p =>
    have hwrite : write ringbuffer s.responseBuffer p.data = s.responseBuffer ++ p.data :=
      write_of_le (hu p hcall)
    have hunwritten : s.unwritten = p.data := by
      unfold unwritten
      rw [hcall]
    refine ⟨h.queued, h.responded, ?_, h.fits, length_write_le h.room, h.within, h.consumed,
      h.turns⟩
    have hstands := h.stands
    unfold Stands at hstands ⊢
    dsimp only [unwritten]
    rw [hwrite, List.append_nil]
    cases hr : s.responding with
    | idle =>
      rw [hr, hunwritten] at hstands
      exact hstands
    | looping readSpace =>
      rw [hr, hunwritten] at hstands
      obtain ⟨hbytes, now, later, hrest, hspace, hle, hlast⟩ := hstands
      refine ⟨hbytes, now, later, hrest, hspace, ?_, hlast⟩
      rw [List.length_append]
      omega
    | sized readSpace size =>
      rw [hr, hunwritten] at hstands
      obtain ⟨q, now, later, hrest, hsize, hbytes, hspace, hle, hlast⟩ := hstands
      refine ⟨q, now, later, hrest, hsize, hbytes, hspace, ?_, hlast⟩
      rw [List.length_append]
      omega

theorem whole_le (s : Responses) : s.whole ≤ s.queued.length := by
  unfold whole
  split
  · exact le_rfl
  · exact Nat.sub_le _ _

/-- The ring buffer holds whole frames when `respond` starts, and all of them are to be passed. -/
theorem Split.respond (h : Split s done rest) (hu : s.Undivided .respond) :
    Split s.respond done rest := by
  unfold Responses.respond
  cases hr : s.responding with
  | idle =>
    have hunwritten : s.unwritten = [] := by
      unfold unwritten
      split
      · rfl
      · rename_i p hcall
        exact hu hr p hcall
    have hstands := h.stands
    unfold Stands at hstands
    rw [hr] at hstands
    refine ⟨h.queued, h.responded, ?_, h.fits, h.room, h.within, Nat.zero_le _, le_rfl⟩
    refine ⟨hstands.1, rest, [], (List.append_nil rest).symm, ?_, le_rfl, Nat.zero_add _, ?_⟩
    · rw [← hstands.1, hunwritten, List.append_nil]
    · have hwhole := s.whole_le
      rw [h.queued, List.length_append] at hwhole
      exact hwhole
  | looping readSpace => exact h
  | sized readSpace size => exact h

theorem Split.readSize (h : Split s done rest) : Split s.readSize done rest := by
  unfold Responses.readSize
  cases hr : s.responding with
  | idle => exact h
  | sized readSpace size => exact h
  | looping readSpace =>
    cases readSpace with
    | zero => exact h
    | succ readSpace =>
      have hstands := h.stands
      unfold Stands at hstands
      rw [hr] at hstands
      obtain ⟨hbytes, now, later, rfl, hspace, hle, hconsumed, hdue⟩ := hstands
      cases now with
      | nil => cases hspace
      | cons p now =>
        rw [List.map_cons, length_frames_cons] at hspace
        rw [List.cons_append, List.map_cons, frames_cons] at hbytes
        obtain ⟨htake, hdrop⟩ := split_of_append_eq hbytes
          (by rw [length_bytes32]; omega)
        rw [length_bytes32] at htake hdrop
        have hsize : number (s.responseBuffer.take 4) = p.data.length := by
          rw [htake, number_bytes32 p.size]
        have hfour : (s.responseBuffer.take 4).length = 4 := by rw [htake, length_bytes32]
        have hturns := h.turns
        refine ⟨h.queued, h.responded, ?_, h.fits, ?_, h.within, ?_, ?_⟩
        · refine ⟨p, now, later, rfl, hsize, hdrop, hspace, ?_, ?_, hdue⟩
          · dsimp only
            rw [List.length_drop]
            omega
          · dsimp only
            rw [hfour]
            omega
        · have hroom := h.room
          dsimp only
          rw [List.length_drop]
          omega
        · dsimp only
          rw [hfour]
          omega
        · dsimp only
          rw [hfour]
          omega

theorem Split.readData (h : Split s done rest) : ∃ done' rest', Split s.readData done' rest' := by
  unfold Responses.readData
  cases hr : s.responding with
  | idle => exact ⟨done, rest, h⟩
  | looping readSpace => exact ⟨done, rest, h⟩
  | sized readSpace size =>
    have hstands := h.stands
    unfold Stands at hstands
    rw [hr] at hstands
    obtain ⟨p, now, later, rfl, rfl, hbytes, hspace, hle, hconsumed, hdue⟩ := hstands
    obtain ⟨htake, hdrop⟩ := split_of_append_eq hbytes (by omega)
    have hlength : p.data.length ≤ responseLength := h.fits p List.mem_cons_self
    have hroom := h.room
    have hring : ringbuffer = 4095 := rfl
    have hresponse : ((p.data ++ s.response.drop p.data.length).take responseLength).take
        p.data.length = p.data := by
      rw [List.take_take, Nat.min_eq_left hlength, List.take_left]
    have hrest : (readSpace + (2 ^ 33 - (4 + p.data.length))) % 2 ^ 32 =
        (frames (now.map Payload.data)).length := by
      have hsize := p.size
      omega
    refine ⟨done ++ [p], now ++ later, ?_, ?_, ?_, fun q hq => h.fits q (List.mem_cons_of_mem p hq),
      ?_, ?_, ?_, ?_⟩
    · dsimp only
      rw [h.queued, List.append_assoc]
      rfl
    · dsimp only
      rw [htake, hresponse, h.responded, List.map_append]
      rfl
    · refine ⟨hdrop, now, later, rfl, hrest, ?_, ?_, ?_⟩
      · dsimp only
        rw [hrest, List.length_drop]
        omega
      · dsimp only
        rw [htake, hrest]
        omega
      · dsimp only
        rw [List.length_append, List.length_singleton]
        omega
    · dsimp only
      rw [List.length_drop]
      omega
    · dsimp only
      rw [h.within, htake, Bool.false_or, decide_eq_false_iff_not]
      omega
    · have := h.consumed
      dsimp only
      rw [htake]
      omega
    · have := h.turns
      dsimp only
      rw [htake]
      omega

theorem Split.finish (h : Split s done rest) : Split s.finish done rest := by
  unfold Responses.finish
  cases hr : s.responding with
  | idle => exact h
  | sized readSpace size => exact h
  | looping readSpace =>
    cases readSpace with
    | succ readSpace => exact h
    | zero =>
      have hstands := h.stands
      unfold Stands at hstands
      rw [hr] at hstands
      obtain ⟨hbytes, now, later, rfl, hspace, -, -, hdue⟩ := hstands
      cases now with
      | nil =>
        exact ⟨h.queued, h.responded, ⟨hbytes, hdue⟩, h.fits, h.room, h.within, h.consumed, h.turns⟩
      | cons p now =>
        rw [List.map_cons, length_frames_cons] at hspace
        omega

/-- What was queued is split somewhere. -/
def Accounted (s : Responses) : Prop := ∃ done rest, Split s done rest

theorem accounted_initial : Accounted initial :=
  ⟨[], [], rfl, rfl, ⟨rfl, le_rfl⟩, (fun p hp => by cases hp), Nat.zero_le _, rfl, le_rfl, le_rfl⟩

theorem accounted_exec {op : Op} (h : s.Accounted) (hu : s.Undivided op) :
    (s.exec op).Accounted := by
  obtain ⟨done, rest, h⟩ := h
  cases op with
  | writeSize p => exact ⟨done, h.writeSize hu⟩
  | writeData => exact ⟨done, rest, h.writeData hu⟩
  | respond => exact ⟨done, rest, h.respond hu⟩
  | readSize => exact ⟨done, rest, h.readSize⟩
  | readData => exact h.readData
  | finish => exact ⟨done, rest, h.finish⟩

/-- In every interleaving in which `respond` never starts between two writes and all writes fit,
every response is passed on, whole and once. -/
theorem always_proper {ops : List Op} (hu : Transition.Always exec Undivided initial ops) :
    Transition.Always exec (fun s op => Proper (s.exec op)) initial ops := by
  refine Transition.always_of_invariant (I := Accounted) (R := Undivided) ?_
    (fun s op h hu => accounted_exec h hu) accounted_initial hu
  intro s op h hu
  obtain ⟨done, rest, hsplit⟩ := accounted_exec h hu
  exact hsplit.proper

theorem always_proper_single :
    let p : Payload := ⟨[7], by decide⟩
    Transition.Always exec (fun s op => Proper (s.exec op)) initial
      [.writeSize p, .writeData, .respond, .readSize, .readData, .finish] := by
  intro p
  refine always_proper ⟨fun _ => by decide, fun q hq => ?_, fun _ q hq => ?_, trivial, trivial,
    trivial, trivial⟩
  · cases hq
    decide
  · cases hq

/-- `respond` starts between the two writes of a response of three bytes: it passes three bytes of
its own, and what is left of `read_space` is 2 ^ 32 - 3. -/
theorem not_always_proper :
    let p : Payload := ⟨[1, 2, 3], by decide⟩
    let ops : List Op := [.writeSize p, .respond, .readSize, .readData]
    (ops.foldl exec initial).responded = [(3, [0, 0, 0])] ∧
      (ops.foldl exec initial).responding = .looping (2 ^ 32 - 3) ∧
      ¬ Transition.Always exec (fun s op => Proper (s.exec op)) initial ops := by
  intro p ops
  have hresponded : (ops.foldl exec initial).responded = [(3, [0, 0, 0])] := by decide +kernel
  refine ⟨hresponded, by decide +kernel, ?_⟩
  rintro ⟨-, -, -, ⟨heach, -⟩, -⟩
  change (ops.foldl exec initial).responded <+: [(3, [1, 2, 3])] at heach
  rw [hresponded] at heach
  revert heach
  decide

end Responses

end Bipscript.Worker
