import Bipscript.EventBuffer
import Bipscript.Library.Run

/-! An OSC output: the script schedules and sends messages, the output's own thread sends those that
are due, and the process thread asks it to reposition. -/
namespace Bipscript.Osc

open Transition

/-- A `Parameter`: the member of the union that its `type` tells of. -/
inductive Parameter
  /-- `i` -/
  | int (intValue : Int32)
  /-- `f`, as its bits -/
  | float (floatValue : UInt32)
  /-- `s` -/
  | string (stringValue : String)
  /-- `T` and `F` -/
  | bool (value : Bool)
  /-- `N` -/
  | null
deriving DecidableEq

structure Message where
  path : String
  parameters : List Parameter
deriving DecidableEq

/-- An argument of a `lo_message`. -/
inductive LoArg
  | int32 (value : Int32)
  | float (value : UInt32)
  | string (value : String)
  | true
  | false
  | nil
deriving DecidableEq

/-- The `lo_message_add` call that `run` makes for a parameter. -/
def Parameter.add : Parameter → LoArg
  | int intValue => .int32 intValue
  | float floatValue => .float floatValue
  | string stringValue => .string stringValue
  | bool true => .true
  | bool false => .false
  | null => .nil

/-- What an `osc::Event` adds to its position: its own copy of the message. `serial` tells it from
every other event that was added. -/
structure Posted where
  message : Message
  serial : ℕ
deriving DecidableEq

/-- Where the output's thread stands in `run`. -/
inductive Thread
  | head -- `while(!cancelled.load())`
  | asking -- `if(repositionNeeded.load())`
  | clearing -- `repositionNeeded.store(false)`
  | positioning -- `getPosition`
  | sending (rolling : Bool) (pos : JackPosition)
  | ended

/-- What is seen of an output from outside. `repositionComplete` stands for a call that returns
true. -/
inductive Happening
  | added (serial : ℕ)
  | reposition
  | repositionComplete
  | sent (serial : ℕ) (path : String) (mesg : List LoArg)
deriving DecidableEq

/-- An `Output`, and its history, the newest last. -/
structure Output where
  repositionNeeded : Bool
  cancelled : Bool
  eventBuffer : EventBuffer Posted
  thread : Thread
  /-- How many events were added. -/
  events : ℕ
  history : List Happening

/-- One step of the script, of the process thread or of the output's own thread. `run` carries what
the transport would say now. -/
inductive Op
  | schedule (message : Message) (bar position division : ℕ)
  | send (message : Message)
  | cancel
  | reposition
  | repositionComplete
  | run (rolling : Bool) (pos : JackPosition)

namespace Output

def initial : Output := ⟨false, false, .empty, .head, 0, []⟩

/-- One attempt of `addEvent`: on a full queue the caller has to retry. -/
def addEvent (s : Output) (pos : Position) (message : Message) : Output :=
  match s.eventBuffer.addEvent ⟨pos, 0, message, s.events⟩ with
  | none => s
  | some b =>
    { s with eventBuffer := b, events := s.events + 1, history := s.history ++ [.added s.events] }

/-- A position that its constructor refuses adds nothing. -/
def schedule (s : Output) (message : Message) (bar position division : ℕ) : Output :=
  match Position.ofBar bar position division with
  | none => s
  | some pos => s.addEvent pos message

/-- `Position()`, of the bar zero. -/
def passThrough : Position := ⟨⟨0, 0, 1⟩, by decide⟩

def send (s : Output) (message : Message) : Output := s.addEvent passThrough message

def reposition (s : Output) : Output :=
  { s with repositionNeeded := true, history := s.history ++ [.reposition] }

def repositionComplete (s : Output) : Output :=
  if s.repositionNeeded then s else { s with history := s.history ++ [.repositionComplete] }

def cancel (s : Output) : Output := { s with cancelled := true }

/-- One turn of the loop that sends: the next event, or none and the iteration is over. What is
pushed while `update` drains the queue counts as pushed before it or after. -/
def sendNext (mul : ℕ → ℕ → ℕ) (s : Output) (rolling : Bool) (pos : JackPosition) : Output :=
  let next := s.eventBuffer.getNextEvent mul rolling pos 2048
  match next.event with
  | none => { s with eventBuffer := next.buffer, thread := .head }
  | some event =>
    let mesg := event.data.message.parameters.map Parameter.add
    { s with
      eventBuffer := next.buffer
      history := s.history ++ [.sent event.data.serial event.data.message.path mesg] }

/-- The next step of the output's thread. -/
def run (mul : ℕ → ℕ → ℕ) (s : Output) (rolling : Bool) (pos : JackPosition) : Output :=
  match s.thread with
  | .head => { s with thread := if s.cancelled then .ended else .asking }
  | .asking => { s with thread := if s.repositionNeeded then .clearing else .positioning }
  -- `eventBuffer.recycleRemaining()` stands in a comment here
  | .clearing => { s with repositionNeeded := false, thread := .positioning }
  | .positioning => { s with thread := .sending rolling pos }
  | .sending rolling pos => s.sendNext mul rolling pos
  | .ended => s

def exec (mul : ℕ → ℕ → ℕ) (s : Output) : Op → Output
  | .schedule message bar position division => s.schedule message bar position division
  | .send message => s.send message
  | .cancel => s.cancel
  | .reposition => s.reposition
  | .repositionComplete => s.repositionComplete
  | .run rolling pos => s.run mul rolling pos

end Output

/-- The event was added before some reposition. -/
def Stale (serial : ℕ) (history : List Happening) : Prop :=
  After (fun earlier => .added serial ∈ earlier) .reposition history

/-- It was, and that reposition has been said to be complete. -/
def Dumped (serial : ℕ) (history : List Happening) : Prop :=
  After (Stale serial) .repositionComplete history

/-- Nothing is sent that was dumped before. -/
def Kept (history : List Happening) : Prop :=
  ∀ serial path mesg, ¬ After (Dumped serial) (.sent serial path mesg) history

namespace Output

/-- When a reposition is said to be complete, and the thread has not ended, no event is pending that
was added before it. -/
def Emptied (s : Output) : Op → Prop
  | .repositionComplete =>
    s.thread ≠ .ended → s.repositionNeeded = false →
      ∀ event ∈ s.eventBuffer.pending, ¬ Stale event.data.serial s.history
  | _ => True

/-- What is pending was not dumped, and only what was added could be. -/
structure Fresh (s : Output) : Prop where
  pending : s.thread ≠ .ended →
    ∀ event ∈ s.eventBuffer.pending, ¬ Dumped event.data.serial s.history
  added : ∀ serial, .added serial ∈ s.history → serial < s.events
  kept : Kept s.history

end Output

section history

variable {serial : ℕ} {history : List Happening} {x : Happening}

theorem Stale.added (h : Stale serial history) : .added serial ∈ history := by
  obtain ⟨earlier, later, rfl, hmem⟩ := h
  exact List.mem_append_left _ hmem

theorem Dumped.added (h : Dumped serial history) : .added serial ∈ history := by
  obtain ⟨earlier, later, rfl, hstale⟩ := h
  exact List.mem_append_left _ (Stale.added hstale)

theorem dumped_concat (hx : x ≠ .repositionComplete) :
    Dumped serial (history ++ [x]) ↔ Dumped serial history := after_concat_of_ne hx

theorem kept_concat (h : Kept history)
    (hx : ∀ serial path mesg, x = .sent serial path mesg → ¬ Dumped serial history) :
    Kept (history ++ [x]) := by
  intro serial path mesg hsent
  rcases after_concat.mp hsent with hbefore | ⟨heq, hdumped⟩
  · exact h serial path mesg hbefore
  · exact hx serial path mesg heq hdumped

end history

namespace Output

variable {mul : ℕ → ℕ → ℕ} {s : Output}

theorem fresh_initial : Fresh initial where
  pending := by
    intro _ event hmem
    cases hmem
  added := by
    intro serial hmem
    cases hmem
  kept _ _ _ := not_after_nil

theorem Fresh.addEvent (h : Fresh s) (pos : Position) (message : Message) :
    Fresh (s.addEvent pos message) := by
  unfold Output.addEvent
  split
  · exact h
  · rename_i b hb
    have hne : Happening.added s.events ≠ .repositionComplete := by
      intro heq
      cases heq
    obtain rfl := EventBuffer.addEvent_eq hb
    refine ⟨?_, ?_, ?_⟩
    · intro hthread event hmem hdumped
      have hbefore := (dumped_concat hne).mp hdumped
      rcases List.mem_append.mp hmem with hold | hold
      · exact h.pending hthread event (List.mem_append_left _ hold) hbefore
      · rcases List.mem_append.mp hold with hold | hnew
        · exact h.pending hthread event (List.mem_append_right _ hold) hbefore
        -- the new event's serial is in no history yet
        · obtain rfl := List.mem_singleton.mp hnew
          exact absurd (h.added _ hbefore.added) (Nat.lt_irrefl _)
    · intro serial hmem
      rcases List.mem_append.mp hmem with hold | hnew
      · exact Nat.lt_succ_of_lt (h.added serial hold)
      · cases List.mem_singleton.mp hnew
        exact Nat.lt_succ_self _
    · apply kept_concat h.kept
      intro serial path mesg heq
      cases heq

theorem Fresh.schedule (h : Fresh s) (message : Message) (bar position division : ℕ) :
    Fresh (s.schedule message bar position division) := by
  unfold Output.schedule
  split
  · exact h
  · exact h.addEvent _ message

/-- Something happens that adds no event and completes no reposition. -/
theorem Fresh.happens (h : Fresh s) {t : Output} {x : Happening}
    (hhistory : t.history = s.history ++ [x]) (hevents : t.events = s.events)
    (hadded : ∀ serial, .added serial ≠ x) (hcomplete : x ≠ .repositionComplete)
    (hsent : ∀ serial path mesg, x = .sent serial path mesg → ¬ Dumped serial s.history)
    (hpending : t.thread ≠ .ended →
      ∀ event ∈ t.eventBuffer.pending, ¬ Dumped event.data.serial s.history) : Fresh t where
  pending := by
    intro hthread event hmem
    rw [hhistory, dumped_concat hcomplete]
    exact hpending hthread event hmem
  added := by
    intro serial hmem
    rw [hhistory] at hmem
    rw [hevents]
    rcases List.mem_append.mp hmem with hold | hnew
    · exact h.added serial hold
    · exact absurd (List.mem_singleton.mp hnew) (hadded serial)
  kept := by
    rw [hhistory]
    exact kept_concat h.kept hsent

theorem Fresh.reposition (h : Fresh s) : Fresh s.reposition := by
  refine h.happens rfl rfl ?_ ?_ ?_ ?_
  · exact fun serial => Happening.noConfusion
  · exact Happening.noConfusion
  · intro serial path mesg heq
    cases heq
  · exact h.pending

theorem Fresh.repositionComplete (h : Fresh s) (hempty : s.Emptied .repositionComplete) :
    Fresh s.repositionComplete := by
  unfold Output.repositionComplete
  split
  · exact h
  · rename_i hneeded
    refine ⟨?_, ?_, ?_⟩
    · intro hthread event hmem hdumped
      rcases after_concat.mp hdumped with hbefore | ⟨-, hstale⟩
      · exact h.pending hthread event hmem hbefore
      · exact hempty hthread (Bool.eq_false_of_not_eq_true hneeded) event hmem hstale
    · intro serial hmem
      rcases List.mem_append.mp hmem with hold | hnew
      · exact h.added serial hold
      · cases List.mem_singleton.mp hnew
    · apply kept_concat h.kept
      intro serial path mesg heq
      cases heq

theorem Fresh.sendNext (h : Fresh s) (hthread : s.thread ≠ .ended) (rolling : Bool)
    (pos : JackPosition) : Fresh (s.sendNext mul rolling pos) := by
  -- what the buffer gives and what it keeps were pending, with the frame offset apart
  have hleft : ∀ event ∈ (s.eventBuffer.getNextEvent mul rolling pos 2048).buffer.pending,
      ¬ Dumped event.data.serial s.history := by
    intro event hmem
    obtain ⟨y, hy, -, hdata⟩ := EventBuffer.mem_getNextEvent hmem
    rw [hdata]
    exact h.pending hthread y hy
  unfold Output.sendNext
  dsimp only
  split
  · exact ⟨fun _ => hleft, h.added, h.kept⟩
  · rename_i event hevent
    obtain ⟨y, hy, -, hdata⟩ := EventBuffer.event_of_getNextEvent (Option.mem_def.mpr hevent)
    refine h.happens rfl rfl ?_ ?_ ?_ ?_
    · exact fun serial => Happening.noConfusion
    · exact Happening.noConfusion
    · rintro serial path mesg ⟨⟩
      rw [hdata]
      exact h.pending hthread y hy
    · exact fun _ => hleft

theorem Fresh.run (h : Fresh s) (rolling : Bool) (pos : JackPosition) :
    Fresh (s.run mul rolling pos) := by
  unfold Output.run
  cases hthread : s.thread with
  | head | asking | clearing | positioning =>
    refine ⟨fun _ => h.pending ?_, h.added, h.kept⟩
    rw [hthread]
    exact Thread.noConfusion
  | sending rolling pos =>
    apply h.sendNext
    rw [hthread]
    exact Thread.noConfusion
  | ended => exact h

theorem fresh_exec {op : Op} (h : Fresh s) (hempty : s.Emptied op) : Fresh (s.exec mul op) := by
  cases op with
  | schedule message bar position division => exact h.schedule message bar position division
  | send message => exact h.addEvent _ message
  | cancel => exact ⟨h.pending, h.added, h.kept⟩
  | reposition => exact h.reposition
  | repositionComplete => exact h.repositionComplete hempty
  | run rolling pos => exact h.run rolling pos

end Output

end Bipscript.Osc
