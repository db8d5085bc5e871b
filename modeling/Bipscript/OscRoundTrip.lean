import Bipscript.OscOutput

/-! OSC messages as they are stored, sent and received: the types of the parameters are told apart
on each side. What liblo does between the two is a parameter. -/
namespace Bipscript.Osc

/-- The union of a parameter or of an argument, as the member last written. -/
inductive Union
  | none
  | intValue (value : Int32)
  | floatValue (value : UInt32)
  | stringValue (value : String)
deriving DecidableEq

namespace Union

/-! Reading a member; none where another one was written. -/

def int? : Union → Option Int32
  | intValue value => some value
  | _ => Option.none

def float? : Union → Option UInt32
  | floatValue value => some value
  | _ => Option.none

def string? : Union → Option String
  | stringValue value => some value
  | _ => Option.none

end Union

/-- A `Parameter` as it is stored. -/
structure Stored where
  type : Char
  value : Union
deriving DecidableEq

/-- A `Message` as it is stored. -/
structure StoredMessage where
  path : String
  parameters : List Stored
deriving DecidableEq

namespace StoredMessage

def new (path : String) : StoredMessage := ⟨path, []⟩

def pushBack (param : Stored) (m : StoredMessage) : StoredMessage :=
  { m with parameters := m.parameters ++ [param] }

def addInteger (value : Int32) : StoredMessage → StoredMessage := pushBack ⟨'i', .intValue value⟩

def addFloat (value : UInt32) : StoredMessage → StoredMessage := pushBack ⟨'f', .floatValue value⟩

def addString (value : String) : StoredMessage → StoredMessage :=
  pushBack ⟨'s', .stringValue value⟩

def addBoolean (value : Bool) : StoredMessage → StoredMessage :=
  pushBack ⟨if value then 'T' else 'F', .none⟩

def addNull : StoredMessage → StoredMessage := pushBack ⟨'N', .none⟩

end StoredMessage

/-- The call that adds the parameter to a message. -/
def Parameter.addTo (m : StoredMessage) : Parameter → StoredMessage
  | int intValue => m.addInteger intValue
  | float floatValue => m.addFloat floatValue
  | string stringValue => m.addString stringValue
  | bool value => m.addBoolean value
  | null => m.addNull

/-- The message that a sequence of calls builds. -/
def build (path : String) (calls : List Parameter) : StoredMessage :=
  calls.foldl Parameter.addTo (.new path)

/-- What a handler is called with: `argc` is the length of `argv`. -/
structure Received where
  path : String
  types : List Char
  argv : List Union

/-- liblo: a new message, the `lo_message_add` calls, and what the handler of a server receives of a
message sent to it. -/
structure Liblo (M : Type*) where
  new : M
  add : M → LoArg → M
  send : String → M → Received

/-- The type tag of an argument. -/
def LoArg.type : LoArg → Char
  | int32 _ => 'i'
  | float _ => 'f'
  | string _ => 's'
  | true => 'T'
  | false => 'F'
  | nil => 'N'

/-- The value of an argument, which the last three types have none of. -/
def LoArg.value : LoArg → Union
  | int32 value => .intValue value
  | float value => .floatValue value
  | string value => .stringValue value
  | true => .none
  | false => .none
  | nil => .none

variable {M : Type*}

/-- liblo delivers the path, the type tags and the values that it was given. -/
def Liblo.Delivers (lib : Liblo M) : Prop :=
  ∀ (path : String) (args : List LoArg), lib.send path (args.foldl lib.add lib.new) =
    ⟨path, args.map LoArg.type, args.map LoArg.value⟩

/-- One round of the inner loop of `Output::run`; none reads a member that was not written. -/
def addArgument (lib : Liblo M) (mesg : M) (param : Stored) : Option M :=
  if param.type = 'i' then param.value.int?.map fun value => lib.add mesg (.int32 value)
  else if param.type = 'f' then param.value.float?.map fun value => lib.add mesg (.float value)
  else if param.type = 's' then param.value.string?.map fun value => lib.add mesg (.string value)
  else if param.type = 'T' then some (lib.add mesg .true)
  else if param.type = 'F' then some (lib.add mesg .false)
  else if param.type = 'N' then some (lib.add mesg .nil)
  else some mesg

/-- The message that `Output::run` makes of an event's. -/
def StoredMessage.run (lib : Liblo M) (message : StoredMessage) : Option M :=
  message.parameters.foldlM (addArgument lib) lib.new

namespace Received

/-- The `switch` of `Input::handle`. -/
def handleArgument (message : StoredMessage) (type : Char) (arg : Union) : Option StoredMessage :=
  match type with
  | 'i' => arg.int?.map fun value => message.addInteger value
  | 'f' => arg.float?.map fun value => message.addFloat value
  | 's' => arg.string?.map fun value => message.addString value
  | 'T' => some (message.addBoolean true)
  | 'F' => some (message.addBoolean false)
  | 'N' => some message.addNull
  | _ => some message

/-- Its loop, to the end of `argv`; none reads past the end of `types`. -/
def handleFrom (message : StoredMessage) : List Char → List Union → Option StoredMessage
  | _, [] => some message
  | [], _ :: _ => none
  | type :: types, arg :: argv =>
    (handleArgument message type arg).bind fun message => handleFrom message types argv

/-- The message that `Input::handle` makes. -/
def handle (r : Received) : Option StoredMessage := handleFrom (.new r.path) r.types r.argv

end Received

/-- What the calls have stored, in order. -/
def Parameter.stored : Parameter → Stored
  | int intValue => ⟨'i', .intValue intValue⟩
  | float floatValue => ⟨'f', .floatValue floatValue⟩
  | string stringValue => ⟨'s', .stringValue stringValue⟩
  | bool true => ⟨'T', .none⟩
  | bool false => ⟨'F', .none⟩
  | null => ⟨'N', .none⟩

theorem Parameter.addTo_eq (m : StoredMessage) (p : Parameter) :
    p.addTo m = m.pushBack p.stored := by
  cases p with
  | bool value => cases value <;> rfl
  | _ => rfl

theorem build_eq (path : String) (calls : List Parameter) :
    build path calls = ⟨path, calls.map Parameter.stored⟩ := by
  have hfold : ∀ m : StoredMessage, calls.foldl Parameter.addTo m =
      ⟨m.path, m.parameters ++ calls.map Parameter.stored⟩ := by
    induction calls with
    | nil =>
      intro m
      rw [List.map_nil, List.append_nil]
      rfl
    | cons p calls ih =>
      intro m
      rw [List.foldl_cons, Parameter.addTo_eq, ih]
      simp [StoredMessage.pushBack]
  exact hfold (.new path)

/-- The sender's dispatch: each parameter goes into the call for it. -/
theorem addArgument_stored (lib : Liblo M) (mesg : M) (p : Parameter) :
    addArgument lib mesg p.stored = some (lib.add mesg p.add) := by
  cases p with
  | bool value => cases value <;> rfl
  | _ => rfl

/-- The receiver's dispatch: each argument goes back to what was stored. -/
theorem handleArgument_add (message : StoredMessage) (p : Parameter) :
    Received.handleArgument message p.add.type p.add.value = some (message.pushBack p.stored) := by
  cases p with
  | bool value => cases value <;> rfl
  | _ => rfl

theorem run_build (lib : Liblo M) (path : String) (calls : List Parameter) :
    (build path calls).run lib = some ((calls.map Parameter.add).foldl lib.add lib.new) := by
  have hfold : ∀ mesg : M, (calls.map Parameter.stored).foldlM (addArgument lib) mesg =
      some ((calls.map Parameter.add).foldl lib.add mesg) := by
    induction calls with
    | nil => exact fun mesg => rfl
    | cons p calls ih =>
      intro mesg
      rw [List.map_cons, List.foldlM_cons, addArgument_stored]
      exact ih _
  rw [build_eq]
  exact hfold lib.new

theorem handleFrom_map (message : StoredMessage) (calls : List Parameter) :
    Received.handleFrom message ((calls.map Parameter.add).map LoArg.type)
        ((calls.map Parameter.add).map LoArg.value) =
      some ⟨message.path, message.parameters ++ calls.map Parameter.stored⟩ := by
  induction calls generalizing message with
  | nil =>
    simp only [List.map_nil, List.append_nil]
    rfl
  | cons p calls ih =>
    simp only [List.map_cons, Received.handleFrom, handleArgument_add, Option.bind_some]
    simp only [List.map_map] at ih ⊢
    rw [ih]
    simp [StoredMessage.pushBack]

/-- The calls store the path and their parameters in order, and what is sent of the message is
received as the same message. -/
theorem handle_run {lib : Liblo M} (h : lib.Delivers) (path : String) (calls : List Parameter) :
    build path calls = ⟨path, calls.map Parameter.stored⟩ ∧
      ∃ mesg, (build path calls).run lib = some mesg ∧
        (lib.send (build path calls).path mesg).handle = some (build path calls) := by
  refine ⟨build_eq path calls, _, run_build lib path calls, ?_⟩
  rw [h, build_eq]
  exact handleFrom_map (.new path) calls

/-- Messages as the lists of their arguments. -/
def Liblo.list : Liblo (List LoArg) where
  new := []
  add mesg arg := mesg ++ [arg]
  send path mesg := ⟨path, mesg.map LoArg.type, mesg.map LoArg.value⟩

theorem Liblo.list_delivers : Liblo.list.Delivers := by
  intro path args
  have hfold : args.foldl Liblo.list.add Liblo.list.new = args := by
    induction args using List.reverseRecOn with
    | nil => rfl
    | append_singleton args arg ih =>
      rw [List.foldl_append, ih]
      rfl
  rw [hfold]
  rfl

/-- Four types of parameters, of which two have no value. -/
theorem handle_run_list :
    let message := build "/mix" [.int 3, .bool false, .string "on", .null]
    message = ⟨"/mix", [⟨'i', .intValue 3⟩, ⟨'F', .none⟩, ⟨'s', .stringValue "on"⟩, ⟨'N', .none⟩]⟩ ∧
      ∃ mesg, message.run Liblo.list = some mesg ∧
        (Liblo.list.send message.path mesg).handle = some message :=
  handle_run Liblo.list_delivers "/mix" [.int 3, .bool false, .string "on", .null]

end Bipscript.Osc
