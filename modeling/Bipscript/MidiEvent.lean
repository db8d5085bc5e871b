import Bipscript.EventBuffer

/-! MIDI events and the bytes they are packed into. -/
namespace Bipscript.Midi

structure EventData where
  type : UInt8
  databyte1 : UInt8
  databyte2 : UInt8
  channel : UInt8
deriving DecidableEq

abbrev Event := Bipscript.Event EventData

def TYPE_NOTE_OFF : UInt8 := 0x80
def TYPE_NOTE_ON : UInt8 := 0x90
def TYPE_CONTROL : UInt8 := 0xB0

def dataSize (e : Event) : ℕ :=
  if e.data.type = 0xC0 then 1 else 2

def pack (e : Event) : List UInt8 :=
  [e.data.type + e.data.channel, e.data.databyte1] ++
    if dataSize e = 2 then [e.data.databyte2] else []

/-- `unpack`: a byte that the message does not have is left as it was. -/
def unpack (e : Event) : List UInt8 → Event
  | [] => e -- not reached: a message has a status byte
  | status :: bytes =>
    { e with data := {
        type := status &&& 0xf0
        databyte1 := (bytes[0]?).getD e.data.databyte1
        databyte2 := (bytes[1]?).getD e.data.databyte2
        channel := status &&& 0x0f } }

def setFrameOffset (frameOffset : ℤ) (e : Event) : Event := { e with frameOffset := frameOffset }

def matchesType (e : Event) (type : UInt8) : Bool := type == e.data.type

end Bipscript.Midi
