import SimRelay.Message

/-!
# Fetched — a payload on loan to the simulator

A fetched message, and the payload bytes if they were looked up in the payload store.
-/

namespace SimRelay

structure Fetched where
  message : Message
  /-- Bytes looked up in the payload store. -/
  payload : Option ByteArray := none
  deriving DecidableEq, Inhabited

namespace Fetched

/-- The payload bytes: those looked up, else those the message carries. -/
def payloadBytes (f : Fetched) : Option ByteArray := f.payload <|> f.message.payloadBytes

/-- The store key, when the message carries one. -/
def key (f : Fetched) : Option String := f.message.payloadKey

def source (f : Fetched) : Option String := f.message.source

def destination (f : Fetched) : Option String := f.message.destination

def payloadSize (f : Fetched) : UInt64 := f.message.payloadSize

end Fetched

end SimRelay
