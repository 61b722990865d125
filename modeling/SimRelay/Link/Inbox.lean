import SimRelay.Wire.Frame

/-!
# Link/Inbox — the receiving half of a channel

Bytes that the peer has written pass through a buffer and leave it as frames. Calls that read the
channel stand in line; only the first may take a frame, and whoever leaves, leaves every byte
behind. Nothing is lost or invented on the way: what was handed out (framed again), the buffer and
the unread bytes are together what the peer has written.

Two ends are final. A length above the limit stays at the front of the buffer, and after the peer
has ended the stream there is nothing left to read. A stream may also break off: then reading fails
where the bytes run short, and neither the buffer nor what came before the break is lost.
-/

namespace SimRelay

/-- One call among those in flight. -/
abbrev CallId := Nat

/-- Why a channel does not carry a message. -/
inductive LinkError
  | io (text : String)
  | encode (error : EncodeError)
  | decode (fault : Frame.Fault)
  /-- The channel is closed, here or at the other end. -/
  | closed
  deriving DecidableEq, Repr

def LinkError.message : LinkError → String
  | .io text => "i/o error: " ++ text
  | .encode error => "frame encode error: " ++ error.message
  | .decode fault => "frame decode error: " ++ fault.message
  | .closed => "channel closed"

/-- How a stream is over. -/
inductive StreamEnd
  /-- The peer writes no more. -/
  | finished
  /-- Reading fails, as it does once the peer has reset the connection. -/
  | broken (text : String)
  deriving DecidableEq

/-- What reading beyond the end brings. -/
def StreamEnd.error : StreamEnd → LinkError
  | .finished => .closed
  | .broken text => .io text

structure Inbox where
  /-- Read, and not handed out. -/
  buffer : ByteArray := .empty
  /-- Written by the peer, and not read. -/
  unread : ByteArray := .empty
  /-- How the stream is over, once it is. -/
  ending : Option StreamEnd := none
  /-- The calls that wait to read, the first in front. -/
  line : List CallId := []
  deriving DecidableEq, Inhabited

namespace Inbox

/-- The bytes that have come and have not been handed out. -/
def pending (i : Inbox) : ByteArray := i.buffer ++ i.unread

/-- Nothing more comes. -/
def ended (i : Inbox) : Bool := i.ending.isSome

/-! ## What the peer does -/

/-- The peer writes; behind its end there is nothing to write. -/
def arrive (bytes : ByteArray) (i : Inbox) : Inbox :=
  if i.ended then i else { i with unread := i.unread ++ bytes }

/-- The peer ends the stream. A stream that broke off may be found to have ended, when its failure
has been told. -/
def finish (i : Inbox) : Inbox := { i with ending := some .finished }

/-- The stream breaks off, unless it has ended. -/
def breakOff (text : String) (i : Inbox) : Inbox :=
  if i.ending = some .finished then i else { i with ending := some (.broken text) }

/-! ## The line -/

/-- Takes a place in line, unless the call stands there already. -/
def join (id : CallId) (i : Inbox) : Inbox :=
  if id ∈ i.line then i else { i with line := i.line ++ [id] }

def leave (id : CallId) (i : Inbox) : Inbox := { i with line := i.line.filter (· != id) }

/-! ## Taking a frame -/

/-- Reads what there is to read. -/
def fill (i : Inbox) : Inbox := { i with buffer := i.buffer ++ i.unread, unread := .empty }

/-- What an inbox has for the call that is first in line. -/
inductive Offer
  | frame (body : ByteArray)
  | failure (error : LinkError)
  /-- Nothing yet. -/
  | nothing
  deriving DecidableEq

/-- What there is where the bytes run short. -/
def Offer.short : Option StreamEnd → Offer
  | some e => .failure e.error
  | none => .nothing

/-- The frame at the front of the buffer, without reading. -/
def cut (i : Inbox) : Offer × Inbox :=
  match Frame.split i.buffer with
  | .ok (body, n) => (.frame body, { i with buffer := i.buffer.extract n i.buffer.size })
  | .error (.tooLarge n) => (.failure (.decode (.tooLarge n)), i)
  | .error .needMore => (.nothing, i)

/-- The next frame, from the buffer if it is there, else from what there is to read. Only when
both are short of a frame does it count that the stream is over. -/
def take (i : Inbox) : Offer × Inbox :=
  match i.cut with
  | (.nothing, i) => match i.fill.cut with
    | (.nothing, i) => (.short i.ending, i)
    | r => r
  | r => r

end Inbox

end SimRelay
