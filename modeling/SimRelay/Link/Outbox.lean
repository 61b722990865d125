import SimRelay.Link.Inbox

/-!
# Link/Outbox — the sending half of a channel

Calls hand whole frames to a queue; a writer takes them in order, one in hand at a time, and puts
their bytes on the wire. A call that goes away takes nothing back, so that a frame in the queue is
written whole or, after a write error, not at all from there on. The stream ends when the channel
has been shut, no call holds it any more and the queue is empty.
-/

namespace SimRelay

structure Outbox where
  /-- Frames handed over, not yet in hand. -/
  queue : List ByteArray := []
  /-- What is left of the frame that is being written. -/
  inHand : Option ByteArray := none
  /-- How many frames have been written whole. -/
  written : Nat := 0
  /-- The bytes put on the wire. -/
  wire : ByteArray := .empty
  /-- Why the writer stopped, if it did: the frame in hand was lost, and those behind it. -/
  stopped : Option String := none
  /-- No call may begin to send. -/
  shut : Bool := false
  /-- The calls that are sending. -/
  senders : List CallId := []
  /-- The stream has ended. -/
  ended : Bool := false
  deriving DecidableEq, Inhabited

namespace Outbox

/-- How many frames the queue holds. -/
def capacity : Nat := 64

/-- How many frames were ever handed over. -/
def accepted (o : Outbox) : Nat :=
  o.written + (if o.inHand.isSome then 1 else 0) + o.queue.length

/-! ## What a call does -/

def enter (id : CallId) (o : Outbox) : Outbox :=
  if id ∈ o.senders then o else { o with senders := o.senders ++ [id] }

def leave (id : CallId) (o : Outbox) : Outbox :=
  { o with senders := o.senders.filter (· != id) }

/-- Hands a frame over, if there is room. Gives the number of the frame, counted from the first
one ever. -/
def offer (frame : ByteArray) (o : Outbox) : Option (Nat × Outbox) :=
  if o.queue.length < capacity then some (o.accepted, { o with queue := o.queue ++ [frame] })
  else none

/-! ## What the writer does -/

/-- Takes the next frame in hand. -/
def pick (o : Outbox) : Outbox :=
  match o.inHand, o.stopped, o.queue with
  | none, none, frame :: rest => { o with inHand := some frame, queue := rest }
  | _, _, _ => o

/-- Puts `n` bytes of the frame in hand on the wire, or what is left of it. -/
def push (n : Nat) (o : Outbox) : Outbox :=
  match o.inHand with
  | none => o
  | some frame =>
    if frame.size ≤ n then
      { o with wire := o.wire ++ frame, inHand := none, written := o.written + 1 }
    else
      { o with wire := o.wire ++ frame.extract 0 n, inHand := some (frame.extract n frame.size) }

/-- Fails to write the frame in hand, and stops. -/
def fail (text : String) (o : Outbox) : Outbox :=
  match o.inHand with
  | none => o
  | some _ => { o with inHand := none, queue := [], stopped := some text }

/-- Ends the stream when nothing can come any more. -/
def finish (o : Outbox) : Outbox :=
  if o.shut ∧ o.senders = [] ∧ o.queue = [] ∧ o.inHand = none ∧ o.stopped = none then
    { o with ended := true }
  else o

/-- Writes everything there is to write, for a peer that takes every byte at once. -/
def flush (o : Outbox) : Outbox :=
  let o := match o.inHand with
    | some frame => o.push frame.size
    | none => o
  let o := match o.stopped with
    | some _ => o
    | none => { o with
        wire := o.queue.foldl (· ++ ·) o.wire
        written := o.written + o.queue.length
        queue := [] }
  o.finish

/-- How the frame of a number fared: written, lost, or still on its way. -/
inductive Fate
  | written
  | lost (error : LinkError)
  | underWay
  deriving DecidableEq

/-- The frame that was in hand when the writer stopped failed with the writer's error; those
behind it find the channel closed. -/
def fate (number : Nat) (o : Outbox) : Fate :=
  if number < o.written then .written
  else match o.stopped with
    | none => .underWay
    | some text => if number = o.written then .lost (.io text) else .lost .closed

end Outbox

end SimRelay
