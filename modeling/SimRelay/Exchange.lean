import SimRelay.Channel

/-!
# Exchange — what a client asks of a broker

With a broker all traffic passes one exchange. A client opens a channel by declaring a queue for
itself alone and binding it under the queue's own name. What it says goes out under the daemon's
key for the channel, and names that queue as the one to answer on.
-/

namespace SimRelay.Exchange

/-- A queue that is to get what is published under a key. -/
structure Binding where
  queue : String
  key : String
  deriving DecidableEq, Repr, Inhabited

/-- A message as it is handed to the exchange. -/
structure Publication where
  key : String
  /-- The queue, and the key, that an answer is to be published under. -/
  replyTo : String
  body : ByteArray
  deriving Inhabited

/-- How a client binds its queue when it opens a channel. -/
def inbound (identifier : String) (c : Channel) : Binding :=
  { queue := c.clientQueue identifier, key := c.clientQueue identifier }

/-- What a client that says `body` on a channel publishes. -/
def outbound (identifier : String) (c : Channel) (body : ByteArray) : Publication :=
  { key := c.daemonKey, replyTo := c.clientQueue identifier, body }

end SimRelay.Exchange
