/-!
# Channel — the three ways between a client and the daemon

Control messages, outbound payloads and inbound payloads travel apart. On a broker each channel is
a queue: the daemon's have one name each, a client's carry its identifier.
-/

namespace SimRelay

inductive Channel
  /-- Handshake, liveness checks and leave-taking. -/
  | ctrl
  /-- Payloads from the client. -/
  | send
  /-- Payloads to the client. -/
  | recv
  deriving DecidableEq, Repr, Inhabited

namespace Channel

/-- The channels, in the order in which they are opened and closed. -/
def all : List Channel := [.ctrl, .send, .recv]

def name : Channel → String
  | .ctrl => "ctrl"
  | .send => "send"
  | .recv => "recv"

/-- The routing key under which the daemon takes messages off this channel. -/
def daemonKey (c : Channel) : String := "daemon." ++ c.name

/-- The queue, and its routing key, on which `identifier` is answered. -/
def clientQueue (identifier : String) (c : Channel) : String := identifier ++ "." ++ c.name

end Channel

end SimRelay
