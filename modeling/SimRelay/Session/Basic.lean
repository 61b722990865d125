import SimRelay.Session.Config
import SimRelay.Session.Error
import SimRelay.PayloadKey

/-!
# Session/Basic — a client between handshake and leave-taking

A session is a link, what the handshake settled, and the deliveries that came for a request which
had given up (`late`). The operations here are the ones that calls are made of: hearing one
message, saying one message, keeping a delivery and taking a kept one.
-/

namespace SimRelay

/-- The two kinds of client. -/
inductive Role
  | application
  | simulator
  deriving DecidableEq, Repr, Inhabited

def Role.originator : Role → Originator
  | .application => .application
  | .simulator => .simulator

/-- The operation that answers this role's requests for payloads. -/
def Role.delivery : Role → Operation
  | .application => .receive
  | .simulator => .fetch

structure Session where
  identifier : String
  role : Role
  config : SessionConfig
  /-- The source of store keys; present exactly when payloads travel through a store. -/
  keys : Option KeySource
  responseWindow : Duration
  link : Link
  /-- The client has begun to leave. -/
  closed : Bool := false
  /-- Deliveries that no call has asked for yet, oldest first. -/
  late : List Message := []
  deriving DecidableEq

/-- A message on the way into a session: usable as an answer to a request for a payload, if its
operation is `expected` or a forward, and if it says that it carries a payload. -/
def Message.isDelivery (expected : Operation) (m : Message) : Bool :=
  (m.operation = expected || m.operation = .forward) && m.resultCode = .message

namespace Session

variable {α : Type}

def originator (s : Session) : Originator := s.role.originator

/-! ## Late deliveries -/

/-- Keeps a delivery for a later call. -/
def keep (m : Message) (s : Session) : Session := { s with late := s.late ++ [m] }

/-- The oldest kept delivery that `wanted` accepts. -/
def takeLate (wanted : Message → Bool) (s : Session) : Option (Message × Session) :=
  (s.late.find? wanted).map fun m => (m, { s with late := s.late.eraseP wanted })

/-! ## Hearing -/

/-- What one attempt at hearing a message brought. -/
inductive Heard
  | message (m : Message)
  /-- The time is up, or what came was no message. -/
  | nothing
  | failure (error : ClientError)
  /-- The call stands in line. -/
  | inLine

/-- One attempt at hearing a message on a channel. Only an attempt that begins the wait asks
whether the session is open. -/
def hear (t : Turn) (ch : Channel) (begins : Bool) (deadline : Option Instant) (s : Session) :
    Heard × Session :=
  if begins ∧ s.closed then (.failure .closed, s)
  else
    let expired := deadline.any fun d => t.now.reached d
    let (reading, link) := s.link.read t.id expired ch
    let s := { s with link }
    match reading with
    | .frame body => match Message.decode body with
      | .ok m => (.message m, s)
      | .error _ => (.nothing, s)
    | .failure e => (.failure (.link e), s)
    | .timedOut => (.nothing, s)
    | .inLine => (.inLine, s)

/-! ## Saying -/

/-- How far the saying of one message is. -/
inductive Saying
  | fresh (m : Message)
  | writing (w : Link.Writing)
  deriving DecidableEq

/-- One step of writing on a channel. -/
def write (t : Turn) (ch : Channel) (w : Link.Writing) (s : Session) :
    Session × Progress ClientError Saying Unit :=
  let (link, progress) := s.link.write t.id ch w
  ({ s with link }, progress.andThen .writing (fun u => .ends (.ok u))
    fun e => .ends (.error (.link e)))

/-- One step of saying a message on a channel. Only the first asks whether the session is open. -/
def say (t : Turn) (ch : Channel) (x : Saying) (s : Session) :
    Session × Progress ClientError Saying Unit :=
  match x with
  | .fresh m =>
    if s.closed then (s, .ends (.error .closed))
    else match m.encode with
      | .error e => (s, .ends (.error (.encode e)))
      | .ok body => s.write t ch (.start body)
  | .writing w => s.write t ch w

/-! ## Store keys -/

/-- The next store key, when payloads travel through a store. -/
def nextKey (t : Turn) (s : Session) : Option (String × Session) :=
  s.keys.map fun source =>
    let (key, source) := source.next t.millis
    (key, { s with keys := some source })

end Session

end SimRelay
