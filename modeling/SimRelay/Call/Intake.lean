import SimRelay.Call.Pull
import SimRelay.Fetched

/-!
# Call/Intake — receiving, fetching and listening

An intake gets one delivery, by a pull or, when the daemon pushes, by waiting for whatever it
forwards. The delivery is then settled: an application's key is exchanged for the payload, which
leaves the store; a simulator's payload is looked up if it is wanted, and stays.
-/

namespace SimRelay

/-- What an intake is asked to get. -/
inductive Intake
  /-- An application's payload, to this destination or to the client itself. -/
  | receive (destination : Option String) (timeout : Option Duration)
  /-- A simulator's payload, from this source or from any. -/
  | fetch (source : Option String) (timeout : Option Duration) (wantPayload : Bool)
  /-- Whatever the daemon forwards next. -/
  | listen (wantPayload : Bool)
  deriving DecidableEq

/-- What a settled delivery is to its client. -/
inductive Delivery
  | received (m : Message)
  | fetched (f : Fetched)
  deriving DecidableEq

namespace Intake

/-- The deliveries that an intake wants when it has to ask. -/
def wanted (s : Session) : Intake → Wanted
  | .receive destination _ => .addressedTo (destination.getD s.identifier)
  | .fetch source _ _ => .sentBy source
  | .listen _ => .sentBy none

def timeout : Intake → Option Duration
  | .receive _ timeout => timeout
  | .fetch _ timeout _ => timeout
  | .listen _ => none

/-- The payload is to be looked up for a simulator. -/
def wantsPayload : Intake → Bool
  | .receive _ _ => false
  | .fetch _ _ want => want
  | .listen want => want

inductive Phase
  | start
  | pulling (phase : Pull.Phase)
  /-- About to wait for a forwarded message. -/
  | attending (timeout : Option Duration)
  | waiting (deadline : Option Instant)
  /-- The store is about to be asked for the payload under this key. -/
  | resolving (m : Message) (key : String)
  deriving DecidableEq

/-- What is left to do with a delivery. -/
def settle (i : Intake) (s : Session) (m : Message) :
    Progress Failure Phase (Option Delivery) :=
  match s.role, m.payloadKey with
  | .application, none => .ends (.ok (some (.received m)))
  | .application, some key =>
    if s.keys.isSome then .goes (.resolving m key) else .ends (.ok none)
  | .simulator, some key =>
    if i.wantsPayload ∧ s.keys.isSome then .goes (.resolving m key)
    else .ends (.ok (some (.fetched ⟨m, none⟩)))
  | .simulator, none => .ends (.ok (some (.fetched ⟨m, none⟩)))

/-- Settles what a pull brought, if anything. -/
def settlePulled (i : Intake) (s : Session) :
    Option Message → Progress Failure Phase (Option Delivery)
  | some m => i.settle s m
  | none => .ends (.ok none)

/-- One attempt at hearing a forwarded message. -/
def hearForwarded (t : Turn) (i : Intake) (begins : Bool) (deadline : Option Instant)
    (s : Session) : Session × Progress Failure Phase (Option Delivery) :=
  match s.hear t .recv begins deadline with
  | (.message m, s) =>
    (s, if m.isDelivery s.role.delivery then i.settle s m else .ends (.ok none))
  | (.nothing, s) => (s, .ends (.ok none))
  | (.failure e, s) => (s, .ends (.error (.error e)))
  | (.inLine, s) => (s, .waits (.waiting deadline))

/-- The store's answer, put into the delivery. -/
def resolve (m : Message) (key : String) (s : Session) (b : Backend) :
    Backend × Except Failure (Option Delivery) :=
  match s.role with
  | .application => match b.checkOut key with
    | (b, .error e) => (b, .error (.error (.store e)))
    | (b, .ok none) => (b, .ok none)
    | (b, .ok (some bytes)) =>
      (b, .ok (some (.received { m with payload := some (.inline bytes) })))
  | .simulator => match b.peek key with
    | (b, .error e) => (b, .error (.error (.store e)))
    | (b, .ok none) => (b, .ok none)
    | (b, .ok (some bytes)) => (b, .ok (some (.fetched ⟨m, some bytes⟩)))

/-- One step of an intake. -/
def step (t : Turn) (i : Intake) (phase : Phase) (s : Session) (b : Backend) :
    Session × Backend × Progress Failure Phase (Option Delivery) :=
  match phase with
  | .start => match i with
    | .listen _ => (s, b, .goes (.attending none))
    | _ =>
      if s.closed then (s, b, .ends (.error (.error .closed)))
      else match s.config.mode with
        | .pull => (s, b, .goes (.pulling .draining))
        | .push => (s, b, .goes (.attending i.timeout))
  | .pulling p =>
    let (s, progress) := Pull.step t (i.wanted s) (i.timeout.getD s.responseWindow) p s
    (s, b, progress.andThen .pulling (i.settlePulled s) fun e => .ends (.error e))
  | .attending timeout =>
    let (s, progress) := hearForwarded t i true (timeout.map t.now.timer) s
    (s, b, progress)
  | .waiting deadline =>
    let (s, progress) := hearForwarded t i false deadline s
    (s, b, progress)
  | .resolving m key =>
    let (b, result) := resolve m key s b
    (s, b, .ends result)

end Intake

end SimRelay
