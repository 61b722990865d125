import SimRelay.Call.Ping
import SimRelay.Call.Intake
import SimRelay.Call.Hand
import SimRelay.Call.Exit

/-!
# Call/Basic — everything a client can be asked to do

A call is one of the four activities with the phase it is in. `Call.step` takes it one step on,
`Call.advance` as far as it goes for now. Between two steps any other call may take steps, the peer
may write, time may pass, and the call may be dropped, for which `Session.abandon` clears up.
-/

namespace SimRelay

inductive Call
  | ping (timeout : Option Duration) (phase : Ping.Phase)
  | intake (i : Intake) (phase : Intake.Phase)
  | hand (h : Hand) (phase : Hand.Phase)
  | exit (phase : Exit.Phase)
  deriving DecidableEq

/-- What a call gives. -/
inductive Reply
  | status (status : PingStatus)
  | delivery (delivery : Option Delivery)
  /-- The key under which a payload was stored, if it was. -/
  | stored (key : Option String)
  | done
  deriving DecidableEq

/-- Only a sender learns where its payload was stored. -/
def Hand.reply (h : Hand) (key : Option String) : Reply :=
  match h with
  | .send _ _ => .stored key
  | _ => .done

namespace Call

/-! ## How calls begin -/

/-- Without a timeout, the answer is awaited as long as any of the daemon's. -/
def ofPing (timeout : Option Duration) : Call := .ping timeout .start

def ofIntake (i : Intake) : Call := .intake i .start

def ofHand (h : Hand) : Call := .hand h .start

def ofExit : Call := .exit .start

/-! ## How they go on -/

variable {ε σ τ α β : Type}

/-- Progress of a part, as progress of the call. -/
def lift (f : σ → Call) (g : α → Reply) (p : Progress Failure σ α) :
    Progress Failure Call Reply :=
  p.andThen f (fun a => .ends (.ok (g a))) fun e => .ends (.error e)

/-- One step of a call on a session and its store. -/
def step (t : Turn) (c : Call) (s : Session) (b : Backend) :
    Session × Backend × Progress Failure Call Reply :=
  match c with
  | .ping timeout phase =>
    let (s, p) := Ping.step t (timeout.getD s.responseWindow) phase s
    (s, b, lift (.ping timeout) .status p)
  | .intake i phase =>
    let (s, b, p) := i.step t phase s b
    (s, b, lift (.intake i) .delivery p)
  | .hand h phase =>
    let (s, b, p) := h.step t phase s b
    (s, b, lift (.hand h) h.reply p)
  | .exit phase =>
    let (s, p) := Exit.step t phase s
    (s, b, lift .exit (fun _ => .done) p)

/-- At most `fuel` steps, until the call waits or ends. -/
def steps (t : Turn) : Nat → Call → Session → Backend →
    Session × Backend × Progress Failure Call Reply
  | 0, c, s, b => (s, b, .goes c)
  | fuel + 1, c, s, b => match c.step t s b with
    | (s, b, .goes c) => steps t fuel c s b
    | r => r

/-- How many steps a call may take before it waits or ends: each takes a frame from an inbox or
leads to a later phase. -/
def patience (s : Session) : Nat :=
  (s.link.inbox .ctrl).pending.size + (s.link.inbox .recv).pending.size + 16

/-- All steps until the call waits or ends. -/
def advance (t : Turn) (c : Call) (s : Session) (b : Backend) :
    Session × Backend × Progress Failure Call Reply :=
  c.steps t (patience s) s b

/-- The instant at which a waiting call goes on by itself. -/
def alarm? : Call → Option Instant
  | .ping _ (.listening deadline) => some deadline
  | .intake _ (.pulling (.listening deadline)) => some deadline
  | .intake _ (.waiting deadline) => deadline
  | _ => none

end Call

/-- A call in flight goes away. -/
def Session.abandon (id : CallId) (s : Session) : Session :=
  { s with link := s.link.abandon id }

end SimRelay
