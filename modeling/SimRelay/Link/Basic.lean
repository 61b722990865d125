import SimRelay.Channel
import SimRelay.Time.Instant
import SimRelay.Link.Outbox

/-!
# Link/Basic — the three channels of one client

A link is read, written and closed by calls that go forward in steps. A step either waits, because
nothing can happen until bytes come or go or a timer goes off, or it goes on, or it ends the call
(`Progress`).
-/

namespace SimRelay

/-- How far a step brought a call. -/
inductive Progress (ε σ α : Type)
  /-- Nothing can happen until something changes. -/
  | waits (state : σ)
  /-- There is more to do at once. -/
  | goes (state : σ)
  | ends (result : Except ε α)

namespace Progress

variable {ε ε' σ τ α β : Type}

/-- The same progress within a larger state. -/
def within (f : σ → τ) : Progress ε σ α → Progress ε τ α
  | .waits s => .waits (f s)
  | .goes s => .goes (f s)
  | .ends r => .ends r

/-- What comes after: `next` continues from the result, `failed` from the error. -/
def andThen (f : σ → τ) (next : α → Progress ε' τ β) (failed : ε → Progress ε' τ β) :
    Progress ε σ α → Progress ε' τ β
  | .waits s => .waits (f s)
  | .goes s => .goes (f s)
  | .ends (.ok a) => next a
  | .ends (.error e) => failed e

end Progress

/-- Who takes a step, and when. -/
structure Turn where
  id : CallId
  now : Instant
  /-- The time of day in milliseconds. -/
  millis : Nat

/-- One channel: its two halves and the local port. -/
structure Port where
  inbox : Inbox := {}
  outbox : Outbox := {}
  number : UInt16 := 0
  deriving DecidableEq, Inhabited

structure Link where
  address : String := ""
  ctrl : Port := {}
  send : Port := {}
  recv : Port := {}
  /-- Closing has begun: no call may read or write any more. -/
  closing : Bool := false
  deriving DecidableEq, Inhabited

namespace Link

def port (ch : Channel) (l : Link) : Port :=
  match ch with
  | .ctrl => l.ctrl
  | .send => l.send
  | .recv => l.recv

def setPort (ch : Channel) (p : Port) (l : Link) : Link :=
  match ch with
  | .ctrl => { l with ctrl := p }
  | .send => { l with send := p }
  | .recv => { l with recv := p }

def inbox (ch : Channel) (l : Link) : Inbox := (l.port ch).inbox

def outbox (ch : Channel) (l : Link) : Outbox := (l.port ch).outbox

def setInbox (ch : Channel) (i : Inbox) (l : Link) : Link :=
  l.setPort ch { l.port ch with inbox := i }

def setOutbox (ch : Channel) (o : Outbox) (l : Link) : Link :=
  l.setPort ch { l.port ch with outbox := o }

/-- A change to one half of every channel. -/
def mapPorts (f : Port → Port) (l : Link) : Link :=
  { l with ctrl := f l.ctrl, send := f l.send, recv := f l.recv }

/-- A call goes away: it leaves every line, and what it handed over stays. -/
def abandon (id : CallId) (l : Link) : Link :=
  l.mapPorts fun p => { p with inbox := p.inbox.leave id, outbox := p.outbox.leave id }

/-- Every writer writes all it has. -/
def flush (l : Link) : Link := l.mapPorts fun p => { p with outbox := p.outbox.flush }

/-! ## Reading -/

/-- What one attempt at reading brought. -/
inductive Reading
  | frame (body : ByteArray)
  | failure (error : LinkError)
  /-- The time is up. -/
  | timedOut
  /-- The call stands in line. -/
  | inLine
  deriving DecidableEq

/-- One attempt at reading a frame. A frame that is there is taken even if the time is up.

Where closing has begun the attempt fails. A call that stood in line by then may as well be the one
that takes a frame before it hears of the closing. That is the run in which the frame came and was
taken before the closing began: reading changes one inbox, the first step of closing changes
`closing`, and the later ones do not get past the channel in whose line the call stands. -/
def read (id : CallId) (expired : Bool) (ch : Channel) (l : Link) : Reading × Link :=
  if l.closing then (.failure .closed, l.setInbox ch ((l.inbox ch).leave id))
  else
    let inbox := (l.inbox ch).join id
    let late (inbox : Inbox) : Reading × Link :=
      if expired then (.timedOut, l.setInbox ch (inbox.leave id))
      else (.inLine, l.setInbox ch inbox)
    if inbox.line.head? = some id then
      match inbox.take with
      | (.frame body, inbox) => (.frame body, l.setInbox ch (inbox.leave id))
      | (.failure e, inbox) => (.failure e, l.setInbox ch (inbox.leave id))
      | (.nothing, inbox) => late inbox
    else late inbox

/-! ## Writing -/

/-- How far the sending of one message is. -/
inductive Writing
  | start (body : ByteArray)
  /-- Waiting for room in the queue. -/
  | queueing (frame : ByteArray)
  /-- Handed over under this number. -/
  | handed (number : Nat)
  deriving DecidableEq

/-- One step of sending. -/
def write (id : CallId) (ch : Channel) (w : Writing) (l : Link) :
    Link × Progress LinkError Writing Unit :=
  let o := l.outbox ch
  let leave (o : Outbox) (r : Except LinkError Unit) : Link × Progress LinkError Writing Unit :=
    (l.setOutbox ch (o.leave id), .ends r)
  match w with
  | .start body =>
    if l.closing then (l, .ends (.error .closed))
    else match Frame.encode body with
      | .error e => (l, .ends (.error (.encode e)))
      | .ok frame =>
        if o.shut then (l, .ends (.error .closed))
        else (l.setOutbox ch (o.enter id), .goes (.queueing frame))
  | .queueing frame =>
    if o.stopped.isSome then leave o (.error .closed)
    else match o.offer frame with
      | some (number, o) => (l.setOutbox ch o, .goes (.handed number))
      | none => (l, .waits (.queueing frame))
  | .handed number => match o.fate number with
    | .written => leave o (.ok ())
    | .lost e => leave o (.error e)
    | .underWay => (l, .waits (.handed number))

/-! ## Closing -/

/-- How far the closing of a link is. -/
inductive Closing
  | start
  /-- These channels are still to be released. -/
  | releasing (channels : List Channel)
  deriving DecidableEq

/-- One step of closing. Closing happens once. Each channel is shut for sending and then released
when its reader has left the line. -/
def close (id : CallId) (c : Closing) (l : Link) : Link × Progress Empty Closing Unit :=
  match c with
  | .start =>
    if l.closing then (l, .ends (.ok ()))
    else ({ l with closing := true }, .goes (.releasing Channel.all))
  | .releasing [] => (l, .ends (.ok ()))
  | .releasing (ch :: rest) =>
    let l := l.setOutbox ch { l.outbox ch with shut := true }
    let inbox := (l.inbox ch).join id
    if inbox.line.head? = some id then
      (l.setInbox ch (inbox.leave id), .goes (.releasing rest))
    else (l.setInbox ch inbox, .waits (.releasing (ch :: rest)))

end Link

end SimRelay
