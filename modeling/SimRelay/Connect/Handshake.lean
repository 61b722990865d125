import SimRelay.Session.Basic

/-!
# Connect/Handshake — from a link to a session

A client introduces itself on the control channel and takes the first message that comes in time
for the daemon's answer. The answer has to accept the introduction and to set terms, and a store
that the terms ask for has to be there: either the caller brings one, or the one the terms name can
be opened. Otherwise the link is closed, and the client learns why.
-/

namespace SimRelay

/-- Who shakes hands. -/
structure Handshake where
  identifier : String
  role : Role
  responseWindow : Duration
  /-- The caller brings a store of its own. -/
  bringsStore : Bool := false
  deriving DecidableEq

namespace Handshake

inductive Phase
  | start
  | introducing (w : Link.Writing)
  /-- About to listen. -/
  | introduced
  | listening (deadline : Instant)
  /-- The store that the terms name is about to be opened. -/
  | opening (config : SessionConfig) (store : StoreParams)
  /-- The handshake failed; the link is being closed. -/
  | closing (c : Link.Closing) (fault : InitFault)
  deriving DecidableEq

/-- How the client describes itself and its end of the link. -/
def intro (h : Handshake) (l : Link) : Intro where
  identifier := h.identifier
  address := l.address
  ctrlPort := l.ctrl.number
  sendPort := l.send.number
  recvPort := l.recv.number

/-- The terms in the answer to an introduction. -/
def judge (body : ByteArray) : Except InitFault SessionConfig :=
  match Message.decode body with
  | .error e => .error (.malformed e)
  | .ok m =>
    if m.operation ≠ .init then .error (.unexpected m.operation)
    else if m.resultCode = .failure then .error .refused
    else match m.terms with
      | none => .error .noTerms
      | some terms => .ok (.ofTerms terms)

/-- The session that a successful handshake begins. -/
def session (h : Handshake) (l : Link) (config : SessionConfig) : Session where
  identifier := h.identifier
  role := h.role
  config := config
  keys := if config.usesStore then some { clientId := h.identifier } else none
  responseWindow := h.responseWindow
  link := l

/-- The phase that follows a fault. -/
def fail (fault : InitFault) : Progress InitFault Phase SessionConfig :=
  .goes (.closing .start fault)

/-- What follows the answer to the introduction. -/
def settle (h : Handshake) (body : ByteArray) : Progress InitFault Phase SessionConfig :=
  match judge body with
  | .error fault => fail fault
  | .ok config => match config.store, h.bringsStore with
    | some store, false => .goes (.opening config store)
    | _, _ => .ends (.ok config)

/-- One attempt at hearing the answer. -/
def hear (t : Turn) (h : Handshake) (deadline : Instant) (l : Link) :
    Link × Progress InitFault Phase SessionConfig :=
  match l.read t.id (t.now.reached deadline) .ctrl with
  | (.frame body, l) => (l, h.settle body)
  | (.failure e, l) => (l, fail (.awaiting e))
  | (.timedOut, l) => (l, fail (.silent h.responseWindow))
  | (.inLine, l) => (l, .waits (.listening deadline))

/-- One step of a handshake. Whether a store can be opened is up to the world outside. -/
def step (t : Turn) (openStore : StoreParams → Except StoreError Unit) (h : Handshake)
    (phase : Phase) (l : Link) : Link × Progress InitFault Phase SessionConfig :=
  match phase with
  | .start => match (Message.init h.role.originator (h.intro l)).encode with
    | .error e => (l, fail (.encoding e))
    | .ok body => (l, .goes (.introducing (.start body)))
  | .introducing w =>
    let (l, progress) := l.write t.id .ctrl w
    (l, progress.andThen .introducing (fun _ => .goes .introduced) fun e => fail (.sending e))
  | .introduced => h.hear t (t.now.timer h.responseWindow) l
  | .listening deadline => h.hear t deadline l
  | .opening config store => match openStore store with
    | .ok () => (l, .ends (.ok config))
    | .error e => (l, fail (.store store e))
  | .closing c fault =>
    let (l, progress) := l.close t.id c
    (l, progress.andThen (.closing · fault) (fun _ => .ends (.error fault)) nofun)

/-- At most `fuel` steps, until the handshake waits or ends. -/
def steps (t : Turn) (openStore : StoreParams → Except StoreError Unit) (h : Handshake) :
    Nat → Phase → Link → Link × Progress InitFault Phase SessionConfig
  | 0, phase, l => (l, .goes phase)
  | fuel + 1, phase, l => match h.step t openStore phase l with
    | (l, .goes phase) => steps t openStore h fuel phase l
    | r => r

/-- All steps until the handshake waits or ends. There are no loops in it, so that few steps are
enough. -/
def advance (t : Turn) (openStore : StoreParams → Except StoreError Unit) (h : Handshake)
    (phase : Phase) (l : Link) : Link × Progress InitFault Phase SessionConfig :=
  h.steps t openStore 16 phase l

/-- The instant at which a waiting handshake goes on by itself. -/
def alarm? : Phase → Option Instant
  | .listening deadline => some deadline
  | _ => none

end Handshake

end SimRelay
