import SimRelay.Session.Basic

/-!
# Call/Ping — is the daemon alive?

A ping first discards what lies on the control channel, so that the answer to an earlier ping is
not taken for its own; then it asks, and judges the first message that comes in time. Whatever goes
wrong after the session was found open means that the daemon cannot be reached.
-/

namespace SimRelay

/-- What a ping finds. -/
inductive PingStatus
  /-- The daemon answered with success. -/
  | healthy
  /-- The daemon answered, but not with success. -/
  | degraded
  /-- No usable answer in time. -/
  | unreachable
  deriving DecidableEq, Repr, Inhabited

/-- What a message says about the daemon that answered with it. -/
def PingStatus.ofAnswer (m : Message) : PingStatus :=
  if m.operation ≠ .ping then .unreachable
  else if m.resultCode = .success then .healthy
  else .degraded

namespace Ping

inductive Phase
  | start
  /-- Discarding what came before. -/
  | clearing
  | asking (x : Session.Saying)
  /-- About to listen. -/
  | asked
  | listening (deadline : Instant)
  deriving DecidableEq

/-- One attempt at hearing the answer. -/
def hearAnswer (t : Turn) (begins : Bool) (deadline : Instant) (s : Session) :
    Session × Progress Failure Phase PingStatus :=
  match s.hear t .ctrl begins (some deadline) with
  | (.message m, s) => (s, .ends (.ok (.ofAnswer m)))
  | (.nothing, s) => (s, .ends (.ok .unreachable))
  | (.failure _, s) => (s, .ends (.ok .unreachable))
  | (.inLine, s) => (s, .waits (.listening deadline))

/-- One step of a ping that waits so long for its answer. -/
def step (t : Turn) (timeout : Duration) (phase : Phase) (s : Session) :
    Session × Progress Failure Phase PingStatus :=
  match phase with
  | .start => if s.closed then (s, .ends (.error (.error .closed))) else (s, .goes .clearing)
  | .clearing => match s.hear t .ctrl true (some t.now) with
    | (.message _, s) => (s, .goes .clearing)
    | (.failure _, s) => (s, .ends (.ok .unreachable))
    | (_, s) => (s, .goes (.asking (.fresh (.ping s.originator))))
  | .asking x =>
    let (s, progress) := s.say t .ctrl x
    (s, progress.andThen .asking (fun _ => .goes .asked) fun _ => .ends (.ok .unreachable))
  | .asked => hearAnswer t true (t.now.timer timeout) s
  | .listening deadline => hearAnswer t false deadline s

end Ping

end SimRelay
