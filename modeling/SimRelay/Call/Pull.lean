import SimRelay.Session.Basic

/-!
# Call/Pull — asking for one delivery

A pull first drains the inbound channel: what came for requests that had given up is kept, and the
oldest kept delivery that this call wants answers it. Only otherwise does it ask, and then it
listens until its deadline, keeping deliveries that other calls want. A message that is no delivery
ends the wait with nothing, and so does one that cannot be read.
-/

namespace SimRelay

/-- Which deliveries a call wants. -/
inductive Wanted
  | addressedTo (destination : String)
  /-- From one source, or from any. -/
  | sentBy (source : Option String)
  deriving DecidableEq, Repr

namespace Wanted

def accepts (w : Wanted) (m : Message) : Bool :=
  match w with
  | .addressedTo destination => m.destination = some destination
  | .sentBy none => true
  | .sentBy (some source) => m.source = some source

/-- The message that asks for such a delivery. -/
def request (w : Wanted) (originator : Originator) : Message :=
  match w with
  | .addressedTo destination => .receiveRequest originator destination
  | .sentBy source => .fetchRequest originator source

end Wanted

namespace Pull

inductive Phase
  | draining
  | asking (x : Session.Saying)
  /-- About to listen, until the deadline. -/
  | asked (deadline : Instant)
  | listening (deadline : Instant)
  deriving DecidableEq

/-- One attempt at hearing the answer: a delivery that this call wants, or one to keep. -/
def hearAnswer (t : Turn) (wanted : Wanted) (begins : Bool) (deadline : Instant) (s : Session) :
    Session × Progress Failure Phase (Option Message) :=
  match s.hear t .recv begins (some deadline) with
  | (.message m, s) =>
    if ¬ m.isDelivery s.role.delivery then (s, .ends (.ok none))
    else if wanted.accepts m then (s, .ends (.ok (some m)))
    else (s.keep m, .goes (.asked deadline))
  | (.nothing, s) => (s, .ends (.ok none))
  | (.failure e, s) => (s, .ends (.error (.error e)))
  | (.inLine, s) => (s, .waits (.listening deadline))

/-- One step of a pull that waits so long after it has asked. -/
def step (t : Turn) (wanted : Wanted) (timeout : Duration) (phase : Phase) (s : Session) :
    Session × Progress Failure Phase (Option Message) :=
  match phase with
  | .draining => match s.hear t .recv true (some t.now) with
    | (.message m, s) =>
      (if m.isDelivery s.role.delivery then s.keep m else s, .goes .draining)
    | (.failure e, s) => (s, .ends (.error (.error e)))
    | (_, s) => match s.takeLate wanted.accepts with
      | some (m, s) => (s, .ends (.ok (some m)))
      | none => (s, .goes (.asking (.fresh (wanted.request s.originator))))
  | .asking x =>
    let (s, progress) := s.say t .recv x
    (s, progress.andThen .asking
      (fun _ => match t.now.after? timeout with
        | some deadline => .goes (.asked deadline)
        | none => .ends (.error .deadlineOverflow))
      fun e => .ends (.error (.error e)))
  | .asked deadline => hearAnswer t wanted true deadline s
  | .listening deadline => hearAnswer t wanted false deadline s

end Pull

end SimRelay
