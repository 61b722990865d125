import SimRelay.Session.Basic

/-!
# Call/Exit — leaving

The first exit marks the session closed, says so to the daemon, awaiting no answer, and closes the
link whether or not the message could be written; it gives the outcome of the writing. Every other
exit does nothing.
-/

namespace SimRelay.Exit

inductive Phase
  | start
  | saying (x : Session.Saying)
  /-- The link is being closed; the message went out, unless something was wrong. -/
  | closing (c : Link.Closing) (wrong : Option ClientError)
  deriving DecidableEq

/-- The phase behind the saying. -/
def behind (wrong : Option ClientError) : Progress Failure Phase Unit :=
  .goes (.closing .start wrong)

/-- The outcome, once the link is closed. -/
def outcome (wrong : Option ClientError) : Except Failure Unit :=
  match wrong with
  | none => .ok ()
  | some e => .error (.error e)

/-- One step of an exit. -/
def step (t : Turn) (phase : Phase) (s : Session) : Session × Progress Failure Phase Unit :=
  match phase with
  | .start =>
    if s.closed then (s, .ends (.ok ()))
    else
      let s := { s with closed := true }
      match (Message.exit s.originator).encode with
      | .error e => (s, behind (some (.encode e)))
      | .ok body => (s, .goes (.saying (.writing (.start body))))
  | .saying x =>
    let (s, progress) := s.say t .ctrl x
    (s, progress.andThen .saying (fun _ => behind none) fun e => behind (some e))
  | .closing c wrong =>
    let (link, progress) := s.link.close t.id c
    ({ s with link }, progress.andThen (.closing · wrong) (fun _ => .ends (outcome wrong)) nofun)

end SimRelay.Exit
