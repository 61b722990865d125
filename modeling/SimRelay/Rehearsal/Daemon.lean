import SimRelay.Link.Basic

/-!
# Rehearsal/Daemon — a daemon that says what it is told to say

In a rehearsal every client has a daemon of its own. It hears everything at once, and writes only
on cue: when its first message of a step comes in, or when the script lets it speak.
-/

namespace SimRelay.Rehearsal

/-- What a daemon can do on a channel. -/
inductive Utterance
  | message (m : Message)
  /-- Bytes as the body of one frame. -/
  | body (bytes : ByteArray)
  /-- Bytes as they are. -/
  | stream (bytes : ByteArray)
  /-- The end of the daemon's direction. -/
  | hangUp
  deriving DecidableEq

/-- An utterance, and the channel it belongs to unless it answers where it was asked. -/
structure Cue where
  channel : Option Channel
  utterance : Utterance
  deriving DecidableEq

/-- Something a daemon has heard. -/
inductive Note
  | frame (body : ByteArray)
  | ended
  deriving DecidableEq

/-- How much of one channel has been heard. -/
structure Ear where
  bytes : Nat := 0
  ended : Bool := false
  deriving DecidableEq, Inhabited

structure Daemon where
  ctrl : Ear := {}
  send : Ear := {}
  recv : Ear := {}
  /-- What to say to the next message. -/
  cues : List Cue := []
  /-- What was heard in this step, in order. -/
  notes : List (Channel × Note) := []
  deriving DecidableEq, Inhabited

namespace Daemon

def ear (ch : Channel) (d : Daemon) : Ear :=
  match ch with
  | .ctrl => d.ctrl
  | .send => d.send
  | .recv => d.recv

def setEar (ch : Channel) (e : Ear) (d : Daemon) : Daemon :=
  match ch with
  | .ctrl => { d with ctrl := e }
  | .send => { d with send := e }
  | .recv => { d with recv := e }

/-- The bytes of an utterance, length and all; none for a hang-up. Neither validity nor the limit
on frames is looked at. -/
def bytesOf : Utterance → Option ByteArray
  | .message m => match m.encode with
    | .ok body => some (framed body)
    | .error _ => some .empty
  | .body bytes => some (framed bytes)
  | .stream bytes => some bytes
  | .hangUp => none
where
  framed (body : ByteArray) : ByteArray :=
    (littleEndian Frame.headLength body.size).toByteArray ++ body

/-- What an utterance does to a link. -/
def speak (ch : Channel) (u : Utterance) (l : Link) : Link :=
  let inbox := l.inbox ch
  l.setInbox ch (match bytesOf u with
    | some bytes => inbox.arrive bytes
    | none => inbox.finish)

/-- Utterances in order; those without a channel go to `ch`. -/
def speakAll (ch : Channel) (cues : List Cue) (l : Link) : Link :=
  cues.foldl (fun l c => speak (c.channel.getD ch) c.utterance l) l

/-- What is new on one channel. -/
def overhear (l : Link) (ch : Channel) (d : Daemon) : Daemon :=
  let o := l.outbox ch
  let ear := d.ear ch
  let frames := (Frame.splitAll (o.wire.extract ear.bytes o.wire.size)).1
  let heard := frames.map fun f => (ch, Note.frame f.1)
  let ends := if o.ended ∧ ¬ ear.ended then [(ch, Note.ended)] else []
  let d := d.setEar ch ⟨frames.foldl (fun n f => n + f.2) ear.bytes, o.ended⟩
  { d with notes := d.notes ++ heard ++ ends }

/-- Hears what is new on all channels, and answers the first message with the cues. -/
def attend (d : Daemon) (l : Link) : Daemon × Link :=
  let before := d.notes.length
  let d := Channel.all.foldl (fun d ch => d.overhear l ch) d
  let first := (d.notes.drop before).find? fun n => match n.2 with
    | .frame _ => true
    | .ended => false
  match first with
  | some (ch, _) => ({ d with cues := [] }, speakAll ch d.cues l)
  | none => (d, l)

end Daemon

end SimRelay.Rehearsal
