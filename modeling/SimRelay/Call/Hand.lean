import SimRelay.Session.Basic
import SimRelay.Fetched

/-!
# Call/Hand — handing payloads to the daemon

An application sends payloads, a simulator posts them back. When payloads travel by key, bytes are
put into the store first, and the key of a payload that the simulated network dropped is taken out
of it: nobody will ask for that payload any more.
-/

namespace SimRelay

/-- What is handed over. -/
inductive Hand
  | send (destination : String) (payload : ByteArray)
  | post (source destination : String) (payload : Payload) (size : UInt64) (success : Bool)
  /-- A fetched payload goes back where it came from. -/
  | postFetched (fetched : Fetched) (success : Bool)
  deriving DecidableEq

namespace Hand

inductive Phase
  | start
  /-- The store is about to be given the payload under this key. -/
  | storing (key : String)
  /-- The store is about to be relieved of the payload under this key. -/
  | releasing (key : String)
  /-- The message is being said; its payload was stored under the key, if one is given. -/
  | saying (x : Session.Saying) (stored : Option String)
  deriving DecidableEq

/-- What a hand-over amounts to: the message, but for its payload, and the payload. -/
structure Parcel where
  message : Payload → Message
  payload : Payload
  /-- The bytes are to travel. -/
  travels : Bool

/-- The payload with which a fetched message goes back: its own, else the bytes that were looked
up, else none at all. -/
def fetchedPayload (f : Fetched) : Payload :=
  (f.message.payload <|> f.payload.map Payload.inline).getD (.inline .empty)

/-- What is to be handed over, unless a fetched message does not say between whom. -/
def parcel (s : Session) : Hand → Except ClientError Parcel
  | .send destination bytes => .ok {
      message := fun p => .send s.originator s.identifier destination p (.ofNat bytes.size)
      payload := .inline bytes
      travels := true }
  | .post source destination payload size success => .ok {
      message := fun p => .post s.originator source destination p size success
      payload
      travels := success }
  | .postFetched f success => match f.source, f.destination with
    | some source, some destination => .ok {
        message := fun p => .post s.originator source destination p f.payloadSize success
        payload := fetchedPayload f
        travels := success }
    | _, _ => .error (.protocol (.invalid .unrouted))

/-- The phase in which a message is about to be said. -/
def speak (m : Message) (stored : Option String) : Phase := .saying (.fresh m) stored

/-- One step of a hand-over. The result is the key under which the payload was stored, if the call
stored it. -/
def step (t : Turn) (h : Hand) (phase : Phase) (s : Session) (b : Backend) :
    Session × Backend × Progress Failure Phase (Option String) :=
  match h.parcel s with
  | .error e => (s, b, .ends (.error (.error e)))
  | .ok p => match phase with
    | .start =>
      if s.closed then (s, b, .ends (.error (.error .closed)))
      else match p.payload, p.travels, s.nextKey t with
        | .inline _, true, some (key, s) => (s, b, .goes (.storing key))
        | .key key, false, some _ => (s, b, .goes (.releasing key))
        | payload, _, _ => (s, b, .goes (speak (p.message payload) none))
    | .storing key => match p.payload with
      | .inline bytes => match b.put key bytes with
        | (b, .ok ()) => (s, b, .goes (speak (p.message (.key key)) (some key)))
        | (b, .error e) => (s, b, .ends (.error (.error (.store e))))
      | payload => (s, b, .goes (speak (p.message payload) none))
    | .releasing key =>
      let (b, _) := b.checkOut key
      (s, b, .goes (speak (p.message (.key key)) none))
    | .saying x stored =>
      let (s, progress) := s.say t .send x
      (s, b, progress.andThen (.saying · stored) (fun _ => .ends (.ok stored))
        fun e => .ends (.error (.error e)))

end Hand

end SimRelay
