import SimRelay.Bytes

/-!
# Message — what clients and the daemon say to each other

A `Message` is a header (`Manifest`) and up to four optional sections: routing (`Metadata`), a
client's introduction (`Intro`), the daemon's terms (`Terms`) and a `Payload`, which is either the
bytes themselves or the key of bytes held in a payload store. Two rules hold between sections;
`Message.defect?` finds the first that a message breaks.
-/

namespace SimRelay

/-- What a message asks for, or answers. -/
inductive Operation
  | init
  | ping
  | exit
  | send
  | receive
  | fetch
  | post
  /-- A delivery nobody asked for: the daemon pushes it. -/
  | forward
  deriving DecidableEq, Repr, Inhabited

/-- The name an operation goes by in diagnostics. -/
def Operation.name : Operation → String
  | .init => "Init"
  | .ping => "Ping"
  | .exit => "Exit"
  | .send => "Send"
  | .receive => "Receive"
  | .fetch => "Fetch"
  | .post => "Post"
  | .forward => "Forward"

/-- The party that produced a message. -/
inductive Originator
  | application
  | simulator
  | daemon
  deriving DecidableEq, Repr, Inhabited

/-- Success and failure answer control operations; the other two say whether a payload was found. -/
inductive ResultCode
  | success
  | failure
  | message
  | noMessage
  deriving DecidableEq, Repr, Inhabited

/-- The header every message has. -/
structure Manifest where
  operation : Operation
  originator : Originator
  resultCode : ResultCode
  deriving DecidableEq, Inhabited

/-- How the ends of a route are named. Text is the only way there is. -/
inductive AddressType
  | text
  deriving DecidableEq, Repr, Inhabited

/-- Routing of a payload. -/
structure Metadata where
  addressType : AddressType := .text
  source : Option String := none
  destination : Option String := none
  /-- The length of the payload in bytes, also when only its key travels. -/
  payloadSize : UInt64 := 0
  deriving DecidableEq, Inhabited

/-- How a client introduces itself, so that the daemon can register its three channels. -/
structure Intro where
  identifier : String
  address : String
  ctrlPort : UInt16
  sendPort : UInt16
  recvPort : UInt16
  deriving DecidableEq, Inhabited

/-- Whether clients ask for each delivery or the daemon forwards deliveries on its own. -/
inductive SystemMode
  | pull
  | push
  deriving DecidableEq, Repr, Inhabited

/-- The terms the daemon sets when it accepts an introduction. -/
structure Terms where
  mode : SystemMode := .pull
  useStore : Bool := false
  storeAddress : String := ""
  storePort : UInt16 := 0
  storeIndex : UInt32 := 0
  deriving DecidableEq, Inhabited

/-- Payload bytes, or the key under which a payload store holds them. -/
inductive Payload
  | inline (bytes : ByteArray)
  | key (key : String)
  deriving DecidableEq, Inhabited

/-- One message. A section is present only where the operation needs it. -/
structure Message where
  manifest : Manifest
  metadata : Option Metadata := none
  intro : Option Intro := none
  terms : Option Terms := none
  payload : Option Payload := none
  deriving DecidableEq, Inhabited

namespace Message

/-! ## Making messages -/

/-- A message of a header alone. -/
def bare (operation : Operation) (originator : Originator) (code : ResultCode) : Message :=
  { manifest := ⟨operation, originator, code⟩ }

def init (originator : Originator) (intro : Intro) : Message :=
  { bare .init originator .success with intro := some intro }

/-- The daemon's answer to an introduction. -/
def initResponse (code : ResultCode) (terms : Terms) : Message :=
  { bare .init .daemon code with terms := some terms }

def ping (originator : Originator) : Message := bare .ping originator .success

def exit (originator : Originator) : Message := bare .exit originator .success

/-- A payload on its way out of an application. -/
def send (originator : Originator) (source destination : String) (payload : Payload)
    (size : UInt64) : Message :=
  { bare .send originator .message with
    metadata := some { source, destination, payloadSize := size }
    payload := some payload }

/-- Asks for one payload addressed to `destination`. -/
def receiveRequest (originator : Originator) (destination : String) : Message :=
  { bare .receive originator .success with metadata := some { destination } }

/-- Asks for the next payload to simulate; without a source, from anyone. -/
def fetchRequest (originator : Originator) (source : Option String) : Message :=
  { bare .fetch originator .success with
    metadata := source.map fun s => { source := some s } }

/-- The simulator hands a payload back. A dropped payload keeps its routing and loses its body. -/
def post (originator : Originator) (source destination : String) (payload : Payload)
    (size : UInt64) (success : Bool) : Message :=
  { bare .post originator (if success then .message else .noMessage) with
    metadata := some { source, destination, payloadSize := size }
    payload := if success then some payload else none }

/-! ## Reading messages -/

def operation (m : Message) : Operation := m.manifest.operation

def resultCode (m : Message) : ResultCode := m.manifest.resultCode

/-- The payload bytes, when the message carries them. -/
def payloadBytes (m : Message) : Option ByteArray :=
  match m.payload with
  | some (.inline bytes) => some bytes
  | _ => none

/-- The store key, when the message carries one in place of bytes. -/
def payloadKey (m : Message) : Option String :=
  match m.payload with
  | some (.key key) => some key
  | _ => none

def source (m : Message) : Option String := m.metadata.bind Metadata.source

def destination (m : Message) : Option String := m.metadata.bind Metadata.destination

/-- The announced payload length; zero without routing. -/
def payloadSize (m : Message) : UInt64 := (m.metadata.map Metadata.payloadSize).getD 0

/-! ## Rules between sections -/

/-- What can be wrong with a message whose sections are all well formed. -/
inductive Defect
  | missingManifest
  /-- The header says that there is no payload, and there is one. -/
  | unexpectedPayload
  /-- An introduction or terms outside the handshake. -/
  | setupOutsideInit
  /-- A fetched payload does not say where it comes from or where it goes. -/
  | unrouted
  deriving DecidableEq, Repr

def Defect.message : Defect → String
  | .missingManifest => "missing manifest"
  | .unexpectedPayload => "NO_MESSAGE carries a payload"
  | .setupOutsideInit => "intro/config outside INIT"
  | .unrouted => "fetched message has no routing metadata"

/-- The first rule between sections that `m` breaks. -/
def defect? (m : Message) : Option Defect :=
  if m.resultCode = .noMessage ∧ m.payload.isSome then some .unexpectedPayload
  else if m.operation ≠ .init ∧ (m.intro.isSome ∨ m.terms.isSome) then some .setupOutsideInit
  else none

/-- The sections of `m` go together. -/
def Valid (m : Message) : Prop := m.defect? = none

instance (m : Message) : Decidable m.Valid := inferInstanceAs (Decidable (_ = _))

end Message

end SimRelay
