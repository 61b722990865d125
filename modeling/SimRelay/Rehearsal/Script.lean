import SimRelay.Call.Basic
import SimRelay.Connect.Handshake
import SimRelay.Connect.Dial
import SimRelay.Rehearsal.Daemon

/-!
# Rehearsal/Script — what a script may ask for, and what is answered

A script is a list of steps. Most name a client and let it do something; the others move its
daemon or a store. Each step is answered, and a report adds what could be observed meanwhile.
-/

namespace SimRelay.Rehearsal

/-! ## Steps -/

/-- Whether and when a daemon can be reached. -/
inductive Server
  | listening
  | down
  /-- Connections are refused until so many milliseconds have passed. -/
  | afterMillis (n : Nat)
  deriving DecidableEq, Repr

/-- What connects. -/
inductive Kind
  | client (role : Role)
  /-- A bare link without handshake. -/
  | raw
  deriving DecidableEq, Repr

structure ConnectOptions where
  kind : Kind
  /-- The address of the daemon, for messages. -/
  address : String
  /-- Time is real for this client, and not the script's. -/
  realTime : Bool := false
  identifier : String
  /-- The memory store that the client brings. -/
  store : Option String := none
  window : Duration
  responseWindow : Duration
  server : Server := .listening

/-- Where a store is. -/
inductive StoreRef
  | memory (name : String)
  | server (index : UInt32)
  deriving DecidableEq, Repr

/-- What is done directly with a store. -/
inductive StoreAction
  | store (payload : ByteArray)
  | put (key : String) (payload : ByteArray)
  | peek (key : String)
  | checkOut (key : String)
  | isConnected

inductive Action
  | connect (options : ConnectOptions)
  | call (c : Call)
  /-- Posts back what the client fetched last. -/
  | postLast (success : Bool)
  | rawSend (ch : Channel) (body : ByteArray)
  | rawReceive (ch : Channel) (timeout : Option Duration)
  | rawClose
  | openStore (clientId : String) (ref : StoreRef)
  | withStore (action : StoreAction)
  /-- The client's daemon writes. -/
  | daemon (cues : List Cue)
  /-- The store server fails from now on, or does not. -/
  | storeServer (failing : Bool)
  | join (name : String)
  | cancel (name : String)

structure Step where
  client : String := ""
  action : Action
  /-- What the daemon answers to the first message of this step. -/
  replies : List Cue := []
  /-- The name under which the call goes on in the background. -/
  background : Option String := none

/-! ## Answers -/

inductive Answer
  | opened (identifier : String) (config : SessionConfig) (elapsed : Option Nat)
  | linked (address : String) (elapsed : Option Nat)
  | reply (r : Reply)
  | bytes (b : Option ByteArray)
  | key (key : String)
  | flag (b : Bool)
  | done
  | failure (f : Failure) (elapsed : Option Nat)
  | storeFailure (e : StoreError)
  | blocked
  | started
  | cancelled (b : Bool)

structure Report where
  answer : Answer
  /-- What each daemon heard; with whether its client is a bare link. -/
  sent : List (String × Bool × List (Channel × Note))
  /-- Whether the client of the step is closed, if it is connected. -/
  closed : Option Bool
  /-- The memory stores and how many payloads they hold. -/
  stores : List (String × Nat)
  /-- What the store server received, and how many payloads it holds. -/
  server : Option (List StoreRequest × Nat)

/-- Why a script cannot go on. -/
inductive Fault
  /-- A step needs a client that is not connected. -/
  | notConnected
  /-- A step names a call in the background that there is not. -/
  | noSuchCall
  /-- A call aborted the program. -/
  | aborted (f : Failure)
  deriving DecidableEq

def Fault.message : Fault → String
  | .notConnected => "client not connected"
  | .noSuchCall => "no such call"
  | .aborted f => f.message

end SimRelay.Rehearsal
