import SimRelay.Time.Duration

/-!
# Settings/Basic — how a client finds the daemon, and how long it waits

Timeouts are kept as the numbers of seconds that were configured. A number that is no duration
(negative, too large, not a number) stands for the default of its setting.
-/

namespace SimRelay

/-- What carries the channels. -/
inductive TransportKind
  /-- Three stream sockets. -/
  | socket
  /-- One queue for each channel on a message broker. -/
  | broker
  deriving DecidableEq, Repr, Inhabited

def TransportKind.ofName? : String → Option TransportKind
  | "socket" => some .socket
  | "broker" => some .broker
  | _ => none

structure Settings where
  serverAddress : String := "127.0.0.1"
  serverPort : UInt16 := 65432
  transport : TransportKind := .socket
  /-- How many seconds to keep trying to reach the daemon. -/
  connectTimeout : Binary64 := .ofNat 10
  /-- How many seconds to wait for an answer of the daemon. -/
  responseTimeout : Binary64 := .ofNat 600
  brokerExchange : String := "nsb"
  deriving DecidableEq, Repr, Inhabited

namespace Settings

def new (address : String) (port : UInt16) : Settings :=
  { serverAddress := address, serverPort := port }

def withTransport (kind : TransportKind) (s : Settings) : Settings := { s with transport := kind }

def withConnectTimeout (d : Duration) (s : Settings) : Settings :=
  { s with connectTimeout := d.toSeconds }

def withResponseTimeout (d : Duration) (s : Settings) : Settings :=
  { s with responseTimeout := d.toSeconds }

def withBrokerExchange (name : String) (s : Settings) : Settings :=
  { s with brokerExchange := name }

/-- The duration of so many seconds, or else of a default number of seconds. -/
def secondsOr (seconds : Binary64) (fallback : Nat) : Duration :=
  (Duration.ofSeconds? seconds).getD (.ofSeconds fallback)

def connectWindow (s : Settings) : Duration := secondsOr s.connectTimeout 10

def responseWindow (s : Settings) : Duration := secondsOr s.responseTimeout 600

/-- Host and port, for messages. -/
def server (s : Settings) : String := s.serverAddress ++ ":" ++ toString s.serverPort.toNat

end Settings

end SimRelay
