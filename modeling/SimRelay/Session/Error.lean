import SimRelay.Link.Basic
import SimRelay.Session.Config
import SimRelay.Store.Backend

/-!
# Session/Error — what a client is told when a call fails

A delivery that does not come in time is no error. Their texts are part of the interface.
-/

namespace SimRelay

/-- Why the handshake came to nothing. -/
inductive InitFault
  | encoding (error : EncodeError)
  | sending (error : LinkError)
  | awaiting (error : LinkError)
  | silent (within : Duration)
  | malformed (error : DecodeError)
  | unexpected (operation : Operation)
  | refused
  | noTerms
  | store (params : StoreParams) (error : StoreError)
  deriving DecidableEq

def InitFault.message : InitFault → String
  | .encoding error => "encode INIT: " ++ error.message
  | .sending error => "send INIT: " ++ error.message
  | .awaiting error => "await INIT response: " ++ error.message
  | .silent within => "no INIT response within " ++ within.text
  | .malformed error => "malformed INIT response: " ++ error.message
  | .unexpected operation => "expected INIT response, got " ++ operation.name
  | .refused => "daemon refused INIT"
  | .noTerms => "INIT response carries no config"
  | .store params error => "payload store " ++ params.address ++ ":" ++
      toString params.port.toNat ++ " unavailable: " ++ error.message

inductive ClientError
  /-- The daemon was not reached within the connect window. -/
  | connectTimeout (server : String) (window : Duration)
  | initialization (fault : InitFault)
  | link (error : LinkError)
  | protocol (error : DecodeError)
  | encode (error : EncodeError)
  | store (error : StoreError)
  /-- The client has left. -/
  | closed
  deriving DecidableEq

def ClientError.message : ClientError → String
  | .connectTimeout server window =>
    "could not connect to " ++ server ++ " within " ++ window.text
  | .initialization fault => "initialization failed: " ++ fault.message
  | .link error => error.message
  | .protocol error => error.message
  | .encode error => "message encode error: " ++ error.message
  | .store error => "payload store error: " ++ error.message
  | .closed => "client is closed"

/-- How a call ends without a result. -/
inductive Failure
  | error (cause : ClientError)
  /-- A deadline lies beyond the last instant; the program is aborted. -/
  | deadlineOverflow
  deriving DecidableEq

def Failure.message : Failure → String
  | .error cause => cause.message
  | .deadlineOverflow => "overflow when adding duration to instant"

end SimRelay
