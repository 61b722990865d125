import SimRelay.Settings.Environment
import SimRelay.Toml.Document

/-!
# Settings/File — settings from a configuration file

Every entry of the file names a setting, and each value has the kind that its setting needs: a
timeout may be an integer, and the transport a table of which the name of the transport is the one
key, with nothing under it. Settings not named keep their defaults.
-/

namespace SimRelay

/-- Why a configuration file cannot be used. -/
inductive FileError
  | notFound
  /-- The file is not text. -/
  | invalidData
  | parse
  deriving DecidableEq, Repr

namespace Settings

/-- A number of seconds. -/
def seconds? : Toml.Value → Option Binary64
  | .float x => some x
  | .integer n => some (.ofInt n)
  | _ => none

/-- A transport: its name, or a table that has its name for the only key and nothing under it. -/
def transport? : Toml.Value → Option TransportKind
  | .text name => TransportKind.ofName? name
  | .table _ [(name, v)] => if v.isEmpty then TransportKind.ofName? name else none
  | _ => none

/-- The settings with one entry of a file applied. -/
def set? (s : Settings) (key : String) (value : Toml.Value) : Option Settings :=
  match key, value with
  | "server_address", .text address => some { s with serverAddress := address }
  | "server_port", .integer n =>
    if 0 ≤ n ∧ n.toNat < UInt16.size then some { s with serverPort := .ofNat n.toNat } else none
  | "transport", value => (transport? value).map fun kind => { s with transport := kind }
  | "connect_timeout_secs", value =>
    (seconds? value).map fun x => { s with connectTimeout := x }
  | "response_timeout_secs", value =>
    (seconds? value).map fun x => { s with responseTimeout := x }
  | "broker_exchange", .text name => some { s with brokerExchange := name }
  | _, _ => none

/-- The settings that a document describes. -/
def ofDocument? (document : String) : Option Settings := do
  let entries ← Toml.ofDocument? document
  entries.foldlM (fun s e => s.set? e.1 e.2) {}

/-- The settings in the file with these bytes, if there is such a file. -/
def ofFile (file : Option ByteArray) : Except FileError Settings :=
  match file with
  | none => .error .notFound
  | some bytes => match String.fromUTF8? bytes with
    | none => .error .invalidData
    | some document => match ofDocument? document with
      | none => .error .parse
      | some s => .ok s

/-- Defaults, then the file if it can be used, then the environment. -/
def load (file : Option ByteArray) (env : Environment) : Settings :=
  let base := match ofFile file with
    | .ok s => s
    | .error _ => {}
  base.override env

end Settings

end SimRelay
