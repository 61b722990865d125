import SimRelay.Settings.Basic
import SimRelay.Number.Decimal

/-!
# Settings/Environment — settings from environment variables

Five variables override settings. A value that is not text, or that its setting cannot be read
from, is passed over, and so is an empty address.
-/

namespace SimRelay

/-- Variables and the bytes of their values. -/
abbrev Environment := List (String × ByteArray)

/-- The value of a variable, if it is set and is text. -/
def Environment.text? (env : Environment) (name : String) : Option String :=
  (env.lookup name).bind String.fromUTF8?

namespace Numeral

/-- A sign in front, if any, and the rest. -/
def sign : List Char → Bool × List Char
  | '-' :: rest => (true, rest)
  | '+' :: rest => (false, rest)
  | rest => (false, rest)

/-- Digits, if there is at least one and nothing else. -/
def digits? (cs : List Char) : Option (List Char) :=
  if cs.isEmpty ∨ ¬ cs.all Char.isDigit then none else some cs

/-- The exponent after a mantissa: nothing, or a letter, perhaps a sign, and digits. -/
def exponent? : List Char → Option Int
  | [] => some 0
  | c :: rest =>
    if c = 'e' ∨ c = 'E' then
      let (negative, rest) := sign rest
      (digits? rest).map fun ds =>
        let n : Int := Digits.spelled 10 ds
        if negative then -n else n
    else none

/-- A double: a sign, then digits with a point before, after, between them or nowhere, and an
exponent; or a spelling of infinity or of "not a number" in any case. -/
def double? (text : String) : Option Binary64 :=
  let (negative, body) := sign text.toList
  let word := String.ofList (body.map Char.toLower)
  if word = "inf" ∨ word = "infinity" then some (.infinite negative)
  else if word = "nan" then some .nan
  else
    let (whole, rest) := body.span Char.isDigit
    let (fraction, rest) := match rest with
      | '.' :: rest => rest.span Char.isDigit
      | rest => ([], rest)
    if whole.isEmpty ∧ fraction.isEmpty then none
    else (exponent? rest).map fun e => (Decimal.ofDigits negative whole fraction e).toBinary64

/-- A port: perhaps a plus sign, and digits. -/
def port? (text : String) : Option UInt16 :=
  let body := match text.toList with
    | '+' :: rest => rest
    | rest => rest
  (digits? body).bind fun ds =>
    let n := Digits.spelled 10 ds
    if n < UInt16.size then some (.ofNat n) else none

end Numeral

/-- The transport that a word in any case names. -/
def TransportKind.ofWord? (word : String) : Option TransportKind :=
  ofName? (String.ofList (word.toList.map Char.toLower))

/-- The settings, overridden by the environment. -/
def Settings.override (env : Environment) (s : Settings) : Settings where
  serverAddress := match env.text? "NSB_SERVER_ADDRESS" with
    | some address => if address.isEmpty then s.serverAddress else address
    | none => s.serverAddress
  serverPort := ((env.text? "NSB_SERVER_PORT").bind Numeral.port?).getD s.serverPort
  transport := ((env.text? "NSB_TRANSPORT").bind TransportKind.ofWord?).getD s.transport
  connectTimeout :=
    ((env.text? "NSB_CONNECT_TIMEOUT").bind Numeral.double?).getD s.connectTimeout
  responseTimeout :=
    ((env.text? "NSB_RESPONSE_TIMEOUT").bind Numeral.double?).getD s.responseTimeout
  brokerExchange := s.brokerExchange

end SimRelay
