import SimRelay.Message

/-!
# Wire/Fault — why bytes are not a message

`BodyFault` says what is wrong inside one section, `DecodeError` what is wrong with a whole
message. Their texts are part of the interface.
-/

namespace SimRelay

/-- Where and how bytes stop being UTF-8. -/
structure Utf8Fault where
  /-- How many bytes before the fault are sound. -/
  validUpTo : Nat
  /-- The length of the unsound part; none if the bytes merely end too soon. -/
  length : Option Nat
  deriving DecidableEq, Repr

def Utf8Fault.message (f : Utf8Fault) : String :=
  match f.length with
  | some n => "invalid utf-8 sequence of " ++ toString n ++ " bytes from index " ++
      toString f.validUpTo
  | none => "incomplete utf-8 byte sequence from index " ++ toString f.validUpTo

/-- What is wrong inside the body of one section. -/
inductive BodyFault
  /-- A fixed-size item does not fit in what is left of the body. -/
  | endOfBody
  /-- A text is announced longer than what is left of the body. -/
  | textTooLong
  | badVariant (index variants : Nat)
  | badOptionTag (tag : Nat)
  | badBool (byte : UInt8)
  | badText (fault : Utf8Fault)
  deriving DecidableEq, Repr

def BodyFault.message : BodyFault → String
  | .endOfBody => "io error: unexpected end of file"
  | .textTooLong => "io error: "
  | .badVariant index variants => "invalid value: integer `" ++ toString index ++
      "`, expected variant index 0 <= i < " ++ toString variants
  | .badOptionTag tag => "tag for enum is not valid, found " ++ toString tag
  | .badBool byte => "invalid u8 while decoding bool, expected 0 or 1, found " ++ toString byte
  | .badText fault => "string is not valid utf8: " ++ fault.message

/-- Why bytes are not a message. -/
inductive DecodeError
  | empty
  | truncated
  | unsupportedVersion (version : UInt8)
  | body (fault : BodyFault)
  | invalid (defect : Message.Defect)
  deriving DecidableEq, Repr

def DecodeError.message : DecodeError → String
  | .empty => "empty message"
  | .truncated => "truncated message"
  | .unsupportedVersion version => "unsupported protocol version " ++ toString version
  | .body fault => "decode error: " ++ fault.message
  | .invalid defect => "invalid message: " ++ defect.message

/-- Why a message or a frame cannot be written. -/
inductive EncodeError
  | tooLarge
  deriving DecidableEq, Repr

def EncodeError.message : EncodeError → String
  | .tooLarge => "frame too large"

end SimRelay
