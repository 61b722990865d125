import SimRelay.Wire.Body

/-!
# Wire/Codec — messages as bytes

A message is a version byte and five sections: manifest, metadata, introduction, terms, payload.
Each section is its length in four bytes and then its body; length zero means that the section is
absent. What follows a value inside its body is skipped, and so is what follows the fifth section,
so that a newer peer may add to either.
-/

namespace SimRelay

/-- The version this library speaks. -/
def protocolVersion : UInt8 := 1

namespace Section

/-- The bytes of a section body; none when the section is absent. -/
def body {α : Type} (l : Layout α) : Option α → List UInt8
  | some a => l.write a
  | none => []

/-- A body with its length in front, if four bytes can hold the length. -/
def write (body : List UInt8) : Except EncodeError (List UInt8) :=
  if body.length < UInt32.size then .ok (littleEndian 4 body.length ++ body) else .error .tooLarge

/-- Cuts the body in front from what follows it. -/
def split (bytes : List UInt8) : Except DecodeError (List UInt8 × List UInt8) :=
  if bytes.length < 4 then .error .truncated
  else
    let length := littleEndianValue (bytes.take 4)
    let rest := bytes.drop 4
    if rest.length < length then .error .truncated
    else .ok (rest.take length, rest.drop length)

/-- The value in a body; bytes after it are skipped. -/
def value {α : Type} (l : Layout α) (body : List UInt8) : Except DecodeError (Option α) :=
  if body.isEmpty then .ok none
  else match l.read body with
    | .error fault => .error (.body fault)
    | .ok (a, _) => .ok (some a)

/-- The section in front and what follows it. -/
def read {α : Type} (l : Layout α) (bytes : List UInt8) :
    Except DecodeError (Option α × List UInt8) := do
  let (body, rest) ← split bytes
  let a? ← value l body
  return (a?, rest)

end Section

namespace Message

/-- The bytes of a message. Fails only if a section outgrows its length field; the rules between
sections are not looked at. -/
def encode (m : Message) : Except EncodeError ByteArray := do
  let manifest ← Section.write (Section.body Layout.manifest (some m.manifest))
  let metadata ← Section.write (Section.body Layout.metadata m.metadata)
  let intro ← Section.write (Section.body Layout.intro m.intro)
  let terms ← Section.write (Section.body Layout.terms m.terms)
  let payload ← Section.write (Section.body Layout.payload m.payload)
  return (protocolVersion :: (manifest ++ metadata ++ intro ++ terms ++ payload)).toByteArray

/-- The five sections, read in order. The first thing that is wrong decides. -/
def readSections (bytes : List UInt8) : Except DecodeError Message := do
  let (manifest?, rest) ← Section.read Layout.manifest bytes
  let some manifest := manifest? | throw (.invalid .missingManifest)
  let (metadata, rest) ← Section.read Layout.metadata rest
  let (intro, rest) ← Section.read Layout.intro rest
  let (terms, rest) ← Section.read Layout.terms rest
  let (payload, _) ← Section.read Layout.payload rest
  return { manifest, metadata, intro, terms, payload }

/-- The message that bytes spell: the version is known, every section can be read, and the
sections go together. -/
def decode (bytes : ByteArray) : Except DecodeError Message :=
  match bytes.data.toList with
  | [] => .error .empty
  | version :: rest =>
    if version ≠ protocolVersion then .error (.unsupportedVersion version)
    else do
      let m ← readSections rest
      match m.defect? with
      | some defect => throw (.invalid defect)
      | none => return m

end Message

end SimRelay
