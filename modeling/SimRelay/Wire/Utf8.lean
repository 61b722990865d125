import SimRelay.Bytes
import SimRelay.Wire.Fault

/-!
# Wire/Utf8 — text from bytes, with the exact place where it fails

`readUtf8` accepts exactly the bytes of a text (`readUtf8_eq_ok`). When it refuses, `utf8Fault`
walks to the first byte that no sequence admits and measures how much of that sequence was sound:
one byte if the lead or the second byte is wrong, two or three if a later one is, and none if the
bytes end inside a sequence that was sound so far.
-/

namespace SimRelay

/-- The length of the sequence that a byte from `0x80` up leads, and the range of its second byte.
The narrow ranges keep out overlong forms, surrogates and code points beyond the last one. -/
def utf8Lead (b : UInt8) : Option (Nat × UInt8 × UInt8) :=
  if 0xC2 ≤ b ∧ b ≤ 0xDF then some (2, 0x80, 0xBF)
  else if b = 0xE0 then some (3, 0xA0, 0xBF)
  else if b = 0xED then some (3, 0x80, 0x9F)
  else if 0xE1 ≤ b ∧ b ≤ 0xEF then some (3, 0x80, 0xBF)
  else if b = 0xF0 then some (4, 0x90, 0xBF)
  else if 0xF1 ≤ b ∧ b ≤ 0xF3 then some (4, 0x80, 0xBF)
  else if b = 0xF4 then some (4, 0x80, 0x8F)
  else none

/-- The first fault in bytes that are not UTF-8, `index` sound bytes having gone before. -/
def utf8Fault (index : Nat) : List UInt8 → Utf8Fault
  | [] => ⟨index, none⟩
  | b :: rest =>
    if b < 0x80 then utf8Fault (index + 1) rest
    else match utf8Lead b with
      | none => ⟨index, some 1⟩
      | some (width, low, high) =>
        match rest with
        | [] => ⟨index, none⟩
        | second :: rest =>
          if ¬ (low ≤ second ∧ second ≤ high) then ⟨index, some 1⟩
          else if width = 2 then utf8Fault (index + 2) rest
          else match rest with
            | [] => ⟨index, none⟩
            | third :: rest =>
              if ¬ (0x80 ≤ third ∧ third ≤ 0xBF) then ⟨index, some 2⟩
              else if width = 3 then utf8Fault (index + 3) rest
              else match rest with
                | [] => ⟨index, none⟩
                | fourth :: rest =>
                  if ¬ (0x80 ≤ fourth ∧ fourth ≤ 0xBF) then ⟨index, some 3⟩
                  else utf8Fault (index + 4) rest

/-- The text that bytes spell. -/
def readUtf8 (bytes : List UInt8) : Except Utf8Fault String :=
  match String.fromUTF8? bytes.toByteArray with
  | some s => .ok s
  | none => .error (utf8Fault 0 bytes)

/-- The bytes of a text. -/
def writeUtf8 (s : String) : List UInt8 := s.toUTF8.data.toList

/-- **A text is read from its own bytes and from no others.** -/
theorem readUtf8_eq_ok {bytes : List UInt8} {s : String} :
    readUtf8 bytes = .ok s ↔ bytes = writeUtf8 s := by
  unfold readUtf8 writeUtf8 String.fromUTF8?
  constructor
  · intro h
    split at h
    · next t ht =>
      cases h
      split at ht
      · cases ht
        simp [String.fromUTF8, String.toUTF8]
      · cases ht
    · cases h
  · rintro rfl
    rw [toByteArray_toList]
    have valid : s.toUTF8.IsValidUTF8 := s.isValidUTF8
    rw [dif_pos valid]
    rfl

end SimRelay
