/-!
# Bytes — byte strings as lists, and little-endian numbers

Payloads, frames and messages are kept as `ByteArray`; what is said about them is said about the
list `b.data.toList`. A number of a fixed width is written with its lowest byte first
(`littleEndian`), and `littleEndian` and `littleEndianValue` undo each other on numbers that fit:
those below `wordSize`.
-/

namespace SimRelay

/-- How many numbers can be told apart in so many bytes. -/
def wordSize : (width : Nat) → Nat
  | 0 => 1
  | width + 1 => 256 * wordSize width

/-- The lowest `width` bytes of a number, lowest first. -/
def littleEndian : (width : Nat) → Nat → List UInt8
  | 0, _ => []
  | width + 1, n => UInt8.ofNat n :: littleEndian width (n / 256)

/-- The number that bytes spell, lowest byte first. -/
def littleEndianValue : List UInt8 → Nat
  | [] => 0
  | b :: bs => b.toNat + 256 * littleEndianValue bs

@[simp] theorem length_littleEndian : ∀ (width n : Nat), (littleEndian width n).length = width
  | 0, _ => rfl
  | width + 1, n => by simp [littleEndian, length_littleEndian width]

theorem littleEndianValue_lt :
    ∀ bytes : List UInt8, littleEndianValue bytes < wordSize bytes.length
  | [] => by simp [littleEndianValue, wordSize]
  | b :: bs => by
      have hb := b.toNat_lt
      have ih := littleEndianValue_lt bs
      simp only [littleEndianValue, List.length_cons, wordSize]
      omega

theorem littleEndianValue_littleEndian :
    ∀ {width n : Nat}, n < wordSize width → littleEndianValue (littleEndian width n) = n
  | 0, n, h => by simp [wordSize] at h; simp [littleEndian, littleEndianValue, h]
  | width + 1, n, h => by
      rw [wordSize] at h
      simp only [littleEndian, littleEndianValue, UInt8.toNat_ofNat']
      rw [littleEndianValue_littleEndian (Nat.div_lt_of_lt_mul (by omega))]
      omega

theorem littleEndian_littleEndianValue :
    ∀ bytes : List UInt8, littleEndian bytes.length (littleEndianValue bytes) = bytes
  | [] => rfl
  | b :: bs => by
      have hb := b.toNat_lt
      simp only [List.length_cons, littleEndian, littleEndianValue]
      congr 1
      · apply UInt8.toNat.inj
        simp only [UInt8.toNat_ofNat']
        omega
      · have : (b.toNat + 256 * littleEndianValue bs) / 256 = littleEndianValue bs := by omega
        rw [this, littleEndian_littleEndianValue bs]

/-- Two byte strings with the same bytes are the same. -/
theorem bytes_ext {a b : ByteArray} (h : a.data.toList = b.data.toList) : a = b :=
  ByteArray.ext (Array.toList_inj.mp h)

/-- Byte strings are compared as lists, so that a comparison can be computed in a proof. -/
instance decidableEqBytes : DecidableEq ByteArray := fun a b =>
  if h : a.data.toList = b.data.toList then isTrue (bytes_ext h)
  else isFalse fun heq => h (heq ▸ rfl)

@[simp] theorem toByteArray_toList (b : ByteArray) : b.data.toList.toByteArray = b :=
  bytes_ext List.toList_data_toByteArray

end SimRelay
