import SimRelay.Wire.Codec

/-!
# Wire/Frame — messages cut out of a byte stream

A frame is a body of at most 64 MiB with its length in four bytes in front. `Frame.splitAt` finds
the frame that begins at a certain byte of a buffer, and tells a buffer that is too short from one
that no more bytes can mend; what lies before that byte makes no difference (`splitAt_eq_split`).
-/

namespace SimRelay.Frame

/-- The longest body a frame carries. -/
def maxLength : Nat := 64 * 1024 * 1024

/-- The bytes before the body. -/
def headLength : Nat := 4

/-- Why there is no frame at the front of a buffer. -/
inductive Fault
  /-- The frame is not complete yet. -/
  | needMore
  /-- The announced length is above the limit. -/
  | tooLarge (length : Nat)
  deriving DecidableEq, Repr

def Fault.message : Fault → String
  | .needMore => "need more bytes"
  | .tooLarge length => "frame too large: " ++ toString length ++ " bytes"

/-- A body with its length in front. -/
def encode (body : ByteArray) : Except EncodeError ByteArray :=
  if body.size ≤ maxLength then .ok ((littleEndian headLength body.size).toByteArray ++ body)
  else .error .tooLarge

/-- The length that the four bytes from `start` on announce. -/
def announced (start : Nat) (buffer : ByteArray) : Nat :=
  littleEndianValue (buffer.extract start (start + headLength)).data.toList

/-- The body of the frame that begins at `start`, and how many bytes the frame takes. -/
def splitAt (start : Nat) (buffer : ByteArray) : Except Fault (ByteArray × Nat) :=
  let left := buffer.size - start
  if left < headLength then .error .needMore
  else
    let length := announced start buffer
    if maxLength < length then .error (.tooLarge length)
    else
      let stop := headLength + length
      if left < stop then .error .needMore
      else .ok (buffer.extract (start + headLength) (start + stop), stop)

/-- The body of the frame at the front of a buffer, and how many bytes the frame takes. -/
def split (buffer : ByteArray) : Except Fault (ByteArray × Nat) := splitAt 0 buffer

/-- **A frame is found in what is left of the buffer.** -/
theorem splitAt_eq_split (start : Nat) (buffer : ByteArray) :
    splitAt start buffer = split (buffer.extract start buffer.size) := by
  have hsize : (buffer.extract start buffer.size).size = buffer.size - start := by simp
  have hpos : 0 < headLength := by decide
  have hsub (a b : Nat) (hb : start + b ≤ buffer.size) :
      (buffer.extract start buffer.size).extract a b = buffer.extract (start + a) (start + b) := by
    simp [ByteArray.extract_extract, Nat.min_eq_left hb]
  unfold split splitAt
  simp only [hsize, Nat.sub_zero, Nat.zero_add]
  split
  · rfl
  · have hhead := hsub 0 headLength (by omega)
    have hann : announced 0 (buffer.extract start buffer.size) = announced start buffer := by
      simp only [announced, Nat.zero_add, hhead, Nat.add_zero]
    rw [hann]
    split
    · rfl
    · split
      · rfl
      · rw [hsub headLength _ (by omega)]

theorem headLength_le_of_splitAt {buffer body : ByteArray} {start n : Nat}
    (h : splitAt start buffer = .ok (body, n)) : headLength ≤ n ∧ n ≤ buffer.size - start := by
  unfold splitAt at h
  simp only at h
  split at h
  · cases h
  · split at h
    · cases h
    · split at h
      · cases h
      · simp only [Except.ok.injEq, Prod.mk.injEq] at h
        obtain ⟨-, rfl⟩ := h
        omega

/-- All frames from `start` on, in order, and why there is not one more. -/
def splitAllFrom (start : Nat) (stream : ByteArray) : List (ByteArray × Nat) × Fault :=
  match _split : splitAt start stream with
  | .error fault => ([], fault)
  | .ok (body, n) =>
    let (frames, fault) := splitAllFrom (start + n) stream
    ((body, n) :: frames, fault)
termination_by stream.size - start
decreasing_by
  have := headLength_le_of_splitAt _split
  simp only [headLength] at this
  omega

/-- All frames of a stream, in order, and why there is not one more. -/
def splitAll (stream : ByteArray) : List (ByteArray × Nat) × Fault := splitAllFrom 0 stream

end SimRelay.Frame
