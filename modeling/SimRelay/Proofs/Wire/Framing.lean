import SimRelay.Proofs.Wire.Frames
import SimRelay.Proofs.Wire.Spelling

/-!
# Proofs/Wire/Framing — the three verdicts on the front of a stream

`Frame.split` finds a frame, asks for more bytes, or refuses a length.  Which of the three it does
is told here by the encoder and not by the reader: a frame is found where the encoder wrote one
(`Whole`), more is asked for where some frame is not complete (`Cut`), and the rest are lengths that
the encoder never announces (`Oversized`).  The middle one is the one with an argument in it: any
buffer that the reader waits on can be filled up to a frame (`exists_wrap_of_needMore`).

A stream is then decoded frame by frame (`peel`), which takes a row of frames off whatever is behind
it and always comes to an end.
-/

namespace SimRelay

/-! ## Bytes that are not there yet -/

/-- So many zero bytes. -/
def zeros (count : Nat) : ByteArray := (List.replicate count 0).toByteArray

@[simp] theorem size_zeros (count : Nat) : (zeros count).size = count := by simp [zeros]

/-- Zero bytes at the end do not change a number whose lowest byte comes first. -/
theorem littleEndianValue_append_zeros (count : Nat) : ∀ bytes : List UInt8,
    littleEndianValue (bytes ++ List.replicate count 0) = littleEndianValue bytes
  | [] => by
      rw [List.nil_append]
      induction count with
      | zero => rfl
      | succ count ih =>
        rw [List.replicate_succ]
        simp only [littleEndianValue] at ih ⊢
        rw [ih]
        rfl
  | b :: bs => by
      rw [List.cons_append, littleEndianValue, littleEndianValue_append_zeros count bs,
        littleEndianValue]

namespace Frame

variable {s body rest : ByteArray} {n l : Nat}

/-! ## What the front of a stream can be -/

/-- The first `n` bytes are what the encoder writes for this body. -/
def Whole (s body : ByteArray) (n : Nat) : Prop := n ≤ s.size ∧ encode body = .ok (s.extract 0 n)

/-- Something is missing at the end of what the encoder writes for some body. -/
def Cut (s : ByteArray) : Prop :=
  ∃ body frame rest, encode body = .ok frame ∧ frame = s ++ rest ∧ rest ≠ .empty

/-- Four bytes are there, and announce a length above the limit. -/
def Oversized (s : ByteArray) (length : Nat) : Prop :=
  headLength ≤ s.size ∧ littleEndianValue (s.extract 0 headLength).data.toList = length ∧
    maxLength < length

/-- What is written is a frame of a body within the limit. -/
theorem encode_eq_ok_iff {frame : ByteArray} :
    encode body = .ok frame ↔ body.size ≤ maxLength ∧ frame = wrap body := by
  unfold encode
  split
  · next h => exact ⟨fun heq => ⟨h, (Except.ok.inj heq).symm⟩, fun ⟨_, heq⟩ => heq ▸ rfl⟩
  · next h => simp [h]

theorem split_eq_ok_iff : split s = .ok (body, n) ↔ Whole s body n := by
  rw [Whole, encode_eq_ok_iff]
  constructor
  · intro h
    obtain ⟨hbody, rfl, hs⟩ := wrap_of_split h
    have hle := (headLength_le_of_splitAt h).2
    have hfront : (wrap body ++ s.extract (headLength + body.size) s.size).extract 0
        (headLength + body.size) = wrap body := ByteArray.extract_append_eq_left (by simp)
    rw [← hs] at hfront
    exact ⟨hle, hbody, hfront⟩
  · rintro ⟨hle, hbody, hfront⟩
    have hn : n = headLength + body.size := by
      rw [← size_wrap, ← hfront, ByteArray.size_extract]
      omega
    have hs : s = wrap body ++ s.extract n s.size := by
      rw [← hfront, ← ByteArray.extract_eq_extract_append_extract n (by omega) hle,
        ByteArray.extract_zero_size]
    rw [hs, hn]
    exact split_wrap_append hbody _

theorem split_eq_oversized_iff : split s = .error (.tooLarge l) ↔ Oversized s l := by
  rw [split_eq_tooLarge_iff, Oversized]
  constructor
  · rintro ⟨hsize, hlarge, rfl⟩
    exact ⟨hsize, rfl, hlarge⟩
  · rintro ⟨hsize, rfl, hlarge⟩
    exact ⟨hsize, hlarge, rfl⟩

/-! ## Where bytes are missing -/

/-- The reader waits where four bytes are not there, or the body that they announce is not. -/
theorem split_eq_needMore_iff : split s = .error .needMore ↔
    s.size < headLength ∨ announced 0 s ≤ maxLength ∧ s.size < headLength + announced 0 s := by
  simp only [split, splitAt, Nat.sub_zero]
  split
  · next hhead => exact ⟨fun _ => .inl hhead, fun _ => rfl⟩
  · split
    · next hlarge => simp only [Except.error.injEq, reduceCtorEq, false_iff]; omega
    · split
      · next hbody => exact ⟨fun _ => .inr ⟨by omega, hbody⟩, fun _ => rfl⟩
      · simp only [reduceCtorEq, false_iff]
        omega

/-- A head that is not complete, filled up with zeros, announces a length within the limit. -/
theorem announced_append_zeros (h : s.size < headLength) :
    announced 0 (s ++ zeros (headLength - s.size)) ≤ maxLength := by
  have hsmall : ∀ width < headLength, wordSize width ≤ maxLength := by decide
  have hwhole : (s ++ zeros (headLength - s.size)).extract 0 headLength
      = s ++ zeros (headLength - s.size) := by
    have hsize : (s ++ zeros (headLength - s.size)).size = headLength := by
      rw [ByteArray.size_append, size_zeros]
      omega
    have hself := ByteArray.extract_zero_size (b := s ++ zeros (headLength - s.size))
    rwa [hsize] at hself
  have hdata : (s ++ zeros (headLength - s.size)).data.toList
      = s.data.toList ++ List.replicate (headLength - s.size) 0 := by
    simp [zeros]
  have hlt : littleEndianValue s.data.toList < wordSize s.size := littleEndianValue_lt _
  have hle := hsmall s.size h
  rw [announced, Nat.zero_add, hwhole, hdata, littleEndianValue_append_zeros]
  omega

/-- A buffer that is as long as its head says is a frame. -/
theorem exists_wrap_of_size (hle : announced 0 s ≤ maxLength)
    (hsize : s.size = headLength + announced 0 s) : ∃ body, body.size ≤ maxLength ∧ wrap body = s := by
  have hsplit : split s = .ok (s.extract headLength s.size, s.size) := by
    simp only [split, splitAt, Nat.sub_zero, Nat.zero_add, ← hsize]
    rw [if_neg (by omega), if_neg (by omega), if_neg (by omega)]
  obtain ⟨hbody, -, hwrap⟩ := wrap_of_split hsplit
  rw [ByteArray.extract_same, ByteArray.append_empty] at hwrap
  exact ⟨_, hbody, hwrap.symm⟩

/-- **What the reader waits on can be filled up to a frame**: with zeros, first the head and then
the body that it announces. -/
theorem exists_wrap_of_needMore (h : split s = .error .needMore) :
    ∃ body rest, body.size ≤ maxLength ∧ wrap body = s ++ rest ∧ rest ≠ .empty := by
  obtain ⟨head, hhead⟩ : ∃ head, head = s ++ zeros (headLength - s.size) := ⟨_, rfl⟩
  have hsize : head.size = max s.size headLength := by
    rw [hhead, ByteArray.size_append, size_zeros]
    omega
  have hlength : announced 0 head ≤ maxLength ∧ head.size ≤ headLength + announced 0 head ∧
      s.size < headLength + announced 0 head := by
    by_cases hshort : s.size < headLength
    · have hzeros := announced_append_zeros hshort
      rw [← hhead] at hzeros
      exact ⟨hzeros, by omega, by omega⟩
    · have hs : head = s := by
        rw [hhead, Nat.sub_eq_zero_of_le (by omega)]
        exact ByteArray.append_empty
      obtain ⟨hle, hlt⟩ := (split_eq_needMore_iff.mp h).resolve_left hshort
      rw [hs]
      exact ⟨hle, Nat.le_of_lt hlt, hlt⟩
  obtain ⟨hle, hfill, hlt⟩ := hlength
  obtain ⟨missing, hmissing⟩ : ∃ missing, missing = headLength + announced 0 head - head.size :=
    ⟨_, rfl⟩
  have hann : announced 0 (head ++ zeros missing) = announced 0 head :=
    announced_append (by omega) _
  have htotal : (head ++ zeros missing).size = headLength + announced 0 head := by
    rw [ByteArray.size_append, size_zeros]
    omega
  obtain ⟨body, hbody, hwrap⟩ : ∃ body, body.size ≤ maxLength ∧ wrap body = head ++ zeros missing :=
    exists_wrap_of_size (hann ▸ hle) (by rw [ByteArray.size_append, size_zeros, hann]; omega)
  refine ⟨body, zeros (headLength - s.size) ++ zeros missing, hbody, ?_, ?_⟩
  · rw [hwrap, hhead, ByteArray.append_assoc]
  · intro hempty
    have hnone := congrArg ByteArray.size hempty
    rw [ByteArray.size_append, size_zeros, size_zeros, ByteArray.size_empty] at hnone
    omega

/-- **The reader waits exactly where something is missing of what the encoder writes.** -/
theorem split_eq_cut_iff : split s = .error .needMore ↔ Cut s := by
  constructor
  · intro h
    obtain ⟨body, rest, hbody, hwrap, hrest⟩ := exists_wrap_of_needMore h
    exact ⟨body, wrap body, rest, encode_eq_wrap hbody, hwrap, hrest⟩
  · rintro ⟨body, frame, rest, hencode, hframe, hrest⟩
    obtain ⟨hbody, rfl⟩ := encode_eq_ok_iff.mp hencode
    exact split_of_append_eq_wrap hbody hframe.symm hrest

/-! ## Frame by frame -/

/-- The bodies of so many frames, taken off the front one after the other, and what is left. -/
def peel : (count : Nat) → ByteArray → Except Fault (List ByteArray × ByteArray)
  | 0, s => .ok ([], s)
  | count + 1, s => do
    let (body, n) ← split s
    let (row, left) ← peel count (s.extract n s.size)
    return (body :: row, left)

/-- **A row of frames comes off whatever is behind it.** -/
theorem peel_joined_append (rest : ByteArray) : ∀ row : List ByteArray,
    (∀ body ∈ row, body.size ≤ maxLength) → peel row.length (joined row ++ rest) = .ok (row, rest)
  | [], _ => by
      rw [joined, ByteArray.empty_append]
      rfl
  | body :: row, h => by
      have hbody := h body List.mem_cons_self
      have ih := peel_joined_append rest row fun b hb => h b (List.mem_cons_of_mem body hb)
      have hleft : (wrap body ++ (joined row ++ rest)).extract (headLength + body.size)
          (wrap body ++ (joined row ++ rest)).size = joined row ++ rest :=
        ByteArray.extract_append_eq_right (by simp) ByteArray.size_append
      rw [joined, ByteArray.append_assoc, List.length_cons, peel, split_wrap_append hbody]
      simp only [bind, Except.bind, hleft, ih]
      rfl

/-- Each frame takes its head. -/
theorem length_mul_le_size_joined : ∀ row : List ByteArray,
    headLength * row.length ≤ (joined row).size
  | [] => Nat.zero_le _
  | body :: row => by
      have ih := length_mul_le_size_joined row
      rw [joined, ByteArray.size_append, size_wrap, List.length_cons, Nat.mul_succ]
      omega

/-- What the encoder writes for each body of a row, one behind the other, is the row of frames. -/
theorem foldr_append_of_mapM (rest : ByteArray) : ∀ {row frames : List ByteArray},
    row.mapM encode = .ok frames →
      (∀ body ∈ row, body.size ≤ maxLength) ∧ frames.foldr (· ++ ·) rest = joined row ++ rest
  | [], frames, h => by
      rw [List.mapM_nil] at h
      obtain rfl := Except.ok.inj h
      exact ⟨fun _ hb => absurd hb List.not_mem_nil, ByteArray.empty_append.symm⟩
  | body :: row, frames, h => by
      rw [List.mapM_cons] at h
      obtain ⟨frame, hframe, h⟩ := Message.eq_ok_of_bind h
      obtain ⟨frames, hframes, h⟩ := Message.eq_ok_of_bind h
      obtain rfl := Except.ok.inj h
      obtain ⟨hbody, rfl⟩ := encode_eq_ok_iff.mp hframe
      obtain ⟨hrow, hfold⟩ := foldr_append_of_mapM rest hframes
      refine ⟨List.forall_mem_cons.mpr ⟨hbody, hrow⟩, ?_⟩
      rw [List.foldr_cons, hfold, joined, ByteArray.append_assoc]

/-! ## The three verdicts -/

/-- **The front of a stream is a whole frame, a part of one, or a length above the limit**, just
one of the three, and the reader says which.  So it takes the frames of a row of bodies off what is
behind them; and on any stream it comes to an end, at the end where the library's own loop does,
having taken four bytes at least for each body. -/
theorem split_trichotomy :
    (∀ s body n, split s = .ok (body, n) ↔ Whole s body n) ∧
    (∀ s, split s = .error .needMore ↔ Cut s) ∧
    (∀ s length, split s = .error (.tooLarge length) ↔ Oversized s length) ∧
    (∀ s, ((∃ body n, Whole s body n) ∧ ¬ Cut s ∧ ¬ ∃ length, Oversized s length) ∨
      ((¬ ∃ body n, Whole s body n) ∧ Cut s ∧ ¬ ∃ length, Oversized s length) ∨
      ((¬ ∃ body n, Whole s body n) ∧ ¬ Cut s ∧ ∃ length, Oversized s length)) ∧
    (∀ row frames rest, row.mapM encode = .ok frames →
      peel row.length (frames.foldr (· ++ ·) rest) = .ok (row, rest)) ∧
    (∀ s, ∃ left, peel (bodies s).length s = .ok (bodies s, left) ∧
      split left = .error (ending s) ∧ headLength * (bodies s).length + left.size ≤ s.size) := by
  refine ⟨fun _ _ _ => split_eq_ok_iff, fun _ => split_eq_cut_iff,
    fun _ _ => split_eq_oversized_iff, fun s => ?_, fun row frames rest h => ?_, fun s => ?_⟩
  · simp only [← split_eq_ok_iff, ← split_eq_cut_iff, ← split_eq_oversized_iff]
    cases split s with
    | ok p =>
      obtain ⟨body, n⟩ := p
      exact .inl (by simp)
    | error fault =>
      cases fault with
      | needMore => exact .inr (.inl (by simp))
      | tooLarge length => exact .inr (.inr (by simp))
  · obtain ⟨hrow, hfold⟩ := foldr_append_of_mapM rest h
    rw [hfold]
    exact peel_joined_append rest row hrow
  · obtain ⟨left, hs, hend, hrow⟩ := exists_rest s
    have hpeel := peel_joined_append left _ hrow
    rw [← hs] at hpeel
    have hsize := congrArg ByteArray.size hs
    have hheads := length_mul_le_size_joined (bodies s)
    rw [ByteArray.size_append] at hsize
    exact ⟨left, hpeel, hend, by omega⟩

/-- Two bodies, one of them empty, and two bytes of a third frame. -/
theorem split_trichotomy_two :
    [⟨#[7, 8]⟩, .empty].mapM encode = .ok [⟨#[2, 0, 0, 0, 7, 8]⟩, ⟨#[0, 0, 0, 0]⟩] ∧
      peel 2 ⟨#[2, 0, 0, 0, 7, 8, 0, 0, 0, 0, 1, 0]⟩ = .ok ([⟨#[7, 8]⟩, .empty], ⟨#[1, 0]⟩) ∧
      Cut ⟨#[1, 0]⟩ ∧ Oversized ⟨#[1, 0, 0, 4]⟩ 0x4000001 := by
  have hframes : [⟨#[7, 8]⟩, .empty].mapM encode
      = .ok [⟨#[2, 0, 0, 0, 7, 8]⟩, ⟨#[0, 0, 0, 0]⟩] := rfl
  obtain ⟨-, hcut, hover, -, hrow, -⟩ := split_trichotomy
  exact ⟨hframes, hrow _ _ ⟨#[1, 0]⟩ hframes, (hcut _).mp rfl, (hover _ _).mp rfl⟩

end Frame

end SimRelay
