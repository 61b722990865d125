import SimRelay.Wire.Frame

/-!
# Proofs/Wire/Frames — a stream is a row of frames and a rest

`Frame.split` looks at the front of a buffer; `Frame.splitAll` goes through a whole stream.  Every
stream is a row of framed bodies (`joined`) followed by a rest that has no frame at its front
(`exists_rest`), and whatever comes behind a row of frames changes nothing about the row
(`bodies_joined_append`).  So what a longer stream adds, it adds at the end
(`bodies_prefix_append`), and a length above the limit is where all of it ends
(`ending_append_of_tooLarge`).
-/

namespace SimRelay.Frame

variable {b body rest : ByteArray} {n : Nat}

/-! ## One frame -/

/-- A body with its length in front: what `encode` gives unless the body is too long. -/
def wrap (body : ByteArray) : ByteArray :=
  (littleEndian headLength body.size).toByteArray ++ body

theorem encode_eq_wrap (h : body.size ≤ maxLength) : encode body = .ok (wrap body) := if_pos h

@[simp] theorem size_wrap (body : ByteArray) : (wrap body).size = headLength + body.size := by
  simp [wrap]

/-- The length announced at the front does not depend on what is behind it. -/
theorem announced_append (h : headLength ≤ b.size) (more : ByteArray) :
    announced 0 (b ++ more) = announced 0 b := by
  have hhead : (b ++ more).extract 0 headLength = b.extract 0 headLength := by
    rw [ByteArray.extract_append, Nat.sub_eq_zero_of_le h]
    simp
  rw [announced, announced, Nat.zero_add, hhead]

theorem announced_wrap (h : body.size ≤ maxLength) : announced 0 (wrap body) = body.size := by
  have hlt : body.size < wordSize headLength := Nat.lt_of_le_of_lt h (by decide)
  have hhead : (wrap body).extract 0 headLength
      = (littleEndian headLength body.size).toByteArray :=
    ByteArray.extract_append_eq_left (by simp)
  rw [announced, Nat.zero_add, hhead, List.toList_data_toByteArray,
    littleEndianValue_littleEndian hlt]

/-- The four bytes that announce a length are those in front. -/
theorem toByteArray_littleEndian_announced (h : headLength ≤ b.size) :
    (littleEndian headLength (announced 0 b)).toByteArray = b.extract 0 headLength := by
  have hlen : (b.extract 0 headLength).data.toList.length = headLength := by
    change (b.extract 0 headLength).size = headLength
    rw [ByteArray.size_extract]
    omega
  have hback := littleEndian_littleEndianValue (b.extract 0 headLength).data.toList
  rw [hlen] at hback
  rw [announced, Nat.zero_add, hback, toByteArray_toList]

/-- **A frame at the front is found, whatever follows.** -/
theorem split_wrap_append (h : body.size ≤ maxLength) (rest : ByteArray) :
    split (wrap body ++ rest) = .ok (body, headLength + body.size) := by
  have hann : announced 0 (wrap body ++ rest) = body.size :=
    (announced_append (by simp) rest).trans (announced_wrap h)
  have hbody : (wrap body ++ rest).extract headLength (headLength + body.size) = body := by
    have hhead : headLength = (littleEndian headLength body.size).toByteArray.size := by simp
    have hskip := ByteArray.extract_append_size_add' (b := body ++ rest) (i := 0)
      (j := body.size) hhead
    rw [Nat.add_zero] at hskip
    rw [wrap, ByteArray.append_assoc, hskip]
    exact ByteArray.extract_append_eq_left rfl
  simp only [split, splitAt, Nat.sub_zero, Nat.zero_add, ByteArray.size_append, size_wrap, hann,
    hbody]
  rw [if_neg (by omega), if_neg (by omega), if_neg (by omega)]

/-- **…and only a frame is.** -/
theorem wrap_of_split (h : split b = .ok (body, n)) :
    body.size ≤ maxLength ∧ n = headLength + body.size ∧ b = wrap body ++ b.extract n b.size := by
  unfold split splitAt at h
  simp only [Nat.sub_zero, Nat.zero_add] at h
  split at h
  · exact nomatch h
  · split at h
    · exact nomatch h
    · split at h
      · exact nomatch h
      · simp only [Except.ok.injEq, Prod.mk.injEq] at h
        obtain ⟨rfl, rfl⟩ := h
        have hsize : (b.extract headLength (headLength + announced 0 b)).size = announced 0 b := by
          rw [ByteArray.size_extract]
          omega
        refine ⟨by omega, by rw [hsize], ?_⟩
        rw [wrap, hsize, toByteArray_littleEndian_announced (by omega),
          ← ByteArray.extract_eq_extract_append_extract headLength (by omega) (by omega),
          ← ByteArray.extract_eq_extract_append_extract _ (by omega) (by omega),
          ByteArray.extract_zero_size]

theorem split_append_of_ok (h : split b = .ok (body, n)) (more : ByteArray) :
    split (b ++ more) = .ok (body, n) := by
  obtain ⟨hbody, rfl, hb⟩ := wrap_of_split h
  rw [hb, ByteArray.append_assoc]
  exact split_wrap_append hbody _

/-- A length above the limit is refused as soon as its four bytes are there. -/
theorem split_eq_tooLarge_iff :
    split b = .error (.tooLarge n) ↔
      headLength ≤ b.size ∧ maxLength < announced 0 b ∧ n = announced 0 b := by
  simp only [split, splitAt, Nat.sub_zero, Nat.zero_add]
  constructor
  · intro h
    split at h
    · exact nomatch h
    · split at h
      · next hsize hlarge =>
        simp only [Except.error.injEq, Fault.tooLarge.injEq] at h
        exact ⟨by omega, hlarge, h.symm⟩
      · split at h
        · exact nomatch h
        · exact nomatch h
  · rintro ⟨hsize, hlarge, rfl⟩
    rw [if_neg (by omega), if_pos hlarge]

theorem split_append_of_tooLarge (h : split b = .error (.tooLarge n)) (more : ByteArray) :
    split (b ++ more) = .error (.tooLarge n) := by
  obtain ⟨hsize, hlarge, rfl⟩ := split_eq_tooLarge_iff.mp h
  have hann := announced_append hsize more
  refine split_eq_tooLarge_iff.mpr ⟨?_, hann ▸ hlarge, hann.symm⟩
  rw [ByteArray.size_append]
  omega

/-- **Where a part of a frame is missing, there is no frame yet.** -/
theorem split_of_append_eq_wrap {came : ByteArray} (h : body.size ≤ maxLength)
    (hcame : came ++ rest = wrap body) (hrest : rest ≠ .empty) :
    split came = .error .needMore := by
  have hwhole : split (came ++ rest) = .ok (body, headLength + body.size) := by
    rw [hcame, ← ByteArray.append_empty (b := wrap body)]
    exact split_wrap_append h .empty
  cases hsplit : split came with
  | ok p =>
    obtain ⟨body', n⟩ := p
    obtain ⟨rfl, -⟩ := Prod.mk.inj
      (Except.ok.inj ((split_append_of_ok hsplit rest).symm.trans hwhole))
    -- the frame would be whole without what is missing
    obtain ⟨-, -, hfront⟩ := wrap_of_split hsplit
    have hsize := congrArg ByteArray.size hcame
    have hfront := congrArg ByteArray.size hfront
    rw [ByteArray.size_append] at hsize hfront
    exact absurd (ByteArray.size_eq_zero_iff.mp (by omega)) hrest
  | error fault =>
    cases fault with
    | needMore => rfl
    | tooLarge n => exact nomatch (split_append_of_tooLarge hsplit rest).symm.trans hwhole

/-! ## A row of frames -/

/-- The frames of a list of bodies, one behind the other. -/
def joined : List ByteArray → ByteArray
  | [] => .empty
  | body :: bodies => wrap body ++ joined bodies

theorem joined_append : ∀ bodies bodies' : List ByteArray,
    joined (bodies ++ bodies') = joined bodies ++ joined bodies'
  | [], _ => ByteArray.empty_append.symm
  | body :: bodies, bodies' => by
      simp only [List.cons_append, joined, joined_append bodies bodies', ByteArray.append_assoc]

/-- The bodies that a stream holds whole, in order. -/
def bodies (stream : ByteArray) : List ByteArray := (splitAll stream).1.map Prod.fst

/-- Why there is not one more. -/
def ending (stream : ByteArray) : Fault := (splitAll stream).2

/-- Going through a stream from a place on is going through what is left from there. -/
theorem splitAllFrom_add {skipped : Nat} {stream left : ByteArray}
    (hleft : left = stream.extract skipped stream.size) (start : Nat) :
    splitAllFrom (skipped + start) stream = splitAllFrom start left := by
  have hsplit (start : Nat) : splitAt (skipped + start) stream = splitAt start left := by
    rw [splitAt_eq_split, splitAt_eq_split start, hleft, ByteArray.extract_extract,
      ByteArray.size_extract]
    congr 2
    omega
  fun_induction splitAllFrom start left with
  | case1 start fault h =>
    rw [splitAllFrom]
    split
    · next heq => rw [Except.error.inj (heq.symm.trans ((hsplit start).trans h))]
    · next heq => exact nomatch heq.symm.trans ((hsplit start).trans h)
  | case2 start body n h frames fault hall ih =>
    rw [splitAllFrom]
    split
    · next heq => exact nomatch heq.symm.trans ((hsplit start).trans h)
    · next heq =>
      obtain ⟨rfl, rfl⟩ := Prod.mk.inj (Except.ok.inj (heq.symm.trans ((hsplit start).trans h)))
      rw [Nat.add_assoc, ih, hall]

theorem bodies_wrap_append (h : body.size ≤ maxLength) (rest : ByteArray) :
    bodies (wrap body ++ rest) = body :: bodies rest ∧
      ending (wrap body ++ rest) = ending rest := by
  have hrest : (wrap body ++ rest).extract (headLength + body.size) (wrap body ++ rest).size
      = rest := by
    rw [ByteArray.size_append, size_wrap]
    exact ByteArray.extract_append_eq_right (by simp) (by simp)
  have hall : splitAll (wrap body ++ rest)
      = ((body, headLength + body.size) :: (splitAll rest).1, (splitAll rest).2) := by
    have hsplit : splitAt 0 (wrap body ++ rest) = .ok (body, headLength + body.size) :=
      split_wrap_append h rest
    have hnext : splitAllFrom (headLength + body.size) (wrap body ++ rest) = splitAll rest :=
      splitAllFrom_add hrest.symm 0
    rw [splitAll, splitAllFrom]
    split
    · next heq => cases hsplit.symm.trans heq
    · next heq =>
      obtain ⟨rfl, rfl⟩ := Prod.mk.inj (Except.ok.inj (hsplit.symm.trans heq))
      rw [Nat.zero_add, hnext]
  rw [bodies, ending, hall]
  exact ⟨rfl, rfl⟩

theorem bodies_of_error {fault : Fault} (h : split b = .error fault) :
    bodies b = [] ∧ ending b = fault := by
  have hall : splitAll b = ([], fault) := by
    rw [splitAll, splitAllFrom]
    split
    · next heq => rw [Except.error.inj (heq.symm.trans h)]
    · next heq => cases heq.symm.trans h
  rw [bodies, ending, hall]
  exact ⟨rfl, rfl⟩

/-- **What comes behind a row of frames changes nothing about the row.** -/
theorem bodies_joined_append (rest : ByteArray) : ∀ row : List ByteArray,
    (∀ body ∈ row, body.size ≤ maxLength) →
      bodies (joined row ++ rest) = row ++ bodies rest ∧
        ending (joined row ++ rest) = ending rest
  | [], _ => by
      rw [joined, ByteArray.empty_append]
      exact ⟨rfl, rfl⟩
  | body :: row, h => by
      obtain ⟨hbodies, hending⟩ :=
        bodies_joined_append rest row fun b hb => h b (List.mem_cons_of_mem body hb)
      obtain ⟨hbodies', hending'⟩ :=
        bodies_wrap_append (h body List.mem_cons_self) (joined row ++ rest)
      rw [joined, ByteArray.append_assoc]
      exact ⟨by rw [hbodies', hbodies, List.cons_append], hending'.trans hending⟩

/-- **A stream is the row of its bodies, framed, and a rest without a frame at its front.** -/
theorem exists_rest (stream : ByteArray) :
    ∃ rest, stream = joined (bodies stream) ++ rest ∧ split rest = .error (ending stream) ∧
      ∀ body ∈ bodies stream, body.size ≤ maxLength := by
  induction hsize : stream.size using Nat.strongRecOn generalizing stream with
  | _ size ih =>
    cases hsplit : split stream with
    | error fault =>
      obtain ⟨hbodies, hending⟩ := bodies_of_error hsplit
      refine ⟨stream, ?_, ?_, ?_⟩
      · rw [hbodies, joined, ByteArray.empty_append]
      · rw [hsplit, hending]
      · simp [hbodies]
    | ok p =>
      obtain ⟨body, n⟩ := p
      obtain ⟨hbody, hn, hstream⟩ := wrap_of_split hsplit
      have hpos : 0 < headLength := by decide
      have hle := (headLength_le_of_splitAt hsplit).2
      have hleft : (stream.extract n stream.size).size = stream.size - n := by simp
      obtain ⟨rest, hrest, hend, hrow⟩ := ih _ (by omega) (stream.extract n stream.size) rfl
      obtain ⟨hbodies, hending⟩ := bodies_wrap_append hbody (stream.extract n stream.size)
      rw [← hstream] at hbodies hending
      refine ⟨rest, ?_, by rw [hend, hending], ?_⟩
      · rw [hbodies, joined, ByteArray.append_assoc, ← hrest]
        exact hstream
      · rw [hbodies]
        exact List.forall_mem_cons.mpr ⟨hbody, hrow⟩

/-- **What a longer stream adds, it adds at the end.** -/
theorem bodies_prefix_append (stream more : ByteArray) :
    bodies stream <+: bodies (stream ++ more) := by
  obtain ⟨rest, hstream, _, hrow⟩ := exists_rest stream
  have hmore := (bodies_joined_append (rest ++ more) _ hrow).1
  rw [← ByteArray.append_assoc, ← hstream] at hmore
  exact ⟨_, hmore.symm⟩

/-- **Behind a length above the limit there is nothing more.** -/
theorem ending_append_of_tooLarge {stream : ByteArray} (h : ending stream = .tooLarge n)
    (more : ByteArray) :
    bodies (stream ++ more) = bodies stream ∧ ending (stream ++ more) = .tooLarge n := by
  obtain ⟨rest, hstream, hend, hrow⟩ := exists_rest stream
  rw [h] at hend
  obtain ⟨hbodies, hending⟩ := bodies_of_error (split_append_of_tooLarge hend more)
  have hmore := bodies_joined_append (rest ++ more) _ hrow
  rw [← ByteArray.append_assoc, ← hstream, hbodies, hending, List.append_nil] at hmore
  exact hmore

end SimRelay.Frame
