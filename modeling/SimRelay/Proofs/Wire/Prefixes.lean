import SimRelay.Proofs.Wire.Letters

/-!
# Proofs/Wire/Prefixes — how many bytes settle what a message is

Decoding reads from the front and may find that bytes are missing.  Any other verdict stands,
whatever comes behind (`Settled`): a section is cut off and read before the next one is looked at
(`Section.read_append`), so what is found first is found again in every longer byte string.

Therefore a part of an encoding can only be found too short.  Any other verdict on it would be the
verdict on the whole, which is the message, and a message is not spelt by fewer bytes than its own
encoding takes (`readSections_take`).
-/

namespace SimRelay

/-- The verdict of a reader stands, whatever comes behind the bytes, unless it is that bytes are
missing. -/
def Settled {α : Type} (reader : List UInt8 → Except DecodeError α) : Prop :=
  ∀ bytes more, reader bytes ≠ .error .truncated → reader (bytes ++ more) = reader bytes

namespace Section

variable {α β : Type} {bytes body rest : List UInt8} {fault : DecodeError}

theorem split_append_of_ok (h : split bytes = .ok (body, rest)) (more : List UInt8) :
    split (bytes ++ more) = .ok (body, rest ++ more) := by
  obtain ⟨hlt, rfl⟩ := littleEndian_of_split h
  rw [List.append_assoc]
  exact split_littleEndian hlt (rest ++ more)

/-- To cut off a section, only bytes can be missing. -/
theorem split_eq_error (h : split bytes = .error fault) : fault = .truncated := by
  unfold split at h
  split at h
  · exact (Except.error.inj h).symm
  · simp only at h
    split at h
    · exact (Except.error.inj h).symm
    · cases h

/-- **The verdict on the section in front stands**; what comes behind comes behind its rest. -/
theorem read_append (l : Layout α) (more : List UInt8)
    (h : read l bytes ≠ .error .truncated) :
    read l (bytes ++ more) = (read l bytes).map fun p => (p.1, p.2 ++ more) := by
  cases hsplit : split bytes with
  | error fault =>
    obtain rfl := split_eq_error hsplit
    exact absurd (by rw [read, hsplit]; rfl) h
  | ok p =>
    obtain ⟨body, rest⟩ := p
    have hread (rest : List UInt8) (bytes : List UInt8) (hb : split bytes = .ok (body, rest)) :
        read l bytes = (value l body).map fun a? => (a?, rest) := by
      rw [read, hb]
      change ((value l body).bind fun a? => .ok (a?, rest)) = _
      cases value l body with
      | error fault => rfl
      | ok a? => rfl
    rw [hread _ _ (split_append_of_ok hsplit more), hread _ _ hsplit]
    cases value l body with
    | error fault => rfl
    | ok a? => rfl

/-- A section first, and then what the bytes behind it settle. -/
theorem settled_read (l : Layout α) {next : Option α × List UInt8 → Except DecodeError β}
    (h : ∀ a?, Settled fun rest => next (a?, rest)) :
    Settled fun bytes => read l bytes >>= next := by
  intro bytes more hne
  cases hread : read l bytes with
  | error fault =>
    have hfault : read l bytes ≠ .error .truncated := by
      intro htruncated
      exact hne (by simp only [htruncated]; rfl)
    simp only [read_append l more hfault, hread]
    rfl
  | ok p =>
    have hok : read l bytes ≠ .error .truncated := by simp [hread]
    simp only [hread] at hne
    simp only [read_append l more hok, hread]
    exact h p.1 p.2 more hne

end Section

namespace Message

variable {m : Message} {b e : ByteArray}

/-- **The verdict on the sections stands**: each is settled before the next is read. -/
theorem settled_readSections : Settled readSections := by
  unfold readSections
  refine Section.settled_read _ fun manifest? => ?_
  cases manifest? with
  | none => exact fun _ _ _ => rfl
  | some manifest =>
    refine Section.settled_read _ fun metadata => ?_
    refine Section.settled_read _ fun intro => ?_
    refine Section.settled_read _ fun terms => ?_
    exact Section.settled_read _ fun payload _ _ _ => rfl

/-- **A part of what a message is spelt by is too short.** -/
theorem readSections_take (h : m.Admits {}) {n : Nat} (hn : n < (m.spelling {}).length) :
    readSections ((m.spelling {}).take n) = .error .truncated := by
  refine Classical.byContradiction fun hne => ?_
  have hread := settled_readSections _ ((m.spelling {}).drop n) hne
  rw [List.take_append_drop, readSections_spelling h] at hread
  obtain ⟨x, -, hx⟩ := spelling_of_readSections hread.symm
  have hle := size_extended_nil_le m x
  change (m.extended {}).data.toList.length ≤ (m.extended x).data.toList.length at hle
  rw [data_extended, data_extended, List.length_cons, List.length_cons] at hle
  have hlen := congrArg List.length hx
  rw [List.length_take] at hlen
  omega

/-- Behind a version byte, what is settled of the sections is settled of the message. -/
theorem decode_append (hempty : decode b ≠ .error .empty) (h : decode b ≠ .error .truncated)
    (more : ByteArray) : decode (b ++ more) = decode b := by
  have hdata : (b ++ more).data.toList = b.data.toList ++ more.data.toList := by simp
  unfold decode at h hempty ⊢
  rw [hdata]
  cases hb : b.data.toList with
  | nil => exact absurd (by rw [hb]) hempty
  | cons version rest =>
    rw [hb] at h
    simp only [List.cons_append]
    simp only at h
    split
    · rfl
    · next hversion =>
      rw [if_neg hversion] at h
      have hsections : readSections rest ≠ .error .truncated := by
        intro htruncated
        exact h (by rw [htruncated]; rfl)
      rw [settled_readSections _ _ hsections]

/-- …and of an encoding, a part is too short. -/
theorem decode_take (h : m.encode = .ok e) {n : Nat} (hn : n < e.size) :
    decode (e.extract 0 n) = .error (if n = 0 then .empty else .truncated) := by
  obtain rfl := eq_extended_of_encode h
  have hdata : ((m.extended {}).extract 0 n).data.toList
      = (protocolVersion :: m.spelling {}).take n := by
    simp [← data_extended]
  change n < (m.extended {}).data.toList.length at hn
  rw [data_extended, List.length_cons] at hn
  cases n with
  | zero =>
    unfold decode
    rw [hdata]
    rfl
  | succ n =>
    rw [decode_of_data hdata, readSections_take (admits_of_encode h) (by omega)]
    rfl

/-- **The shortest prefix that decides settles what is decoded.**  A verdict other than that bytes
are missing stands, whatever comes behind; and of an encoding, every part but the whole is found
too short, be it of a message whose sections go together or not. -/
theorem decode_settled :
    (∀ bytes more : ByteArray, decode bytes ≠ .error .empty → decode bytes ≠ .error .truncated →
      decode (bytes ++ more) = decode bytes) ∧
    (∀ (m : Message) (own : ByteArray), m.encode = .ok own → ∀ n < own.size,
      decode (own.extract 0 n) = .error (if n = 0 then .empty else .truncated)) :=
  ⟨fun _ more hempty h => decode_append hempty h more, fun _ _ h _ hn => decode_take h hn⟩

/-- A version that is not spoken is refused in front of anything.  A message with a payload where
it says that there is none breaks a rule, and without its last byte is only too short. -/
theorem decode_settled_refused :
    let refused : Message := { bare .ping .daemon .noMessage with payload := some (.key "k") }
    decode (⟨#[7]⟩ ++ ⟨#[1, 2, 3]⟩) = .error (.unsupportedVersion 7) ∧
      refused.encode = .ok (refused.extended {}) ∧ (refused.extended {}).size = 46 ∧
      decode (refused.extended {}) = .error (.invalid .unexpectedPayload) ∧
      decode ((refused.extended {}).extract 0 45) = .error .truncated := by
  intro refused
  obtain ⟨stands, short⟩ := decode_settled
  have hversion : decode ⟨#[7]⟩ = .error (.unsupportedVersion 7) := rfl
  have hadmits : refused.Admits {} := ⟨by decide, by decide, by decide, by decide, by decide⟩
  have hencode := encode_eq_extended hadmits
  have hsize : (refused.extended {}).size = 46 := by
    change (refused.extended {}).data.toList.length = 46
    rw [data_extended]
    decide
  refine ⟨?_, hencode, hsize, decode_spelling hadmits, short refused _ hencode 45 (by omega)⟩
  exact (stands ⟨#[7]⟩ ⟨#[1, 2, 3]⟩ (by simp [hversion]) (by simp [hversion])).trans hversion

end Message

end SimRelay
