import SimRelay.Wire.Codec
import Mathlib.Logic.ExistsUnique

/-!
# Proofs/Wire/Spelling — the byte strings that spell a message

A message has one spelling of its own and, for the sake of newer peers, all those that add bytes
behind a value in its section body or behind the fifth section (`Message.extended`).  Decoding
reads each of them as the message (`decode_extended`) and reads nothing else (`spelling_of_decode`).

The engine is one fact about one section, in both directions: `Section.read_extended` and
`Section.extended_of_read`.  An absent section is a length of zero, so both lean on `NeverEmpty`:
no value of the five layouts is written as no bytes at all.
-/

namespace SimRelay

/-! ## No value is written as nothing -/

namespace Layout

variable {α β : Type}

/-- Every value takes at least one byte. -/
def NeverEmpty (l : Layout α) : Prop := ∀ a, l.write a ≠ []

theorem neverEmpty_u32 : u32.NeverEmpty := fun _ h => nomatch h

theorem neverEmpty_text : text.NeverEmpty := fun _ h => nomatch h

theorem NeverEmpty.both {first : Layout α} (h : first.NeverEmpty) (second : Layout β) :
    (first.both second).NeverEmpty :=
  fun p => List.append_ne_nil_of_left_ne_nil (h p.1) _

theorem neverEmpty_either (first : Layout α) (second : Layout β) :
    (first.either second).NeverEmpty
  | .inl _, h => nomatch h
  | .inr _, h => nomatch h

/-- The same bytes under other names. -/
theorem NeverEmpty.iso {l : Layout α} (h : l.NeverEmpty) {view : α → β} {name : β → α}
    (view_name : ∀ b, view (name b) = b) (name_view : ∀ a, name (view a) = a) :
    (l.iso view name view_name name_view).NeverEmpty :=
  fun b => h (name b)

theorem neverEmpty_operation : operation.NeverEmpty := fun _ => neverEmpty_u32 _

theorem neverEmpty_addressType : addressType.NeverEmpty := fun _ => neverEmpty_u32 _

theorem neverEmpty_systemMode : systemMode.NeverEmpty := fun _ => neverEmpty_u32 _

theorem neverEmpty_manifest : manifest.NeverEmpty := (neverEmpty_operation.both _).iso _ _

theorem neverEmpty_metadata : metadata.NeverEmpty := (neverEmpty_addressType.both _).iso _ _

theorem neverEmpty_intro : intro.NeverEmpty := (neverEmpty_text.both _).iso _ _

theorem neverEmpty_terms : terms.NeverEmpty := (neverEmpty_systemMode.both _).iso _ _

theorem neverEmpty_payload : payload.NeverEmpty := (neverEmpty_either _ _).iso _ _

end Layout

/-! ## One section -/

namespace Section

variable {α : Type} {l : Layout α} {a? : Option α} {extra rest : List UInt8}

/-- A section with `extra` behind its value, under a length that counts both.  An absent section
has no body to add to. -/
def extended (l : Layout α) (a? : Option α) (extra : List UInt8) : List UInt8 :=
  match a? with
  | none => littleEndian 4 0
  | some a => littleEndian 4 ((l.write a).length + extra.length) ++ (l.write a ++ extra)

/-- Four bytes can count the value and what is added to it; to an absent section nothing is. -/
def Fits (l : Layout α) (a? : Option α) (extra : List UInt8) : Prop :=
  match a? with
  | none => extra = []
  | some a => (l.write a).length + extra.length < UInt32.size

instance decidableFits (l : Layout α) :
    ∀ (a? : Option α) (extra : List UInt8), Decidable (Fits l a? extra)
  | none, extra => inferInstanceAs (Decidable (extra = []))
  | some a, extra =>
      inferInstanceAs (Decidable ((l.write a).length + extra.length < UInt32.size))

/-- A section fits all the more without additions. -/
theorem Fits.nil : ∀ {a? : Option α}, Fits l a? extra → Fits l a? []
  | none, _ => rfl
  | some _, h => Nat.lt_of_le_of_lt (Nat.le_add_right _ _) h

/-- A body under its own length is cut off where it ends, whatever follows. -/
theorem split_littleEndian {body : List UInt8} (h : body.length < UInt32.size)
    (rest : List UInt8) :
    split (littleEndian 4 body.length ++ body ++ rest) = .ok (body, rest) := by
  have hlen := length_littleEndian 4 body.length
  have hvalue := littleEndianValue_littleEndian (show body.length < wordSize 4 from h)
  rw [List.append_assoc, split, if_neg (by simp [hlen])]
  simp only [List.take_left' hlen, List.drop_left' hlen, hvalue]
  rw [if_neg (by simp), List.take_left' rfl, List.drop_left' rfl]

/-- …and what is cut off lay under its own length. -/
theorem littleEndian_of_split {bytes body : List UInt8} (h : split bytes = .ok (body, rest)) :
    body.length < UInt32.size ∧ bytes = littleEndian 4 body.length ++ body ++ rest := by
  unfold split at h
  split at h
  · exact nomatch h
  · next hhead =>
    have htake : (bytes.take 4).length = 4 := by simp; omega
    have hlt := littleEndianValue_lt (bytes.take 4)
    have hback := littleEndian_littleEndianValue (bytes.take 4)
    rw [htake] at hlt hback
    simp only at h
    split at h
    · exact nomatch h
    · next hbody =>
      simp only [Except.ok.injEq, Prod.mk.injEq] at h
      obtain ⟨rfl, rfl⟩ := h
      have hlen : ((bytes.drop 4).take (littleEndianValue (bytes.take 4))).length
          = littleEndianValue (bytes.take 4) := by
        rw [List.length_take]
        omega
      refine ⟨by rw [hlen]; exact hlt, ?_⟩
      rw [hlen, hback, List.append_assoc, List.take_append_drop, List.take_append_drop]

/-- The body that an extended section carries. -/
theorem split_extended (h : Fits l a? extra) (rest : List UInt8) :
    split (extended l a? extra ++ rest) = .ok (body l a? ++ extra, rest) := by
  cases a? with
  | none =>
    obtain rfl : extra = [] := h
    exact split_littleEndian (List.length_nil ▸ by decide) rest
  | some a =>
    have hlen : (l.write a ++ extra).length = (l.write a).length + extra.length :=
      List.length_append
    rw [extended, ← hlen]
    exact split_littleEndian (hlen ▸ h) rest

/-- **A section is read as its value, whatever is added behind it and whatever follows.** -/
theorem read_extended (hl : l.NeverEmpty) (h : Fits l a? extra) (rest : List UInt8) :
    read l (extended l a? extra ++ rest) = .ok (a?, rest) := by
  have hvalue : value l (body l a? ++ extra) = .ok a? := by
    cases a? with
    | none =>
      obtain rfl : extra = [] := h
      rfl
    | some a =>
      have hsize : UInt32.size < UInt64.size := by decide
      have hfits : (l.write a).length + extra.length < UInt32.size := h
      have hread := l.read_write a extra (by omega)
      simp [value, body, hl a, hread]
  rw [read, split_extended h]
  change ((value l (body l a? ++ extra)).bind fun a? => .ok (a?, rest)) = _
  rw [hvalue]
  rfl

/-- **A section is read only where some value, extended, is spelt.** -/
theorem extended_of_read {bytes : List UInt8} (h : read l bytes = .ok (a?, rest)) :
    ∃ extra, Fits l a? extra ∧ bytes = extended l a? extra ++ rest := by
  cases hs : split bytes with
  | error e =>
    rw [read, hs] at h
    cases h
  | ok p =>
    obtain ⟨body, rest'⟩ := p
    obtain ⟨hlt, rfl⟩ := littleEndian_of_split hs
    rw [read, hs] at h
    change ((value l body).bind fun a? => .ok (a?, rest')) = _ at h
    unfold value at h
    split at h
    · next hempty =>
      obtain rfl : body = [] := List.isEmpty_iff.mp hempty
      cases h
      exact ⟨[], rfl, rfl⟩
    · split at h
      · cases h
      · next a extra hread =>
        cases h
        obtain rfl := l.write_of_read hread
        rw [List.length_append] at hlt ⊢
        exact ⟨extra, hlt, rfl⟩

/-- What is written is the section without additions. -/
theorem write_body (h : Fits l a? extra) : write (body l a?) = .ok (extended l a? []) := by
  cases a? with
  | none => rfl
  | some a =>
    have hfits : (l.write a).length + extra.length < UInt32.size := h
    rw [write, body, if_pos (by omega), extended, List.append_nil, List.length_nil, Nat.add_zero]

/-- Additions never make a section shorter. -/
theorem length_extended_nil_le (l : Layout α) : ∀ (a? : Option α) (extra : List UInt8),
    (extended l a? []).length ≤ (extended l a? extra).length
  | none, _ => Nat.le_refl _
  | some a, extra => by simp [extended]

/-- **Value and rest being given, the additions can be read off.** -/
theorem extended_append_inj {extra' rest' : List UInt8} (h : Fits l a? extra)
    (h' : Fits l a? extra') (heq : extended l a? extra ++ rest = extended l a? extra' ++ rest') :
    extra = extra' ∧ rest = rest' := by
  have hsplit := split_extended h rest
  rw [heq, split_extended h' rest'] at hsplit
  simp only [Except.ok.injEq, Prod.mk.injEq] at hsplit
  exact ⟨(List.append_cancel_left hsplit.1).symm, hsplit.2.symm⟩

end Section

/-! ## Whole messages -/

/-- What a newer peer may add to a message: bytes behind the value in each section body, and bytes
behind the fifth section. -/
structure Additions where
  manifest : List UInt8 := []
  metadata : List UInt8 := []
  intro : List UInt8 := []
  terms : List UInt8 := []
  payload : List UInt8 := []
  tail : List UInt8 := []
  deriving DecidableEq

namespace Message

variable {m : Message} {x : Additions}

/-- The sections of a message with additions, in order, and the tail. -/
def spelling (m : Message) (x : Additions) : List UInt8 :=
  Section.extended Layout.manifest (some m.manifest) x.manifest ++
    (Section.extended Layout.metadata m.metadata x.metadata ++
      (Section.extended Layout.intro m.intro x.intro ++
        (Section.extended Layout.terms m.terms x.terms ++
          (Section.extended Layout.payload m.payload x.payload ++ x.tail))))

/-- The bytes of a message with additions. -/
def extended (m : Message) (x : Additions) : ByteArray :=
  (protocolVersion :: m.spelling x).toByteArray

/-- Every section body, with what is added to it, fits its length field; nothing is added to an
absent section. -/
structure Admits (m : Message) (x : Additions) : Prop where
  manifest : Section.Fits Layout.manifest (some m.manifest) x.manifest
  metadata : Section.Fits Layout.metadata m.metadata x.metadata
  intro : Section.Fits Layout.intro m.intro x.intro
  terms : Section.Fits Layout.terms m.terms x.terms
  payload : Section.Fits Layout.payload m.payload x.payload

theorem Admits.nil (h : m.Admits x) : m.Admits {} :=
  ⟨h.manifest.nil, h.metadata.nil, h.intro.nil, h.terms.nil, h.payload.nil⟩

theorem data_extended (m : Message) (x : Additions) :
    (m.extended x).data.toList = protocolVersion :: m.spelling x :=
  List.toList_data_toByteArray

/-- **The message's own spelling is the one without additions.** -/
theorem encode_eq_extended (h : m.Admits x) : m.encode = .ok (m.extended {}) := by
  simp only [encode, Section.write_body h.manifest, Section.write_body h.metadata,
    Section.write_body h.intro, Section.write_body h.terms, Section.write_body h.payload]
  simp [extended, spelling, bind, Except.bind, pure, Except.pure]

theorem size_extended_nil_le (m : Message) (x : Additions) :
    (m.extended {}).size ≤ (m.extended x).size := by
  change (m.extended {}).data.toList.length ≤ (m.extended x).data.toList.length
  have h₁ := Section.length_extended_nil_le Layout.manifest (some m.manifest) x.manifest
  have h₂ := Section.length_extended_nil_le Layout.metadata m.metadata x.metadata
  have h₃ := Section.length_extended_nil_le Layout.intro m.intro x.intro
  have h₄ := Section.length_extended_nil_le Layout.terms m.terms x.terms
  have h₅ := Section.length_extended_nil_le Layout.payload m.payload x.payload
  simp only [data_extended, spelling, List.length_cons, List.length_append, List.length_nil]
  omega

/-- **Additions are read over.** -/
theorem readSections_spelling (h : m.Admits x) : readSections (m.spelling x) = .ok m := by
  simp only [readSections, spelling,
    Section.read_extended Layout.neverEmpty_manifest h.manifest,
    Section.read_extended Layout.neverEmpty_metadata h.metadata,
    Section.read_extended Layout.neverEmpty_intro h.intro,
    Section.read_extended Layout.neverEmpty_terms h.terms,
    Section.read_extended Layout.neverEmpty_payload h.payload, bind, Except.bind]
  rfl

/-- Steps that succeed together succeed one by one. -/
theorem eq_ok_of_bind {ε α β : Type} {r : Except ε α} {f : α → Except ε β} {b : β}
    (h : r >>= f = .ok b) : ∃ a, r = .ok a ∧ f a = .ok b := by
  cases r with
  | error e => exact nomatch h
  | ok a => exact ⟨a, rfl, h⟩

/-- **Nothing is read but a message with additions.** -/
theorem spelling_of_readSections {bytes : List UInt8} (h : readSections bytes = .ok m) :
    ∃ x, m.Admits x ∧ bytes = m.spelling x := by
  obtain ⟨⟨manifest?, rest₁⟩, h₁, h⟩ := eq_ok_of_bind h
  cases manifest? with
  | none => exact nomatch h
  | some manifest =>
    obtain ⟨⟨metadata, rest₂⟩, h₂, h⟩ := eq_ok_of_bind h
    obtain ⟨⟨intro, rest₃⟩, h₃, h⟩ := eq_ok_of_bind h
    obtain ⟨⟨terms, rest₄⟩, h₄, h⟩ := eq_ok_of_bind h
    obtain ⟨⟨payload, tail⟩, h₅, h⟩ := eq_ok_of_bind h
    obtain rfl : ⟨manifest, metadata, intro, terms, payload⟩ = m := Except.ok.inj h
    obtain ⟨x₁, fits₁, rfl⟩ := Section.extended_of_read h₁
    obtain ⟨x₂, fits₂, rfl⟩ := Section.extended_of_read h₂
    obtain ⟨x₃, fits₃, rfl⟩ := Section.extended_of_read h₃
    obtain ⟨x₄, fits₄, rfl⟩ := Section.extended_of_read h₄
    obtain ⟨x₅, fits₅, rfl⟩ := Section.extended_of_read h₅
    exact ⟨⟨x₁, x₂, x₃, x₄, x₅, tail⟩, ⟨fits₁, fits₂, fits₃, fits₄, fits₅⟩, rfl⟩

/-- **A message with additions tells which additions they are.** -/
theorem eq_of_spelling_eq {y : Additions} (hx : m.Admits x) (hy : m.Admits y)
    (h : m.spelling x = m.spelling y) : x = y := by
  obtain ⟨h₁, h⟩ := Section.extended_append_inj hx.manifest hy.manifest h
  obtain ⟨h₂, h⟩ := Section.extended_append_inj hx.metadata hy.metadata h
  obtain ⟨h₃, h⟩ := Section.extended_append_inj hx.intro hy.intro h
  obtain ⟨h₄, h⟩ := Section.extended_append_inj hx.terms hy.terms h
  obtain ⟨h₅, h⟩ := Section.extended_append_inj hx.payload hy.payload h
  obtain ⟨x₁, x₂, x₃, x₄, x₅, tail⟩ := x
  obtain ⟨y₁, y₂, y₃, y₄, y₅, tail'⟩ := y
  simp only [Additions.mk.injEq]
  exact ⟨h₁, h₂, h₃, h₄, h₅, h⟩

/-- Behind the version that is spoken, decoding reads the sections and then looks at the rules
between them. -/
theorem decode_of_data {b : ByteArray} {rest : List UInt8}
    (h : b.data.toList = protocolVersion :: rest) :
    decode b = readSections rest >>= fun m => match m.defect? with
      | some defect => .error (.invalid defect)
      | none => .ok m := by
  simp only [decode, h]
  rfl

/-- …and only behind that version. -/
theorem data_of_decode {b : ByteArray} (h : decode b = .ok m) :
    ∃ rest, b.data.toList = protocolVersion :: rest := by
  unfold decode at h
  split at h
  · exact nomatch h
  · next version rest hdata =>
    split at h
    · exact nomatch h
    · next hversion => exact ⟨rest, by rw [hdata, Decidable.not_not.mp hversion]⟩

theorem decode_spelling (h : m.Admits x) :
    decode (m.extended x) = match m.defect? with
      | some defect => .error (.invalid defect)
      | none => .ok m := by
  rw [decode_of_data (data_extended m x), readSections_spelling h]
  rfl

/-- What decodes is valid and spells the message. -/
theorem spelling_of_decode {b : ByteArray} (h : decode b = .ok m) :
    m.Valid ∧ ∃ x, m.Admits x ∧ b = m.extended x := by
  obtain ⟨rest, hdata⟩ := data_of_decode h
  rw [decode_of_data hdata] at h
  obtain ⟨m', hread, h⟩ := eq_ok_of_bind h
  split at h
  · exact nomatch h
  · next hvalid =>
    obtain rfl := Except.ok.inj h
    obtain ⟨x, hx, rfl⟩ := spelling_of_readSections hread
    exact ⟨hvalid, x, hx, bytes_ext (hdata.trans (data_extended m' x).symm)⟩

/-! ## The round trip, both ways -/

/-- **Every spelling of a message is read as that message**, or refused for the rule between its
sections that it breaks.  The spelling without additions is the one that is written. -/
theorem decode_extended {m : Message} {x : Additions} (h : m.Admits x) :
    m.encode = .ok (m.extended {}) ∧
      decode (m.extended x) = match m.defect? with
        | some defect => .error (.invalid defect)
        | none => .ok m :=
  ⟨encode_eq_extended h, decode_spelling h⟩

/-- An introduction to which a newer peer has added in two sections and behind the last. -/
theorem decode_extended_init :
    (Message.init .simulator ⟨"sim", "é", 1, 2, 3⟩).Admits
        { manifest := [9], intro := [1, 0], tail := [4, 0, 0, 0, 7] } ∧
      decode ((Message.init .simulator ⟨"sim", "é", 1, 2, 3⟩).extended
          { manifest := [9], intro := [1, 0], tail := [4, 0, 0, 0, 7] })
        = .ok (Message.init .simulator ⟨"sim", "é", 1, 2, 3⟩) := by
  have hfits : (Message.init .simulator ⟨"sim", "é", 1, 2, 3⟩).Admits
      { manifest := [9], intro := [1, 0], tail := [4, 0, 0, 0, 7] } :=
    ⟨by decide, by decide, by decide, by decide, by decide⟩
  exact ⟨hfits, (decode_extended hfits).2⟩

/-- **Nothing is read but the spellings of a valid message**, and from the bytes the additions can
be told: no field has two forms, and what is written is the shortest form there is. -/
theorem decode_eq_ok {b : ByteArray} {m : Message} (h : decode b = .ok m) :
    m.Valid ∧ (∃! x, m.Admits x ∧ b = m.extended x) ∧
      ∃ own, m.encode = .ok own ∧ own = m.extended {} ∧ own.size ≤ b.size ∧ decode own = .ok m := by
  obtain ⟨hvalid, x, hx, rfl⟩ := spelling_of_decode h
  have hown : decode (m.extended {}) = .ok m := by
    rw [decode_spelling hx.nil, hvalid]
  refine ⟨hvalid, ⟨x, ⟨hx, rfl⟩, fun y ⟨hy, heq⟩ => ?_⟩,
    m.extended {}, encode_eq_extended hx, rfl, size_extended_nil_le m x, hown⟩
  have hdata := congrArg (fun b : ByteArray => b.data.toList) heq
  simp only [data_extended, List.cons.injEq, true_and] at hdata
  exact eq_of_spelling_eq hy hx hdata.symm

/-- A ping with one byte added to its manifest and two behind its last section. -/
theorem decode_eq_ok_ping :
    decode ⟨#[1, 13, 0, 0, 0, 1, 0, 0, 0, 0, 0, 0, 0, 0, 0, 0, 0, 7,
        0, 0, 0, 0, 0, 0, 0, 0, 0, 0, 0, 0, 0, 0, 0, 0, 8, 9]⟩ = .ok (.ping .application) ∧
      (ping .application).Valid ∧ ∃ own, (ping .application).encode = .ok own ∧ own.size ≤ 36 := by
  have hping : decode ⟨#[1, 13, 0, 0, 0, 1, 0, 0, 0, 0, 0, 0, 0, 0, 0, 0, 0, 7,
      0, 0, 0, 0, 0, 0, 0, 0, 0, 0, 0, 0, 0, 0, 0, 0, 8, 9]⟩ = .ok (.ping .application) := rfl
  obtain ⟨hvalid, -, own, hencode, -, hsize, -⟩ := decode_eq_ok hping
  exact ⟨hping, hvalid, own, hencode, hsize⟩

end Message

end SimRelay
