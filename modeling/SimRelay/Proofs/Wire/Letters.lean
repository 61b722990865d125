import SimRelay.Proofs.Wire.Frames
import SimRelay.Proofs.Wire.Spelling

/-!
# Proofs/Wire/Letters — a letter keeps what it carries, however it is relayed

A letter is a message that carries bytes from one client to another, or the key under which they
were stored.  Whoever relays it changes the manifest alone, and so it stays a letter with the same
ends, the same announced length and the same payload (`Message.Bears.relay`).  A letter that carries
a key is as long as its names and its key make it: the bytes have no part in its length
(`Message.Bears.size`).
-/

namespace SimRelay

/-! ## What was written is read -/

theorem Section.fits_of_write {α : Type} {l : Layout α} {bytes : List UInt8} :
    ∀ {a? : Option α}, write (body l a?) = .ok bytes → Fits l a? []
  | none, _ => rfl
  | some a, h => by
      unfold write at h
      split at h
      · assumption
      · exact nomatch h

namespace Message

variable {m : Message} {body : ByteArray}

theorem admits_of_encode (h : m.encode = .ok body) : m.Admits {} := by
  obtain ⟨_, h₁, h⟩ := eq_ok_of_bind h
  obtain ⟨_, h₂, h⟩ := eq_ok_of_bind h
  obtain ⟨_, h₃, h⟩ := eq_ok_of_bind h
  obtain ⟨_, h₄, h⟩ := eq_ok_of_bind h
  obtain ⟨_, h₅, -⟩ := eq_ok_of_bind h
  exact ⟨Section.fits_of_write h₁, Section.fits_of_write h₂, Section.fits_of_write h₃,
    Section.fits_of_write h₄, Section.fits_of_write h₅⟩

theorem eq_extended_of_encode (h : m.encode = .ok body) : body = m.extended {} :=
  Except.ok.inj (h.symm.trans (encode_eq_extended (admits_of_encode h)))

/-- **What was written is read**, if the sections go together. -/
theorem decode_of_encode (h : m.encode = .ok body) (hvalid : m.Valid) : decode body = .ok m := by
  rw [eq_extended_of_encode h, decode_spelling (admits_of_encode h), hvalid]

end Message

/-! ## Lengths -/

namespace Layout

theorem length_manifest (a : Manifest) : (manifest.write a).length = 12 := rfl

theorem length_text (s : String) : (text.write s).length = 8 + s.utf8ByteSize := by
  change (littleEndian 8 _ ++ writeUtf8 s).length = _
  rw [List.length_append, length_littleEndian]
  rfl

/-- The section of a route has a fixed part and the names of its ends. -/
theorem length_metadata (a b : String) (size : UInt64) :
    (metadata.write { source := some a, destination := some b, payloadSize := size }).length
      = 30 + a.utf8ByteSize + b.utf8ByteSize := by
  change (addressType.write .text ++ ((1 :: text.write a) ++ ((1 :: text.write b) ++
    u64.write size))).length = _
  have htype : (addressType.write .text).length = 4 := rfl
  have hsize : (u64.write size).length = 8 := rfl
  simp only [List.length_append, List.length_cons, length_text, htype, hsize]
  omega

theorem length_payload_key (key : String) :
    (payload.write (.key key)).length = 12 + key.utf8ByteSize := by
  change (littleEndian 4 1 ++ text.write key).length = _
  rw [List.length_append, length_littleEndian, length_text]
  omega

end Layout

theorem Section.length_extended_nil {α : Type} (l : Layout α) (a : α) :
    (extended l (some a) []).length = 4 + (l.write a).length := by
  rw [extended, List.append_nil, List.length_append, length_littleEndian]

/-! ## Letters -/

/-- A payload as it goes out: under its key, if it was stored. -/
def Payload.under (payload : Payload) : Option String → Payload
  | some name => .key name
  | none => payload

namespace Message

variable {a b key : String} {p body relayed : ByteArray} {stored : Option String}
  {operation : Operation}

/-- A message that carries bytes, or the key under which they were stored. -/
def letter (manifest : Manifest) (source destination : String) (bytes : ByteArray)
    (stored : Option String) : Message where
  manifest
  metadata := some { source, destination, payloadSize := .ofNat bytes.size }
  payload := some ((Payload.inline bytes).under stored)

theorem valid_letter {manifest : Manifest} (h : manifest.resultCode = .message) (a b : String)
    (p : ByteArray) (stored : Option String) : (letter manifest a b p stored).Valid := by
  have hcode : (letter manifest a b p stored).resultCode = .message := h
  have habsent : (letter manifest a b p stored).intro = none ∧
      (letter manifest a b p stored).terms = none := ⟨rfl, rfl⟩
  simp [Valid, defect?, hcode, habsent]

/-- The body is a letter's own spelling. -/
def Bears (a b : String) (p : ByteArray) (stored : Option String) (body : ByteArray) : Prop :=
  ∃ manifest, manifest.resultCode = .message ∧
    (letter manifest a b p stored).encode = .ok body

/-- The body is what becomes of another when the message is given a manifest of this operation that
says there is a payload, and nothing else of it is changed. -/
def Relays (operation : Operation) (body relayed : ByteArray) : Prop :=
  ∃ m originator, decode body = .ok m ∧
    encode { m with manifest := ⟨operation, originator, .message⟩ } = .ok relayed

/-- **A letter is relayed as a letter**, with the same ends and the same content. -/
theorem Bears.relay (h : Bears a b p stored body) (hrelays : Relays operation body relayed) :
    ∃ originator, (letter ⟨operation, originator, .message⟩ a b p stored).encode = .ok relayed := by
  obtain ⟨manifest, hcode, hencode⟩ := h
  obtain ⟨m, originator, hdecode, hrelayed⟩ := hrelays
  rw [decode_of_encode hencode (valid_letter hcode a b p stored)] at hdecode
  obtain rfl := Except.ok.inj hdecode
  exact ⟨originator, hrelayed⟩

/-- Every letter can be relayed: any manifest is as long as its own. -/
theorem Bears.relays (h : Bears a b p stored body) (operation : Operation)
    (originator : Originator) :
    Relays operation body
      ((letter ⟨operation, originator, .message⟩ a b p stored).extended {}) := by
  obtain ⟨manifest, hcode, hencode⟩ := h
  obtain ⟨-, hmetadata, hintro, hterms, hpayload⟩ := admits_of_encode hencode
  refine ⟨_, originator, decode_of_encode hencode (valid_letter hcode a b p stored),
    encode_eq_extended (x := {}) ⟨?_, hmetadata, hintro, hterms, hpayload⟩⟩
  rw [Section.Fits, Layout.length_manifest]
  decide

/-- **The frame of a letter that carries a key** is as long as its names and its key make it. -/
theorem Bears.size (h : Bears a b p (some key) body) :
    (Frame.wrap body).size = 79 + a.utf8ByteSize + b.utf8ByteSize + key.utf8ByteSize := by
  obtain ⟨manifest, -, hencode⟩ := h
  have hbody : body.size = ((letter manifest a b p (some key)).extended {}).data.toList.length := by
    rw [eq_extended_of_encode hencode]
    rfl
  have hmetadata := Section.length_extended_nil Layout.metadata
    { source := some a, destination := some b, payloadSize := .ofNat p.size }
  have hpayload := Section.length_extended_nil Layout.payload (.key key)
  rw [Layout.length_metadata] at hmetadata
  rw [Layout.length_payload_key] at hpayload
  rw [data_extended, List.length_cons, spelling] at hbody
  simp only [List.length_append, Section.length_extended_nil, Layout.length_manifest,
    List.length_nil, letter, Payload.under, hmetadata, hpayload] at hbody
  have habsent : (Section.extended Layout.intro none []).length = 4 ∧
      (Section.extended Layout.terms none []).length = 4 := ⟨rfl, rfl⟩
  rw [habsent.1, habsent.2] at hbody
  rw [Frame.size_wrap, hbody, Frame.headLength]
  omega

end Message

end SimRelay
