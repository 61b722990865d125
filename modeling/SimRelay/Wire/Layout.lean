import SimRelay.Wire.Utf8

/-!
# Wire/Layout — how values lie in bytes

A `Layout α` is a writer and a reader of `α` that undo each other: the reader stops exactly where
the writer did, whatever follows (`read_write`), and accepts nothing that the writer would not have
written (`write_of_read`). Layouts are built from words, texts and byte strings by pairing
(`both`), by renaming (`iso`), and by a tag in front (`optional`, `either`).

Lengths are written in eight bytes. The one thing asked of a value is therefore that its bytes
number less than `UInt64.size`.
-/

namespace SimRelay

/-- A form in which values of `α` lie in bytes. -/
structure Layout (α : Type) where
  write : α → List UInt8
  /-- The value in front and what follows it. -/
  read : List UInt8 → Except BodyFault (α × List UInt8)
  read_write : ∀ a rest, (write a).length < UInt64.size → read (write a ++ rest) = .ok (a, rest)
  write_of_read : ∀ {bytes a rest}, read bytes = .ok (a, rest) → bytes = write a ++ rest

namespace Layout

/-! ## Words -/

/-- The number in the first `width` bytes. -/
def readWord (width : Nat) (bytes : List UInt8) : Except BodyFault (Nat × List UInt8) :=
  if width ≤ bytes.length then
    .ok (littleEndianValue (bytes.take width), bytes.drop width)
  else .error .endOfBody

theorem readWord_littleEndian {width n : Nat} (h : n < wordSize width) (rest : List UInt8) :
    readWord width (littleEndian width n ++ rest) = .ok (n, rest) := by
  have hlen := length_littleEndian width n
  simp only [readWord, List.length_append, hlen]
  rw [if_pos (by omega), List.take_left' hlen, List.drop_left' hlen,
    littleEndianValue_littleEndian h]

theorem littleEndian_of_readWord {width n : Nat} {bytes rest : List UInt8}
    (h : readWord width bytes = .ok (n, rest)) :
    n < wordSize width ∧ bytes = littleEndian width n ++ rest := by
  unfold readWord at h
  split at h
  · next hw =>
    cases h
    have hlen : (bytes.take width).length = width := by simp [hw]
    have hlt := littleEndianValue_lt (bytes.take width)
    have hback := littleEndian_littleEndianValue (bytes.take width)
    rw [hlen] at hlt hback
    exact ⟨hlt, by rw [hback, List.take_append_drop]⟩
  · cases h

/-- Numbers below a bound that fill a word of `width` bytes exactly, seen through `toNat`. -/
def word {α : Type} (width : Nat) (toNat : α → Nat) (ofNat : Nat → α)
    (toNat_lt : ∀ a, toNat a < wordSize width) (ofNat_toNat : ∀ a, ofNat (toNat a) = a)
    (toNat_ofNat : ∀ n, n < wordSize width → toNat (ofNat n) = n) : Layout α where
  write a := littleEndian width (toNat a)
  read bytes := (readWord width bytes).map fun p => (ofNat p.1, p.2)
  read_write a rest _ := by
    rw [readWord_littleEndian (toNat_lt a)]
    simp [Except.map, ofNat_toNat]
  write_of_read {bytes a rest} h := by
    cases hr : readWord width bytes with
    | error e => simp [hr, Except.map] at h
    | ok p =>
      obtain ⟨n, rest'⟩ := p
      obtain ⟨hlt, hb⟩ := littleEndian_of_readWord hr
      simp only [hr, Except.map, Except.ok.injEq, Prod.mk.injEq] at h
      obtain ⟨rfl, rfl⟩ := h
      rw [toNat_ofNat n hlt]
      exact hb

def u8 : Layout UInt8 :=
  word 1 UInt8.toNat UInt8.ofNat (fun a => a.toNat_lt) (fun a => by simp)
    (fun n h => by simp [wordSize] at h ⊢; omega)

def u16 : Layout UInt16 :=
  word 2 UInt16.toNat UInt16.ofNat (fun a => a.toNat_lt) (fun a => by simp)
    (fun n h => by simp [wordSize] at h ⊢; omega)

def u32 : Layout UInt32 :=
  word 4 UInt32.toNat UInt32.ofNat (fun a => a.toNat_lt) (fun a => by simp)
    (fun n h => by simp [wordSize] at h ⊢; omega)

def u64 : Layout UInt64 :=
  word 8 UInt64.toNat UInt64.ofNat (fun a => a.toNat_lt) (fun a => by simp)
    (fun n h => by simp [wordSize] at h ⊢; omega)

/-! ## Renaming and refusing -/

/-- The values of `α` that `view?` accepts, under the names it gives them. -/
def refine {α β : Type} (l : Layout α) (view? : α → Except BodyFault β) (name : β → α)
    (view?_name : ∀ b, view? (name b) = .ok b)
    (name_of_view? : ∀ {a b}, view? a = .ok b → name b = a) : Layout β where
  write b := l.write (name b)
  read bytes := match l.read bytes with
    | .error e => .error e
    | .ok (a, rest) => match view? a with
      | .error e => .error e
      | .ok b => .ok (b, rest)
  read_write b rest h := by
    rw [l.read_write _ _ h]
    simp only [view?_name]
  write_of_read {bytes b rest} h := by
    split at h
    · cases h
    · next a rest' hr =>
      split at h
      · cases h
      · next b' hb =>
        cases h
        rw [name_of_view? hb]
        exact l.write_of_read hr

/-- The same bytes under other names. -/
def iso {α β : Type} (l : Layout α) (view : α → β) (name : β → α)
    (view_name : ∀ b, view (name b) = b) (name_view : ∀ a, name (view a) = a) : Layout β :=
  l.refine (fun a => .ok (view a)) name (fun b => by rw [view_name])
    (fun h => by cases h; exact name_view _)

/-- A choice among the values listed, by their place in the list. -/
def choice {α : Type} (values : List α) (index : α → Nat)
    (index_lt : ∀ a, index a < UInt32.size) (getElem?_index : ∀ a, values[index a]? = some a)
    (index_of_getElem? : ∀ {i a}, values[i]? = some a → index a = i) : Layout α :=
  u32.refine
    (fun i => match values[i.toNat]? with
      | some a => .ok a
      | none => .error (.badVariant i.toNat values.length))
    (fun a => UInt32.ofNat (index a))
    (fun a => by
      have h : (UInt32.ofNat (index a)).toNat = index a := by
        rw [UInt32.toNat_ofNat']
        exact Nat.mod_eq_of_lt (index_lt a)
      simp only [h, getElem?_index])
    (fun {i a} h => by
      split at h
      · next b hb =>
        cases h
        rw [index_of_getElem? hb]
        exact UInt32.ofNat_toNat
      · cases h)

/-- Truth as one byte, which is 0 or 1. -/
def bool : Layout Bool :=
  u8.refine
    (fun b => if b = 0 then .ok false else if b = 1 then .ok true else .error (.badBool b))
    (fun b => if b then 1 else 0)
    (fun b => by cases b <;> rfl)
    (fun {a b} h => by
      split at h
      · next h0 => cases h; simp [h0]
      · split at h
        · next h1 => cases h; simp [h1]
        · cases h)

/-! ## One after another -/

/-- Two values, one after the other. -/
def both {α β : Type} (first : Layout α) (second : Layout β) : Layout (α × β) where
  write p := first.write p.1 ++ second.write p.2
  read bytes := match first.read bytes with
    | .error e => .error e
    | .ok (a, rest) => match second.read rest with
      | .error e => .error e
      | .ok (b, rest) => .ok ((a, b), rest)
  read_write p rest h := by
    simp only [List.length_append] at h
    rw [List.append_assoc, first.read_write _ _ (by omega)]
    simp only [second.read_write _ _ (show (second.write p.2).length < UInt64.size by omega)]
  write_of_read {bytes p rest} h := by
    split at h
    · cases h
    · next a rest' ha =>
      split at h
      · cases h
      · next b rest'' hb =>
        cases h
        rw [first.write_of_read ha, second.write_of_read hb, List.append_assoc]

/-! ## A tag in front -/

/-- Nothing, or a value, by a byte in front that is 0 or 1. -/
def optional {α : Type} (l : Layout α) : Layout (Option α) where
  write
    | none => [0]
    | some a => 1 :: l.write a
  read
    | [] => .error .endOfBody
    | tag :: rest =>
      if tag = 0 then .ok (none, rest)
      else if tag = 1 then match l.read rest with
        | .error e => .error e
        | .ok (a, rest) => .ok (some a, rest)
      else .error (.badOptionTag tag.toNat)
  read_write a rest h := by
    cases a with
    | none => rfl
    | some a =>
      simp only [List.length_cons] at h
      simp [l.read_write _ _ (show (l.write a).length < UInt64.size by omega)]
  write_of_read {bytes a rest} h := by
    cases bytes with
    | nil => cases h
    | cons tag tail =>
      simp only at h
      split at h
      · next h0 => cases h; simp [h0]
      · split at h
        · next h1 =>
          split at h
          · cases h
          · next b rest' hb =>
            cases h
            simp [h1, l.write_of_read hb]
        · cases h

/-- One of two kinds of value, by its number in front. -/
def either {α β : Type} (first : Layout α) (second : Layout β) : Layout (α ⊕ β) where
  write
    | .inl a => littleEndian 4 0 ++ first.write a
    | .inr b => littleEndian 4 1 ++ second.write b
  read bytes := match readWord 4 bytes with
    | .error e => .error e
    | .ok (0, rest) => (first.read rest).map fun p => (.inl p.1, p.2)
    | .ok (1, rest) => (second.read rest).map fun p => (.inr p.1, p.2)
    | .ok (n, _) => .error (.badVariant n 2)
  read_write v rest h := by
    cases v with
    | inl a =>
      simp only [List.length_append] at h
      rw [List.append_assoc, readWord_littleEndian (by decide)]
      simp [first.read_write _ _ (show (first.write a).length < UInt64.size by omega), Except.map]
    | inr b =>
      simp only [List.length_append] at h
      rw [List.append_assoc, readWord_littleEndian (by decide)]
      simp [second.read_write _ _ (show (second.write b).length < UInt64.size by omega), Except.map]
  write_of_read {bytes v rest} h := by
    split at h
    · cases h
    · next rest' hr =>
      obtain ⟨-, rfl⟩ := littleEndian_of_readWord hr
      cases ha : first.read rest' with
      | error e => simp [ha, Except.map] at h
      | ok p =>
        simp only [ha, Except.map, Except.ok.injEq, Prod.mk.injEq] at h
        obtain ⟨rfl, rfl⟩ := h
        rw [first.write_of_read ha, List.append_assoc]
    · next rest' hr =>
      obtain ⟨-, rfl⟩ := littleEndian_of_readWord hr
      cases hb : second.read rest' with
      | error e => simp [hb, Except.map] at h
      | ok p =>
        simp only [hb, Except.map, Except.ok.injEq, Prod.mk.injEq] at h
        obtain ⟨rfl, rfl⟩ := h
        rw [second.write_of_read hb, List.append_assoc]
    · cases h

/-! ## Lengths in front -/

/-- Bytes, with their number in front. -/
def bytes : Layout ByteArray where
  write b := littleEndian 8 b.size ++ b.data.toList
  read bs := match readWord 8 bs with
    | .error e => .error e
    | .ok (n, rest) =>
      if n ≤ rest.length then .ok ((rest.take n).toByteArray, rest.drop n)
      else .error .endOfBody
  read_write b rest h := by
    simp only [List.length_append, length_littleEndian] at h
    have hsize : b.data.toList.length = b.size := rfl
    have hword : wordSize 8 = UInt64.size := rfl
    rw [List.append_assoc, readWord_littleEndian (by rw [← hsize]; omega)]
    simp only [List.length_append, hsize]
    rw [if_pos (by omega), List.take_left' hsize, List.drop_left' hsize, toByteArray_toList]
  write_of_read {bs b rest} h := by
    split at h
    · cases h
    · next n rest' hr =>
      obtain ⟨-, rfl⟩ := littleEndian_of_readWord hr
      split at h
      · next hn =>
        cases h
        have hsize : (rest'.take n).toByteArray.size = n := by
          show (rest'.take n).toByteArray.data.toList.length = n
          rw [List.toList_data_toByteArray]
          simp [hn]
        rw [hsize, List.toList_data_toByteArray, List.append_assoc, List.take_append_drop]
      · cases h

/-- Text, with the number of its bytes in front. -/
def text : Layout String where
  write s := littleEndian 8 (writeUtf8 s).length ++ writeUtf8 s
  read bs := match readWord 8 bs with
    | .error e => .error e
    | .ok (n, rest) =>
      if n ≤ rest.length then match readUtf8 (rest.take n) with
        | .error fault => .error (.badText fault)
        | .ok s => .ok (s, rest.drop n)
      else .error .textTooLong
  read_write s rest h := by
    simp only [List.length_append, length_littleEndian] at h
    have hword : wordSize 8 = UInt64.size := rfl
    rw [List.append_assoc, readWord_littleEndian (by omega)]
    simp only [List.length_append]
    rw [if_pos (by omega), List.take_left' rfl, List.drop_left' rfl]
    simp only [readUtf8_eq_ok.mpr rfl]
  write_of_read {bs s rest} h := by
    split at h
    · cases h
    · next n rest' hr =>
      obtain ⟨-, rfl⟩ := littleEndian_of_readWord hr
      split at h
      · next hn =>
        split at h
        · cases h
        · next hs =>
          cases h
          have ht := readUtf8_eq_ok.mp hs
          have hlen : (writeUtf8 s).length = n := by rw [← ht]; simp [hn]
          rw [hlen, List.append_assoc, ← ht, List.take_append_drop]
      · cases h

end Layout

end SimRelay
