import SimRelay.Bytes

/-!
# Store/Backend — payloads by key

A payload store keeps bytes under keys. `peek` reads and leaves, `checkOut` reads and removes, so
that of two check-outs of one key the second finds nothing. Any operation may be made to fail, and
one that fails may have taken effect before its answer was lost; a store of which this is never so
`FailsSafely`. The store remembers which requests reached it.
-/

namespace SimRelay

/-- Why a store did not do what it was asked, in words of its own. -/
structure StoreError where
  text : String
  deriving DecidableEq, Repr, Inhabited

def StoreError.message (e : StoreError) : String := "redis error: " ++ e.text

/-- A request to a store. -/
inductive StoreRequest
  | select (index : UInt32)
  | put (key : String) (payload : ByteArray)
  | peek (key : String)
  | checkOut (key : String)
  | isConnected
  deriving DecidableEq

/-- The kinds of request that can be made to fail. -/
inductive StoreOperation
  | put
  | peek
  | checkOut
  | isConnected
  deriving DecidableEq, Repr

structure Backend where
  /-- Keys with their payloads, each key once. -/
  entries : List (String × ByteArray) := []
  /-- The operations that fail. -/
  failing : List StoreOperation := []
  /-- Those that take effect even where they fail. -/
  lossy : List StoreOperation := []
  /-- What a failing operation answers. -/
  failure : StoreError := default
  /-- The requests received so far, in order. -/
  received : List StoreRequest := []
  deriving DecidableEq, Inhabited

namespace Backend

/-- The payload under a key. -/
def get? (b : Backend) (key : String) : Option ByteArray := b.entries.lookup key

def size (b : Backend) : Nat := b.entries.length

/-- Entries without a key. -/
def without (key : String) (entries : List (String × ByteArray)) : List (String × ByteArray) :=
  entries.filter fun e => e.1 != key

/-- A failed operation changes no entry. -/
def FailsSafely (b : Backend) : Prop := b.lossy = []

instance (b : Backend) : Decidable b.FailsSafely := inferInstanceAs (Decidable (_ = _))

/-- Takes note of a request, and refuses it if its operation fails. -/
def receive (b : Backend) (request : StoreRequest) (operation : StoreOperation) :
    Backend × Option StoreError :=
  ({ b with received := b.received ++ [request] },
    if operation ∈ b.failing then some b.failure else none)

/-- A failed operation that would have left these entries. -/
def failed (operation : StoreOperation) (entries : List (String × ByteArray)) (b : Backend) :
    Backend :=
  if operation ∈ b.lossy then { b with entries } else b

section

variable (operation : StoreOperation) (entries : List (String × ByteArray)) (b : Backend)

@[simp] theorem received_failed : (b.failed operation entries).received = b.received := by
  unfold failed
  split <;> rfl

@[simp] theorem failing_failed : (b.failed operation entries).failing = b.failing := by
  unfold failed
  split <;> rfl

theorem entries_failed :
    (b.failed operation entries).entries = if operation ∈ b.lossy then entries else b.entries := by
  unfold failed
  split <;> rfl

end

/-- Keeps a payload under a key, in place of what was there. -/
def put (key : String) (payload : ByteArray) (b : Backend) : Backend × Except StoreError Unit :=
  let entries := (key, payload) :: without key b.entries
  match b.receive (.put key payload) .put with
  | (b, some e) => (b.failed .put entries, .error e)
  | (b, none) => ({ b with entries }, .ok ())

/-- The payload under a key, which stays. -/
def peek (key : String) (b : Backend) : Backend × Except StoreError (Option ByteArray) :=
  match b.receive (.peek key) .peek with
  | (b, some e) => (b, .error e)
  | (b, none) => (b, .ok (b.get? key))

/-- The payload under a key, which goes. -/
def checkOut (key : String) (b : Backend) : Backend × Except StoreError (Option ByteArray) :=
  let entries := without key b.entries
  match b.receive (.checkOut key) .checkOut with
  | (b, some e) => (b.failed .checkOut entries, .error e)
  | (b, none) => ({ b with entries }, .ok (b.get? key))

/-- Whether the store answers. -/
def isConnected (b : Backend) : Backend × Bool :=
  match b.receive .isConnected .isConnected with
  | (b, e?) => (b, e?.isNone)

/-! ## What an operation does to an entry -/

theorem lookup_without (key other : String) (entries : List (String × ByteArray)) :
    (without key entries).lookup other = if other = key then none else entries.lookup other := by
  induction entries with
  | nil => simp [without]
  | cons e es ih =>
    obtain ⟨k, p⟩ := e
    unfold without at ih ⊢
    by_cases hk : k = key
    · subst hk
      by_cases ho : other = k
      · subst ho; simpa using ih
      · have : (other == k) = false := by simpa using ho
        simp [List.lookup_cons, this, ho] at ih ⊢
        exact ih
    · have hne : (k != key) = true := by simpa using hk
      simp only [List.filter_cons, hne, if_true, List.lookup_cons]
      by_cases ho : other = k
      · subst ho; simp [hk]
      · have : (other == k) = false := by simpa using ho
        simp only [this, ih]

theorem get?_put {key : String} {payload : ByteArray} {b b' : Backend}
    (h : b.put key payload = (b', .ok ())) (other : String) :
    b'.get? other = if other = key then some payload else b.get? other := by
  unfold put receive at h
  by_cases hf : StoreOperation.put ∈ b.failing <;> simp [hf] at h
  subst h
  by_cases ho : other = key
  · subst ho; simp [get?]
  · have : (other == key) = false := by simpa using ho
    simp [get?, List.lookup_cons, this, lookup_without, ho]

theorem get?_checkOut {key : String} {b b' : Backend} {r : Option ByteArray}
    (h : b.checkOut key = (b', .ok r)) (other : String) :
    r = b.get? key ∧ b'.get? other = if other = key then none else b.get? other := by
  unfold checkOut receive at h
  by_cases hf : StoreOperation.checkOut ∈ b.failing <;> simp [hf] at h
  obtain ⟨rfl, rfl⟩ := h
  exact ⟨rfl, lookup_without key other b.entries⟩

end Backend

end SimRelay
