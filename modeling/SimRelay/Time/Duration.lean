import SimRelay.Number.Binary64

/-!
# Time/Duration — spans of time

A duration is a whole number of nanoseconds below `2 ^ 64` seconds. Timeouts are configured as
seconds in double precision: `toSeconds` rounds three times on the way there, `ofSeconds?` once on
the way back, and refuses what is negative, not a number or `2 ^ 64` seconds and more.
-/

namespace SimRelay

/-- How many nanoseconds a second has. -/
def Duration.perSecond : Nat := 1000000000

/-- How many durations there are: their whole seconds fit in 64 bits. -/
def Duration.limit : Nat := UInt64.size * perSecond

structure Duration where
  nanos : Nat
  nanos_lt : nanos < Duration.limit := by decide
  deriving DecidableEq

namespace Duration

instance : Repr Duration := ⟨fun d _ => repr d.nanos⟩

/-- How many nanoseconds a millisecond has. -/
def perMilli : Nat := 1000000

/-- How many nanoseconds a microsecond has. -/
def perMicro : Nat := 1000

/-- The longest duration. -/
def longest : Duration := ⟨limit - 1, by decide⟩

/-- So many nanoseconds, or the longest duration if that is too long. -/
def ofNanos (n : Nat) : Duration :=
  if h : n < limit then ⟨n, h⟩ else longest

def zero : Duration := ⟨0, by decide⟩

instance : Inhabited Duration := ⟨zero⟩

def ofMillis (n : Nat) : Duration := ofNanos (n * perMilli)

def ofSeconds (n : Nat) : Duration := ofNanos (n * perSecond)

/-- Whole seconds, and nanoseconds on top. -/
def ofParts (seconds nanos : Nat) : Duration := ofNanos (seconds * perSecond + nanos)

def min (a b : Duration) : Duration := if a.nanos ≤ b.nanos then a else b

@[simp] theorem nanos_ofNanos {n : Nat} (h : n < limit) : (ofNanos n).nanos = n := by
  rw [ofNanos, dif_pos h]

theorem nanos_ofNanos_pos {n : Nat} (h : 0 < n) : 0 < (ofNanos n).nanos := by
  unfold ofNanos
  split
  · exact h
  · decide

theorem nanos_min_pos {a b : Duration} (ha : 0 < a.nanos) (hb : 0 < b.nanos) :
    0 < (a.min b).nanos := by
  unfold min
  split <;> assumption

/-! ## Seconds in double precision -/

/-- Whole seconds and the fraction are rounded apart, and then their sum. -/
def toSeconds (d : Duration) : Binary64 :=
  .addMagnitudes (.ofNat (d.nanos / perSecond)) (.ofRatio false (d.nanos % perSecond) perSecond)

/-- The nearest whole number of nanoseconds; a half goes to the even one. -/
def ofSeconds? (x : Binary64) : Option Duration :=
  match x with
  | .finite negative m k =>
    if negative ∧ m ≠ 0 then none
    else
      let nanos := roundQuotient ((m <<< k) * perSecond) Binary64.one
      if h : nanos < limit then some ⟨nanos, h⟩ else none
  | _ => none

/-! ## Text -/

/-- A fraction of so many places, without its trailing zeros and with the point in front; nothing
if it is zero. -/
def fractionText (value places : Nat) : String :=
  let digits := Nat.toDigits 10 value
  let padded := List.replicate (places - digits.length) '0' ++ digits
  let kept := (padded.reverse.dropWhile (· = '0')).reverse
  if kept.isEmpty then "" else String.ofList ('.' :: kept)

/-- The duration in the largest unit of which it has at least one. -/
def text (d : Duration) : String :=
  let n := d.nanos
  if perSecond ≤ n then toString (n / perSecond) ++ fractionText (n % perSecond) 9 ++ "s"
  else if perMilli ≤ n then toString (n / perMilli) ++ fractionText (n % perMilli) 6 ++ "ms"
  else if perMicro ≤ n then toString (n / perMicro) ++ fractionText (n % perMicro) 3 ++ "µs"
  else toString n ++ "ns"

end Duration

end SimRelay
