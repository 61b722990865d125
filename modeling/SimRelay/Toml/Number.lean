import SimRelay.Number.Decimal
import SimRelay.Toml.Text
import SimRelay.Toml.Value

/-!
# Toml/Number — integers and floats in TOML documents

Integers are decimal with a sign, or have a base in front; they fit in 64 signed bits. Floats are
decimal, infinite or not a number. Underscores may stand between digits.
-/

namespace SimRelay.Toml

/-- Digits after the first, an underscore being allowed before each. -/
def moreDigits (isDigit : Char → Bool) : List Char → List Char × List Char
  | '_' :: c :: rest =>
    if isDigit c then
      let (ds, rest) := moreDigits isDigit rest
      (c :: ds, rest)
    else ([], '_' :: c :: rest)
  | c :: rest =>
    if isDigit c then
      let (ds, rest) := moreDigits isDigit rest
      (c :: ds, rest)
    else ([], c :: rest)
  | [] => ([], [])

/-- At least one digit. -/
def digits? (isDigit : Char → Bool) : List Char → Option (List Char × List Char)
  | c :: rest =>
    if isDigit c then
      let (ds, rest) := moreDigits isDigit rest
      some (c :: ds, rest)
    else none
  | [] => none

/-- The whole part of a number: a zero alone, or digits that do not start with zero. -/
def whole? : List Char → Option (List Char × List Char)
  | '0' :: rest => some (['0'], rest)
  | cs => digits? Char.isDigit cs

/-- A point and digits; nothing is read if there is no point. -/
def fraction? : List Char → Option (Option (List Char) × List Char)
  | '.' :: rest => (digits? Char.isDigit rest).map fun p => (some p.1, p.2)
  | rest => some (none, rest)

/-- A letter, perhaps a sign, and digits; nothing is read if there is no such letter. -/
def exponent? : List Char → Option (Option Int × List Char)
  | c :: rest =>
    if c = 'e' ∨ c = 'E' then
      let (negative, rest) := sign rest
      (digits? Char.isDigit rest).map fun p =>
        let n : Int := Digits.spelled 10 p.1
        (some (if negative then -n else n), p.2)
    else some (none, c :: rest)
  | [] => some (none, [])
where
  sign : List Char → Bool × List Char
    | '-' :: rest => (true, rest)
    | '+' :: rest => (false, rest)
    | rest => (false, rest)

/-- An integer that fits in 64 signed bits. -/
def integer? (n : Int) : Option Value :=
  if Int64.minValue.toInt ≤ n ∧ n ≤ Int64.maxValue.toInt then some (.integer n) else none

/-- A number without a base in front. A float too large for a double is refused, unless it is
negative. -/
def decimal? (cs : List Char) : Option (Value × List Char) :=
  let (negative, body) := exponent?.sign cs
  match body with
  | 'i' :: 'n' :: 'f' :: rest => some (.float (.infinite negative), rest)
  | 'n' :: 'a' :: 'n' :: rest => some (.float .nan, rest)
  | _ => do
    let (whole, rest) ← whole? body
    let (fraction, rest) ← fraction? rest
    let (exponent, rest) ← exponent? rest
    if fraction.isNone ∧ exponent.isNone then
      let n : Int := Digits.spelled 10 whole
      let v ← integer? (if negative then -n else n)
      return (v, rest)
    else
      let x := (Decimal.ofDigits negative whole (fraction.getD []) (exponent.getD 0)).toBinary64
      if x = .infinite false then none else return (.float x, rest)

/-- Digits behind a base in front. -/
def based? (base : Nat) (isDigit : Char → Bool) (cs : List Char) :
    Option (Value × List Char) := do
  let (ds, rest) ← digits? isDigit cs
  let v ← integer? (Digits.spelled base ds)
  return (v, rest)

def number? : List Char → Option (Value × List Char)
  | '0' :: 'x' :: rest => based? 16 isHexDigit rest
  | '0' :: 'o' :: rest => based? 8 (fun c => '0' ≤ c && c ≤ '7') rest
  | '0' :: 'b' :: rest => based? 2 (fun c => c = '0' || c = '1') rest
  | cs => decimal? cs

end SimRelay.Toml
