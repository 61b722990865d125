import SimRelay.Number.Rounding

/-!
# Number/Binary64 — double-precision numbers as exact values

A finite double is a sign and a whole number of units of `2 ^ -1074`, written `m <<< k` with
`m < 2 ^ 53` and `k ≤ 2045`, and with `2 ^ 52 ≤ m` unless `k = 0`. Every operation here is exact
arithmetic followed by one rounding, `ofRatio`: to nearest, a tie to the even significand, to
infinity beyond the largest finite double.
-/

namespace SimRelay

inductive Binary64
  | nan
  | infinite (negative : Bool)
  /-- Plus or minus `significand <<< exponent` units. -/
  | finite (negative : Bool) (significand exponent : Nat)
  deriving DecidableEq, Repr, Inhabited

namespace Binary64

/-- How many units make one. -/
def one : Nat := 1 <<< 1074

/-- Above this exponent a double is infinite. -/
def maxExponent : Nat := 2045

/-- How many units a number is away from zero; none unless it is finite. -/
def units? : Binary64 → Option Nat
  | .finite _ m k => some (m <<< k)
  | _ => none

/-- The exponent of the double next to `num / den` units. -/
def exponentOf (num den : Nat) : Nat := Nat.log2 (num / den) - 52

/-- The double nearest to plus or minus `num / den` units. -/
def ofUnits (negative : Bool) (num den : Nat) : Binary64 :=
  let k := exponentOf num den
  let m := roundQuotient num (den <<< k)
  let (m, k) := if m = 1 <<< 53 then (1 <<< 52, k + 1) else (m, k)
  if maxExponent < k then .infinite negative else .finite negative m k

/-- The double nearest to plus or minus `num / den`. -/
def ofRatio (negative : Bool) (num den : Nat) : Binary64 := ofUnits negative (num * one) den

def ofNat (n : Nat) : Binary64 := ofRatio false n 1

def ofInt (n : Int) : Binary64 := ofRatio (decide (n < 0)) n.natAbs 1

/-- The sum of two numbers that are not negative. -/
def addMagnitudes (x y : Binary64) : Binary64 :=
  match x.units?, y.units? with
  | some a, some b => ofUnits false (a + b) 1
  | _, _ => .infinite false

/-- Sign, exponent and fraction as the 64 bits of the interchange format; none for a NaN. -/
def bits? : Binary64 → Option UInt64
  | .nan => none
  | .infinite negative => some (UInt64.ofNat (signBit negative + 2047 <<< 52))
  | .finite negative m k => some (UInt64.ofNat (signBit negative + k <<< 52 + m))
where
  signBit (negative : Bool) : Nat := if negative then 1 <<< 63 else 0

end Binary64

end SimRelay
