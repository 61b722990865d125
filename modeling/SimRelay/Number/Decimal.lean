import SimRelay.Number.Binary64
import SimRelay.Number.Digits

/-!
# Number/Decimal — decimal numerals and the doubles next to them

A numeral is a sign, digits and a power of ten. Its double is the nearest one, however long the
numeral is and however far its exponent reaches.
-/

namespace SimRelay

/-- Plus or minus `coefficient * 10 ^ exponent`. -/
structure Decimal where
  negative : Bool
  coefficient : Nat
  exponent : Int
  deriving DecidableEq, Repr

namespace Decimal

/-- The numeral with these digits before and after the point, and this exponent. -/
def ofDigits (negative : Bool) (whole fraction : List Char) (exponent : Int) : Decimal :=
  ⟨negative, Digits.spelled 10 (whole ++ fraction), exponent - fraction.length⟩

/-- Numerals above ten to this power are infinite; those below ten to minus this power are zero. -/
def range : Int := 400

/-- The nearest double. Numerals far out of range are settled without a power of ten. How many
digits a coefficient has follows roughly from its bits: ten of them make at least three digits, and
three of them less than one. -/
def toBinary64 (d : Decimal) : Binary64 :=
  if d.coefficient = 0 then .finite d.negative 0 0
  else
    let bits := Nat.log2 d.coefficient
    if range < (3 * (bits / 10) : Nat) + d.exponent then .infinite d.negative
    else if (bits / 3 + 1 : Nat) + d.exponent < -range then .finite d.negative 0 0
    else if 0 ≤ d.exponent then
      .ofRatio d.negative (d.coefficient * Nat.pow 10 d.exponent.toNat) 1
    else .ofRatio d.negative d.coefficient (Nat.pow 10 (-d.exponent).toNat)

end Decimal

end SimRelay
