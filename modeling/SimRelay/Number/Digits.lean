/-!
# Number/Digits — the numbers that digits spell

Digits are joined in pairs, the pairs in fours and so on, so that even a long numeral costs no more
than a few long multiplications. `valueFromLow_eq` says that this is the usual value: each digit
counts as often as the base says for its place.
-/

namespace SimRelay.Digits

/-- Neighbours joined, the lowest digit first: two digits in `base` are one in its square. -/
def joinPairs (base : Nat) : List Nat → List Nat
  | low :: high :: rest => (low + base * high) :: joinPairs base rest
  | rest => rest

theorem length_joinPairs_le (base : Nat) (digits : List Nat) :
    (joinPairs base digits).length ≤ digits.length := by
  fun_induction joinPairs base digits with
  | case1 low high rest ih => simp only [List.length_cons]; omega
  | case2 => exact Nat.le_refl _

/-- The number with these digits, the lowest first. -/
def valueFromLow (base : Nat) : List Nat → Nat
  | [] => 0
  | [d] => d
  | low :: high :: rest => valueFromLow (base * base) ((low + base * high) :: joinPairs base rest)
termination_by digits => digits.length
decreasing_by
  have := length_joinPairs_le base rest
  simp only [List.length_cons]
  omega

theorem foldr_joinPairs (base : Nat) (digits : List Nat) :
    (joinPairs base digits).foldr (fun d n => d + base * base * n) 0 =
      digits.foldr (fun d n => d + base * n) 0 := by
  fun_induction joinPairs base digits with
  | case1 low high rest ih =>
    simp only [List.foldr_cons, ih]
    rw [Nat.mul_add, Nat.mul_assoc, Nat.add_assoc]
  | case2 rest h =>
    match rest with
    | [] => rfl
    | [d] => simp
    | low :: high :: rest => exact absurd rfl (h low high rest)

/-- **A digit counts `base` times what it would one place further down.** -/
theorem valueFromLow_eq (base : Nat) (digits : List Nat) :
    valueFromLow base digits = digits.foldr (fun d n => d + base * n) 0 := by
  fun_induction valueFromLow base digits with
  | case1 => rfl
  | case2 => simp
  | case3 base low high rest ih =>
    rw [ih, ← foldr_joinPairs base (low :: high :: rest)]
    rfl

/-- The number with these digits, the highest first. -/
def value (base : Nat) (digits : List Nat) : Nat := valueFromLow base digits.reverse

theorem value_append_digit (base : Nat) (digits : List Nat) (d : Nat) :
    value base (digits ++ [d]) = d + base * value base digits := by
  simp [value, valueFromLow_eq]

/-- The value of a digit in bases up to sixteen. -/
def ofChar (c : Char) : Nat :=
  if c.isDigit then c.toNat - '0'.toNat
  else if 'a' ≤ c then c.toNat - 'a'.toNat + 10
  else c.toNat - 'A'.toNat + 10

/-- The number that digits spell, the highest first. -/
def spelled (base : Nat) (digits : List Char) : Nat := value base (digits.map ofChar)

end SimRelay.Digits
