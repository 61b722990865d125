/-!
# Number/Rounding — quotients to the nearest whole number

`roundQuotient num den` is the whole number nearest to `num / den`, and of two equally near ones
the even one.
-/

namespace SimRelay

/-- The nearest whole number to a quotient; a half goes to the even neighbour. -/
def roundQuotient (num den : Nat) : Nat :=
  let q := num / den
  let r := num % den
  if 2 * r < den then q
  else if den < 2 * r then q + 1
  else if q % 2 = 0 then q
  else q + 1

/-- **The rounded quotient is at most half a unit away.** -/
theorem roundQuotient_near (num : Nat) {den : Nat} (h : 0 < den) :
    2 * num ≤ (2 * roundQuotient num den + 1) * den ∧
      2 * roundQuotient num den * den ≤ 2 * num + den := by
  have hmod := Nat.mod_lt num h
  have hdiv := Nat.div_add_mod num den
  have hcomm : den * (num / den) = num / den * den := Nat.mul_comm _ _
  unfold roundQuotient
  simp only
  split
  · constructor
    · rw [Nat.add_mul, Nat.mul_assoc]; omega
    · rw [Nat.mul_assoc]; omega
  · split
    · constructor
      · rw [Nat.add_mul, Nat.mul_assoc, Nat.add_mul]; omega
      · rw [Nat.mul_assoc, Nat.add_mul]; omega
    · split
      · constructor
        · rw [Nat.add_mul, Nat.mul_assoc]; omega
        · rw [Nat.mul_assoc]; omega
      · constructor
        · rw [Nat.add_mul, Nat.mul_assoc, Nat.add_mul]; omega
        · rw [Nat.mul_assoc, Nat.add_mul]; omega

/-- A quotient without remainder stays as it is. -/
theorem roundQuotient_mul (q : Nat) {den : Nat} (h : 0 < den) :
    roundQuotient (q * den) den = q := by
  simp [roundQuotient, Nat.mul_div_cancel q h, h]

end SimRelay
