import Mathlib.Algebra.Order.Field.Basic
import Mathlib.Algebra.Order.Field.Rat
import Mathlib.Tactic.FieldSimp
import Mathlib.Tactic.Linarith
import SimRelay.Number.Binary64

/-!
# Proofs/Number/Precision — how far a double is from the quotient it stands for

`rounded num den` is the number of units of the double next to `num / den` units.  It is one part in
`2 ^ 53` away at most, unless the quotient is so small that the units themselves are too coarse
(`rounded_near`).

Below a power of two the doubles end with `2 ^ 53 - 1` steps of the binade's unit.  What is nearer
to that last one than to the power stays below it (`rounded_le_of_lt_midpoint`); the midpoint and
everything beyond it goes to the power, since its significand is even (`pow_le_rounded_of_midpoint`).
-/

namespace SimRelay

/-! ## The rounded quotient and its neighbours -/

theorem div_le_roundQuotient (num den : Nat) : num / den ≤ roundQuotient num den := by
  unfold roundQuotient
  simp only
  repeat' split
  all_goals omega

theorem roundQuotient_le_div_succ (num den : Nat) : roundQuotient num den ≤ num / den + 1 := by
  unfold roundQuotient
  simp only
  repeat' split
  all_goals omega

/-- Half a unit below an even number is still rounded to it. -/
theorem even_le_roundQuotient {q num den : Nat} (hden : 0 < den)
    (h : 4 * (q * den) ≤ 2 * num + den) : 2 * q ≤ roundQuotient num den := by
  have hmod := Nat.mod_lt num hden
  have hdiv : num / den * den + num % den = num := Nat.div_add_mod' num den
  obtain hbelow | habove := Nat.lt_or_ge (num / den) (2 * q)
  · have hneighbour : num / den + 1 = 2 * q := by
      by_contra hne
      have hfar : (num / den + 2) * den ≤ 2 * q * den := Nat.mul_le_mul_right den (by omega)
      rw [Nat.add_mul, Nat.mul_assoc] at hfar
      omega
    have hproduct : (num / den + 1) * den = 2 * q * den := congrArg (· * den) hneighbour
    rw [Nat.add_mul, Nat.mul_assoc] at hproduct
    unfold roundQuotient
    simp only
    repeat' split
    all_goals omega
  · exact Nat.le_trans habove (div_le_roundQuotient num den)

/-- As fractions, the quotient and the rounded quotient are half a unit apart at most. -/
theorem abs_roundQuotient_sub_le (num : Nat) {den : Nat} (h : 0 < den) :
    |(roundQuotient num den : ℚ) - num / den| ≤ 1 / 2 := by
  obtain ⟨hlow, hhigh⟩ := roundQuotient_near num h
  have hden : (0 : ℚ) < den := by exact_mod_cast h
  have hlow' : 2 * (num : ℚ) ≤ (2 * roundQuotient num den + 1) * den := by exact_mod_cast hlow
  have hhigh' : 2 * (roundQuotient num den : ℚ) * den ≤ 2 * num + den := by exact_mod_cast hhigh
  have hquotient : (num : ℚ) / den * den = num := div_mul_cancel₀ _ hden.ne'
  rw [abs_le]
  constructor
  · refine le_of_mul_le_mul_right ?_ hden
    linarith
  · refine le_of_mul_le_mul_right ?_ hden
    linarith

/-- A distance in another unit. -/
theorem abs_div_sub_div_le {x y bound unit : ℚ} (hunit : 0 < unit) (h : |x - y| ≤ bound) :
    |x / unit - y / unit| ≤ bound / unit := by
  rw [← sub_div, abs_div, abs_of_pos hunit]
  exact div_le_div_of_nonneg_right h hunit.le

/-- **Rounding two numbers and then their sum** costs two parts in `2 ^ 53`, the product of the two
parts aside. -/
theorem abs_rounded_sum_sub_le {x y x' y' sum : ℚ} (hx : 0 ≤ x) (hy : 0 ≤ y)
    (hx' : |x' - x| ≤ x / 2 ^ 53) (hy' : |y' - y| ≤ y / 2 ^ 53)
    (hsum : |sum - (x' + y')| ≤ (x' + y') / 2 ^ 53) :
    |sum - (x + y)| ≤ (x + y) * (2 / 2 ^ 53 + 1 / 2 ^ 106) := by
  rw [abs_le] at hx' hy' hsum ⊢
  constructor <;> linarith

namespace Binary64

/-! ## The unit -/

theorem exists_one_shiftLeft_eq (n : Nat) : ∃ u, u = n ∧ 1 <<< n = 2 ^ u :=
  ⟨n, rfl, Nat.one_shiftLeft n⟩

/-- How many units make one, as a power whose exponent stays a variable: written out, it would be
computed. -/
theorem exists_one_eq : ∃ u, u = 1074 ∧ one = 2 ^ u := exists_one_shiftLeft_eq 1074

theorem units_one_pos : 0 < one := by
  obtain ⟨u, -, hone⟩ := exists_one_eq
  rw [hone]
  exact Nat.two_pow_pos u

/-! ## The significand and its exponent -/

/-- How many units the double next to `num / den` units has, were there no largest one. -/
def rounded (num den : Nat) : Nat :=
  roundQuotient num (den <<< exponentOf num den) <<< exponentOf num den

theorem rounded_eq (num den : Nat) : rounded num den
    = roundQuotient num (den * 2 ^ exponentOf num den) * 2 ^ exponentOf num den := by
  rw [rounded, Nat.shiftLeft_eq, Nat.shiftLeft_eq]

theorem exponentOf_lt {num den p : Nat} (hp : 0 < p) (h : num / den < 2 ^ (p + 52)) :
    exponentOf num den < p := by
  have hlog : num / den ≠ 0 → Nat.log2 (num / den) < p + 52 := fun hne => (Nat.log2_lt hne).mpr h
  unfold exponentOf
  by_cases hzero : num / den = 0
  · rw [hzero]
    simpa using hp
  · have := hlog hzero
    omega

/-- **A quotient that is not too large is a double of `rounded` units**, whether or not its
significand has been carried to the next binade. -/
theorem ofUnits_eq {num den : Nat} (negative : Bool) (fits : exponentOf num den < maxExponent) :
    ∃ m k, ofUnits negative num den = .finite negative m k ∧ m <<< k = rounded num den := by
  unfold ofUnits rounded
  simp only
  split
  · next hcarry =>
    refine ⟨1 <<< 52, exponentOf num den + 1, if_neg (by omega), ?_⟩
    rw [hcarry, Nat.shiftLeft_eq, Nat.shiftLeft_eq, Nat.pow_succ]
    omega
  · exact ⟨_, _, if_neg (by omega), rfl⟩

/-- A quotient that has lost bits lies in the binade of its exponent. -/
theorem pow_le_div {num den : Nat} (h : 0 < exponentOf num den) :
    2 ^ (exponentOf num den + 52) ≤ num / den := by
  have hlog : exponentOf num den + 52 = Nat.log2 (num / den) := by
    unfold exponentOf at h ⊢
    omega
  rw [hlog]
  refine Nat.log2_self_le fun hzero => ?_
  rw [hzero] at hlog
  simp at hlog

/-- Half a step of its binade is all that the double next to a quotient can be away. -/
theorem abs_rounded_sub_le (num : Nat) {den : Nat} (h : 0 < den) :
    |(rounded num den : ℚ) - num / den| ≤ 2 ^ exponentOf num den / 2 := by
  have hstep : (0 : ℚ) < 2 ^ exponentOf num den := by positivity
  have hnear := abs_roundQuotient_sub_le num (Nat.mul_pos h (Nat.two_pow_pos (exponentOf num den)))
  have hscaled := mul_le_mul_of_nonneg_right hnear hstep.le
  rw [← abs_of_pos hstep, ← abs_mul, abs_of_pos hstep, sub_mul] at hscaled
  have hquotient : (num : ℚ) / (den * 2 ^ exponentOf num den : ℕ) * 2 ^ exponentOf num den
      = num / den := by
    push_cast
    field_simp
  rw [hquotient] at hscaled
  rw [rounded_eq]
  push_cast at hscaled ⊢
  linarith

/-- **The double next to a quotient is one part in `2 ^ 53` away at most**, if the units are fine
enough for it: it is a whole number of them, or as large as a significand. -/
theorem rounded_near {num den : Nat} (hden : 0 < den) (hnum : den ∣ num ∨ 2 ^ 52 * den ≤ num) :
    |(rounded num den : ℚ) - num / den| ≤ num / den / 2 ^ 53 := by
  by_cases hwhole : exponentOf num den = 0 ∧ den ∣ num
  · obtain ⟨hzero, q, rfl⟩ := hwhole
    rw [rounded_eq, hzero, Nat.pow_zero, Nat.mul_one, Nat.mul_one, Nat.mul_comm den q,
      roundQuotient_mul q hden, Nat.cast_mul,
      mul_div_cancel_right₀ _ (Nat.cast_ne_zero.mpr hden.ne'), sub_self, abs_zero]
    exact div_nonneg (Nat.cast_nonneg q) (by positivity)
  · have hlarge : 2 ^ (exponentOf num den + 52) * den ≤ num := by
      obtain hzero | hpos := Nat.eq_zero_or_pos (exponentOf num den)
      · rw [hzero, Nat.zero_add]
        exact hnum.resolve_left fun hdvd => hwhole ⟨hzero, hdvd⟩
      · exact (Nat.le_div_iff_mul_le hden).mp (pow_le_div hpos)
    have hlarge' : (2 : ℚ) ^ exponentOf num den * 2 ^ 52 ≤ num / den := by
      rw [le_div_iff₀ (by exact_mod_cast hden), ← pow_add]
      exact_mod_cast hlarge
    refine (abs_rounded_sub_le num hden).trans ?_
    linarith

/-! ## Powers of two and the last doubles below them -/

/-- **Rounding does not cross a power of two** upwards… -/
theorem rounded_le_pow {num den p : Nat} (h : num / den < 2 ^ p) : rounded num den ≤ 2 ^ p := by
  have hexponent : exponentOf num den ≤ p := by
    by_contra! hlt
    have hlarge : _ ≤ num / den := pow_le_div (Nat.zero_lt_of_lt hlt)
    have hpow : 2 ^ p ≤ 2 ^ (exponentOf num den + 52) :=
      Nat.pow_le_pow_right (by decide) (by omega)
    omega
  have hsplit : 2 ^ (p - exponentOf num den) * 2 ^ exponentOf num den = 2 ^ p := by
    rw [← Nat.pow_add, Nat.sub_add_cancel hexponent]
  have hbelow : num / den / 2 ^ exponentOf num den < 2 ^ (p - exponentOf num den) := by
    rw [Nat.div_lt_iff_lt_mul (Nat.two_pow_pos _), hsplit]
    exact h
  have hnext := roundQuotient_le_div_succ num (den * 2 ^ exponentOf num den)
  rw [← Nat.div_div_eq_div_mul] at hnext
  calc rounded num den
      = roundQuotient num (den * 2 ^ exponentOf num den) * 2 ^ exponentOf num den :=
        rounded_eq num den
    _ ≤ 2 ^ (p - exponentOf num den) * 2 ^ exponentOf num den :=
        Nat.mul_le_mul_right _ (Nat.le_trans hnext hbelow)
    _ = 2 ^ p := hsplit

/-- …or downwards. -/
theorem pow_le_rounded {num den p : Nat} (h : 2 ^ p ≤ num / den) : 2 ^ p ≤ rounded num den := by
  -- what lies beyond the significand's own power is told of that power instead
  obtain ⟨r, hpr, her, hr⟩ : ∃ r, p ≤ r ∧ exponentOf num den ≤ r ∧ 2 ^ r ≤ num / den := by
    obtain hlt | hle := Nat.lt_or_ge p (exponentOf num den)
    · exact ⟨_, by omega, Nat.le_add_right _ 52, pow_le_div (Nat.zero_lt_of_lt hlt)⟩
    · exact ⟨p, Nat.le_refl p, hle, h⟩
  have hsplit : 2 ^ (r - exponentOf num den) * 2 ^ exponentOf num den = 2 ^ r := by
    rw [← Nat.pow_add, Nat.sub_add_cancel her]
  have habove : 2 ^ (r - exponentOf num den) ≤ num / den / 2 ^ exponentOf num den := by
    rw [Nat.le_div_iff_mul_le (Nat.two_pow_pos _), hsplit]
    exact hr
  have hfloor := div_le_roundQuotient num (den * 2 ^ exponentOf num den)
  rw [← Nat.div_div_eq_div_mul] at hfloor
  calc 2 ^ p
      ≤ 2 ^ r := Nat.pow_le_pow_right (by decide) hpr
    _ = 2 ^ (r - exponentOf num den) * 2 ^ exponentOf num den := hsplit.symm
    _ ≤ roundQuotient num (den * 2 ^ exponentOf num den) * 2 ^ exponentOf num den :=
        Nat.mul_le_mul_right _ (Nat.le_trans habove hfloor)
    _ = rounded num den := (rounded_eq num den).symm

/-- The exponent of a number in the binade whose steps are `2 ^ k`. -/
theorem exponentOf_eq {num k : Nat} (hlow : 2 ^ 52 * 2 ^ k ≤ num) (hhigh : num < 2 ^ 53 * 2 ^ k) :
    exponentOf num 1 = k := by
  have hlog : Nat.log2 num = 52 + k := by
    refine (Nat.log2_eq_iff ?_).mpr ⟨?_, ?_⟩
    · have := Nat.two_pow_pos k
      omega
    · rwa [Nat.pow_add]
    · rwa [Nat.add_right_comm, Nat.pow_add]
  rw [exponentOf, Nat.div_one, hlog, Nat.add_sub_cancel_left]

/-- **What is nearer to the last double below a power of two than to the power stays below it.** -/
theorem rounded_le_of_lt_midpoint {num k : Nat} (h : 2 * num + 2 ^ k < 2 ^ 54 * 2 ^ k) :
    rounded num 1 + 2 ^ k ≤ 2 ^ 53 * 2 ^ k := by
  have hpos := Nat.two_pow_pos k
  obtain hsmall | hlarge := Nat.lt_or_ge num (2 ^ 52 * 2 ^ k)
  · have hle : rounded num 1 ≤ 2 ^ (52 + k) := rounded_le_pow (by rwa [Nat.div_one, Nat.pow_add])
    rw [Nat.pow_add] at hle
    omega
  · rw [rounded_eq, exponentOf_eq hlarge (by omega), Nat.one_mul]
    have hnear := (roundQuotient_near num hpos).2
    rw [Nat.mul_assoc] at hnear
    have hsignificand : roundQuotient num (2 ^ k) < 2 ^ 53 :=
      Nat.lt_of_mul_lt_mul_right (a := 2 ^ k) (by omega)
    rw [← Nat.succ_mul]
    exact Nat.mul_le_mul_right _ hsignificand

/-- **The midpoint goes to the power**, whose significand is even, and so does what is beyond. -/
theorem pow_le_rounded_of_midpoint {num k : Nat} (h : 2 ^ 54 * 2 ^ k ≤ 2 * num + 2 ^ k) :
    2 ^ 53 * 2 ^ k ≤ rounded num 1 := by
  have hpos := Nat.two_pow_pos k
  obtain hbelow | habove := Nat.lt_or_ge num (2 ^ 53 * 2 ^ k)
  · have hlarge : 2 ^ 52 * 2 ^ k ≤ num := by omega
    have heven : 2 * 2 ^ 52 ≤ roundQuotient num (2 ^ k) := even_le_roundQuotient hpos (by omega)
    rw [rounded_eq, exponentOf_eq hlarge hbelow, Nat.one_mul]
    exact Nat.mul_le_mul_right _ heven
  · rw [← Nat.pow_add] at habove ⊢
    exact pow_le_rounded (by rwa [Nat.div_one])

end Binary64

end SimRelay
