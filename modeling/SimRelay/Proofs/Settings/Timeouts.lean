import SimRelay.Proofs.Number.Precision
import SimRelay.Settings.Basic

/-!
# Proofs/Settings/Timeouts — which timeout is used when a duration is set

A duration is kept as seconds in double precision: its whole seconds and its fraction are rounded
apart, their sum is rounded again, and what comes back is rounded to a nanosecond (`roundTrip`).
Each of the first three roundings costs one part in `2 ^ 53`, and the last half a nanosecond
(`roundTrip_near`).  So a duration shorter than `2 ^ 51` nanoseconds comes back as it was, and a
longer one is off by one part in `2 ^ 51` at most.

The one thing that can be lost is the range.  From 1024 seconds below `2 ^ 64` on, the whole seconds
are rounded up to `2 ^ 64`, which is no duration (`limit_le_roundTrip`), and the setting falls back
to its default.  Every shorter duration stays in range (`roundTrip_lt_limit`).
-/

namespace SimRelay

open Binary64

namespace Duration

variable (d : Duration)

/-- Two durations of the same length are the same. -/
theorem ext {a b : Duration} (h : a.nanos = b.nanos) : a = b := by
  obtain ⟨_, _⟩ := a
  obtain ⟨_, _⟩ := b
  cases h
  rfl

/-! ## There and back -/

/-- How many units the double has that stands for the whole seconds. -/
def wholeUnits : Nat := rounded (d.nanos / perSecond * one) 1

/-- How many units the double has that stands for the rest of a second. -/
def restUnits : Nat := rounded (d.nanos % perSecond * one) perSecond

/-- How many units the double has that stands for the duration. -/
def secondUnits : Nat := rounded (d.wholeUnits + d.restUnits) 1

/-- How many nanoseconds come back. -/
def roundTrip : Nat := roundQuotient (d.secondUnits * perSecond) one

theorem perSecond_pos : 0 < perSecond := by decide

theorem wholeSeconds_lt : d.nanos / perSecond < 2 ^ 64 := by
  have h := d.nanos_lt
  rw [limit, Nat.mul_comm] at h
  exact Nat.div_lt_of_lt_mul h

theorem wholeUnits_le : d.wholeUnits ≤ 2 ^ 64 * one := by
  obtain ⟨u, -, hone⟩ := exists_one_eq
  rw [wholeUnits, hone, ← Nat.pow_add]
  refine rounded_le_pow ?_
  rw [Nat.div_one, Nat.pow_add]
  exact Nat.mul_lt_mul_of_pos_right d.wholeSeconds_lt (Nat.two_pow_pos u)

/-- The rest of a second is no more than one. -/
theorem restUnits_le : d.restUnits ≤ one := by
  obtain ⟨u, -, hone⟩ := exists_one_eq
  rw [restUnits, hone]
  refine rounded_le_pow ?_
  rw [Nat.div_lt_iff_lt_mul perSecond_pos, Nat.mul_comm]
  exact Nat.mul_lt_mul_of_pos_left (Nat.mod_lt _ perSecond_pos) (Nat.two_pow_pos u)

/-- No number of seconds that a duration has is too large for a double. -/
theorem exponentOf_lt_maxExponent {num den : Nat} (h : num / den ≤ 2 ^ 65 * one) :
    exponentOf num den < maxExponent := by
  obtain ⟨u, hu, hone⟩ := exists_one_eq
  rw [hone, ← Nat.pow_add] at h
  refine exponentOf_lt (by decide) (Nat.lt_of_le_of_lt h ?_)
  refine Nat.pow_lt_pow_right (by decide) ?_
  unfold maxExponent
  omega

/-- **What is kept is the double next to the sum of two.** -/
theorem toSeconds_eq : d.toSeconds = ofUnits false (d.wholeUnits + d.restUnits) 1 := by
  have hwhole : d.nanos / perSecond * one / 1 ≤ 2 ^ 65 * one := by
    rw [Nat.div_one]
    exact Nat.mul_le_mul_right _ (by have := d.wholeSeconds_lt; omega)
  have hrest : d.nanos % perSecond * one / perSecond ≤ 2 ^ 65 * one := by
    refine Nat.div_le_of_le_mul (Nat.mul_le_mul (Nat.mod_lt _ perSecond_pos).le ?_)
    exact Nat.le_mul_of_pos_left one (by decide)
  obtain ⟨m, k, hm, hmk⟩ := ofUnits_eq false (exponentOf_lt_maxExponent hwhole)
  obtain ⟨m', k', hm', hmk'⟩ := ofUnits_eq false (exponentOf_lt_maxExponent hrest)
  rw [toSeconds, ofNat, ofRatio, ofRatio, hm, hm']
  simp only [addMagnitudes, units?, hmk, hmk']
  rfl

/-- **What comes back**, if it is a duration at all. -/
theorem ofSeconds?_toSeconds : ofSeconds? d.toSeconds =
    if h : d.roundTrip < limit then some ⟨d.roundTrip, h⟩ else none := by
  have hsum : (d.wholeUnits + d.restUnits) / 1 ≤ 2 ^ 65 * one := by
    have := d.wholeUnits_le
    have := d.restUnits_le
    omega
  obtain ⟨m, k, hm, hmk⟩ := ofUnits_eq false (exponentOf_lt_maxExponent hsum)
  rw [toSeconds_eq, hm]
  simp only [ofSeconds?, hmk, Bool.false_eq_true, false_and, if_false]
  rfl

/-! ## How far it is -/

/-- A quotient in seconds, with nanoseconds as its finest part, is one part in `2 ^ 53` off. -/
theorem abs_rounded_div_one_sub_le (num : Nat) {den : Nat} (hden : 0 < den)
    (hle : den ≤ perSecond) :
    |(rounded (num * one) den : ℚ) / one - num / den| ≤ num / den / 2 ^ 53 := by
  have hone : (0 : ℚ) < one := by exact_mod_cast units_one_pos
  have hfine : den ∣ num * one ∨ 2 ^ 52 * den ≤ num * one := by
    obtain rfl | hnum := Nat.eq_zero_or_pos num
    · exact .inl (by rw [Nat.zero_mul]; exact Nat.dvd_zero den)
    · refine .inr ?_
      calc 2 ^ 52 * den ≤ 2 ^ 52 * perSecond := Nat.mul_le_mul_left _ hle
        _ ≤ 2 ^ 82 := by decide
        _ ≤ one := by
          obtain ⟨u, hu, hone⟩ := exists_one_eq
          rw [hone]
          exact Nat.pow_le_pow_right (by decide) (by omega)
        _ ≤ num * one := Nat.le_mul_of_pos_left one hnum
  have hnear := abs_div_sub_div_le hone (rounded_near hden hfine)
  have hscale : ((num * one : ℕ) : ℚ) / den / one = num / den := by
    push_cast
    field_simp
  rwa [hscale, div_right_comm, hscale] at hnear

/-- The double that is kept is two parts in `2 ^ 53` off, their product aside. -/
theorem secondUnits_near : |(d.secondUnits : ℚ) / one - d.nanos / perSecond|
    ≤ d.nanos / perSecond * (2 / 2 ^ 53 + 1 / 2 ^ 106) := by
  have hone : (0 : ℚ) < one := by exact_mod_cast units_one_pos
  have hwhole := abs_rounded_div_one_sub_le (d.nanos / perSecond) Nat.one_pos (by decide)
  have hrest := abs_rounded_div_one_sub_le (d.nanos % perSecond) perSecond_pos (Nat.le_refl _)
  have hrounded := rounded_near Nat.one_pos (.inl (Nat.one_dvd (d.wholeUnits + d.restUnits)))
  have hsum := abs_div_sub_div_le hone hrounded
  rw [Nat.cast_one, div_one, Nat.cast_add, div_right_comm, add_div] at hsum
  rw [Nat.cast_one, div_one] at hwhole
  have hparts : (d.nanos : ℚ) / perSecond
      = (d.nanos / perSecond : ℕ) + (d.nanos % perSecond : ℕ) / perSecond := by
    have hP : (perSecond : ℚ) ≠ 0 := Nat.cast_ne_zero.mpr perSecond_pos.ne'
    rw [eq_comm, ← mul_div_cancel_right₀ ((d.nanos / perSecond : ℕ) : ℚ) hP, ← add_div]
    exact_mod_cast congrArg (fun n : ℕ => (n : ℚ) / perSecond) (Nat.div_add_mod' d.nanos perSecond)
  rw [hparts]
  exact abs_rounded_sum_sub_le (Nat.cast_nonneg _)
    (div_nonneg (Nat.cast_nonneg _) (Nat.cast_nonneg _)) hwhole hrest hsum

/-- **There and back costs half a nanosecond more.** -/
theorem roundTrip_near : |(d.roundTrip : ℚ) - d.nanos|
    ≤ 1 / 2 + d.nanos * (2 / 2 ^ 53 + 1 / 2 ^ 106) := by
  have hP : (0 : ℚ) < perSecond := by exact_mod_cast perSecond_pos
  have hback : |(d.roundTrip : ℚ) - d.secondUnits / one * perSecond| ≤ 1 / 2 := by
    have h := abs_roundQuotient_sub_le (d.secondUnits * perSecond) units_one_pos
    rwa [Nat.cast_mul, mul_div_right_comm] at h
  have hkept : |(d.secondUnits : ℚ) / one * perSecond - d.nanos|
      ≤ d.nanos * (2 / 2 ^ 53 + 1 / 2 ^ 106) := by
    have h := mul_le_mul_of_nonneg_right d.secondUnits_near hP.le
    rwa [← abs_of_pos hP, ← abs_mul, abs_of_pos hP, sub_mul, mul_right_comm,
      div_mul_cancel₀ _ hP.ne'] at h
  exact (abs_sub_le _ _ _).trans (add_le_add hback hkept)

/-- …in whole numbers. -/
theorem roundTrip_between :
    2 ^ 106 * d.roundTrip ≤ 2 ^ 106 * d.nanos + (2 ^ 105 + d.nanos * (2 ^ 54 + 1)) ∧
      2 ^ 106 * d.nanos ≤ 2 ^ 106 * d.roundTrip + (2 ^ 105 + d.nanos * (2 ^ 54 + 1)) := by
  obtain ⟨hlow, hhigh⟩ := abs_le.mp d.roundTrip_near
  have habove : (2 : ℚ) ^ 106 * d.roundTrip
      ≤ 2 ^ 106 * d.nanos + (2 ^ 105 + d.nanos * (2 ^ 54 + 1)) := by linarith
  have hbelow : (2 : ℚ) ^ 106 * d.nanos
      ≤ 2 ^ 106 * d.roundTrip + (2 ^ 105 + d.nanos * (2 ^ 54 + 1)) := by linarith
  exact ⟨by exact_mod_cast habove, by exact_mod_cast hbelow⟩

/-- **A duration that is shorter than `2 ^ 51` nanoseconds comes back as it was…** -/
theorem roundTrip_eq (h : d.nanos < 2 ^ 51) : d.roundTrip = d.nanos := by
  obtain ⟨habove, hbelow⟩ := d.roundTrip_between
  omega

/-- `used` is `asked` up to a nanosecond, or up to one part in `2 ^ 51` if that is more. -/
def Near (used asked : Duration) : Prop :=
  |(used.nanos : ℚ) - asked.nanos| ≤ max (1 : ℚ) (asked.nanos / 2 ^ 51)

theorem near_iff {used asked : Duration} : used.Near asked ↔
    2 ^ 51 * used.nanos ≤ 2 ^ 51 * asked.nanos + max (2 ^ 51) asked.nanos ∧
      2 ^ 51 * asked.nanos ≤ 2 ^ 51 * used.nanos + max (2 ^ 51) asked.nanos := by
  have hbound : max (1 : ℚ) (asked.nanos / 2 ^ 51) * 2 ^ 51
      = ((max (2 ^ 51) asked.nanos : ℕ) : ℚ) := by
    rw [max_mul_of_nonneg _ _ (by norm_num), div_mul_cancel₀ _ (by norm_num), Nat.cast_max]
    norm_num
  unfold Near
  rw [abs_le]
  generalize max (1 : ℚ) (asked.nanos / 2 ^ 51) = bound at hbound ⊢
  generalize max (2 ^ 51) asked.nanos = scaled at hbound ⊢
  constructor
  · rintro ⟨hlow, hhigh⟩
    have habove : (2 : ℚ) ^ 51 * used.nanos ≤ 2 ^ 51 * asked.nanos + scaled := by linarith
    have hbelow : (2 : ℚ) ^ 51 * asked.nanos ≤ 2 ^ 51 * used.nanos + scaled := by linarith
    exact ⟨by exact_mod_cast habove, by exact_mod_cast hbelow⟩
  · rintro ⟨habove, hbelow⟩
    have habove' : (2 : ℚ) ^ 51 * used.nanos ≤ 2 ^ 51 * asked.nanos + scaled := by
      exact_mod_cast habove
    have hbelow' : (2 : ℚ) ^ 51 * asked.nanos ≤ 2 ^ 51 * used.nanos + scaled := by
      exact_mod_cast hbelow
    constructor <;> linarith

instance (used asked : Duration) : Decidable (used.Near asked) := decidable_of_iff _ near_iff.symm

/-- **…and a longer one is off by one part in `2 ^ 51` at most.** -/
theorem roundTrip_close (h : d.roundTrip < limit) : Near ⟨d.roundTrip, h⟩ d := by
  obtain hshort | hlong := Nat.lt_or_ge d.nanos (2 ^ 51)
  · rw [near_iff]
    dsimp only
    rw [d.roundTrip_eq hshort]
    omega
  · obtain ⟨habove, hbelow⟩ := d.roundTrip_between
    rw [near_iff]
    dsimp only
    omega

/-! ## Where the range ends -/

/-- `2 ^ 53` steps of `2 ^ 11` seconds reach up to what is no duration any more. -/
theorem exists_step_eq : ∃ k, 2 ^ k = 2 ^ 11 * one := by
  obtain ⟨u, -, hone⟩ := exists_one_eq
  exact ⟨11 + u, by rw [hone, Nat.pow_add]⟩

/-- From the midpoint on, both roundings of seconds end at `2 ^ 64` of them or beyond. -/
theorem limit_le_roundTrip (h : (2 ^ 64 - 1024) * perSecond ≤ d.nanos) : limit ≤ d.roundTrip := by
  obtain ⟨k, hk⟩ := exists_step_eq
  have hseconds : (2 ^ 64 - 1024) * one ≤ d.nanos / perSecond * one :=
    Nat.mul_le_mul_right one ((Nat.le_div_iff_mul_le perSecond_pos).mpr h)
  have hwhole : 2 ^ 53 * 2 ^ k ≤ d.wholeUnits := pow_le_rounded_of_midpoint (by omega)
  have hsum : 2 ^ 53 * 2 ^ k ≤ d.secondUnits := by
    rw [← Nat.pow_add] at hwhole ⊢
    refine pow_le_rounded ?_
    rw [Nat.div_one]
    exact Nat.le_trans hwhole (Nat.le_add_right _ _)
  have hback : limit ≤ d.secondUnits * perSecond / one := by
    rw [Nat.le_div_iff_mul_le units_one_pos]
    calc limit * one = 2 ^ 53 * 2 ^ k * perSecond := by
          rw [hk, limit, Nat.mul_right_comm, ← Nat.mul_assoc]
          rfl
      _ ≤ d.secondUnits * perSecond := Nat.mul_le_mul_right _ hsum
  exact Nat.le_trans hback (div_le_roundQuotient _ _)

/-- Before it, they end one step below. -/
theorem roundTrip_lt_limit (h : d.nanos < (2 ^ 64 - 1024) * perSecond) : d.roundTrip < limit := by
  obtain ⟨k, hk⟩ := exists_step_eq
  have hone := units_one_pos
  have hseconds : d.nanos / perSecond * one + one ≤ (2 ^ 64 - 1024) * one := by
    rw [← Nat.succ_mul]
    exact Nat.mul_le_mul_right one ((Nat.div_lt_iff_lt_mul perSecond_pos).mpr h)
  have hwhole : d.wholeUnits + 2 ^ k ≤ 2 ^ 53 * 2 ^ k := rounded_le_of_lt_midpoint (by omega)
  have hrest := d.restUnits_le
  have hsum : d.secondUnits + 2 ^ k ≤ 2 ^ 53 * 2 ^ k := rounded_le_of_lt_midpoint (by omega)
  have hback : d.secondUnits * perSecond / one ≤ (2 ^ 64 - 2 ^ 11) * perSecond := by
    refine Nat.div_le_of_le_mul ?_
    calc d.secondUnits * perSecond ≤ (2 ^ 64 - 2 ^ 11) * one * perSecond :=
          Nat.mul_le_mul_right _ (by omega)
      _ = one * ((2 ^ 64 - 2 ^ 11) * perSecond) := by rw [Nat.mul_comm _ one, Nat.mul_assoc]
  calc d.roundTrip ≤ d.secondUnits * perSecond / one + 1 := roundQuotient_le_div_succ _ _
    _ ≤ (2 ^ 64 - 2 ^ 11) * perSecond + 1 := Nat.succ_le_succ hback
    _ < limit := by decide

end Duration

/-! ## The timeout that is used -/

namespace Settings

open Duration

theorem connectWindow_withConnectTimeout (s : Settings) (d : Duration) :
    (s.withConnectTimeout d).connectWindow = secondsOr d.toSeconds 10 := by
  rw [connectWindow, withConnectTimeout]

theorem responseWindow_withResponseTimeout (s : Settings) (d : Duration) :
    (s.withResponseTimeout d).responseWindow = secondsOr d.toSeconds 600 := by
  rw [responseWindow, withResponseTimeout]

theorem secondsOr_of_lt {d : Duration} (h : d.roundTrip < limit) (fallback : Nat) :
    secondsOr d.toSeconds fallback = ⟨d.roundTrip, h⟩ := by
  rw [secondsOr, ofSeconds?_toSeconds, dif_pos h, Option.getD_some]

theorem secondsOr_of_le {d : Duration} (h : limit ≤ d.roundTrip) (fallback : Nat) :
    secondsOr d.toSeconds fallback = .ofSeconds fallback := by
  rw [secondsOr, ofSeconds?_toSeconds, dif_neg (Nat.not_lt.mpr h), Option.getD_none]

/-- **A timeout that is set is the timeout used**, as long as it ends 1024 seconds below `2 ^ 64`:
to the nanosecond if it is shorter than `2 ^ 51` of them, and up to one part in `2 ^ 51` if it is
longer.  **A longer timeout is lost**: either setting falls back to its default. -/
theorem timeout_used (s : Settings) (d : Duration) :
    (d.nanos < (2 ^ 64 - 1024) * perSecond →
      ∃ used, ofSeconds? d.toSeconds = some used ∧
        (s.withConnectTimeout d).connectWindow = used ∧
        (s.withResponseTimeout d).responseWindow = used ∧
        used.Near d ∧ (d.nanos < 2 ^ 51 → used = d)) ∧
    ((2 ^ 64 - 1024) * perSecond ≤ d.nanos →
      ofSeconds? d.toSeconds = none ∧
        (s.withConnectTimeout d).connectWindow = .ofSeconds 10 ∧
        (s.withResponseTimeout d).responseWindow = .ofSeconds 600) := by
  rw [connectWindow_withConnectTimeout, responseWindow_withResponseTimeout]
  constructor
  · intro hrange
    have hlt := d.roundTrip_lt_limit hrange
    refine ⟨⟨d.roundTrip, hlt⟩, ?_, secondsOr_of_lt hlt 10, secondsOr_of_lt hlt 600,
      d.roundTrip_close hlt, fun hshort => Duration.ext (d.roundTrip_eq hshort)⟩
    rw [ofSeconds?_toSeconds, dif_pos hlt]
  · intro hrange
    have hle := d.limit_le_roundTrip hrange
    refine ⟨?_, secondsOr_of_le hle 10, secondsOr_of_le hle 600⟩
    rw [ofSeconds?_toSeconds, dif_neg (Nat.not_lt.mpr hle)]

/-- One and a half seconds stay what they are. -/
theorem timeout_used_fractional :
    (Duration.ofMillis 1500).nanos < (2 ^ 64 - 1024) * perSecond ∧
      (({} : Settings).withConnectTimeout (.ofMillis 1500)).connectWindow = .ofMillis 1500 := by
  have hrange : (Duration.ofMillis 1500).nanos < (2 ^ 64 - 1024) * perSecond := by decide
  obtain ⟨used, -, hconnect, -, -, hexact⟩ :=
    (timeout_used {} (Duration.ofMillis 1500)).1 hrange
  exact ⟨hrange, hconnect.trans (hexact (by decide))⟩

/-- The longest duration is not near to the timeout that is used: that is the default. -/
theorem timeout_longest_lost :
    (({} : Settings).withConnectTimeout .longest).connectWindow = .ofSeconds 10 ∧
      ¬ (({} : Settings).withConnectTimeout .longest).connectWindow.Near .longest ∧
      (({} : Settings).withResponseTimeout .longest).responseWindow = .ofSeconds 600 ∧
      ¬ (({} : Settings).withResponseTimeout .longest).responseWindow.Near .longest := by
  have hle : limit ≤ Duration.longest.roundTrip := limit_le_roundTrip _ (by decide)
  rw [connectWindow_withConnectTimeout, responseWindow_withResponseTimeout, secondsOr_of_le hle,
    secondsOr_of_le hle]
  exact ⟨rfl, by decide +kernel, rfl, by decide +kernel⟩

end Settings

end SimRelay
