import SimRelay.Time.Duration

/-!
# Time/Instant — points of time

An instant is a number of nanoseconds from a fixed origin. Its seconds have to fit in 64 signed
bits, so that not every duration can be added to every instant: `after?` says when it can.
-/

namespace SimRelay

structure Instant where
  nanos : Int
  deriving DecidableEq, Repr, Inhabited

namespace Instant

/-- The last instant that can be represented. -/
def last : Instant := ⟨(Int64.maxValue.toInt + 1) * Duration.perSecond - 1⟩

/-- The instant `d` later, if it can be represented. -/
def after? (t : Instant) (d : Duration) : Option Instant :=
  if t.nanos + d.nanos ≤ last.nanos then some ⟨t.nanos + d.nanos⟩ else none

/-- Thirty years: what stands for a delay that reaches beyond the last instant. -/
def farAway : Duration := .ofSeconds (30 * 365 * 86400)

/-- The instant at which a timer that is set now for `d` goes off. -/
def timer (t : Instant) (d : Duration) : Instant :=
  (t.after? d).getD ⟨t.nanos + farAway.nanos⟩

/-- `b` has come by the time `a`. -/
def reached (a b : Instant) : Bool := decide (b.nanos ≤ a.nanos)

/-- How long it is from `a` to `b`; nothing if `b` has come. -/
def timeTo (a b : Instant) : Duration := .ofNanos (b.nanos - a.nanos).toNat

/-! ## What comes before what -/

theorem reached_trans {a b c : Instant} (hab : a.reached b) (hbc : b.reached c) : a.reached c :=
  decide_eq_true (Int.le_trans (of_decide_eq_true hbc) (of_decide_eq_true hab))

theorem le_timer (t : Instant) (d : Duration) : t.nanos ≤ (t.timer d).nanos := by
  unfold timer after?
  split
  · exact Int.le_add_of_nonneg_right (Int.natCast_nonneg _)
  · exact Int.le_add_of_nonneg_right (Int.natCast_nonneg _)

end Instant

end SimRelay
