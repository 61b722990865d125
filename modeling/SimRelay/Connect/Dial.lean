import SimRelay.Time.Instant

/-!
# Connect/Dial — trying to reach the daemon until the window closes

Attempts follow each other with a pause of one second, which the end of the window cuts short. An
attempt still under way at the end of the window is given up; one more is made exactly then if the
last pause was cut short. A dial ends with the first attempt that succeeds within the window, or at
the end of the window.
-/

namespace SimRelay.Dial

/-- The pause after a failed attempt. -/
def backoff : Duration := .ofSeconds 1

/-- How one attempt goes. -/
structure Attempt where
  /-- How long it takes; none if it never ends. -/
  takes : Option Duration
  succeeds : Bool

/-- How a dial went. -/
structure Course where
  ended : Instant
  reached : Bool
  /-- When each attempt began and when it ended, in order. -/
  attempts : List (Instant × Instant)

/-- When an attempt that begins now ends, if that is within the window. -/
def endOf (a : Attempt) (now deadline : Instant) : Option Instant :=
  a.takes.bind fun d =>
    let stop : Instant := ⟨now.nanos + d.nanos⟩
    if stop.nanos ≤ deadline.nanos then some stop else none

/-- A pause lasts, as long as some of the window is left. -/
theorem pause_pos {stop deadline : Instant} (h : stop.nanos < deadline.nanos) :
    0 < ((stop.timeTo deadline).min backoff).nanos := by
  refine Duration.nanos_min_pos (Duration.nanos_ofNanos_pos ?_) (by decide)
  omega

/-- What follows an attempt. -/
inductive Next
  /-- The daemon has been reached. -/
  | reached
  /-- The next attempt begins at this instant. -/
  | again (start : Instant)
  /-- The window has closed. -/
  | over
  deriving DecidableEq

/-- When an attempt that begins now is over, and what follows it. -/
def next (a : Attempt) (deadline now : Instant) : Instant × Next :=
  let ended := endOf a now deadline
  let stop := ended.getD deadline
  (stop,
    if ended.isSome ∧ a.succeeds then .reached
    else if now.nanos ≤ stop.nanos ∧ stop.nanos < deadline.nanos then
      .again ⟨stop.nanos + ((stop.timeTo deadline).min backoff).nanos⟩
    else .over)

/-- The next attempt begins later, and within the window. -/
theorem lt_of_next_again {a : Attempt} {deadline now stop start : Instant}
    (h : next a deadline now = (stop, .again start)) :
    now.nanos < start.nanos ∧ now.nanos < deadline.nanos := by
  unfold next at h
  simp only [Prod.mk.injEq] at h
  obtain ⟨rfl, h⟩ := h
  split at h
  · cases h
  · split at h
    · next hinside =>
      have hpause := pause_pos hinside.2
      cases h
      dsimp only
      omega
    · cases h

/-- The attempt that begins now and those after it. The outcome of an attempt may depend on its
number and on when it begins.

A count of the attempts in 32 bits that is kept for the log is left out. Nothing else reads it, and
it runs over only after 2^32 attempts a second apart, which take 136 years. -/
def attemptsFrom (attempt : Nat → Instant → Attempt) (deadline : Instant) (number : Nat)
    (now : Instant) : Course :=
  match _next : next (attempt number now) deadline now with
  | (stop, .reached) => ⟨stop, true, [(now, stop)]⟩
  | (stop, .over) => ⟨stop, false, [(now, stop)]⟩
  | (stop, .again start) =>
    let rest := attemptsFrom attempt deadline (number + 1) start
    { rest with attempts := (now, stop) :: rest.attempts }
termination_by (deadline.nanos - now.nanos).toNat
decreasing_by
  have := lt_of_next_again _next
  omega

/-- The end of the window of a dial that begins now; none if it cannot be represented. -/
def deadline? (window : Duration) (now : Instant) : Option Instant := now.after? window

/-- A dial that begins now; none if the end of its window cannot be represented. -/
def course? (attempt : Nat → Instant → Attempt) (window : Duration) (now : Instant) :
    Option Course :=
  (deadline? window now).map fun deadline => attemptsFrom attempt deadline 0 now

end SimRelay.Dial
