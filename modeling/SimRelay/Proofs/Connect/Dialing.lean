import SimRelay.Rehearsal.World

/-!
# Proofs/Connect/Dialing — a dial ends with its window

`next_cases` says once what an attempt comes to: it reaches the daemon; or it has not, and another
one begins after a pause; or the window has closed.  From it, by induction along the attempts, comes
all that a dial does (`Course.Keeps`).  The measure is the time that is left: a pause takes a whole
second of it, or all of it.
-/

namespace SimRelay

theorem Duration.nanos_min (a b : Duration) : (a.min b).nanos = Min.min a.nanos b.nanos := by
  unfold Duration.min
  split
  · next h => exact (Nat.min_eq_left h).symm
  · next h => exact (Nat.min_eq_right (by omega)).symm

namespace Dial

variable {a : Attempt} {attempt : Nat → Instant → Attempt} {deadline now start stop : Instant}

/-! ## One attempt -/

/-- The attempt, made at `start`, succeeds at `stop`, within the window. -/
def Attempt.Reaches (a : Attempt) (deadline start stop : Instant) : Prop :=
  a.succeeds ∧ stop.nanos ≤ deadline.nanos ∧
    ∃ d, a.takes = some d ∧ stop.nanos = start.nanos + d.nanos

/-- When an attempt made at `start` is over: when it is done, or when the window closes. -/
def Attempt.overAt (a : Attempt) (deadline start : Instant) : Instant :=
  match a.takes with
  | some d => ⟨min (start.nanos + d.nanos) deadline.nanos⟩
  | none => deadline

theorem overAt_eq (a : Attempt) (deadline start : Instant) :
    a.overAt deadline start = (endOf a start deadline).getD deadline := by
  unfold Attempt.overAt endOf
  cases a.takes with
  | none => rfl
  | some d =>
    simp only [Option.bind_some]
    split
    · next h => exact congrArg Instant.mk (Int.min_eq_left h)
    · next h => exact congrArg Instant.mk (Int.min_eq_right (by omega))

theorem overAt_le : (a.overAt deadline start).nanos ≤ deadline.nanos := by
  unfold Attempt.overAt
  cases a.takes with
  | none => exact Int.le_refl _
  | some d => exact Int.min_le_right _ _

theorem le_overAt (h : start.nanos ≤ deadline.nanos) :
    start.nanos ≤ (a.overAt deadline start).nanos := by
  unfold Attempt.overAt
  cases a.takes with
  | none => exact h
  | some d => exact Int.le_min.mpr ⟨by omega, h⟩

/-- An attempt that reaches the daemon does so when it is over. -/
theorem Attempt.Reaches.endOf (h : a.Reaches deadline start stop) :
    endOf a start deadline = some stop := by
  obtain ⟨-, hle, d, htakes, hstop⟩ := h
  unfold Dial.endOf
  rw [htakes, Option.bind_some]
  dsimp only
  rw [← hstop, if_pos hle]

theorem reaches_of_endOf (hsucceeds : a.succeeds) (h : endOf a start deadline = some stop) :
    a.Reaches deadline start stop := by
  obtain ⟨d, htakes, hd⟩ := Option.bind_eq_some_iff.mp h
  dsimp only at hd
  split at hd
  · next hle =>
    cases hd
    exact ⟨hsucceeds, hle, d, htakes, rfl⟩
  · exact absurd hd.symm (Option.some_ne_none _)

/-- A pause lasts a second, or as long as the window is still open. -/
theorem pause_eq (h : stop.nanos ≤ deadline.nanos) :
    (((stop.timeTo deadline).min backoff).nanos : Int)
      = min (deadline.nanos - stop.nanos) Duration.perSecond := by
  have hbackoff : backoff.nanos = Duration.perSecond := by decide
  have hlong : Duration.perSecond < Duration.limit := by decide
  rw [Duration.nanos_min, hbackoff, Instant.timeTo, Duration.ofNanos]
  split
  · dsimp only
    omega
  · have hlongest : Duration.longest.nanos = Duration.limit - 1 := rfl
    rw [hlongest]
    omega

/-- What an attempt made at `start` comes to: when it is over, and what follows it. -/
inductive Attempt.Comes (a : Attempt) (deadline start : Instant) : Instant × Next → Prop
  | reached {stop : Instant} (h : a.Reaches deadline start stop) :
    a.Comes deadline start (stop, .reached)
  /-- The next attempt begins a second later, or when the window closes. -/
  | again {next : Instant} (fails : ∀ stop, ¬ a.Reaches deadline start stop)
    (isOpen : (a.overAt deadline start).nanos < deadline.nanos)
    (pause : next.nanos = (a.overAt deadline start).nanos
      + min (deadline.nanos - (a.overAt deadline start).nanos) Duration.perSecond) :
    a.Comes deadline start (a.overAt deadline start, .again next)
  | closed (fails : ∀ stop, ¬ a.Reaches deadline start stop)
    (isOver : a.overAt deadline start = deadline) : a.Comes deadline start (deadline, .over)

/-- **What one attempt comes to**, if it does not begin behind the deadline. -/
theorem next_comes (a : Attempt) (h : start.nanos ≤ deadline.nanos) :
    a.Comes deadline start (next a deadline start) := by
  unfold next
  dsimp only
  rw [← overAt_eq]
  have hle : (a.overAt deadline start).nanos ≤ deadline.nanos := overAt_le
  split
  · next hreached =>
    obtain ⟨stop, hstop⟩ := Option.isSome_iff_exists.mp hreached.1
    rw [overAt_eq, hstop]
    exact .reached (reaches_of_endOf hreached.2 hstop)
  · next hfails =>
    have hfails : ∀ stop, ¬ a.Reaches deadline start stop :=
      fun stop hreaches => hfails ⟨hreaches.endOf ▸ rfl, hreaches.1⟩
    split
    · next hinside =>
      exact .again hfails hinside.2 (congrArg ((a.overAt deadline start).nanos + ·) (pause_eq hle))
    · next hclosed =>
      have hbegun : start.nanos ≤ (a.overAt deadline start).nanos := le_overAt h
      have hover : a.overAt deadline start = deadline := congrArg Instant.mk
        (show (a.overAt deadline start).nanos = deadline.nanos by omega)
      rw [hover]
      exact .closed hfails hover

/-! ## A whole dial -/

/-- **All that a dial does** whose first attempt, of this number, begins at `start`. -/
structure Course.Keeps (attempt : Nat → Instant → Attempt) (deadline : Instant) (number : Nat)
    (start : Instant) (c : Course) : Prop where
  /-- The first attempt begins at once. -/
  first : c.attempts.head?.map Prod.fst = some start
  /-- No attempt begins behind the deadline, and each is over when it is done or the window has
  closed. -/
  timed : ∀ i begun ended, c.attempts[i]? = some (begun, ended) →
    begun.nanos ≤ deadline.nanos ∧ ended = (attempt (number + i) begun).overAt deadline begun
  /-- The next attempt begins a second after the last was over, or when the window closes. -/
  paused : ∀ i begun ended begun' ended', c.attempts[i]? = some (begun, ended) →
    c.attempts[i + 1]? = some (begun', ended') → ended.nanos < deadline.nanos ∧
      begun'.nanos = ended.nanos + min (deadline.nanos - ended.nanos) Duration.perSecond
  /-- No attempt before the last reaches the daemon, and none at all if the dial does not. -/
  failed : ∀ i begun ended, c.attempts[i]? = some (begun, ended) →
    (i + 1 < c.attempts.length ∨ c.reached = false) →
      ∀ stop, ¬ (attempt (number + i) begun).Reaches deadline begun stop
  /-- A dial that reaches the daemon ends when its last attempt does. -/
  reached : c.reached → ∃ i begun, i + 1 = c.attempts.length ∧
    c.attempts[i]? = some (begun, c.ended) ∧
      (attempt (number + i) begun).Reaches deadline begun c.ended
  /-- A dial that does not ends with its window. -/
  gaveUp : c.reached = false → c.ended = deadline
  /-- There is one attempt, and one more for every second that has begun. -/
  few : (c.attempts.length : Int)
    ≤ (deadline.nanos - start.nanos + Duration.perSecond - 1) / Duration.perSecond + 1

variable {number : Nat}

theorem getElem?_singleton_some {α : Type} {x y : α} {i : Nat} (h : [x][i]? = some y) :
    i = 0 ∧ y = x := by
  cases i with
  | zero => exact ⟨rfl, (Option.some.inj h).symm⟩
  | succ i => exact absurd h.symm (Option.some_ne_none y)

/-- A dial whose first attempt is its last. -/
theorem Course.Keeps.single {reached : Bool} (h : start.nanos ≤ deadline.nanos)
    (hover : stop = (attempt number start).overAt deadline start)
    (hreached : reached → (attempt number start).Reaches deadline start stop)
    (hfailed : reached = false →
      stop = deadline ∧ ∀ stop, ¬ (attempt number start).Reaches deadline start stop) :
    Keeps attempt deadline number start ⟨stop, reached, [(start, stop)]⟩ where
  first := rfl
  timed i begun ended hi := by
    obtain ⟨rfl, heq⟩ := getElem?_singleton_some hi
    cases heq
    exact ⟨h, hover⟩
  paused i begun ended begun' ended' hi hi' := by
    exact absurd (getElem?_singleton_some hi').1 (Nat.succ_ne_zero i)
  failed i begun ended hi hlast := by
    obtain ⟨rfl, heq⟩ := getElem?_singleton_some hi
    cases heq
    exact (hfailed (hlast.resolve_left (Nat.lt_irrefl 1))).2
  reached hr := ⟨0, start, rfl, rfl, hreached hr⟩
  gaveUp hr := (hfailed hr).1
  few := by
    rw [Duration.perSecond]
    dsimp only [List.length_singleton]
    omega

/-- A dial whose first attempt is followed by others. -/
theorem Course.Keeps.cons {rest : Course} {next : Instant}
    (hrest : rest.Keeps attempt deadline (number + 1) next) (h : start.nanos ≤ deadline.nanos)
    (hfails : ∀ stop, ¬ (attempt number start).Reaches deadline start stop)
    (hopen : ((attempt number start).overAt deadline start).nanos < deadline.nanos)
    (hpause : next.nanos = ((attempt number start).overAt deadline start).nanos
      + min (deadline.nanos - ((attempt number start).overAt deadline start).nanos)
        Duration.perSecond) :
    Keeps attempt deadline number start { rest with
      attempts := (start, (attempt number start).overAt deadline start) :: rest.attempts } where
  first := rfl
  timed i begun ended hi := by
    cases i with
    | zero =>
      cases hi
      exact ⟨h, rfl⟩
    | succ i =>
      rw [Nat.add_comm i, ← Nat.add_assoc]
      exact hrest.timed i begun ended hi
  paused i begun ended begun' ended' hi hi' := by
    cases i with
    | zero =>
      cases hi
      have hnext : rest.attempts.head? = some (begun', ended') := List.head?_eq_getElem?.trans hi'
      have hfirst := hrest.first
      rw [hnext] at hfirst
      cases hfirst
      exact ⟨hopen, hpause⟩
    | succ i => exact hrest.paused i begun ended begun' ended' hi hi'
  failed i begun ended hi hlast := by
    cases i with
    | zero =>
      cases hi
      exact hfails
    | succ i =>
      rw [Nat.add_comm i, ← Nat.add_assoc]
      exact hrest.failed i begun ended hi (hlast.imp_left Nat.lt_of_succ_lt_succ)
  reached hr := by
    obtain ⟨i, begun, hlength, hi, hreaches⟩ := hrest.reached hr
    refine ⟨i + 1, begun, congrArg (· + 1) hlength, hi, ?_⟩
    rwa [Nat.add_comm i, ← Nat.add_assoc]
  gaveUp := hrest.gaveUp
  few := by
    have hbegun : start.nanos ≤ ((attempt number start).overAt deadline start).nanos := le_overAt h
    have hfew := hrest.few
    rw [Duration.perSecond] at hpause hfew ⊢
    dsimp only [List.length_cons]
    omega

/-- **A dial keeps to its window**, from any attempt on. -/
theorem attemptsFrom_keeps (attempt : Nat → Instant → Attempt) (deadline : Instant) (number : Nat)
    (start : Instant) (h : start.nanos ≤ deadline.nanos) :
    (attemptsFrom attempt deadline number start).Keeps attempt deadline number start := by
  fun_induction attemptsFrom attempt deadline number start with
  | case1 number start stop hnext =>
    have hcomes := next_comes (attempt number start) h
    rw [hnext] at hcomes
    cases hcomes with
    | reached hreaches =>
      refine .single h ?_ (fun _ => hreaches) fun hr => ?_
      · rw [overAt_eq, hreaches.endOf, Option.getD_some]
      · exact absurd hr.symm Bool.false_ne_true
  | case2 number start stop hnext =>
    have hcomes := next_comes (attempt number start) h
    rw [hnext] at hcomes
    cases hcomes with
    | closed hfails hover =>
      exact .single h hover.symm (fun hr => absurd hr Bool.false_ne_true) fun _ => ⟨rfl, hfails⟩
  | case3 number start stop start' hnext rest ih =>
    have hcomes := next_comes (attempt number start) h
    rw [hnext] at hcomes
    cases hcomes with
    | again hfails hopen hpause =>
      exact .cons (ih (by omega)) h hfails hopen hpause

/-- **A dial ends with its window.**  Whatever its attempts come to, and however long they take, it
ends: with the first attempt that succeeds within the window, when that succeeds, or else when the
window closes.  It makes one attempt at once, each further one a second after the last was over or
when the window closes, whichever comes first, and no more than one and one more for every second
of the window that has begun. -/
theorem course_keeps {window : Duration} (attempt : Nat → Instant → Attempt)
    (h : deadline? window now = some deadline) :
    ∃ c, course? attempt window now = some c ∧ deadline.nanos = now.nanos + window.nanos ∧
      c.Keeps attempt deadline 0 now ∧
      c.attempts.length ≤ (window.nanos + Duration.perSecond - 1) / Duration.perSecond + 1 := by
  have hdeadline : deadline.nanos = now.nanos + window.nanos := by
    unfold deadline? Instant.after? at h
    split at h
    · cases h
      rfl
    · exact absurd h.symm (Option.some_ne_none deadline)
  have hkeeps := attemptsFrom_keeps attempt deadline 0 now (by omega)
  refine ⟨_, by rw [course?, h, Option.map_some], hdeadline, hkeeps, ?_⟩
  have hfew := hkeeps.few
  rw [Duration.perSecond] at hfew ⊢
  omega

/-- An attempt fails at once, the next after half a second, and no further one ever ends: the dial
gives up after two seconds and a fifth, to the nanosecond. -/
theorem course_keeps_failing :
    let attempt (i : Nat) (_ : Instant) : Attempt :=
      ⟨[some .zero, some (.ofMillis 500)][i]?.join, false⟩
    deadline? (.ofMillis 2200) ⟨0⟩ = some ⟨2200000000⟩ ∧
      ∃ c, course? attempt (.ofMillis 2200) ⟨0⟩ = some c ∧ c.reached = false ∧
        c.ended = ⟨2200000000⟩ ∧ c.attempts.length ≤ 4 := by
  intro attempt
  have hdeadline : deadline? (.ofMillis 2200) ⟨0⟩ = some ⟨2200000000⟩ := by decide
  obtain ⟨c, hcourse, -, hkeeps, hfew⟩ := course_keeps attempt hdeadline
  have hreached : c.reached = false := by
    refine eq_false_of_ne_true fun hr => ?_
    obtain ⟨i, begun, -, -, hreaches⟩ := hkeeps.reached hr
    exact absurd hreaches.1 Bool.false_ne_true
  exact ⟨hdeadline, c, hcourse, hreached, hkeeps.gaveUp hreached, hfew⟩

end Dial

/-! ## A client that dials

The clock of a world moves from one attempt to the next.  `W` is the world as a client finds it at
each instant. -/

namespace Rehearsal.World

open Dial

variable {W : Instant → World} {f : Flight} {o : ConnectOptions} {role : Role}
  {deadline start : Instant}

/-- Between two attempts a client that dials does nothing. -/
theorem fly_early {w : World} (hknown : (w.client? f.client).isSome)
    (hjob : f.job = .dialing o role deadline start) (h : w.now.nanos < start.nanos) :
    w.fly f = (w, f) := by
  obtain ⟨c, hc⟩ := Option.isSome_iff_exists.mp hknown
  have hearly : w.now.reached start = false := decide_eq_false (by omega)
  unfold fly
  simp only [hc, hjob, hearly]
  rfl

/-- What a client goes on with behind an attempt that comes to this. -/
def behind (o : ConnectOptions) (role : Role) (deadline : Instant) (told : Option Nat)
    (f : Flight) : Next → Flight
  | .again start => { f with job := .dialing o role deadline start }
  | .over =>
    { f with answer := some (.failure (.error (.connectTimeout o.address o.window)) told) }
  | .reached =>
    { f with job := .greeting o {
      identifier := o.identifier, role
      responseWindow := o.responseWindow, bringsStore := o.store.isSome } .start }

/-- An attempt of a client, when it is due. -/
theorem fly_dialing (o : ConnectOptions) (role : Role) (deadline : Instant) {w : World}
    (hknown : (w.client? f.client).isSome) :
    (w.fly { f with job := .dialing o role deadline w.now }).2
      = behind o role deadline (w.elapsed f) { f with job := .dialing o role deadline w.now }
        (next (w.attempt o.server f.began) deadline w.now).2 := by
  obtain ⟨c, hc⟩ := Option.isSome_iff_exists.mp hknown
  have hdue : w.now.reached w.now = true := decide_eq_true (Int.le_refl _)
  unfold fly
  simp only [hc, hdue, not_true, if_false]
  cases (next (w.attempt o.server f.began) deadline w.now).2 <;> rfl

/-- **A client that dials goes as the course says**, whose attempts are those that it makes in its
world: it greets the daemon if the course reaches it, and is told of the timeout else. -/
theorem flies_course (hclock : ∀ t, (W t).now = t)
    (hknown : ∀ t, ((W t).client? f.client).isSome) (number : Nat) :
    let course := attemptsFrom (fun _ t => (W t).attempt o.server f.began) deadline number start
    let landed := (course.attempts.map Prod.fst).foldl (fun f t => ((W t).fly f).2)
      { f with job := .dialing o role deadline start }
    ∃ begun told, landed = behind o role deadline told
      { f with job := .dialing o role deadline begun }
      (if course.reached then .reached else .over) := by
  have hfly (t : Instant) : ((W t).fly { f with job := .dialing o role deadline t }).2
      = behind o role deadline ((W t).elapsed f) { f with job := .dialing o role deadline t }
        (next ((W t).attempt o.server f.began) deadline t).2 := by
    have h := fly_dialing o role deadline (hknown t)
    rwa [hclock] at h
  fun_induction attemptsFrom (fun _ t => (W t).attempt o.server f.began) deadline number start with
  | case1 number start stop hnext =>
    have hlanded := hfly start
    rw [hnext] at hlanded
    exact ⟨start, _, hlanded⟩
  | case2 number start stop hnext =>
    have hlanded := hfly start
    rw [hnext] at hlanded
    exact ⟨start, _, hlanded⟩
  | case3 number start stop start' hnext rest ih =>
    have hgoes := hfly start
    rw [hnext] at hgoes
    dsimp only
    rw [List.map_cons, List.foldl_cons, hgoes]
    exact ih

end Rehearsal.World

end SimRelay
