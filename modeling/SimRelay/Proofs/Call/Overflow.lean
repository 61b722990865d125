import SimRelay.Connect.Dial
import SimRelay.Proofs.Call.Desk
import SimRelay.Settings.Basic

/-!
# Proofs/Call/Overflow — where a timeout reaches beyond the last instant

A deadline is an instant, and not every timeout leads to one.  Two places add a timeout to the clock
as it is: a dial before its first attempt, and a pull behind its request.  Both are lost exactly
when the sum lies beyond the last instant (`Dial.deadline?_eq_none_iff`, `Pull.step_overflows`).
Everybody else sets a timer, which is put off no further than it can be (`Instant.timer_le_last`):
pings, handshakes, and calls for deliveries that are pushed.

What a call can fail with is told of one step, then of any number of calls in flight: where
deliveries are pushed, no call pulls (`Desk.Pushed`).
-/

namespace SimRelay

/-! ## The clock -/

namespace Instant

variable {t : Instant} {d : Duration}

/-- **A sum that cannot be represented** lies beyond the last instant. -/
theorem after?_eq_none_iff : t.after? d = none ↔ last.nanos < t.nanos + d.nanos := by
  rw [after?]
  split
  · next hle => exact ⟨fun h => absurd h (Option.some_ne_none _), fun h => absurd hle (by omega)⟩
  · next hlt => exact ⟨fun _ => by omega, fun _ => rfl⟩

/-- **A timer goes off at an instant that can be represented**, however long it is set for, up to
thirty years before the last one. -/
theorem timer_le_last (h : t.nanos + farAway.nanos ≤ last.nanos) :
    (t.timer d).nanos ≤ last.nanos := by
  unfold timer after?
  split
  · next hle => exact hle
  · exact h

end Instant

theorem Dial.deadline?_eq_none_iff {window : Duration} {now : Instant} :
    deadline? window now = none ↔ Instant.last.nanos < now.nanos + window.nanos :=
  Instant.after?_eq_none_iff

/-- **A dial is lost** exactly when its window ends beyond the last instant. -/
theorem Dial.course?_eq_none_iff {attempt : Nat → Instant → Attempt} {window : Duration}
    {now : Instant} :
    course? attempt window now = none ↔ Instant.last.nanos < now.nanos + window.nanos := by
  rw [course?, Option.map_eq_none_iff, deadline?_eq_none_iff]

/-! ## Steps that have no deadline to lose -/

namespace Progress

variable {ε σ τ α β : Type}

/-- The step has not been lost to a deadline. -/
def Timely : Progress Failure σ α → Prop
  | .ends (.error .deadlineOverflow) => False
  | _ => True

theorem timely_iff {p : Progress Failure σ α} :
    p.Timely ↔ p ≠ .ends (.error .deadlineOverflow) := by
  constructor
  · rintro htimely rfl
    exact htimely
  · intro hne
    unfold Timely
    split
    · exact absurd rfl hne
    · trivial

theorem Timely.andThen {f : σ → τ} {next : α → Progress Failure τ β}
    {failed : ε → Progress Failure τ β} (hnext : ∀ a, (next a).Timely)
    (hfailed : ∀ e, (failed e).Timely) : ∀ p : Progress ε σ α, (p.andThen f next failed).Timely
  | .waits _ => trivial
  | .goes _ => trivial
  | .ends (.ok a) => hnext a
  | .ends (.error e) => hfailed e

end Progress

open Progress (Timely)

variable {s : Session} {b : Backend} {t : Turn}

/-- A ping is heard with a timer. -/
theorem Ping.step_timely (t : Turn) (timeout : Duration) (phase : Phase) (s : Session) :
    (step t timeout phase s).2.Timely := by
  have hanswer (begins : Bool) (deadline : Instant) :
      (hearAnswer t begins deadline s).2.Timely := by
    unfold hearAnswer
    split <;> trivial
  cases phase with
  | start =>
    rw [step]
    split <;> trivial
  | clearing =>
    rw [step]
    split <;> trivial
  | asking x => exact Timely.andThen (fun _ => by trivial) (fun _ => by trivial) _
  | asked => exact hanswer true _
  | listening deadline => exact hanswer false deadline

theorem Hand.step_timely (t : Turn) (h : Hand) (phase : Phase) (s : Session) (b : Backend) :
    (h.step t phase s b).2.2.Timely := by
  unfold step
  split
  · trivial
  · cases phase with
    | start =>
      dsimp only
      split
      · trivial
      · split <;> trivial
    | storing key =>
      dsimp only
      split
      · split <;> trivial
      · trivial
    | releasing key => trivial
    | saying x stored => exact Timely.andThen (fun _ => by trivial) (fun _ => by trivial) _

theorem Exit.step_timely (t : Turn) (phase : Phase) (s : Session) :
    (step t phase s).2.Timely := by
  cases phase with
  | start =>
    simp only [step]
    split
    · trivial
    · split <;> trivial
  | saying x => exact Timely.andThen (fun _ => by trivial) (fun _ => by trivial) _
  | closing c wrong =>
    refine Timely.andThen (fun _ => ?_) (fun e => e.elim) _
    cases wrong <;> trivial

/-- What a delivery still needs, it needs of the store. -/
theorem Intake.settle_timely (i : Intake) (s : Session) (m : Message) :
    (i.settle s m).Timely := by
  unfold settle
  split
  · trivial
  · split <;> trivial
  · split <;> trivial
  · trivial

theorem Intake.resolve_timely (m : Message) (key : String) (s : Session) (b : Backend) :
    (Progress.ends (resolve m key s b).2 : Progress Failure Phase (Option Delivery)).Timely := by
  unfold resolve
  split <;> split <;> trivial

theorem Intake.hearForwarded_timely (t : Turn) (i : Intake) (begins : Bool)
    (deadline : Option Instant) (s : Session) : (hearForwarded t i begins deadline s).2.Timely := by
  unfold hearForwarded
  split
  · dsimp only
    split
    · exact i.settle_timely _ _
    · trivial
  · trivial
  · trivial
  · trivial

/-! ## The one that adds its timeout to the clock -/

theorem Pull.hearAnswer_timely (t : Turn) (wanted : Wanted) (begins : Bool) (deadline : Instant)
    (s : Session) : (hearAnswer t wanted begins deadline s).2.Timely := by
  unfold hearAnswer
  split
  · split
    · trivial
    · split <;> trivial
  · trivial
  · trivial
  · trivial

/-- **A pull is lost** exactly when its request has been written and its deadline lies beyond the
last instant. -/
theorem Pull.step_overflows {wanted : Wanted} {timeout : Duration} {phase : Phase} :
    (step t wanted timeout phase s).2 = .ends (.error .deadlineOverflow) ↔
      ∃ x, phase = .asking x ∧ (s.say t .recv x).2 = .ends (.ok ()) ∧
        Instant.last.nanos < t.now.nanos + timeout.nanos := by
  constructor
  · intro hend
    cases phase with
    | draining =>
      rw [step] at hend
      split at hend
      · cases hend
      · cases hend
      · split at hend <;> cases hend
    | asking x =>
      obtain ⟨⟨⟩, hsaid, hafter⟩ | ⟨_, -, hafter⟩ := Progress.ends_of_andThen hend
      · refine ⟨x, rfl, hsaid, Instant.after?_eq_none_iff.mp ?_⟩
        split at hafter
        · cases hafter
        · next hnone => exact hnone
      · cases hafter
    | asked deadline =>
      exact absurd hend (Progress.timely_iff.mp (hearAnswer_timely t wanted true deadline s))
    | listening deadline =>
      exact absurd hend (Progress.timely_iff.mp (hearAnswer_timely t wanted false deadline s))
  · rintro ⟨x, rfl, hsaid, hbeyond⟩
    simp only [step, hsaid, Progress.andThen, Instant.after?_eq_none_iff.mpr hbeyond]

/-- **An intake is lost where its pull is.** -/
theorem Intake.step_overflows {i : Intake} {phase : Phase} :
    (i.step t phase s b).2.2 = .ends (.error .deadlineOverflow) ↔
      ∃ x, phase = .pulling (.asking x) ∧ (s.say t .recv x).2 = .ends (.ok ()) ∧
        Instant.last.nanos < t.now.nanos + (i.timeout.getD s.responseWindow).nanos := by
  constructor
  · intro hend
    cases phase with
    | start =>
      unfold step at hend
      dsimp only at hend
      split at hend
      · cases hend
      · split at hend
        · cases hend
        · split at hend <;> cases hend
    | pulling p =>
      obtain ⟨m?, -, hafter⟩ | ⟨e, hpull, hfailed⟩ := Progress.ends_of_andThen hend
      · cases m? with
        | none => cases hafter
        | some m => exact absurd hafter (Progress.timely_iff.mp (i.settle_timely _ m))
      · obtain rfl := Except.error.inj (Progress.ends.inj hfailed)
        obtain ⟨x, rfl, hsaid, hbeyond⟩ := Pull.step_overflows.mp hpull
        exact ⟨x, rfl, hsaid, hbeyond⟩
    | attending timeout =>
      exact absurd hend (Progress.timely_iff.mp (hearForwarded_timely t i true _ s))
    | waiting deadline =>
      exact absurd hend (Progress.timely_iff.mp (hearForwarded_timely t i false deadline s))
    | resolving m key =>
      exact absurd hend (Progress.timely_iff.mp (resolve_timely m key s b))
  · rintro ⟨x, rfl, hsaid, hbeyond⟩
    have hpull : (Pull.step t (i.wanted s) (i.timeout.getD s.responseWindow) (.asking x) s).2
        = .ends (.error .deadlineOverflow) := Pull.step_overflows.mpr ⟨x, rfl, hsaid, hbeyond⟩
    simp only [step, hpull, Progress.andThen]

/-- **No other call is lost**, and no intake but one that pulls. -/
theorem Call.step_overflows {c : Call} :
    (c.step t s b).2.2 = .ends (.error .deadlineOverflow) ↔
      ∃ i x, c = .intake i (.pulling (.asking x)) ∧ (s.say t .recv x).2 = .ends (.ok ()) ∧
        Instant.last.nanos < t.now.nanos + (i.timeout.getD s.responseWindow).nanos := by
  have hlift {σ α : Type} {f : σ → Call} {g : α → Reply} {p : Progress Failure σ α}
      (hend : lift f g p = .ends (.error .deadlineOverflow)) :
      p = .ends (.error .deadlineOverflow) := by
    obtain ⟨_, -, hafter⟩ | ⟨e, hp, hfailed⟩ := Progress.ends_of_andThen hend
    · cases hafter
    · obtain rfl := Except.error.inj (Progress.ends.inj hfailed)
      exact hp
  constructor
  · intro hend
    cases c with
    | ping timeout phase =>
      exact absurd (hlift hend) (Progress.timely_iff.mp (Ping.step_timely t _ phase s))
    | intake i phase =>
      obtain ⟨x, rfl, hsaid, hbeyond⟩ := Intake.step_overflows.mp (hlift hend)
      exact ⟨i, x, rfl, hsaid, hbeyond⟩
    | hand h phase =>
      exact absurd (hlift hend) (Progress.timely_iff.mp (h.step_timely t phase s b))
    | exit phase =>
      exact absurd (hlift hend) (Progress.timely_iff.mp (Exit.step_timely t phase s))
  · rintro ⟨i, x, rfl, hsaid, hbeyond⟩
    have hintake : (i.step t (.pulling (.asking x)) s b).2.2 = .ends (.error .deadlineOverflow) :=
      Intake.step_overflows.mpr ⟨x, rfl, hsaid, hbeyond⟩
    simp only [step, hintake, lift, Progress.andThen]

/-- **A step is not lost** if the clock can represent the deadline where a request is written. -/
theorem Call.step_timely {c : Call} (h : c.Timely t s) (b : Backend) :
    (c.step t s b).2.2.Timely := by
  refine Progress.timely_iff.mpr fun hend => ?_
  obtain ⟨i, x, rfl, hsaid, hbeyond⟩ := step_overflows.mp hend
  have hasks : (Call.intake i (.pulling (.asking x))).asks? t s
      = some (i.timeout.getD s.responseWindow) := by
    rw [asks?, hsaid]
    rfl
  have hnone := Instant.after?_eq_none_iff.mpr hbeyond
  exact absurd hnone (Option.isSome_iff_ne_none.mp (h _ hasks))

/-- **…and neither is a call**, over a whole history. -/
theorem Episode.run_timely {w : Episode} {es : List Call.Event} (hes : w.TimelyAll es)
    (hw : w.progress.Timely) : (w.run es).progress.Timely := by
  induction es generalizing w with
  | nil => exact hw
  | cons e es ih =>
    refine ih hes.2 ?_
    cases e with
    | stirs x => exact hw
    | turns now millis =>
      cases hcall : w.progress.state? with
      | none => exact (step_turns_of_ended hcall).symm ▸ hw
      | some c =>
        rw [step_turns hcall]
        exact c.step_timely (hes.1 c hcall) w.store

/-! ## Who pulls -/

/-- The intake asks the daemon for its delivery. -/
def Intake.Phase.pulls : Phase → Bool
  | .pulling _ => true
  | _ => false

theorem Intake.settle_pulls (i : Intake) (s : Session) (m : Message) :
    (i.settle s m).Leaves (·.pulls = false) := by
  unfold settle
  split
  · trivial
  · split
    · exact rfl
    · trivial
  · split
    · exact rfl
    · trivial
  · trivial

theorem Intake.hearForwarded_pulls (t : Turn) (i : Intake) (begins : Bool)
    (deadline : Option Instant) (s : Session) :
    (hearForwarded t i begins deadline s).2.Leaves (·.pulls = false) := by
  unfold hearForwarded
  split
  · dsimp only
    split
    · exact i.settle_pulls _ _
    · trivial
  · trivial
  · trivial
  · exact rfl

/-- **An intake comes to pull** only where the daemon waits to be asked. -/
theorem Intake.step_pulls (t : Turn) (i : Intake) (phase : Phase) (s : Session) (b : Backend) :
    (i.step t phase s b).2.2.Leaves fun next =>
      next.pulls → phase.pulls ∨ s.config.mode = .pull := by
  have hnever {p : Phase} (hp : p.pulls = false) (hpulls : p.pulls) :
      phase.pulls ∨ s.config.mode = .pull := absurd (hp.symm.trans hpulls) Bool.false_ne_true
  cases phase with
  | start =>
    unfold step
    dsimp only
    split
    · exact hnever rfl
    · split
      · trivial
      · split
        · next hmode => exact fun _ => .inr hmode
        · exact hnever rfl
  | pulling p => exact (Progress.leaves_true _).mono fun _ _ _ => .inl rfl
  | attending timeout => exact (hearForwarded_pulls t i true _ s).mono fun _ => hnever
  | waiting deadline => exact (hearForwarded_pulls t i false deadline s).mono fun _ => hnever
  | resolving m key => trivial

namespace Call

def pulls : Call → Bool
  | .intake _ phase => phase.pulls
  | _ => false

theorem step_pulls (t : Turn) (c : Call) (s : Session) (b : Backend) :
    (c.step t s b).2.2.Leaves fun next => next.pulls → c.pulls ∨ s.config.mode = .pull := by
  cases c with
  | intake i phase => exact leaves_lift (i.step_pulls t phase s b)
  | _ => exact leaves_lift ((Progress.leaves_true _).mono fun _ _ h => absurd h Bool.false_ne_true)

theorem pulls_of_isNew {c : Call} (h : c.isNew) : c.pulls = false := by
  unfold isNew at h
  split at h
  · rfl
  · rfl
  · rfl
  · rfl
  · exact absurd h Bool.false_ne_true

end Call

/-! ## What no step changes -/

/-- What the daemon has settled, and how long its answers are awaited. -/
def Session.limits (s : Session) : SessionConfig × Duration := (s.config, s.responseWindow)

theorem Session.limits_hear {s s' : Session} {t : Turn} {ch : Channel} {begins : Bool}
    {deadline : Option Instant} {heard : Heard} (h : s.hear t ch begins deadline = (heard, s')) :
    s'.limits = s.limits := by
  obtain ⟨-, _, hsession, -, -⟩ := s.hear_spec t ch begins deadline
  rw [h] at hsession
  obtain rfl : s' = _ := hsession
  rfl

theorem Session.limits_say (t : Turn) (ch : Channel) (x : Saying) (s : Session) :
    (s.say t ch x).1.limits = s.limits := by
  obtain ⟨_, hsession⟩ := s.say_spec t ch x
  rw [hsession]
  rfl

theorem Ping.limits_step (t : Turn) (timeout : Duration) (phase : Phase) (s : Session) :
    (step t timeout phase s).1.limits = s.limits := by
  have hanswer (begins : Bool) (deadline : Instant) :
      (hearAnswer t begins deadline s).1.limits = s.limits := by
    unfold hearAnswer
    split
    all_goals next h => exact Session.limits_hear h
  cases phase with
  | start =>
    rw [step]
    split <;> rfl
  | clearing =>
    rw [step]
    split
    all_goals next h => exact Session.limits_hear h
  | asking x => exact Session.limits_say t .ctrl x s
  | asked => exact hanswer true _
  | listening deadline => exact hanswer false deadline

theorem Hand.limits_step (t : Turn) (h : Hand) (phase : Phase) (s : Session) (b : Backend) :
    (h.step t phase s b).1.limits = s.limits := by
  unfold step
  split
  · rfl
  · cases phase with
    | start =>
      dsimp only
      split
      · rfl
      · split
        · next hnext =>
          obtain ⟨source, -, heq⟩ := Option.map_eq_some_iff.mp hnext
          obtain ⟨-, rfl⟩ := Prod.mk.inj heq
          rfl
        · rfl
        · rfl
    | storing key =>
      dsimp only
      split
      · split <;> rfl
      · rfl
    | releasing key => rfl
    | saying x stored => exact Session.limits_say t .send x s

theorem Exit.limits_step (t : Turn) (phase : Phase) (s : Session) :
    (step t phase s).1.limits = s.limits := by
  cases phase with
  | start =>
    simp only [step]
    split
    · rfl
    · split <;> rfl
  | saying x => exact Session.limits_say t .ctrl x s
  | closing c wrong => rfl

/-- **No step of a call changes the limits of its client.** -/
theorem Call.limits_step (t : Turn) (c : Call) (s : Session) (b : Backend) :
    (c.step t s b).1.limits = s.limits := by
  cases c with
  | ping timeout phase => exact Ping.limits_step t _ phase s
  | intake i phase =>
    obtain ⟨link, late, hsession⟩ := exists_late_of_step t i phase s b
    rw [hsession]
    rfl
  | hand h phase => exact h.limits_step t phase s b
  | exit phase => exact Exit.limits_step t phase s

/-! ## Any number of calls -/

namespace Desk

variable {w : Desk}

/-- The account of who pulls: nobody does unless the daemon waits to be asked. -/
structure Asks (s : Session) (w : Desk) : Prop where
  limits : w.session.limits = s.limits
  inFlight : ∀ p ∈ w.calls, p.2.pulls → s.config.mode = .pull

theorem Asks.start (s : Session) (b : Backend) : (start s b).Asks s where
  limits := rfl
  inFlight _ h := absurd h List.not_mem_nil

theorem Asks.turn (h : w.Asks s) {c : Call} (hc : (t.id, c) ∈ w.calls) :
    (w.turn t c).Asks s := by
  have hlimits : (w.turn t c).session.limits = w.session.limits :=
    Call.limits_step t c w.session w.store
  refine ⟨hlimits.trans h.limits, fun p hp hpulls => ?_⟩
  rw [calls_turn] at hp
  rcases List.mem_append.mp hp with hp | hp
  · obtain ⟨next, hnext, rfl⟩ := Option.map_eq_some_iff.mp (Option.mem_toList.mp hp)
    obtain hpulled | hmode :=
      (Call.step_pulls t c w.session w.store).of_state? hnext hpulls
    · exact h.inFlight _ hc hpulled
    · exact (congrArg (SessionConfig.mode ∘ Prod.fst) h.limits).symm.trans hmode
  · exact h.inFlight p (List.mem_of_mem_erase hp) hpulls

theorem Asks.step (h : w.Asks s) (e : Event) : (w.step e).Asks s := by
  cases e with
  | begins id c =>
    rw [Desk.step]
    split
    · next hbegins =>
      refine ⟨h.limits, List.forall_mem_cons.mpr ⟨fun hpulls => ?_, h.inFlight⟩⟩
      exact absurd ((Call.pulls_of_isNew hbegins.1).symm.trans hpulls) Bool.false_ne_true
    · exact h
  | turns t =>
    rw [Desk.step]
    cases hcall : w.calls.lookup t.id with
    | none => exact h
    | some c => exact h.turn (mem_of_lookup hcall)
  | drops id =>
    rw [Desk.step]
    cases hcall : w.calls.lookup id with
    | none => exact h
    | some c => exact ⟨h.limits, fun p hp => h.inFlight p (List.mem_of_mem_erase hp)⟩
  | stirs x => exact ⟨h.limits, h.inFlight⟩

theorem Asks.run (h : w.Asks s) (es : List Event) : (w.run es).Asks s := by
  induction es generalizing w with
  | nil => exact h
  | cons e es ih => exact ih (h.step e)

/-- **A timeout makes a client panic exactly where it is added to the clock and their sum lies
beyond the last instant**: a dial before its first attempt, and, with any calls in flight and
whatever goes on around them, a call that pulls when its request has been written.  A client to
which deliveries are pushed never panics, and no ping does: their timers go off at instants that
can be represented. -/
theorem overflows_iff (settings : Settings) (s : Session) (b : Backend) (es : List Event) :
    (∀ attempt now, Dial.course? attempt settings.connectWindow now = none ↔
      Instant.last.nanos < now.nanos + settings.connectWindow.nanos) ∧
    (let w := (start s b).run es
      ∀ t c, w.calls.lookup t.id = some c →
        ((c.step t w.session w.store).2.2 = .ends (.error .deadlineOverflow) ↔
          s.config.mode = .pull ∧ ∃ i x, c = .intake i (.pulling (.asking x)) ∧
            (w.session.say t .recv x).2 = .ends (.ok ()) ∧
            Instant.last.nanos
              < t.now.nanos + (i.timeout.getD s.responseWindow).nanos)) ∧
    ∀ (t : Instant) (d : Duration), t.nanos + Instant.farAway.nanos ≤ Instant.last.nanos →
      t.nanos ≤ (t.timer d).nanos ∧ (t.timer d).nanos ≤ Instant.last.nanos := by
  refine ⟨fun attempt now => Dial.course?_eq_none_iff, fun t c hcall => ?_,
    fun t d hfar => ⟨t.le_timer d, Instant.timer_le_last hfar⟩⟩
  have hasks : ((start s b).run es).Asks s := (Asks.start s b).run es
  have hwindow : ((start s b).run es).session.responseWindow = s.responseWindow :=
    congrArg Prod.snd hasks.limits
  rw [Call.step_overflows, hwindow]
  constructor
  · rintro ⟨i, x, rfl, hsaid, hbeyond⟩
    exact ⟨hasks.inFlight _ (mem_of_lookup hcall) rfl, i, x, rfl, hsaid, hbeyond⟩
  · exact fun h => h.2

/-- A call that may wait as long as it can be said has written its request. -/
theorem overflows_iff_asked :
    let s : Session :=
      { identifier := "z", role := .application, config := {}, keys := none,
        responseWindow := .ofSeconds 1, link := {} }
    let t : Turn := ⟨0, ⟨0⟩, 0⟩
    let i : Intake := .receive none (some .longest)
    let c : Call := .intake i (.pulling (.asking (.writing (.handed 0))))
    let es : List Event := [.begins 0 (.ofIntake i), .turns t, .turns t, .turns t, .turns t,
      .stirs (.writes .recv .flushes)]
    ((start s {}).run es).calls.lookup t.id = some c ∧
      (c.step t ((start s {}).run es).session ((start s {}).run es).store).2.2
        = .ends (.error .deadlineOverflow) := by
  intro s t i c es
  have hcall : ((start s {}).run es).calls.lookup t.id = some c := by decide +kernel
  have hasked : (((start s {}).run es).session.say t .recv (.writing (.handed 0))).2
      = .ends (.ok ()) := Progress.eq_ends_of_reply? (by decide +kernel)
  obtain ⟨-, hoverflows, -⟩ := overflows_iff {} s {} es
  exact ⟨hcall, (hoverflows t c hcall).mpr ⟨rfl, i, _, rfl, hasked, by decide +kernel⟩⟩

/-- A number of seconds that is a duration, for both timeouts: the dial is lost, and so is a call
that pulls, when it has asked.  With the same number a ping waits for its answer, and so does a call
for what is pushed. -/
theorem overflows_configured :
    let seconds : Binary64 := .ofNat 10000000000000000000
    let settings : Settings := { connectTimeout := seconds, responseTimeout := seconds }
    let s (mode : SystemMode) : Session :=
      { identifier := "z", role := .application, config := ⟨mode, none⟩, keys := none,
        responseWindow := settings.responseWindow, link := {} }
    let t : Turn := ⟨0, ⟨0⟩, 0⟩
    let asks (mode : SystemMode) (c : Call) (ch : Channel) : Desk :=
      (start (s mode) {}).run [.begins 0 c, .turns t, .turns t, .turns t, .turns t,
        .stirs (.writes ch .flushes)]
    let receive : Intake := .receive none none
    let receiving : Call := .intake receive (.pulling (.asking (.writing (.handed 0))))
    let pulls := asks .pull (.ofIntake receive) .recv
    let waits (w : Desk) : Desk := (w.step (.turns t)).step (.turns t)
    let pushed : Intake := .receive none (some settings.responseWindow)
    Duration.ofSeconds? seconds = some (.ofSeconds 10000000000000000000) ∧
      Dial.deadline? settings.connectWindow ⟨0⟩ = none ∧
      pulls.calls.lookup 0 = some receiving ∧
      (receiving.step t pulls.session pulls.store).2.2 = .ends (.error .deadlineOverflow) ∧
      (waits (asks .pull (.ofPing none) .ctrl)).calls.lookup 0
        = some (.ping none (.listening ⟨Instant.farAway.nanos⟩)) ∧
      (waits (asks .push (.ofIntake pushed) .recv)).calls.lookup 0
        = some (.intake pushed (.waiting (some ⟨Instant.farAway.nanos⟩))) := by
  intro seconds settings s t asks receive receiving pulls waits pushed
  have hasked : (pulls.session.say t .recv (.writing (.handed 0))).2 = .ends (.ok ()) :=
    Progress.eq_ends_of_reply? (by decide +kernel)
  exact ⟨by decide +kernel, by decide +kernel, by decide +kernel,
    Call.step_overflows.mpr ⟨receive, _, rfl, hasked, by decide +kernel⟩, by decide +kernel,
    by decide +kernel⟩

end Desk

end SimRelay
