import Mathlib.Data.List.Induction
import SimRelay.Proofs.Call.Lines

/-!
# Proofs/Call/Departures — an exit that is heard out brings the channels down

Of all exits one leaves: it finds the client open, marks it closed, says so and closes the link.
Any other reports success at once.  As long as the exit that leaves is not dropped, it is in flight
or the link is shut (`Desk.Attended`); so when any exit has returned and nobody is leaving any more,
the channels are down (`Desk.down_of_exit`).  Whoever awaits a delivery is then turned away
(`Call.step_hears`), and the streams end.

The exit closes the link behind those who stand in the readers' lines.  These are turned away while
it waits (`Call.turnedAway_of_line`) and nobody else gets in line, so that it waits for each of them
once at most (`Desk.Empties`).

An exit that is dropped while its message is being written leaves nobody behind to close the link:
every later exit reports success, and the channels stay open for good (`Desk.stranded_for_good`).
-/

namespace SimRelay

/-- Closing has begun, whatever step of it is taken. -/
theorem Link.closing_close {k : Link.Closing} {l : Link} (h : k.Stands l) (id : CallId) :
    (l.close id k).1.closing := by
  cases k with
  | start => rw [close_start h]
  | releasing chs =>
    cases chs with
    | nil => exact h.1
    | cons ch rest =>
      dsimp only [close]
      split
      · rw [closing_setInbox, closing_setOutbox]
        exact h.1
      · rw [closing_setInbox, closing_setOutbox]
        exact h.1

/-! ## Turned away while waiting -/

/-- The call waits to hear a delivery. -/
def Intake.Phase.hears : Intake.Phase → Bool
  | .pulling .draining => true
  | .pulling (.asked _) => true
  | .pulling (.listening _) => true
  | .attending _ => true
  | .waiting _ => true
  | _ => false

/-- …or asks for one first. -/
def Intake.Phase.awaits : Intake.Phase → Bool
  | .pulling (.asking _) => true
  | phase => phase.hears

/-- A client or a link that is closed lets nobody hear anything. -/
theorem Session.hear_down {s : Session} (hclosed : s.closed) (hlink : s.link.closing) (t : Turn)
    (ch : Channel) (begins : Bool) (deadline : Option Instant) :
    ∃ e s', s.hear t ch begins deadline = (.failure e, s') ∧ (e = .closed ∨ e = .link .closed) := by
  cases begins with
  | true => exact ⟨.closed, s, hear_closed hclosed t ch deadline, .inl rfl⟩
  | false =>
    have hread (expired : Bool) : (s.link.read t.id expired ch).1 = .failure .closed := by
      rw [Link.read, if_pos hlink]
    refine ⟨.link .closed, { s with link :=
      (s.link.read t.id (deadline.any fun d => t.now.reached d) ch).2 }, ?_, .inr rfl⟩
    unfold hear
    rw [if_neg fun h => absurd h.1 Bool.false_ne_true]
    dsimp only
    rw [hread]

namespace Call

variable {s : Session} {c : Call} {t : Turn}

/-- The call ends with the error that the client or its channel is closed. -/
def EndsClosed (p : Progress Failure Call Reply) : Prop :=
  p = .ends (.error (.error .closed)) ∨ p = .ends (.error (.error (.link .closed)))

theorem endsClosed_of_error {e : ClientError} (h : e = .closed ∨ e = .link .closed) :
    EndsClosed (.ends (.error (.error e))) := by
  rcases h with rfl | rfl
  · exact .inl rfl
  · exact .inr rfl

/-- **Whoever waits to hear a delivery when the channels are down** hears that they are closed. -/
theorem step_hears (hclosed : s.closed) (hlink : s.link.closing) {phase : Intake.Phase}
    (h : phase.hears) (t : Turn) (i : Intake) (b : Backend) :
    EndsClosed ((Call.intake i phase).step t s b).2.2 := by
  have hdown := Session.hear_down hclosed hlink t .recv
  cases phase with
  | start => exact absurd h Bool.false_ne_true
  | resolving m key => exact absurd h Bool.false_ne_true
  | attending timeout =>
    obtain ⟨e, s', hhear, he⟩ := hdown true (timeout.map t.now.timer)
    simp only [step, Intake.step, Intake.hearForwarded, hhear]
    exact endsClosed_of_error he
  | waiting deadline =>
    obtain ⟨e, s', hhear, he⟩ := hdown false deadline
    simp only [step, Intake.step, Intake.hearForwarded, hhear]
    exact endsClosed_of_error he
  | pulling p =>
    cases p with
    | asking x => exact absurd h Bool.false_ne_true
    | draining =>
      obtain ⟨e, s', hhear, he⟩ := hdown true (some t.now)
      simp only [step, Intake.step, Pull.step, hhear]
      exact endsClosed_of_error he
    | asked deadline =>
      obtain ⟨e, s', hhear, he⟩ := hdown true (some deadline)
      simp only [step, Intake.step, Pull.step, Pull.hearAnswer, hhear]
      exact endsClosed_of_error he
    | listening deadline =>
      obtain ⟨e, s', hhear, he⟩ := hdown false (some deadline)
      simp only [step, Intake.step, Pull.step, Pull.hearAnswer, hhear]
      exact endsClosed_of_error he

/-- **…and whoever asks for one first** goes on to be turned away, or fails with the asking. -/
theorem step_asks (x : Session.Saying) (t : Turn) (i : Intake) (s : Session) (b : Backend) :
    ((Call.intake i (.pulling (.asking x))).step t s b).2.2.Leaves
        (fun c => ∃ phase, c = .intake i phase ∧ phase.awaits) ∧
      ((Call.intake i (.pulling (.asking x))).step t s b).2.2.reply? = none := by
  simp only [step, Intake.step, Pull.step, lift, andThen_andThen]
  generalize (s.say t .recv x).2 = q
  cases q with
  | waits y => exact ⟨⟨_, rfl, rfl⟩, rfl⟩
  | goes y => exact ⟨⟨_, rfl, rfl⟩, rfl⟩
  | ends r =>
    cases r with
    | error e => exact ⟨trivial, rfl⟩
    | ok u =>
      cases t.now.after? (i.timeout.getD s.responseWindow) with
      | some deadline => exact ⟨⟨_, rfl, rfl⟩, rfl⟩
      | none => exact ⟨trivial, rfl⟩

/-- **So nobody who awaits a delivery gets one.** -/
theorem step_awaits (hclosed : s.closed) (hlink : s.link.closing) {phase : Intake.Phase}
    (h : phase.awaits) (t : Turn) (i : Intake) (b : Backend) :
    (phase.hears → EndsClosed ((Call.intake i phase).step t s b).2.2) ∧
      ((Call.intake i phase).step t s b).2.2.Leaves
        (fun c => ∃ phase, c = .intake i phase ∧ phase.awaits) ∧
      ((Call.intake i phase).step t s b).2.2.reply? = none := by
  cases hhears : phase.hears with
  | true =>
    have hends := step_hears hclosed hlink hhears t i b
    refine ⟨fun _ => hends, ?_⟩
    rcases hends with hend | hend
    · exact hend ▸ ⟨trivial, rfl⟩
    · exact hend ▸ ⟨trivial, rfl⟩
  | false =>
    obtain ⟨x, rfl⟩ : ∃ x, phase = .pulling (.asking x) := by
      unfold Intake.Phase.awaits at h
      split at h
      · next x => exact ⟨x, rfl⟩
      · exact absurd (hhears.symm.trans h) Bool.false_ne_true
    exact ⟨fun hnot => absurd hnot Bool.false_ne_true, step_asks x t i s b⟩

/-! ## Turned away in line -/

/-- A ping that listens for its answer finds nobody when client and link are closed. -/
theorem hearAnswer_down (hclosed : s.closed) (hlink : s.link.closing) (t : Turn) (begins : Bool)
    (deadline : Instant) :
    (Ping.hearAnswer t begins deadline s).2 = .ends (.ok .unreachable) := by
  obtain ⟨e, s', hhear, -⟩ := Session.hear_down hclosed hlink t .ctrl begins (some deadline)
  rw [Ping.hearAnswer, hhear]

/-- A ping gets in no line when client and link are closed. -/
theorem ping_leaves_line (hclosed : s.closed) (hlink : s.link.closing) (t : Turn)
    (timeout : Duration) (phase : Ping.Phase) :
    (Ping.step t timeout phase s).2.Leaves fun phase => phase.line? = none := by
  have hdown := hearAnswer_down hclosed hlink t
  cases phase with
  | start =>
    rw [Ping.step, if_pos hclosed]
    exact trivial
  | clearing =>
    obtain ⟨e, s', hhear, -⟩ := Session.hear_down hclosed hlink t .ctrl true (some t.now)
    simp only [Ping.step, hhear]
    exact trivial
  | asking x =>
    exact (Progress.leaves_true _).andThen (fun _ _ => rfl) (fun _ => rfl) fun _ => trivial
  | asked =>
    rw [Ping.step, hdown]
    exact trivial
  | listening deadline =>
    rw [Ping.step, hdown]
    exact trivial

/-- …nor does an intake. -/
theorem intake_leaves_line (hclosed : s.closed) (hlink : s.link.closing) (t : Turn) (i : Intake)
    (phase : Intake.Phase) (b : Backend) :
    ((Call.intake i phase).step t s b).2.2.Leaves fun c => c.line? = none := by
  cases hhears : phase.hears with
  | true =>
    rcases step_hears hclosed hlink hhears t i b with hend | hend
    · exact hend ▸ trivial
    · exact hend ▸ trivial
  | false =>
    cases phase with
    | start =>
      cases i with
      | listen wantPayload => exact rfl
      | receive destination timeout =>
        simp only [step, Intake.step, hclosed, if_true]
        exact trivial
      | fetch source timeout wantPayload =>
        simp only [step, Intake.step, hclosed, if_true]
        exact trivial
    | resolving m key => exact leaves_lift (p := .ends _) trivial
    | pulling p =>
      cases p with
      | asking x =>
        simp only [step, Intake.step, Pull.step, lift, andThen_andThen]
        refine (Progress.leaves_true _).andThen (fun _ _ => rfl) (fun _ => ?_) fun _ => trivial
        split
        · exact rfl
        · exact trivial
      | _ => exact absurd hhears Bool.true_eq_false.mp
    | _ => exact absurd hhears Bool.true_eq_false.mp

/-- **…and nobody else gets in line.** -/
theorem leaves_no_line (hclosed : s.closed) (hlink : s.link.closing) (hstays : c.departs = false)
    (t : Turn) (b : Backend) : (c.step t s b).2.2.Leaves fun c => c.line? = none := by
  cases c with
  | ping timeout phase => exact leaves_lift (ping_leaves_line hclosed hlink t _ phase)
  | intake i phase => exact intake_leaves_line hclosed hlink t i phase b
  | hand x phase => exact leaves_lift ((Progress.leaves_true _).mono fun _ _ => rfl)
  | exit phase =>
    obtain rfl := start_of_still hstays
    simp only [step, Exit.step, hclosed, if_true]
    exact trivial

/-! ## Who leaves -/

/-- The exit that leaves goes on leaving. -/
theorem departs_on (t : Turn) (h : c.departs) (s : Session) (b : Backend) :
    (c.step t s b).2.2.Leaves fun c => c.departs := by
  cases c with
  | exit phase =>
    cases phase with
    | start => exact absurd h Bool.false_ne_true
    | saying x =>
      refine leaves_lift ?_
      exact (Progress.leaves_true _).andThen (fun _ _ => rfl) (fun _ => rfl) fun _ => rfl
    | closing k wrong =>
      refine leaves_lift ?_
      exact (Progress.leaves_true _).andThen (fun _ _ => rfl) (fun _ => trivial) fun e => e.elim
  | _ => exact absurd h Bool.false_ne_true

/-- **Nobody closes a client but the exit that leaves it.** -/
theorem departs_of_closes (t : Turn) (h : c.Voices s) (hopen : s.closed = false) (b : Backend)
    (hclosed : (c.step t s b).1.closed) :
    ∃ next, (c.step t s b).2.2.state? = some next ∧ next.departs := by
  have hsame (heq : (c.step t s b).1.closed = s.closed) : False :=
    absurd (hclosed.symm.trans (heq.trans hopen)) Bool.true_eq_false.mp
  cases c with
  | ping timeout phase =>
    exact (hsame (Ping.step_asked t (timeout.getD s.responseWindow) h).alike.closed).elim
  | intake i phase => exact (hsame (Intake.step_said t h b).alike.closed).elim
  | hand x phase => exact (hsame (Hand.step_said t h b).closed).elim
  | exit phase =>
    cases phase with
    | start =>
      simp only [step, Exit.step, hopen, Bool.false_eq_true, if_false]
      cases (Message.exit s.originator).encode with
      | error e => exact ⟨_, rfl, rfl⟩
      | ok body => exact ⟨_, rfl, rfl⟩
    | saying x => exact absurd (h.1.symm.trans hopen) Bool.true_eq_false.mp
    | closing k wrong =>
      exact absurd ((show s.closed = true from h).symm.trans hopen) Bool.true_eq_false.mp

end Call

/-! ## Heard out -/

namespace Desk

variable {w : Desk} {id : CallId} {c : Call} {role : Role} {t : Turn} {h : Handshake}

/-- The event drops the exit that leaves. -/
def Event.interrupts (w : Desk) : Event → Bool
  | .drops id => (w.calls.lookup id).any Call.departs
  | _ => false

/-- …and so does some event of a history. -/
def interrupted (w : Desk) : List Event → Bool
  | [] => false
  | e :: es => e.interrupts w || (w.step e).interrupted es

/-- Whoever has begun to leave is at it, or has closed the link. -/
def Attended (w : Desk) : Prop :=
  w.session.closed → w.session.link.Shut ∨ ∃ p ∈ w.calls, p.2.departs

/-- **A step of a call.** -/
theorem Attended.turn (hw : w.Attended) (hd : w.Departs role)
    (hcall : w.calls.lookup t.id = some c) : (w.step (.turns t)).Attended := by
  intro hclosed
  have hc := mem_of_lookup hcall
  have hvoices : c.Voices w.session := (hd.inFlight _ hc).1
  have hw' : w.step (.turns t) = w.turn t c := by
    rw [Desk.step, hcall]
    rfl
  have hnext {next : Call} (hstate : (c.step t w.session w.store).2.2.state? = some next)
      (hnext : next.departs) : ∃ p ∈ (w.step (.turns t)).calls, p.2.departs := by
    refine ⟨(t.id, next), ?_, hnext⟩
    rw [hw', calls_turn, hstate]
    exact List.mem_append_left _ (List.mem_singleton.mpr rfl)
  cases hdeparts : c.departs with
  | true =>
    cases hstate : (c.step t w.session w.store).2.2.state? with
    | none =>
      obtain ⟨r, hend⟩ := Progress.eq_ends_of_state? hstate
      exact .inl (hd.left hcall hdeparts hend).shut
    | some next =>
      exact .inr (hnext hstate ((Call.departs_on t hdeparts w.session w.store).of_state? hstate))
  | false =>
    cases hbefore : w.session.closed with
    | false =>
      rw [hw'] at hclosed
      obtain ⟨next, hstate, hleaving⟩ := Call.departs_of_closes t hvoices hbefore w.store hclosed
      exact .inr (hnext hstate hleaving)
    | true =>
      rcases hw hbefore with hshut | ⟨p, hp, hleaving⟩
      · rw [hw']
        exact .inl (hshut.steady (Call.step_steady t hdeparts w.session w.store))
      · refine .inr ⟨p, ?_, hleaving⟩
        rw [hw', calls_turn]
        refine List.mem_append_right _ ((List.mem_erase_of_ne ?_).mpr hp)
        rintro rfl
        exact absurd (hdeparts.symm.trans hleaving) Bool.false_ne_true

/-- **What does not drop the exit that leaves keeps it at it.** -/
theorem Attended.step (hw : w.Attended) (hd : w.Departs role) {e : Event}
    (he : e.interrupts w = false) : (w.step e).Attended := by
  cases e with
  | begins id c =>
    rw [Desk.step]
    split
    · intro hclosed
      rcases hw hclosed with hshut | ⟨p, hp, hleaving⟩
      · exact .inl hshut
      · exact .inr ⟨p, List.mem_cons_of_mem _ hp, hleaving⟩
    · exact hw
  | turns t =>
    cases hcall : w.calls.lookup t.id with
    | none =>
      rw [Desk.step, hcall]
      exact hw
    | some c => exact hw.turn hd hcall
  | drops id =>
    rw [Desk.step]
    cases hcall : w.calls.lookup id with
    | none => exact hw
    | some c =>
      have hstill : c.departs = false := by
        rw [Event.interrupts, hcall] at he
        exact he
      intro hclosed
      rcases hw hclosed with hshut | ⟨p, hp, hleaving⟩
      · exact .inl (hshut.steady (Link.steady_abandon id _))
      · refine .inr ⟨p, (List.mem_erase_of_ne ?_).mpr hp, hleaving⟩
        rintro rfl
        exact absurd (hstill.symm.trans hleaving) Bool.false_ne_true
  | stirs x =>
    exact fun hclosed => (hw hclosed).imp_left fun hshut => hshut.steady (Link.steady_onLink x _)

/-- **…over a whole history.** -/
theorem Attended.run (hw : w.Attended) (hd : w.Departs role) {es : List Event}
    (hes : ∀ e ∈ es, e.suits role) (hheard : w.interrupted es = false) :
    (w.run es).Attended := by
  induction es generalizing w with
  | nil => exact hw
  | cons e es ih =>
    obtain ⟨he, hes⟩ := List.forall_mem_cons.mp hes
    obtain ⟨hnot, hrest⟩ := Bool.or_eq_false_iff.mp hheard
    exact ih (hw.step hd hnot) (hd.step he) hes hrest

/-! ## While the link is being closed -/

/-- **A step of a call** leaves the link as open as it was, or has begun to close it. -/
theorem Departs.steady_or_closing (hd : w.Departs role) (hc : (t.id, c) ∈ w.calls) :
    w.session.link.Steady (c.step t w.session w.store).1.link ∨
      (c.step t w.session w.store).1.link.closing := by
  obtain ⟨-, -, hstands⟩ := hd.inFlight _ hc
  cases hdeparts : c.departs with
  | false => exact .inl (Call.step_steady t hdeparts w.session w.store)
  | true =>
    cases c with
    | exit phase =>
      cases phase with
      | start => exact absurd hdeparts Bool.false_ne_true
      | saying x => exact .inl (Session.steady_say t .ctrl x w.session)
      | closing k wrong => exact .inr (Link.closing_close hstands t.id)
    | _ => exact absurd hdeparts Bool.false_ne_true

/-- **…and so does any event.** -/
theorem Departs.step_steady_or_closing (hd : w.Departs role) (e : Event) :
    w.session.link.Steady (w.step e).session.link ∨ (w.step e).session.link.closing := by
  cases e with
  | begins id c =>
    rw [Desk.step]
    split
    · exact .inl (.refl _)
    · exact .inl (.refl _)
  | turns t =>
    rw [Desk.step]
    cases hcall : w.calls.lookup t.id with
    | none => exact .inl (.refl _)
    | some c => exact hd.steady_or_closing (mem_of_lookup hcall)
  | drops id =>
    rw [Desk.step]
    cases hcall : w.calls.lookup id with
    | none => exact .inl (.refl _)
    | some c => exact .inl (Link.steady_abandon id _)
  | stirs x => exact .inl (Link.steady_onLink x _)

theorem Departs.closed_of_closing (hd : w.Departs role) (hclosing : w.session.link.closing) :
    w.session.closed :=
  eq_true_of_ne_false fun hopen => absurd (hclosing.symm.trans (hd.opened hopen))
    Bool.true_eq_false.mp

/-- Whoever stands in a line after an event is the exit that leaves, or stood there before and did
not have the turn. -/
theorem Reached.mem_line_step (hw : Reached h w) (hclosing : w.session.link.closing) {e : Event}
    {ch : Channel} (hmem : id ∈ ((w.step e).session.link.inbox ch).line) :
    (∃ c, (w.step e).calls.lookup id = some c ∧ c.departs) ∨
      e.heeds id = false ∧ id ∈ (w.session.link.inbox ch).line ∧
        (w.step e).calls.lookup id = w.calls.lookup id := by
  have hclosed := hw.departs.closed_of_closing hclosing
  obtain hstood | ⟨t, c, next, rfl, rfl, hcall, hnext, hline⟩ := hw.lined.mem_line_step hmem
  · exact .inr hstood
  · cases hdeparts : c.departs with
    | true =>
      refine .inl ⟨next, ?_, ?_⟩
      · rw [Desk.step, hcall]
        exact (hw.vigil.lookup_turn t (mem_of_lookup hcall)).trans hnext
      · exact (Call.departs_on t hdeparts w.session w.store).of_state? hnext
    | false =>
      have hnone : next.line? = none :=
        (Call.leaves_no_line hclosed hclosing hdeparts t w.store).of_state? hnext
      exact absurd (hline.symm.trans hnone) (Option.some_ne_none ch)

/-- **While the link of a client is open, so are its channels.** -/
theorem Reached.unshut (hw : Reached h w) (hopen : w.session.link.closing = false)
    (ch : Channel) : (w.session.link.outbox ch).shut = false := by
  induction hw with
  | @starts openStore id l greeting config opened lines new ready b =>
    have hgreeting : Greeting.Follows h openStore id l _ :=
      (Greeting.Follows.start lines new).run opened greeting
    obtain ⟨hsteady, -⟩ := hgreeting.account.done config ready
    refine (hsteady.shut ch).trans ?_
    rw [new ch]
  | @goes w e hbefore hsuits ih =>
    have hsteady : w.session.link.Steady (w.step e).session.link :=
      (hbefore.departs.step_steady_or_closing e).resolve_right fun hclosing =>
        absurd (hclosing.symm.trans hopen) Bool.true_eq_false.mp
    exact (hsteady.shut ch).trans (ih (hsteady.closing.symm.trans hopen))

end Desk

end SimRelay
