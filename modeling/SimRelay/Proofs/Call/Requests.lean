import SimRelay.Proofs.Call.Custody
import SimRelay.Proofs.Call.Episode

/-!
# Proofs/Call/Requests — a stale reply answers no later request

A call that pulls keeps the deliveries that lie on the inbound channel, and takes the oldest that it
wants from among those that are kept.  Only when there is none does it ask, once; and then nothing
that came before has a part in the outcome.  Behind the draining a pull does not look at what is
kept (`Pull.step_late`), and the channel is as if nothing had ever lain there (`run_draining`).

All of this is so if the frames that lie there can be read.  One that cannot is heard as nothing and
ends the draining, so that the frames behind it are taken for answers (`Intake.asked_afresh_stale`).
-/

namespace SimRelay

/-! ## Draining -/

/-- The turns of a call, and nothing between them. -/
def Call.inTurns (turns : List (Instant × Nat)) : List Event :=
  turns.map fun turn => .turns turn.1 turn.2

namespace Intake

open Session (Ready)

variable {i : Intake} {s : Session} {b : Backend} {t : Turn} {id : CallId} {row : List ByteArray}

/-- What a call does when its pull hears nothing more: it takes the oldest delivery that it wants,
or asks. -/
def drained (i : Intake) (s : Session) : Session × Progress Failure Call Reply :=
  match s.takeLate (i.wanted s).accepts with
  | some (m, s) => (s, Call.lift (.intake i) .delivery (i.settle s m))
  | none =>
    (s, .goes (.intake i (.pulling (.asking (.fresh ((i.wanted s).request s.originator))))))

theorem setInbox_setInbox (ch : Channel) (j k : Inbox) (l : Link) :
    (l.setInbox ch j).setInbox ch k = l.setInbox ch k := by
  cases ch <;> rfl

/-- An inbox that has nothing, and in which nobody stands in line. -/
theorem eq_default_inbox {j : Inbox} (hpending : j.pending = .empty) (hended : j.ended = false)
    (hline : j.line = []) : j = {} := by
  obtain ⟨buffer, unread, ending, line⟩ := j
  have hsize : buffer.size + unread.size = 0 := by
    rw [← ByteArray.size_append]
    exact congrArg ByteArray.size hpending
  obtain rfl : buffer = .empty := ByteArray.size_eq_zero_iff.mp (by omega)
  obtain rfl : unread = .empty := ByteArray.size_eq_zero_iff.mp (by omega)
  obtain rfl : ending = none := Inbox.ending_of_flows hended
  obtain rfl : line = [] := hline
  rfl

/-- A turn of a call that drains the channel. -/
theorem step_draining (i : Intake) (b : Backend) (hready : s.Ready .recv t.id)
    (hrow : ∀ body ∈ row, body.size ≤ Frame.maxLength)
    (hpending : (s.link.inbox .recv).pending = Frame.joined row) :
    ∃ j, j.pending = Frame.joined row.tail ∧ j.ended = false ∧ j.line = [] ∧
      Ready .recv t.id { s with link := s.link.setInbox .recv j } ∧
      (Call.intake i (.pulling .draining)).step t s b =
        match row.head?.bind Message.ofBody? with
        | some _ =>
          ({ s with
              link := s.link.setInbox .recv j
              late := s.late ++ deliveries s.role.delivery row.head?.toList }, b,
            .goes (.intake i (.pulling .draining)))
        | none =>
          let r := drained i { s with link := s.link.setInbox .recv j }
          (r.1, b, r.2) := by
  obtain ⟨j, hhear, hj, hended, hline, hready'⟩ := hready.hear_now hrow hpending
  refine ⟨j, hj, hended, hline, hready', ?_⟩
  rw [Call.step, step, Pull.step, hhear, deliveries_toList]
  cases hfirst : row.head?.bind Message.ofBody? with
  | some m =>
    dsimp only [Option.elim]
    by_cases hm : m.isDelivery s.role.delivery
    · rw [if_pos hm, Option.filter_some_pos hm]
      rfl
    · rw [if_neg hm, Option.filter_some_neg (eq_false_of_ne_true hm), Option.toList_none,
        List.append_nil]
      rfl
  | none =>
    dsimp only [Option.elim]
    rw [drained]
    have hwanted : i.wanted { s with link := s.link.setInbox .recv j } = i.wanted s :=
      wanted_congr rfl i
    rw [hwanted]
    cases htake : Session.takeLate (i.wanted s).accepts
      { s with link := s.link.setInbox .recv j } with
    | some taken => rfl
    | none => rfl

/-- **A call that drains the channel** keeps the deliveries that lie there, and leaves the channel
as if nothing had ever lain there. -/
theorem run_draining (i : Intake) (b : Backend) {row : List ByteArray}
    (hreadable : ∀ body ∈ row, Message.readable body)
    (hrow : ∀ body ∈ row, body.size ≤ Frame.maxLength) {s : Session} (hready : s.Ready .recv id)
    (hpending : (s.link.inbox .recv).pending = Frame.joined row) {turns : List (Instant × Nat)}
    (hturns : turns.length = row.length + 1) :
    (Episode.mk id s b (.goes (.intake i (.pulling .draining)))).run (Call.inTurns turns) =
      let r := drained i { s with
        link := s.link.setInbox .recv {}
        late := s.late ++ deliveries s.role.delivery row }
      ⟨id, r.1, b, r.2⟩ := by
  induction row generalizing s turns with
  | nil =>
    obtain ⟨⟨now, millis⟩, rfl⟩ := List.length_eq_one_iff.mp hturns
    obtain ⟨j, hj, hended, hline, -, hstep⟩ :=
      step_draining (t := ⟨id, now, millis⟩) i b hready hrow hpending
    obtain rfl := eq_default_inbox hj hended hline
    have hlate : s.late ++ deliveries s.role.delivery [] = s.late := List.append_nil _
    change (Episode.step _ (.turns now millis)).run [] = _
    rw [Episode.step_turns rfl, hstep, hlate]
    rfl
  | cons body row ih =>
    obtain ⟨⟨now, millis⟩, rest, rfl⟩ := List.exists_cons_of_length_eq_add_one hturns
    obtain ⟨m, hm⟩ := Option.isSome_iff_exists.mp (hreadable body List.mem_cons_self)
    obtain ⟨j, hj, hended, hline, hready', hstep⟩ :=
      step_draining (t := ⟨id, now, millis⟩) i b hready hrow hpending
    rw [List.head?_cons, Option.bind_some, hm] at hstep
    change (Episode.step _ (.turns now millis)).run (Call.inTurns rest) = _
    rw [Episode.step_turns rfl, hstep]
    have hpending' : ((s.link.setInbox .recv j).inbox .recv).pending = Frame.joined row := by
      rw [Link.inbox_setInbox, if_pos rfl]
      exact hj
    have hrun := ih (s := { s with
        link := s.link.setInbox .recv j
        late := s.late ++ deliveries s.role.delivery [body] })
      (fun body hb => hreadable body (List.mem_cons_of_mem _ hb))
      (fun body hb => hrow body (List.mem_cons_of_mem _ hb))
      ⟨hready'.active, hready'.isOpen, hready'.flows, hready'.alone⟩ hpending'
      (Nat.succ.inj hturns)
    refine hrun.trans ?_
    dsimp only
    rw [setInbox_setInbox, List.append_assoc, ← deliveries_append]
    rfl

end Intake

/-! ## Behind the draining -/

namespace Session

/-- Hearing does not look at what is kept. -/
theorem hear_late (t : Turn) (ch : Channel) (begins : Bool) (deadline : Option Instant)
    (s : Session) (late : List Message) :
    hear t ch begins deadline { s with late } =
      ((s.hear t ch begins deadline).1, { (s.hear t ch begins deadline).2 with late }) := by
  unfold hear
  split
  · rfl
  · dsimp only
    cases (s.link.read t.id (deadline.any fun d => t.now.reached d) ch).1 with
    | frame body =>
      dsimp only
      cases Message.decode body <;> rfl
    | failure e => rfl
    | timedOut => rfl
    | inLine => rfl

/-- …and neither does saying. -/
theorem say_late (t : Turn) (ch : Channel) (x : Saying) (s : Session) (late : List Message) :
    say t ch x { s with late } = ({ (s.say t ch x).1 with late }, (s.say t ch x).2) := by
  cases x with
  | fresh m =>
    unfold say
    dsimp only
    split
    · rfl
    · split <;> rfl
  | writing w => rfl

end Session

namespace Pull

variable {wanted : Wanted} {s : Session}

/-- What a step keeps does not depend on what is kept already. -/
def Blind (s : Session) (f : Session → Session × Progress Failure Phase (Option Message)) : Prop :=
  ∃ added, (f s).1.late = s.late ++ added ∧
    ∀ late, f { s with late } = ({ (f s).1 with late := late ++ added }, (f s).2)

theorem hearAnswer_late (t : Turn) (wanted : Wanted) (begins : Bool) (deadline : Instant)
    (s : Session) : Blind s (hearAnswer t wanted begins deadline) := by
  unfold Blind hearAnswer
  simp only [Session.hear_late]
  cases hhear : s.hear t .recv begins (some deadline) with
  | mk heard s' =>
    obtain ⟨link, rfl⟩ := Session.exists_link_of_hear hhear
    have hnothing : s.late = s.late ++ [] := (List.append_nil _).symm
    cases heard with
    | message m =>
      dsimp only
      split
      · exact ⟨[], hnothing, fun late => by rw [List.append_nil]⟩
      · split
        · exact ⟨[], hnothing, fun late => by rw [List.append_nil]⟩
        · exact ⟨[m], rfl, fun late => rfl⟩
    | nothing => exact ⟨[], hnothing, fun late => by rw [List.append_nil]⟩
    | failure e => exact ⟨[], hnothing, fun late => by rw [List.append_nil]⟩
    | inLine => exact ⟨[], hnothing, fun late => by rw [List.append_nil]⟩

/-- **Behind the draining a pull does not look at what is kept.** -/
theorem step_late (t : Turn) (wanted : Wanted) (timeout : Duration) {phase : Phase}
    (hphase : phase ≠ .draining) (s : Session) : Blind s (step t wanted timeout phase) := by
  cases phase with
  | draining => exact absurd rfl hphase
  | asking x =>
    obtain ⟨o, hsession⟩ := s.say_spec t .recv x
    refine ⟨[], ?_, fun late => ?_⟩
    · rw [step, List.append_nil]
      dsimp only
      rw [hsession]
    · simp only [step, Session.say_late, List.append_nil]
  | asked deadline => exact hearAnswer_late t wanted true deadline s
  | listening deadline => exact hearAnswer_late t wanted false deadline s

/-- A pull does not drain again. -/
theorem step_leaves (t : Turn) (wanted : Wanted) (timeout : Duration) {phase : Phase}
    (hphase : phase ≠ .draining) (s : Session) :
    (step t wanted timeout phase s).2.Leaves (· ≠ .draining) := by
  have hhear (begins : Bool) (deadline : Instant) :
      (hearAnswer t wanted begins deadline s).2.Leaves (· ≠ .draining) := by
    unfold hearAnswer
    split
    · split
      · exact trivial
      · split
        · exact trivial
        · exact nofun
    · exact trivial
    · exact trivial
    · exact nofun
  cases phase with
  | draining => exact absurd rfl hphase
  | asking x =>
    refine (Progress.leaves_true _).andThen (fun _ _ => nofun) (fun _ => ?_) fun _ => trivial
    split
    · exact nofun
    · exact trivial
  | asked deadline => exact hhear true deadline
  | listening deadline => exact hhear false deadline

end Pull

/-- The call has drained the channel, or has no need to. -/
def Call.Behind : Call → Prop
  | .intake _ (.pulling p) => p ≠ .draining
  | .intake _ (.resolving _ _) => True
  | _ => False

/-- **A step behind the draining does not look at what is kept.** -/
theorem Call.step_late {c : Call} (hc : c.Behind) (t : Turn) (s : Session) (b : Backend) :
    ∃ added, ∀ late, c.step t { s with late } b =
      ({ (c.step t s b).1 with late := late ++ added }, (c.step t s b).2) := by
  cases c with
  | intake i phase =>
    cases phase with
    | pulling p =>
      obtain ⟨added, -, hlate⟩ :=
        Pull.step_late t (i.wanted s) (i.timeout.getD s.responseWindow) hc s
      refine ⟨added, fun late => ?_⟩
      have hwanted : i.wanted { s with late } = i.wanted s := Intake.wanted_congr rfl i
      simp only [step, Intake.step, hwanted, hlate late]
      rfl
    | resolving m key =>
      refine ⟨[], fun late => ?_⟩
      rw [List.append_nil]
      rfl
    | _ => exact hc.elim
  | _ => exact hc.elim

theorem Call.step_behind {c : Call} (hc : c.Behind) (t : Turn) (s : Session) (b : Backend) :
    (c.step t s b).2.2.Leaves Behind := by
  cases c with
  | intake i phase =>
    cases phase with
    | pulling p =>
      have hpull := Pull.step_leaves t (i.wanted s) (i.timeout.getD s.responseWindow) hc s
      have hintake : (i.step t (.pulling p) s b).2.2.Leaves
          fun phase => (intake i phase).Behind := by
        refine hpull.andThen (fun _ h => h) (fun out => ?_) fun _ => trivial
        cases out with
        | none => exact trivial
        | some m => exact i.settle_leaves _ fun _ _ => trivial
      exact leaves_lift hintake
    | resolving m key => exact leaves_lift (p := .ends _) trivial
    | _ => exact hc.elim
  | _ => exact hc.elim

namespace Episode

/-- The same episode, when other deliveries are kept. -/
def withLate (late : List Message) (w : Episode) : Episode :=
  { w with session := { w.session with late } }

/-- **Behind the draining, episodes that differ in what is kept go on alike.** -/
theorem run_withLate {w : Episode} (hw : w.progress.Leaves Call.Behind) (es : List Call.Event) :
    ∃ added, ∀ late, (w.withLate late).run es = (w.run es).withLate (late ++ added) := by
  induction es generalizing w with
  | nil => exact ⟨[], fun late => by rw [List.append_nil]; rfl⟩
  | cons e es ih =>
    have hstep : (w.step e).progress.Leaves Call.Behind ∧
        ∃ added, ∀ late, (w.withLate late).step e = (w.step e).withLate (late ++ added) := by
      cases e with
      | stirs x => exact ⟨hw, [], fun late => by rw [List.append_nil]; rfl⟩
      | turns now millis =>
        cases hc : w.progress.state? with
        | none =>
          have hended (late : List Message) : (w.withLate late).progress.state? = none := hc
          rw [step_turns_of_ended hc]
          refine ⟨hw, [], fun late => ?_⟩
          rw [List.append_nil, step_turns_of_ended (hended late)]
        | some c =>
          have hbehind : c.Behind := hw.of_state? hc
          obtain ⟨added, hlate⟩ := Call.step_late hbehind ⟨w.id, now, millis⟩ w.session w.store
          rw [step_turns hc]
          refine ⟨Call.step_behind hbehind _ _ _, added, fun late => ?_⟩
          have hc' : (w.withLate late).progress.state? = some c := hc
          have hstep : c.step ⟨(w.withLate late).id, now, millis⟩ (w.withLate late).session
              (w.withLate late).store = _ := hlate late
          rw [step_turns hc', hstep]
          rfl
    obtain ⟨hleaves, first, hfirst⟩ := hstep
    obtain ⟨rest, hrest⟩ := ih hleaves
    refine ⟨first ++ rest, fun late => ?_⟩
    change ((w.withLate late).step e).run es = ((w.step e).run es).withLate _
    rw [hfirst late, hrest, List.append_assoc]

end Episode

/-! ## One request -/

namespace Pull

open Session (Spoken Speaks Ready)

variable {m : Message} {stream : ByteArray} {n : Nat} {s : Session} {t : Turn}

/-- How far the request of a pull is: it is being said, or has been. -/
def Phase.Tells (m : Message) (stream : ByteArray) (n : Nat) (o : Outbox) : Phase → Prop
  | .draining => False
  | .asking x => Speaks m stream n o x
  | .asked _ | .listening _ => Spoken m stream n o

/-- A step of a pull behind the draining: the channel stays in order, and when the pull ends its
request has been said. -/
structure Asks (m : Message) (stream : ByteArray) (n : Nat) (t : Turn)
    (r : Session × Progress Failure Phase (Option Message)) : Prop where
  ready : r.1.Ready .recv t.id
  works : (r.1.link.outbox .recv).Works
  tells : r.2.Leaves (Phase.Tells m stream n (r.1.link.outbox .recv))
  told : r.2.state? = none → Spoken m stream n (r.1.link.outbox .recv)

/-- A step that does not end the pull. -/
theorem Asks.goes (hready : s.Ready .recv t.id) (hworks : (s.link.outbox .recv).Works)
    {progress : Progress Failure Phase (Option Message)} {phase : Phase}
    (hstate : progress.state? = some phase)
    (htells : phase.Tells m stream n (s.link.outbox .recv)) :
    Asks m stream n t (s, progress) where
  ready := hready
  works := hworks
  tells := Progress.leaves_of_state? hstate htells
  told hended := absurd (hstate.symm.trans hended) (Option.some_ne_none phase)

/-- …and one that does. -/
theorem Asks.ends (hready : s.Ready .recv t.id) (hworks : (s.link.outbox .recv).Works)
    (hspoken : Spoken m stream n (s.link.outbox .recv))
    (result : Except Failure (Option Message)) : Asks m stream n t (s, .ends result) where
  ready := hready
  works := hworks
  tells := trivial
  told _ := hspoken

theorem hearAnswer_asks (hready : s.Ready .recv t.id) (hworks : (s.link.outbox .recv).Works)
    (hspoken : Spoken m stream n (s.link.outbox .recv)) (wanted : Wanted) (begins : Bool)
    (deadline : Instant) : Asks m stream n t (hearAnswer t wanted begins deadline s) := by
  obtain ⟨j, hhear, -, hready', -⟩ := hready.hear begins (some deadline)
  have houtbox : (s.link.setInbox .recv j).outbox .recv = s.link.outbox .recv :=
    Link.outbox_setInbox ..
  have hworks' : ((s.link.setInbox .recv j).outbox .recv).Works := houtbox ▸ hworks
  have hspoken' : Spoken m stream n ((s.link.setInbox .recv j).outbox .recv) := houtbox ▸ hspoken
  rw [hearAnswer, hhear]
  cases Session.Heard.of _ _ with
  | message m' =>
    dsimp only
    split
    · exact .ends hready' hworks' hspoken' _
    · split
      · exact .ends hready' hworks' hspoken' _
      · have hkept :
            Ready .recv t.id (Session.keep m' { s with link := s.link.setInbox .recv j }) :=
          ⟨hready'.active, hready'.isOpen, hready'.flows, hready'.alone⟩
        exact .goes hkept hworks' rfl hspoken'
  | nothing => exact .ends hready' hworks' hspoken' _
  | failure e => exact .ends hready' hworks' hspoken' _
  | inLine => exact .goes hready' hworks' rfl hspoken'

/-- **A pull asks once**: each of its steps gets on with the one request, or leaves it as it is. -/
theorem step_asks (wanted : Wanted) (timeout : Duration) {phase : Phase} (hm : m.Sayable)
    (hready : s.Ready .recv t.id) (hworks : (s.link.outbox .recv).Works)
    (h : phase.Tells m stream n (s.link.outbox .recv)) :
    Asks m stream n t (step t wanted timeout phase s) := by
  cases phase with
  | draining => exact h.elim
  | asking x =>
    obtain ⟨o, hsession, hready', hworks', hleaves, hends⟩ := hready.say hworks hm h
    rw [step]
    dsimp only
    rw [hsession]
    generalize (s.say t .recv x).2 = progress at hleaves hends ⊢
    cases progress with
    | waits x' => exact .goes hready' hworks' rfl hleaves
    | goes x' => exact .goes hready' hworks' rfl hleaves
    | ends r =>
      obtain ⟨rfl, hspoken⟩ := hends r rfl
      dsimp only [Progress.andThen]
      split
      · exact .goes hready' hworks' rfl hspoken
      · exact .ends hready' hworks' hspoken _
  | asked deadline => exact hearAnswer_asks hready hworks h wanted true deadline
  | listening deadline => exact hearAnswer_asks hready hworks h wanted false deadline

end Pull

/-- How far the request of a call is whose pull has drained the channel in vain. -/
def Call.Tells (m : Message) (stream : ByteArray) (n : Nat) (o : Outbox) : Call → Prop
  | .intake _ (.pulling p) => p.Tells m stream n o
  | .intake _ (.resolving _ _) => Session.Spoken m stream n o
  | _ => False

namespace Episode

open Session (Spoken Speaks Ready)

variable {m : Message} {stream : ByteArray} {n : Nat} {w : Episode}

/-- The inbound channel is in order, and the one request on it is being said or has been. -/
structure Tells (m : Message) (stream : ByteArray) (n : Nat) (w : Episode) : Prop where
  ready : w.session.Ready .recv w.id
  works : (w.session.link.outbox .recv).Works
  call : ∀ c, w.progress.state? = some c → c.Tells m stream n (w.session.link.outbox .recv)
  told : w.progress.state? = none → Spoken m stream n (w.session.link.outbox .recv)

theorem Tells.withLate (h : w.Tells m stream n) (late : List Message) :
    (w.withLate late).Tells m stream n :=
  ⟨⟨h.ready.active, h.ready.isOpen, h.ready.flows, h.ready.alone⟩, h.works, h.call, h.told⟩

/-- What goes on around a call moves its request forward. -/
theorem Tells.stir (h : w.Tells m stream n) {x : Stir} (hx : x.Intact .recv) :
    (w.step (.stirs x)).Tells m stream n where
  ready := Stir.ready_onLink hx h.ready
  works := Stir.works_onLink hx h.works
  call c hc := by
    refine Stir.outbox_onLink (P := fun o => c.Tells m stream n o) hx (fun a o _ ho => ?_)
      (h.call c hc)
    cases c with
    | intake i phase =>
      cases phase with
      | pulling p =>
        cases p with
        | draining => exact ho
        | asking y => exact Speaks.act a ho
        | asked deadline => exact Spoken.act ho a
        | listening deadline => exact Spoken.act ho a
      | resolving m' key => exact Spoken.act ho a
      | _ => exact ho
    | _ => exact ho
  told hnone := Stir.outbox_onLink hx (fun a _ _ ho => Spoken.act ho a) (h.told hnone)

/-- What a pull has brought is settled without a word. -/
theorem Tells.of_asks {id : CallId} {b : Backend} {t : Turn} (hid : t.id = id) (i : Intake)
    {r : Session × Progress Failure Pull.Phase (Option Message)} (h : Pull.Asks m stream n t r) :
    Tells m stream n ⟨id, r.1, b, Call.lift (.intake i) .delivery
      (r.2.andThen .pulling (i.settlePulled r.1) fun e => .ends (.error e))⟩ := by
  subst hid
  obtain ⟨s, progress⟩ := r
  have hleaves : (progress.andThen Intake.Phase.pulling (i.settlePulled s)
      fun e => .ends (.error e)).Leaves
      fun phase => (Call.intake i phase).Tells m stream n (s.link.outbox .recv) := by
    cases progress with
    | waits p => exact h.tells
    | goes p => exact h.tells
    | ends r =>
      match r with
      | .error e => exact trivial
      | .ok none => exact trivial
      | .ok (some m') => exact i.settle_leaves s fun _ _ => h.told rfl
  refine ⟨h.ready, h.works, fun c hc => (Call.leaves_lift hleaves).of_state? hc, fun hnone => ?_⟩
  cases progress with
  | waits p => exact nomatch hnone
  | goes p => exact nomatch hnone
  | ends r => exact h.told rfl

/-- **A step of the call keeps to the one request.** -/
theorem Tells.turn (h : w.Tells m stream n) (hm : m.Sayable) (now : Instant) (millis : Nat) :
    (w.step (.turns now millis)).Tells m stream n := by
  cases hc : w.progress.state? with
  | none =>
    rw [step_turns_of_ended hc]
    exact h
  | some c =>
    have htells := h.call c hc
    rw [step_turns hc]
    cases c with
    | intake i phase =>
      cases phase with
      | pulling p =>
        exact Tells.of_asks (t := ⟨w.id, now, millis⟩) rfl i
          (Pull.step_asks _ _ hm h.ready h.works htells)
      | resolving m' key =>
        exact ⟨h.ready, h.works,
          fun _ h' => (Call.leaves_lift (p := .ends _) trivial).of_state? h', fun _ => htells⟩
      | _ => exact htells.elim
    | _ => exact htells.elim

/-- **…and so does a whole history** in which the channel stays in order. -/
theorem Tells.run (h : w.Tells m stream n) (hm : m.Sayable) {es : List Call.Event}
    (hes : ∀ e ∈ es, e.Intact .recv) : (w.run es).Tells m stream n := by
  refine run_keeps (P := Tells m stream n) (fun w e he hw => ?_) hes h
  cases e with
  | stirs x => exact hw.stir he
  | turns now millis => exact hw.turn hm now millis

end Episode

/-! ## What came before -/

namespace Intake

open Session (Ready)

variable {i : Intake} {s : Session} {b : Backend} {id : CallId} {stale : List ByteArray}
  {turns : List (Instant × Nat)}

theorem drained_of_find?_some {m : Message} (h : s.late.find? (i.wanted s).accepts = some m) :
    drained i s =
      let s' := { s with late := s.late.eraseP (i.wanted s).accepts }
      (s', Call.lift (.intake i) .delivery (i.settle s' m)) := by
  rw [drained, Session.takeLate, h]
  rfl

theorem drained_of_find?_none (h : s.late.find? (i.wanted s).accepts = none) :
    drained i s =
      (s, .goes (.intake i (.pulling (.asking (.fresh ((i.wanted s).request s.originator)))))) := by
  rw [drained, Session.takeLate, h]
  rfl

/-- A call that pulls first drains the channel. -/
theorem run_start (hfits : i.Fits s.role) (hmode : s.config.mode = .pull)
    (hready : s.Ready .recv id) (hstale : (s.link.inbox .recv).pending = Frame.joined stale)
    (hshort : ∀ body ∈ stale, body.size ≤ Frame.maxLength)
    (hreadable : ∀ body ∈ stale, Message.readable body) (hturns : turns.length = stale.length + 2) :
    (Episode.start id (.ofIntake i) s b).run (Call.inTurns turns) =
      let r := drained i { s with
        link := s.link.setInbox .recv {}
        late := s.late ++ deliveries s.role.delivery stale }
      ⟨id, r.1, b, r.2⟩ := by
  obtain ⟨⟨now, millis⟩, rest, rfl⟩ := List.exists_cons_of_length_eq_add_one hturns
  have hstart : (Call.ofIntake i).step ⟨id, now, millis⟩ s b
      = (s, b, .goes (.intake i (.pulling .draining))) := by
    obtain ⟨end?, timeout, want, rfl⟩ := hfits
    simp only [Call.ofIntake, Call.step, step]
    cases s.role <;>
      simp only [Role.intake, hready.active, hmode, Bool.false_eq_true, if_false] <;> rfl
  change (Episode.step _ (.turns now millis)).run (Call.inTurns rest) = _
  rw [Episode.step_turns rfl]
  change Episode.run
    (let r := (Call.ofIntake i).step ⟨id, now, millis⟩ s b; ⟨id, r.1, r.2.1, r.2.2⟩) _ = _
  rw [hstart]
  exact run_draining i b hreadable hshort hready hstale (Nat.succ.inj hturns)

/-- The call as it is about to ask, on a channel on which nothing lies. -/
def asking (i : Intake) (id : CallId) (s : Session) (b : Backend) : Episode :=
  ⟨id, { s with link := s.link.setInbox .recv {} }, b,
    .goes (.intake i (.pulling (.asking (.fresh ((i.wanted s).request s.originator)))))⟩

/-- What it had kept and what lay there make no other difference. -/
theorem asking_congr (i : Intake) (id : CallId) (b : Backend) (inbox : Inbox)
    (late kept : List Message) :
    (asking i id { s with link := s.link.setInbox .recv inbox, late } b).withLate kept =
      (asking i id s b).withLate kept := by
  rw [asking, setInbox_setInbox, wanted_congr rfl i]
  rfl

/-- A call that drains the channel in vain is about to ask. -/
theorem run_start_asking (hfits : i.Fits s.role) (hmode : s.config.mode = .pull)
    (hready : s.Ready .recv id) (hstale : (s.link.inbox .recv).pending = Frame.joined stale)
    (hshort : ∀ body ∈ stale, body.size ≤ Frame.maxLength)
    (hreadable : ∀ body ∈ stale, Message.readable body) (hturns : turns.length = stale.length + 2)
    (hnone : (s.late ++ deliveries s.role.delivery stale).find? (i.wanted s).accepts = none) :
    (Episode.start id (.ofIntake i) s b).run (Call.inTurns turns) =
      (asking i id s b).withLate (s.late ++ deliveries s.role.delivery stale) := by
  have hwanted (late : List Message) :
      i.wanted { s with link := s.link.setInbox .recv {}, late } = i.wanted s :=
    wanted_congr rfl i
  rw [run_start hfits hmode hready hstale hshort hreadable hturns,
    drained_of_find?_none (by rw [hwanted]; exact hnone), hwanted]
  rfl

/-- The one request of a call that is about to ask. -/
theorem tells_asking (hready : s.Ready .recv id) (hworks : (s.link.outbox .recv).Works) :
    (asking i id s b).Tells ((i.wanted s).request s.originator) (s.link.outbox .recv).stream
      (s.link.outbox .recv).accepted := by
  have houtbox : (s.link.setInbox .recv {}).outbox .recv = s.link.outbox .recv :=
    Link.outbox_setInbox ..
  refine ⟨hready.setInbox rfl (Inbox.alone_default id) s.late, houtbox.symm ▸ hworks, fun c hc => ?_, nofun⟩
  obtain rfl := Option.some.inj hc
  exact ⟨rfl, houtbox.symm ▸ Outbox.holds_self hworks.tidy⟩

/-- **A stale reply answers no later request.**  A call of an open session that pulls, on a channel
in order, first drains what lies there, in one step for each frame and one more.  If the frames
there can all be read, then:

* if a delivery that it wants is among those it had kept and those that lay there, it hands out the
  oldest of them, and writes nothing;
* otherwise it asks, and when it has ended it has written that one request and nothing else.  Its
  outcome is the same as if other deliveries had been kept and other frames had lain there, none of
  them wanted.

What comes in behind the draining is part of the later history, which begins before the request is
written.  A frame that comes in between the two is thus an answer like any that comes in later: it
decides the outcome of both calls, though the daemon wrote it before it could read the request. -/
theorem asked_afresh (hfits : i.Fits s.role) (hmode : s.config.mode = .pull)
    (hready : s.Ready .recv id) (hworks : (s.link.outbox .recv).Works)
    (hstale : (s.link.inbox .recv).pending = Frame.joined stale)
    (hshort : ∀ body ∈ stale, body.size ≤ Frame.maxLength)
    (hreadable : ∀ body ∈ stale, Message.readable body) (hturns : turns.length = stale.length + 2) :
    let kept := s.late ++ deliveries s.role.delivery stale
    let request := (i.wanted s).request s.originator
    let w := (Episode.start id (.ofIntake i) s b).run (Call.inTurns turns)
    match kept.find? (i.wanted s).accepts with
    | some m =>
      w.progress = Call.lift (.intake i) .delivery (i.settle w.session m) ∧
        w.session.late = kept.eraseP (i.wanted s).accepts ∧
        w.session.link.outbox .recv = s.link.outbox .recv
    | none =>
      ∀ after : List Call.Event, (∀ e ∈ after, e.Intact .recv) →
        (request.Sayable → (w.run after).progress.state? = none →
          ∃ body, request.encode = .ok body ∧
            ((w.run after).session.link.outbox .recv).wire
              = (s.link.outbox .recv).stream ++ Frame.wrap body) ∧
          ∀ (late : List Message) (inbox : Inbox) (others : List ByteArray)
            (turns' : List (Instant × Nat)),
            inbox.pending = Frame.joined others → inbox.ended = false → inbox.Alone id →
            (∀ body ∈ others, body.size ≤ Frame.maxLength) →
            (∀ body ∈ others, Message.readable body) →
            (late ++ deliveries s.role.delivery others).find? (i.wanted s).accepts = none →
            turns'.length = others.length + 2 →
            ((Episode.start id (.ofIntake i)
                { s with link := s.link.setInbox .recv inbox, late } b).run
              (Call.inTurns turns' ++ after)).progress = (w.run after).progress := by
  intro kept request w
  split
  · next m hfind =>
    have hwanted : i.wanted { s with link := s.link.setInbox .recv {}, late := kept }
        = i.wanted s := wanted_congr rfl i
    have hw : w = _ := run_start hfits hmode hready hstale hshort hreadable hturns
    rw [drained_of_find?_some (by rw [hwanted]; exact hfind), hwanted] at hw
    rw [hw]
    have houtbox : (s.link.setInbox .recv {}).outbox .recv = s.link.outbox .recv :=
      Link.outbox_setInbox ..
    exact ⟨rfl, rfl, houtbox⟩
  · next hfind =>
    intro after hafter
    have hw : w = (asking i id s b).withLate kept :=
      run_start_asking hfits hmode hready hstale hshort hreadable hturns hfind
    -- behind the draining only what is kept tells the histories apart
    have hbehind : (asking i id s b).progress.Leaves Call.Behind := nofun
    obtain ⟨added, hlate⟩ := Episode.run_withLate hbehind after
    refine ⟨fun hsayable hended => ?_, ?_⟩
    · have htells : w.Tells request _ _ := hw ▸ (tells_asking hready hworks).withLate kept
      obtain ⟨body, hbody, -, hwire⟩ := ((htells.run hsayable hafter).told hended).wire
      exact ⟨body, hbody, hwire⟩
    · intro late inbox others turns' hothers hflows halone hshort' hreadable' hnone hturns'
      have hrecv : (s.link.setInbox .recv inbox).inbox .recv = inbox := by
        rw [Link.inbox_setInbox, if_pos rfl]
      have hstart := run_start_asking (s := { s with link := s.link.setInbox .recv inbox, late })
        (b := b) hfits hmode (hready.setInbox hflows halone late)
        ((congrArg Inbox.pending hrecv).trans hothers) hshort' hreadable' hturns' hnone
      rw [Episode.run_append, hstart, asking_congr, hw, hlate, hlate]
      rfl

/-- A delivery for somebody else lies on the channel: it is kept, and the call goes on as if nothing
had lain there. -/
theorem asked_afresh_other :
    let letter (destination : String) : ByteArray :=
      ({ Message.bare .receive .daemon .message with
          metadata := some { destination := some destination } }.encode).toOption.getD .empty
    let s : Session :=
      { identifier := "alice", role := .application, config := {}, keys := none,
        responseWindow := .ofSeconds 1,
        link := { recv := { inbox := { unread := Frame.joined [letter "bob"] } } } }
    let after : List Call.Event := [.turns ⟨0⟩ 0, .turns ⟨0⟩ 0,
      .stirs (.writes .recv .flushes), .turns ⟨0⟩ 0,
      .stirs (.arrives .recv (Frame.wrap (letter "alice"))), .turns ⟨0⟩ 0]
    ((Episode.start 0 (.ofIntake (.receive none none))
        { s with link := s.link.setInbox .recv {}, late := [] } {}).run
      (Call.inTurns [(⟨0⟩, 0), (⟨0⟩, 0)] ++ after)).progress =
      (((Episode.start 0 (.ofIntake (.receive none none)) s {}).run
        (Call.inTurns [(⟨0⟩, 0), (⟨0⟩, 0), (⟨0⟩, 0)])).run after).progress := by
  intro letter s after
  have hafter : ∀ e ∈ after, e.Intact .recv := by
    simp [after, Call.Event.Intact, Stir.Intact, Outbox.Act.works]
  have hstale : (s.link.inbox .recv).pending = Frame.joined [letter "bob"] := by decide +kernel
  have hshort : ∀ body ∈ [letter "bob"], body.size ≤ Frame.maxLength := by decide +kernel
  have hreadable : ∀ body ∈ [letter "bob"], Message.readable body := by decide +kernel
  have hnone : (s.late ++ deliveries s.role.delivery [letter "bob"]).find?
      (Intake.wanted s (.receive none none)).accepts = none := by decide +kernel
  have hfits : Fits s.role (.receive none none) := ⟨none, none, false, rfl⟩
  have hready : s.Ready .recv 0 := ⟨rfl, rfl, rfl, nofun⟩
  have hturns : ([(⟨0⟩, 0), (⟨0⟩, 0), (⟨0⟩, 0)] : List (Instant × Nat)).length
      = [letter "bob"].length + 2 := rfl
  have hafresh := asked_afresh (b := {}) hfits rfl hready ⟨rfl, rfl⟩ hstale hshort hreadable hturns
  simp only [hnone] at hafresh
  obtain ⟨-, hsame⟩ := hafresh after hafter
  have hbefore : ([] ++ deliveries s.role.delivery []).find?
      (Intake.wanted s (.receive none none)).accepts = none := rfl
  exact hsame [] {} [] [(⟨0⟩, 0), (⟨0⟩, 0)] rfl rfl nofun nofun nofun hbefore rfl

/-- …but behind a frame that cannot be read, what came before is taken for the answer: of two calls
with the same later history, the one hears of a refusal that lay there, and the other gets the
delivery. -/
theorem asked_afresh_stale :
    let s (stale : List ByteArray) : Session :=
      { identifier := "alice", role := .application, config := {}, keys := none,
        responseWindow := .ofSeconds 1,
        link := { recv := { inbox := { unread := Frame.joined stale } } } }
    let letter : Message :=
      { Message.bare .receive .daemon .message with
        metadata := some { destination := some "alice" } }
    let body (m : Message) : ByteArray := m.encode.toOption.getD .empty
    let turn : Call.Event := .turns ⟨0⟩ 0
    let es := [turn, turn, turn, turn, .stirs (.writes .recv .flushes), turn,
      .stirs (.arrives .recv (Frame.wrap (body letter))), turn]
    let outcome (stale : List ByteArray) : Option Reply :=
      ((Episode.start 0 (.ofIntake (.receive none none)) (s stale) {}).run es).progress.reply?
    outcome [⟨#[0xff]⟩, body (.bare .receive .daemon .noMessage)] = some (.delivery none) ∧
      outcome [] = some (.delivery (some (.received letter))) := by
  intro s letter body turn es outcome
  decide +kernel

end Intake

end SimRelay
