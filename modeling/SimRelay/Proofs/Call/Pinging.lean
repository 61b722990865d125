import SimRelay.Proofs.Call.Bystanders
import SimRelay.Proofs.Call.Episode

/-!
# Proofs/Call/Pinging — which frame answers a ping

A ping takes what lies on the control channel until it hears nothing, asks, and judges the first
frame that it hears then.  What it hears then is the first of what came later if every frame that
lay there could be read.  But a frame that cannot be read is heard as nothing: the frames behind it
stay where they are, and the first of them is judged in place of the answer
(`Ping.decided_by_stale`).
-/

namespace SimRelay

/-- What the first frame on the control channel says of the daemon, if one came. -/
def PingStatus.verdict (body? : Option ByteArray) : PingStatus :=
  match body?.bind Message.ofBody? with
  | some m => .ofAnswer m
  | none => .unreachable

theorem PingStatus.verdict_of_ok {body : ByteArray} {m : Message}
    (h : Message.decode body = .ok m) : verdict (some body) = .ofAnswer m := by
  rw [verdict, Option.bind_some, Message.ofBody?, h]
  rfl

theorem PingStatus.verdict_of_error {body : ByteArray} {e : DecodeError}
    (h : Message.decode body = .error e) : verdict (some body) = .unreachable := by
  rw [verdict, Option.bind_some, Message.ofBody?, h]
  rfl

theorem Message.sayable_ping (originator : Originator) : (ping originator).Sayable := by
  cases originator <;> exact ⟨_, rfl, by decide⟩

namespace Ping

open Session (Spoken Speaks Ready)

variable {stale : List ByteArray} {stream came : ByteArray} {n k : Nat} {s : Session}
  {t : Turn} {phase : Phase}

/-- How far a ping is with these frames, while the discarding takes `k` more steps at most: behind
it, what is pending is what it did not hear and what has come since. -/
def Phase.At (stale : List ByteArray) (stream came : ByteArray) (n k : Nat) (s : Session) :
    Phase → Prop
  | .start => came = .empty ∧ stale.length + 2 ≤ k ∧
      (s.link.inbox .ctrl).pending = Frame.joined stale ∧ (s.link.outbox .ctrl).Holds stream n
  | .clearing => came = .empty ∧ (s.link.outbox .ctrl).Holds stream n ∧
      ∃ left, left.length + 1 ≤ k ∧ left ⊆ stale ∧
        Message.unheard left = Message.unheard stale ∧
        (s.link.inbox .ctrl).pending = Frame.joined left
  | .asking x =>
      (s.link.inbox .ctrl).pending = Frame.joined (Message.unheard stale) ++ came ∧
        Speaks (.ping s.originator) stream n (s.link.outbox .ctrl) x
  | .asked | .listening _ =>
      (s.link.inbox .ctrl).pending = Frame.joined (Message.unheard stale) ++ came ∧
        Spoken (.ping s.originator) stream n (s.link.outbox .ctrl)

/-- A step of a ping that is so far: it is further on, and if it ends the ping, by the verdict on
the first frame that it had not heard. -/
structure Stepped (stale : List ByteArray) (stream came : ByteArray) (n k : Nat) (t : Turn)
    (r : Session × Progress Failure Phase PingStatus) : Prop where
  ready : r.1.Ready .ctrl t.id
  works : (r.1.link.outbox .ctrl).Works
  further : r.2.Leaves (Phase.At stale stream came n (k - 1) r.1)
  verdict : ∀ result, r.2.result? = some result →
    result = .ok (.verdict (Frame.bodies (Frame.joined (Message.unheard stale) ++ came)).head?) ∧
      Spoken (.ping r.1.originator) stream n (r.1.link.outbox .ctrl)

/-- A step that does not end the ping. -/
theorem Stepped.goes (hready : s.Ready .ctrl t.id) (hworks : (s.link.outbox .ctrl).Works)
    {progress : Progress Failure Phase PingStatus} (hstate : progress.state? = some phase)
    (hat : phase.At stale stream came n (k - 1) s) :
    Stepped stale stream came n k t (s, progress) where
  ready := hready
  works := hworks
  further := Progress.leaves_of_state? hstate hat
  verdict result hresult :=
    absurd (hresult.symm.trans (Progress.result?_of_state? hstate)) (Option.some_ne_none result)

/-- …and one that does. -/
theorem Stepped.ends (hready : s.Ready .ctrl t.id) (hworks : (s.link.outbox .ctrl).Works)
    (hspoken : Spoken (.ping s.originator) stream n (s.link.outbox .ctrl)) {status : PingStatus}
    (hstatus : status =
      .verdict (Frame.bodies (Frame.joined (Message.unheard stale) ++ came)).head?) :
    Stepped stale stream came n k t (s, .ends (.ok status)) where
  ready := hready
  works := hworks
  further := trivial
  verdict := by
    rintro result hends
    obtain rfl := Option.some.inj hends
    exact ⟨congrArg Except.ok hstatus, hspoken⟩

/-- An attempt at hearing the answer. -/
theorem hearAnswer_stepped (hready : s.Ready .ctrl t.id) (hworks : (s.link.outbox .ctrl).Works)
    (hpending : (s.link.inbox .ctrl).pending = Frame.joined (Message.unheard stale) ++ came)
    (hspoken : Spoken (.ping s.originator) stream n (s.link.outbox .ctrl)) (begins : Bool)
    (deadline : Instant) :
    Stepped stale stream came n k t (hearAnswer t begins deadline s) := by
  obtain ⟨i, hhear, hhanded, hready', -⟩ := hready.hear begins (some deadline)
  have houtbox : (s.link.setInbox .ctrl i).outbox .ctrl = s.link.outbox .ctrl :=
    Link.outbox_setInbox ..
  have hworks' : ((s.link.setInbox .ctrl i).outbox .ctrl).Works := houtbox ▸ hworks
  have hspoken' : Spoken (.ping s.originator) stream n ((s.link.setInbox .ctrl i).outbox .ctrl) :=
    houtbox ▸ hspoken
  have hfirst := Inbox.body?_prospect (s.link.inbox .ctrl)
  rw [hpending] at hfirst
  rw [hearAnswer, hhear]
  cases hprospect : (s.link.inbox .ctrl).prospect with
  | frame body =>
    rw [hprospect] at hfirst
    dsimp only [Session.Heard.of]
    cases hdecode : Message.decode body with
    | ok m =>
      exact .ends hready' hworks' hspoken' (hfirst ▸ (PingStatus.verdict_of_ok hdecode).symm)
    | error e =>
      exact .ends hready' hworks' hspoken' (hfirst ▸ (PingStatus.verdict_of_error hdecode).symm)
  | failure e =>
    rw [hprospect] at hfirst
    exact .ends hready' hworks' hspoken' (by rw [← hfirst]; rfl)
  | nothing =>
    rw [hprospect] at hfirst hhanded
    cases (some deadline).any fun d => t.now.reached d with
    | true => exact .ends hready' hworks' hspoken' (by rw [← hfirst]; rfl)
    | false =>
      have hpending' : ((s.link.setInbox .ctrl i).inbox .ctrl).pending
          = Frame.joined (Message.unheard stale) ++ came := by
        rw [Link.inbox_setInbox, if_pos rfl, hhanded.pending_of_none]
        exact hpending
      exact .goes hready' hworks' rfl ⟨hpending', hspoken'⟩

/-- A frame is discarded, or nothing is heard: then the rest is what goes unheard, and it is time to
ask. -/
theorem clearing_stepped (timeout : Duration) (hready : s.Ready .ctrl t.id)
    (hworks : (s.link.outbox .ctrl).Works)
    (hshort : ∀ body ∈ stale, body.size ≤ Frame.maxLength)
    (h : Phase.clearing.At stale stream came n k s) :
    Stepped stale stream came n k t (step t timeout .clearing s) := by
  obtain ⟨rfl, hholds, left, hk, hleft, hunheard, hpending⟩ := h
  obtain ⟨i, hhear, hi, -, -, hready'⟩ :=
    hready.hear_now (fun body hb => hshort body (hleft hb)) hpending
  have houtbox : (s.link.setInbox .ctrl i).outbox .ctrl = s.link.outbox .ctrl :=
    Link.outbox_setInbox ..
  have hworks' : ((s.link.setInbox .ctrl i).outbox .ctrl).Works := houtbox ▸ hworks
  have hholds' : ((s.link.setInbox .ctrl i).outbox .ctrl).Holds stream n := houtbox ▸ hholds
  have hinbox : ((s.link.setInbox .ctrl i).inbox .ctrl).pending = Frame.joined left.tail := by
    rw [Link.inbox_setInbox, if_pos rfl]
    exact hi
  have hasks (hrest : left.tail = Message.unheard stale) :
      Stepped stale stream .empty n k t ({ s with link := s.link.setInbox .ctrl i },
        .goes (.asking (.fresh (.ping s.originator)))) := by
    refine .goes hready' hworks' rfl ⟨?_, rfl, hholds'⟩
    rw [← hrest, ByteArray.append_empty]
    exact hinbox
  rw [step, hhear]
  cases left with
  | nil => exact hasks hunheard
  | cons body rest =>
    rw [List.head?_cons, Option.bind_some]
    cases hbody : Message.ofBody? body with
    | none =>
      have hbad : ¬ Message.readable body := by simp [Message.readable, hbody]
      exact hasks ((Message.unheard_cons_of_not_readable hbad).symm.trans hunheard)
    | some m =>
      have hgood : Message.readable body := by simp [Message.readable, hbody]
      rw [Message.unheard_cons_of_readable hgood] at hunheard
      rw [List.length_cons] at hk
      exact .goes hready' hworks' rfl ⟨rfl, hholds', rest, by omega,
        List.Subset.trans (List.subset_cons_self body rest) hleft, hunheard, hinbox⟩

/-- The message is said. -/
theorem asking_stepped (timeout : Duration) (hready : s.Ready .ctrl t.id)
    (hworks : (s.link.outbox .ctrl).Works) {x : Session.Saying}
    (h : (Phase.asking x).At stale stream came n k s) :
    Stepped stale stream came n k t (step t timeout (.asking x) s) := by
  obtain ⟨hpending, hspeaks⟩ := h
  obtain ⟨o, hsession, hready', hworks', hleaves, hends⟩ :=
    hready.say hworks (Message.sayable_ping _) hspeaks
  have hpending' : ((s.link.setOutbox .ctrl o).inbox .ctrl).pending
      = Frame.joined (Message.unheard stale) ++ came := by
    rw [Link.inbox_setOutbox]
    exact hpending
  rw [step]
  dsimp only
  rw [hsession]
  generalize (s.say t .ctrl x).2 = progress at hleaves hends ⊢
  cases progress with
  | waits x' => exact .goes hready' hworks' rfl ⟨hpending', hleaves⟩
  | goes x' => exact .goes hready' hworks' rfl ⟨hpending', hleaves⟩
  | ends r =>
    obtain ⟨rfl, hspoken⟩ := hends r rfl
    exact .goes hready' hworks' rfl ⟨hpending', hspoken⟩

/-- **A step of a ping.** -/
theorem step_stepped (timeout : Duration) (hready : s.Ready .ctrl t.id)
    (hworks : (s.link.outbox .ctrl).Works)
    (hshort : ∀ body ∈ stale, body.size ≤ Frame.maxLength)
    (h : phase.At stale stream came n k s) :
    Stepped stale stream came n k t (step t timeout phase s) := by
  cases phase with
  | start =>
    obtain ⟨hcame, hk, hpending, hholds⟩ := h
    rw [step, if_neg (by simp [hready.active])]
    exact .goes hready hworks rfl
      ⟨hcame, hholds, stale, by omega, List.Subset.refl stale, rfl, hpending⟩
  | clearing => exact clearing_stepped timeout hready hworks hshort h
  | asking x => exact asking_stepped timeout hready hworks h
  | asked => exact hearAnswer_stepped hready hworks h.1 h.2 true _
  | listening deadline => exact hearAnswer_stepped hready hworks h.1 h.2 false deadline

/-! ## Histories -/

/-- A ping in flight is so far, or it has ended. -/
structure Follows (stale : List ByteArray) (stream came : ByteArray) (n k : Nat)
    (timeout : Option Duration) (role : Role) (w : Episode) : Prop where
  ready : w.session.Ready .ctrl w.id
  works : (w.session.link.outbox .ctrl).Works
  role : w.session.role = role
  phase : ∀ c, w.progress.state? = some c →
    ∃ phase, c = .ping timeout phase ∧ phase.At stale stream came n k w.session

variable {timeout : Option Duration} {role : Role} {w : Episode}

/-- What goes on around a ping adds to what has come, once the discarding is over. -/
theorem Phase.At.stir (h : phase.At stale stream came n k s) {x : Stir} (hx : x.Intact .ctrl)
    (hended : (s.link.inbox .ctrl).ended = false) (hquiet : x.bytes .ctrl = .empty ∨ k = 0) :
    phase.At stale stream (came ++ x.bytes .ctrl) n k { s with link := x.onLink s.link } := by
  obtain ⟨hpending, -, -⟩ := Stir.inbox_onLink hx hended
  -- while something is still to be discarded, nothing comes
  have hstill (hk : 0 < k) : x.bytes .ctrl = .empty := hquiet.resolve_right (by omega)
  cases phase with
  | start =>
    obtain ⟨rfl, hk, hrow, hholds⟩ := h
    have hbytes := hstill (by omega)
    rw [hbytes, ByteArray.append_empty] at hpending
    refine ⟨by rw [hbytes, ByteArray.append_empty], hk, hpending.trans hrow, ?_⟩
    exact Stir.outbox_onLink hx (fun a _ _ ho => ho.act a) hholds
  | clearing =>
    obtain ⟨rfl, hholds, left, hk, hleft, hunheard, hrow⟩ := h
    have hbytes := hstill (by omega)
    rw [hbytes, ByteArray.append_empty] at hpending
    refine ⟨by rw [hbytes, ByteArray.append_empty], ?_, left, hk, hleft, hunheard,
      hpending.trans hrow⟩
    exact Stir.outbox_onLink hx (fun a _ _ ho => ho.act a) hholds
  | asking y =>
    refine ⟨?_, Stir.outbox_onLink (P := fun o => Speaks (.ping s.originator) stream n o y) hx
      (fun a _ _ ho => ho.act a) h.2⟩
    rw [hpending, h.1, ByteArray.append_assoc]
  | asked =>
    refine ⟨?_, Stir.outbox_onLink hx (fun a _ _ ho => ho.act a) h.2⟩
    rw [hpending, h.1, ByteArray.append_assoc]
  | listening deadline =>
    refine ⟨?_, Stir.outbox_onLink hx (fun a _ _ ho => ho.act a) h.2⟩
    rw [hpending, h.1, ByteArray.append_assoc]

/-- **Whatever happens, the ping is followed.** -/
theorem Follows.step (h : Follows stale stream came n k timeout role w)
    (hshort : ∀ body ∈ stale, body.size ≤ Frame.maxLength) {e : Call.Event}
    (he : e.Intact .ctrl) (hquiet : e.bytes .ctrl = .empty ∨ k = 0) :
    Follows stale stream (came ++ e.bytes .ctrl) n (k - Call.turnCount [e]) timeout role
      (w.step e) := by
  cases e with
  | stirs x =>
    refine ⟨Stir.ready_onLink he h.ready, Stir.works_onLink he h.works, h.role, fun c hc => ?_⟩
    obtain ⟨phase, rfl, hphase⟩ := h.phase c hc
    exact ⟨phase, rfl, hphase.stir he h.ready.flows hquiet⟩
  | turns now millis =>
    change Follows stale stream (came ++ .empty) n (k - 1) timeout role _
    rw [ByteArray.append_empty]
    cases hc : w.progress.state? with
    | none =>
      rw [Episode.step_turns_of_ended hc]
      exact ⟨h.ready, h.works, h.role, fun c hc' =>
        absurd (hc'.symm.trans hc) (Option.some_ne_none c)⟩
    | some c =>
      obtain ⟨phase, rfl, hphase⟩ := h.phase c hc
      rw [Episode.step_turns hc]
      have hstep : Stepped stale stream came n k ⟨w.id, now, millis⟩ _ :=
        step_stepped (timeout.getD w.session.responseWindow) h.ready h.works hshort hphase
      have hrole := (spares_step ⟨w.id, now, millis⟩
        (timeout.getD w.session.responseWindow) phase w.session).role
      refine ⟨hstep.ready, hstep.works, hrole.trans h.role, fun c' hc' => ?_⟩
      obtain ⟨phase', hphase', rfl⟩ := Call.of_state?_lift hc'
      exact ⟨phase', rfl, hstep.further.of_state? hphase'⟩

theorem Follows.run_quiet (h : Follows stale stream came n k timeout role w)
    (hshort : ∀ body ∈ stale, body.size ≤ Frame.maxLength) {es : List Call.Event}
    (hes : ∀ e ∈ es, e.Intact .ctrl ∧ e.bytes .ctrl = .empty) :
    Follows stale stream came n (k - Call.turnCount es) timeout role (w.run es) := by
  induction es generalizing w k with
  | nil => exact h
  | cons e es ih =>
    obtain ⟨he, hquiet⟩ := hes e List.mem_cons_self
    have hstep := h.step hshort he (.inl hquiet)
    rw [hquiet, ByteArray.append_empty] at hstep
    have hrun := ih hstep fun e' he' => hes e' (List.mem_cons_of_mem e he')
    have hcount : k - Call.turnCount [e] - Call.turnCount es = k - Call.turnCount (e :: es) := by
      cases e with
      | stirs x => rfl
      | turns now millis => exact Nat.sub_right_comm ..
    exact hcount ▸ hrun

theorem Follows.run (h : Follows stale stream came n 0 timeout role w)
    (hshort : ∀ body ∈ stale, body.size ≤ Frame.maxLength) {es : List Call.Event}
    (hes : ∀ e ∈ es, e.Intact .ctrl) :
    Follows stale stream (came ++ Call.arrivals .ctrl es) n 0 timeout role (w.run es) := by
  induction es generalizing w came with
  | nil => exact ByteArray.append_empty.symm ▸ h
  | cons e es ih =>
    have hstep := h.step hshort (hes e List.mem_cons_self) (.inr rfl)
    rw [Nat.zero_sub] at hstep
    have hrun := ih hstep fun e' he' => hes e' (List.mem_cons_of_mem e he')
    rw [ByteArray.append_assoc] at hrun
    exact hrun

/-- **A ping that ends, ends with the verdict on the first frame that it did not discard.** -/
theorem Follows.ends (h : Follows stale stream came n k timeout role w)
    (hshort : ∀ body ∈ stale, body.size ≤ Frame.maxLength) {c : Call}
    (hcall : w.progress.state? = some c) {now : Instant} {millis : Nat}
    {result : Except Failure Reply}
    (hends : (w.step (.turns now millis)).progress.result? = some result) :
    result = .ok (.status
        (.verdict (Frame.bodies (Frame.joined (Message.unheard stale) ++ came)).head?)) ∧
      Spoken (.ping role.originator) stream n
        ((w.step (.turns now millis)).session.link.outbox .ctrl) := by
  obtain ⟨phase, rfl, hphase⟩ := h.phase c hcall
  have hstep : Stepped stale stream came n k ⟨w.id, now, millis⟩ _ :=
    step_stepped (timeout.getD w.session.responseWindow) h.ready h.works hshort hphase
  have hrole := (spares_step ⟨w.id, now, millis⟩
    (timeout.getD w.session.responseWindow) phase w.session).role
  rw [Episode.step_turns hcall] at hends ⊢
  change (Call.lift _ _ _).result? = _ at hends
  rw [Call.result?_lift] at hends
  obtain ⟨r, hr, rfl⟩ := Option.map_eq_some_iff.mp hends
  obtain ⟨rfl, hspoken⟩ := hstep.verdict r hr
  rw [Session.originator, hrole, h.role] at hspoken
  exact ⟨rfl, hspoken⟩

/-- **An attempt at hearing the answer ends the ping** if a frame has come or the time is up. -/
theorem hearAnswer_ends (hready : s.Ready .ctrl t.id) (begins : Bool) {deadline : Instant}
    (h : t.now.reached deadline ∨ Frame.bodies (s.link.inbox .ctrl).pending ≠ []) :
    (hearAnswer t begins deadline s).2.result?.isSome := by
  obtain ⟨i, hhear, -⟩ := hready.hear begins (some deadline)
  have hfirst := Inbox.body?_prospect (s.link.inbox .ctrl)
  rw [hearAnswer, hhear]
  cases hprospect : (s.link.inbox .ctrl).prospect with
  | frame body =>
    dsimp only [Session.Heard.of]
    cases Message.decode body <;> rfl
  | failure e => rfl
  | nothing =>
    rw [hprospect] at hfirst
    have hnone : Frame.bodies (s.link.inbox .ctrl).pending = [] :=
      List.head?_eq_none_iff.mp hfirst.symm
    have hexpired := h.resolve_right fun hsome => hsome hnone
    rw [Option.any_some, hexpired]
    rfl

section Decided

variable {id : CallId} {b : Backend} {before after : List Call.Event}
  (hready : s.Ready .ctrl id) (hworks : (s.link.outbox .ctrl).Works)
  (hstale : (s.link.inbox .ctrl).pending = Frame.joined stale)
  (hshort : ∀ body ∈ stale, body.size ≤ Frame.maxLength)
  (hbefore : ∀ e ∈ before, e.Intact .ctrl ∧ e.bytes .ctrl = .empty)
  (hturns : stale.length + 2 ≤ Call.turnCount before) (hafter : ∀ e ∈ after, e.Intact .ctrl)
include hready hworks hstale hshort hbefore hturns hafter

/-- **Once a ping has discarded what lay there**, it is followed with what comes later. -/
theorem follows : Follows stale (s.link.outbox .ctrl).stream (Call.arrivals .ctrl after)
    (s.link.outbox .ctrl).accepted 0 timeout s.role
    ((Episode.start id (.ofPing timeout) s b).run (before ++ after)) := by
  have hstart : Follows stale (s.link.outbox .ctrl).stream .empty (s.link.outbox .ctrl).accepted
      (stale.length + 2) timeout s.role (Episode.start id (.ofPing timeout) s b) := by
    refine ⟨hready, hworks, rfl, fun c hc => ?_⟩
    obtain rfl := Option.some.inj hc
    exact ⟨.start, rfl, rfl, Nat.le_refl _, hstale, Outbox.holds_self hworks.tidy⟩
  have hcleared := hstart.run_quiet hshort hbefore
  rw [Nat.sub_eq_zero_of_le hturns] at hcleared
  have hrun := hcleared.run hshort hafter
  rw [ByteArray.empty_append, ← Episode.run_append] at hrun
  exact hrun

/-- **A ping is decided by the first frame that comes after it has discarded what lay there**, if
all of that could be read: its status is the verdict on that frame, or that the daemon cannot be
reached if none has come.  By then it has written its own message, and nothing else; and while it
listens, a frame that has come or the end of its time ends it.

What comes is counted from the last of the discarding, not from the writing of the message: a frame
that comes in between the two decides, though the daemon wrote it before it could read the
message. -/
theorem decided_by_later (hreadable : ∀ body ∈ stale, Message.readable body) {c : Call}
    (hcall : ((Episode.start id (.ofPing timeout) s b).run (before ++ after)).progress.state?
      = some c) (now : Instant) (millis : Nat) :
    let w := ((Episode.start id (.ofPing timeout) s b).run (before ++ after)).step
      (.turns now millis)
    let came := Frame.bodies (Call.arrivals .ctrl after)
    (∀ result, w.progress.result? = some result →
      result = .ok (.status (.verdict came.head?)) ∧
        ∃ body, (Message.ping s.originator).encode = .ok body ∧
          (w.session.link.outbox .ctrl).wire
            = (s.link.outbox .ctrl).stream ++ Frame.wrap body) ∧
      ∀ deadline, c = .ping timeout (.listening deadline) → now.reached deadline ∨ came ≠ [] →
        w.progress.result?.isSome := by
  have hw : Follows stale _ _ _ _ timeout s.role _ :=
    follows (b := b) hready hworks hstale hshort hbefore hturns hafter
  have hnone : Message.unheard stale = [] := Message.unheard_of_readable hreadable
  intro w came
  refine ⟨fun result hends => ?_, ?_⟩
  · obtain ⟨hresult, hspoken⟩ := hw.ends hshort hcall hends
    obtain ⟨body, hbody, -, hwire⟩ := hspoken.wire
    rw [hnone, Frame.joined, ByteArray.empty_append] at hresult
    exact ⟨hresult, body, hbody, hwire⟩
  · rintro deadline rfl hdue
    obtain ⟨phase, hphase, hat⟩ := hw.phase _ hcall
    obtain ⟨-, rfl⟩ := Call.ping.inj hphase
    have hpending := hat.1
    rw [hnone, Frame.joined, ByteArray.empty_append] at hpending
    have hdue : now.reached deadline ∨ Frame.bodies (Call.arrivals .ctrl after) ≠ [] := hdue
    rw [← hpending] at hdue
    have hends := hearAnswer_ends (t := ⟨_, now, millis⟩) hw.ready false hdue
    dsimp only [w]
    rw [Episode.step_turns hcall]
    change (Call.lift _ _ _).result?.isSome
    rw [Call.result?_lift, Option.isSome_map]
    exact hends

end Decided

/-- A late refusal of an earlier ping is discarded; the answer that comes later decides. -/
theorem decided_by_later_answered :
    let answer (code : ResultCode) : ByteArray :=
      ((Message.bare .ping .daemon code).encode).toOption.getD .empty
    let s : Session :=
      { identifier := "a", role := .application, config := {}, keys := none,
        responseWindow := .ofSeconds 1,
        link := { ctrl := { inbox := { unread := Frame.wrap (answer .failure) } } } }
    let before : List Call.Event := [.turns ⟨0⟩ 0, .turns ⟨0⟩ 0, .turns ⟨0⟩ 0]
    let after : List Call.Event := [.turns ⟨0⟩ 0, .turns ⟨0⟩ 0,
      .stirs (.writes .ctrl .flushes), .turns ⟨0⟩ 0, .turns ⟨0⟩ 0,
      .stirs (.arrives .ctrl (Frame.wrap (answer .success)))]
    (((Episode.start 0 (.ofPing none) s {}).run (before ++ after)).step
      (.turns ⟨0⟩ 0)).progress.result? = some (.ok (.status .healthy)) := by
  intro answer s before after
  have hready : s.Ready .ctrl 0 := ⟨rfl, rfl, rfl, nofun⟩
  have hstale : (s.link.inbox .ctrl).pending = Frame.joined [answer .failure] := by
    decide +kernel
  have hshort : ∀ body ∈ [answer .failure], body.size ≤ Frame.maxLength := by decide +kernel
  have hreadable : ∀ body ∈ [answer .failure], Message.readable body := by decide +kernel
  have hbefore : ∀ e ∈ before, e.Intact .ctrl ∧ e.bytes .ctrl = .empty := by
    simp [before, Call.Event.Intact, Call.Event.bytes]
  have hafter : ∀ e ∈ after, e.Intact .ctrl := by
    simp [after, Call.Event.Intact, Stir.Intact, Outbox.Act.works]
  have hturns : [answer .failure].length + 2 ≤ Call.turnCount before := Nat.le_refl _
  have hcall : ((Episode.start 0 (.ofPing none) s {}).run (before ++ after)).progress.state?
      = some (.ping none (.listening (Instant.timer ⟨0⟩ (.ofSeconds 1)))) := by decide +kernel
  have hcame : Frame.bodies (Call.arrivals .ctrl after) = [answer .success] := by decide +kernel
  obtain ⟨hends, hdue⟩ := decided_by_later hready ⟨rfl, rfl⟩ hstale hshort hbefore hturns hafter
    hreadable hcall ⟨0⟩ 0
  rw [hcame] at hends hdue
  obtain ⟨result, hresult⟩ := Option.isSome_iff_exists.mp (hdue _ rfl (.inr nofun))
  have hhealthy : PingStatus.verdict [answer .success].head? = .healthy := by decide +kernel
  obtain ⟨rfl, -⟩ := hends result hresult
  rw [hresult, hhealthy]

/-- …but a frame that cannot be read lets the frames behind it pass for the answer: no frame comes
at all, and the daemon is found healthy. -/
theorem decided_by_stale :
    let stale := [⟨#[0xff]⟩, ((Message.bare .ping .daemon .success).encode).toOption.getD .empty]
    let s : Session :=
      { identifier := "a", role := .application, config := {}, keys := none,
        responseWindow := .ofSeconds 1,
        link := { ctrl := { inbox := { unread := Frame.joined stale } } } }
    let turn : Call.Event := .turns ⟨0⟩ 0
    let es := [turn, turn, turn, turn, .stirs (.writes .ctrl .flushes), turn, turn]
    Call.arrivals .ctrl es = .empty ∧
      ((Episode.start 0 (.ofPing none) s {}).run es).progress.reply? = some (.status .healthy) := by
  intro stale s turn es
  decide +kernel

end Ping

end SimRelay
