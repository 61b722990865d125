import SimRelay.Proofs.Call.Leaving
import SimRelay.Proofs.Call.Requests

/-!
# Proofs/Call/Remnants — what is left to a client when the daemon has gone

The daemon may end the stream of deliveries while some of them still lie on the channel, or are kept
from before.  A `Stock` is all of these, oldest first, and the end of the stream if it is there; what
a call is due is the oldest of them that it wants, and the end only when there is none.

A client that is pushed to reads one frame for each call, and so comes upon the end behind the last
delivery.  A client that pulls drains the channel before it looks at what it keeps, and the end of
the stream ends the call there and then: the deliveries stay where they are, and no later call gets
to them.  `Stock.gets` says so, and `Stock.handed_out` follows both kinds of client through calls of
any number with the end between any two of them.
-/

namespace SimRelay

/-! ## A channel that will bring no more -/

namespace Inbox

variable {i j : Inbox} {row : List Message} {m : Message} {last : Option LinkError}

/-- The whole frames that are pending spell these messages.  Behind them the stream has ended in this
way, or goes on and nothing more has come. -/
structure Offers (row : List Message) (last : Option LinkError) (i : Inbox) : Prop where
  spelt : (Frame.bodies i.pending).map Message.ofBody? = row.map some
  stops : Offer.due [] (Frame.ending i.pending) i.ending = last.elim .nothing .failure
  unbroken : Frame.ending i.pending = .needMore → ∀ text, i.ending ≠ some (.broken text)
  whole : last = none → i.pending = Frame.joined (Frame.bodies i.pending)
  nobody : i.line = []

theorem Offers.rests (h : i.Offers row last) (hpending : j.pending = i.pending)
    (hover : j.ending = i.ending) (hline : j.line = []) : j.Offers row last := by
  refine ⟨?_, ?_, ?_, ?_, hline⟩
  · rw [hpending]
    exact h.spelt
  · rw [hpending, hover]
    exact h.stops
  · rw [hpending, hover]
    exact h.unbroken
  · rw [hpending]
    exact h.whole

/-- What is due behind the last message. -/
theorem Offers.prospect_nil (h : i.Offers [] last) : i.prospect = last.elim .nothing .failure := by
  have hnone : Frame.bodies i.pending = [] := List.map_eq_nil_iff.mp h.spelt
  rw [prospect, hnone]
  exact h.stops

/-- **The first message is due**, and behind it the others. -/
theorem Offers.prospect_cons (h : i.Offers (m :: row) last) :
    ∃ body, i.prospect = .frame body ∧ Message.decode body = .ok m ∧
      ∀ j : Inbox, i.Handed (some body) j → j.line = [] → j.Offers row last := by
  obtain ⟨body, rest, hbodies, hbody, hrest⟩ := List.map_eq_cons_iff.mp h.spelt
  have hdecode : Message.decode body = .ok m := by
    unfold Message.ofBody? at hbody
    cases hd : Message.decode body with
    | ok m' =>
      rw [hd] at hbody
      exact congrArg Except.ok (Option.some.inj hbody)
    | error fault =>
      rw [hd] at hbody
      exact absurd hbody.symm (Option.some_ne_none m)
  refine ⟨body, by rw [prospect, hbodies]; rfl, hdecode, fun j hj hline => ?_⟩
  have hpending : i.pending = Frame.joined [body] ++ j.pending := hj.pending
  have hshort : ∀ b ∈ [body], b.size ≤ Frame.maxLength :=
    List.forall_mem_singleton.mpr (hj.short body rfl)
  obtain ⟨hfront, hending⟩ := Frame.bodies_joined_append j.pending [body] hshort
  rw [← hpending] at hfront hending
  have hleft : Frame.bodies j.pending = rest :=
    (List.cons.inj (hfront.symm.trans hbodies)).2
  refine ⟨hleft ▸ hrest, ?_, ?_, fun hnone => ?_, hline⟩
  · rw [← hending, hj.ending]
    exact h.stops
  · rw [← hending, hj.ending]
    exact h.unbroken
  · have hwhole := h.whole hnone
    rw [hfront, Frame.joined_append] at hwhole
    exact (ByteArray.append_right_inj _).mp (hpending.symm.trans hwhole)

end Inbox

/-! ## How the stream ends -/

/-- How the daemon ends the stream of deliveries. -/
inductive Farewell
  /-- It hangs up. -/
  | hangsUp
  /-- It announces a length above the limit. -/
  | oversteps (bytes : ByteArray)

namespace Farewell

def stir : Farewell → Stir
  | .hangsUp => .ends .recv
  | .oversteps bytes => .arrives .recv bytes

/-- What the client is told of it. -/
def error : Farewell → LinkError
  | .hangsUp => .closed
  | .oversteps bytes => .decode (.tooLarge (Frame.announced 0 bytes))

/-- The length is one above the limit. -/
def Proper : Farewell → Prop
  | .hangsUp => True
  | .oversteps bytes => Frame.split bytes = .error (.tooLarge (Frame.announced 0 bytes))

end Farewell

namespace Stir

variable {x : Stir} {l : Link} {ch : Channel}

/-- A stream that has ended in order stays so. -/
theorem finished_onLink (x : Stir) (h : (l.inbox ch).ending = some .finished) :
    ((x.onLink l).inbox ch).ending = some .finished := by
  have hset {c : Channel} {i : Inbox}
      (hi : (l.inbox c).ending = some .finished → i.ending = some .finished) :
      ((l.setInbox c i).inbox ch).ending = some .finished := by
    rw [Link.inbox_setInbox]
    split
    · next hc => exact hi (hc ▸ h)
    · exact h
  cases x with
  | arrives c bytes =>
    refine hset fun hover => ?_
    unfold Inbox.arrive
    split <;> exact hover
  | ends c => exact hset fun _ => rfl
  | breaks c text =>
    refine hset fun hover => ?_
    rw [Inbox.breakOff, if_pos hover]
    exact hover
  | fills c n => exact hset fun hover => hover
  | writes c a =>
    rw [onLink, Link.inbox_setOutbox]
    exact h
  | shares f => exact h

end Stir

namespace Inbox

variable {i : Inbox} {l : Link} {row : List Message} {last : Option LinkError} {x : Stir}

/-- Before the end, more may come. -/
theorem Offers.flows (h : i.Offers row none) :
    Frame.ending i.pending = .needMore ∧ i.ended = false := by
  have hstops : Offer.due [] (Frame.ending i.pending) i.ending = .nothing := h.stops
  cases hending : Frame.ending i.pending with
  | tooLarge n => rw [hending] at hstops; cases hstops
  | needMore =>
    cases hover : i.ending with
    | none => exact ⟨rfl, congrArg Option.isSome hover⟩
    | some e => rw [hending, hover] at hstops; cases hstops

/-- Where no excessive length stands behind the messages, the end is one in order. -/
theorem Offers.finished {e : LinkError} (h : i.Offers row (some e))
    (hending : Frame.ending i.pending = .needMore) : i.ending = some .finished := by
  have hstops : Offer.due [] (Frame.ending i.pending) i.ending = .failure e := h.stops
  cases hover : i.ending with
  | none => rw [hending, hover] at hstops; cases hstops
  | some e' =>
    cases e' with
    | finished => rfl
    | broken text => exact absurd hover (h.unbroken hending text)

/-- **Once the end is there, nothing that happens around the calls changes what is on offer**; before
it, nothing does but what comes in. -/
theorem Offers.onLink (h : (l.inbox .recv).Offers row last)
    (hx : last = none → x.Intact .recv ∧ x.bytes .recv = .empty) :
    ((x.onLink l).inbox .recv).Offers row last := by
  have hline := (Link.line_onLink x .recv l).trans h.nobody
  have hpending := x.pending_onLink .recv l
  cases last with
  | none =>
    obtain ⟨hintact, hbytes⟩ := hx rfl
    obtain ⟨hkeeps, hended, -⟩ := x.inbox_onLink hintact h.flows.2
    rw [hbytes, ByteArray.append_empty] at hkeeps
    exact h.rests hkeeps ((ending_of_flows hended).trans (ending_of_flows h.flows.2).symm) hline
  | some e =>
    have hstops : Offer.due [] (Frame.ending (l.inbox .recv).pending) (l.inbox .recv).ending
        = .failure e := h.stops
    cases hending : Frame.ending (l.inbox .recv).pending with
    | tooLarge n =>
      obtain ⟨hbodies, hending'⟩ := Frame.ending_append_of_tooLarge hending
        (if (l.inbox .recv).ended then .empty else x.bytes .recv)
      rw [← hpending] at hbodies hending'
      rw [hending] at hstops
      refine ⟨?_, ?_, ?_, fun hnone => absurd hnone (Option.some_ne_none e), hline⟩
      · rw [hbodies]
        exact h.spelt
      · rw [hending']
        exact hstops
      · rw [hending']
        exact nofun
    | needMore =>
      have hover := h.finished hending
      have hended : (l.inbox .recv).ended = true := congrArg Option.isSome hover
      rw [if_pos hended, ByteArray.append_empty] at hpending
      exact h.rests hpending ((x.finished_onLink hover).trans hover.symm) hline

/-- **The end of the stream comes behind what is on offer**, and the first end is the one that
counts. -/
theorem Offers.ends (h : (l.inbox .recv).Offers row last) {x : Farewell} (hx : x.Proper) :
    ((x.stir.onLink l).inbox .recv).Offers row (last.or (some x.error)) := by
  cases last with
  | some e => exact h.onLink fun hnone => absurd hnone (Option.some_ne_none e)
  | none =>
    obtain ⟨hending, hended⟩ := h.flows
    have hline := (Link.line_onLink x.stir .recv l).trans h.nobody
    have hpending := x.stir.pending_onLink .recv l
    rw [hended] at hpending
    have hwhole := h.whole rfl
    cases x with
    | hangsUp =>
      have hsame : ((Farewell.hangsUp.stir.onLink l).inbox .recv).pending = (l.inbox .recv).pending :=
        hpending.trans ByteArray.append_empty
      refine ⟨hsame ▸ h.spelt, ?_, fun _ => nofun, fun hnone => absurd hnone (Option.some_ne_none _),
        hline⟩
      rw [hsame, hending]
      rfl
    | oversteps bytes =>
      obtain ⟨-, -, -, hshort⟩ := Frame.exists_rest (l.inbox .recv).pending
      obtain ⟨hbodies, hover⟩ := Frame.bodies_joined_append bytes _ hshort
      obtain ⟨hnone, hlarge⟩ := Frame.bodies_of_error hx
      have hcomes : ((Farewell.oversteps bytes).stir.onLink l |>.inbox .recv).pending
          = Frame.joined (Frame.bodies (l.inbox .recv).pending) ++ bytes := by
        rw [← hwhole]
        exact hpending
      rw [hnone, List.append_nil] at hbodies
      refine ⟨?_, ?_, ?_, fun hnone => absurd hnone (Option.some_ne_none _), hline⟩
      · rw [hcomes, hbodies]
        exact h.spelt
      · rw [hcomes, hover, hlarge]
        rfl
      · rw [hcomes, hover, hlarge]
        exact nofun

end Inbox

/-! ## Hearing what is left -/

namespace Session

variable {s : Session} {row : List Message} {m : Message} {last : Option LinkError} {e : LinkError}

/-- The client is open, and on its inbound channel lie these deliveries, and behind them this end. -/
structure Faces (row : List Message) (last : Option LinkError) (s : Session) : Prop where
  active : s.closed = false
  isOpen : s.link.closing = false
  inbox : (s.link.inbox .recv).Offers row last
  usable : ∀ m ∈ row, m.isDelivery s.role.delivery

theorem Faces.alone (h : s.Faces row last) (id : CallId) : (s.link.inbox .recv).Alone id :=
  fun _ ho => absurd (h.inbox.nobody ▸ ho) List.not_mem_nil

/-- A client whose inbox has handed something out. -/
theorem Faces.setInbox {row' : List Message} {i : Inbox} (h : s.Faces row last)
    (hi : i.Offers row' last) (hrow : ∀ m ∈ row', m.isDelivery s.role.delivery) :
    Faces row' last { s with link := s.link.setInbox .recv i } where
  active := h.active
  isOpen := (Link.closing_setInbox ..).trans h.isOpen
  inbox := by
    rw [Link.inbox_setInbox, if_pos rfl]
    exact hi
  usable := hrow

theorem Faces.stir {x : Stir} (h : s.Faces row last)
    (hx : last = none → x.Intact .recv ∧ x.bytes .recv = .empty) :
    Faces row last { s with link := x.onLink s.link } where
  active := h.active
  isOpen := (Stir.closing_onLink s.link x).trans h.isOpen
  inbox := h.inbox.onLink hx
  usable := h.usable

theorem Faces.ends (h : s.Faces row last) {x : Farewell} (hx : x.Proper) :
    Faces row (last.or (some x.error)) { s with link := x.stir.onLink s.link } where
  active := h.active
  isOpen := (Stir.closing_onLink s.link x.stir).trans h.isOpen
  inbox := h.inbox.ends hx
  usable := h.usable

/-- **The first delivery is heard.** -/
theorem Faces.hear_cons (h : s.Faces (m :: row) last) (t : Turn) (begins : Bool)
    (deadline : Option Instant) :
    ∃ link, s.hear t .recv begins deadline = (.message m, { s with link }) ∧
      Faces row last { s with link } := by
  obtain ⟨body, hprospect, hdecode, hnext⟩ := h.inbox.prospect_cons
  obtain ⟨i, hhear, hhanded, hline⟩ :=
    hear_due begins deadline h.active h.isOpen (h.alone t.id) (by simp [hprospect])
  rw [hprospect] at hhear hhanded
  refine ⟨_, ?_, h.setInbox (hnext i hhanded hline)
    fun m' hm' => h.usable m' (List.mem_cons_of_mem m hm')⟩
  rw [hhear, Heard.of, hdecode]

/-- **Behind the last delivery the end is heard.** -/
theorem Faces.hear_end (h : s.Faces [] (some e)) (t : Turn) (begins : Bool)
    (deadline : Option Instant) :
    ∃ link, s.hear t .recv begins deadline = (.failure (.link e), { s with link }) ∧
      Faces [] (some e) { s with link } := by
  have hprospect : (s.link.inbox .recv).prospect = .failure e := h.inbox.prospect_nil
  obtain ⟨i, hhear, hhanded, hline⟩ :=
    hear_due begins deadline h.active h.isOpen (h.alone t.id) (by simp [hprospect])
  rw [hprospect] at hhear hhanded
  exact ⟨_, hhear, h.setInbox (h.inbox.rests hhanded.pending_of_none hhanded.ending hline) h.usable⟩

/-- **Before the end, nothing is heard there.** -/
theorem Faces.hear_none (h : s.Faces [] none) (t : Turn) :
    ∃ link, s.hear t .recv true (some t.now) = (.nothing, { s with link }) ∧
      Faces [] none { s with link } := by
  have hprospect : (s.link.inbox .recv).prospect = .nothing := h.inbox.prospect_nil
  have hactive : ¬ (true ∧ s.closed) := by simp [h.active]
  obtain ⟨i, hhear, hhanded, -, hline⟩ :=
    hear_alone (some t.now) hactive h.isOpen (h.alone t.id)
  rw [hprospect] at hhear hhanded
  rw [Turn.any_now] at hhear
  exact ⟨_, hhear, h.setInbox (h.inbox.rests hhanded.pending_of_none hhanded.ending
    (hline (Turn.any_now t))) h.usable⟩

end Session

/-! ## One call -/

namespace Episode

variable {s : Session} {late : List Message} {row : List Message} {last : Option LinkError}
  {p : Progress Failure Call Reply} {w : Episode} {es : List Call.Event}

/-- Nothing comes in with the event, and the inbound channel stays in order. -/
def Quiet (e : Call.Event) : Prop := e.Intact .recv ∧ e.bytes .recv = .empty

/-- A call has come so far, on a client that is `s` but for its link and keeps these deliveries. -/
structure Stage (s : Session) (late row : List Message) (last : Option LinkError)
    (p : Progress Failure Call Reply) (w : Episode) : Prop where
  session : ∃ link, w.session = { s with link, late }
  faces : w.session.Faces row last
  progress : w.progress = p

theorem Stage.stir (h : w.Stage s late row last p) {x : Stir}
    (hx : last = none → Quiet (.stirs x)) : (w.step (.stirs x)).Stage s late row last p := by
  obtain ⟨link, hsession⟩ := h.session
  refine ⟨⟨x.onLink w.session.link, ?_⟩, h.faces.stir hx, h.progress⟩
  change { w.session with link := x.onLink w.session.link } = _
  rw [hsession]

/-- A call that has ended stays so, and what is left on the channel stays there. -/
theorem Stage.ended {result : Except Failure Reply} (h : w.Stage s late row last (.ends result))
    (hes : ∀ e ∈ es, last = none → Quiet e) : (w.run es).Stage s late row last (.ends result) := by
  refine run_keeps (P := Stage s late row last (.ends result)) (fun w e he hw => ?_) hes h
  cases e with
  | stirs x => exact hw.stir he
  | turns now millis =>
    have hnone : w.progress.state? = none := by rw [hw.progress]; rfl
    rw [step_turns_of_ended hnone]
    exact hw

/-- **One step of a call**, taken at once or after whatever else happens around it. -/
theorem Stage.turn {c : Call} (late' row' : List Message) (p' : Progress Failure Call Reply)
    (hstep : ∀ (link : Link) (t : Turn) (b : Backend),
      Session.Faces row last { s with link, late } →
        ∃ link', c.step t { s with link, late } b = ({ s with link := link', late := late' }, b, p') ∧
          Session.Faces row' last { s with link := link', late := late' }) :
    ∀ {es : List Call.Event} {w : Episode}, w.Stage s late row last (.goes c) →
      (∀ e ∈ es, last = none → Quiet e) → 0 < Call.turnCount es →
      ∃ (w' : Episode) (es' : List Call.Event), w.run es = w'.run es' ∧ w'.Stage s late' row' last p' ∧
        Call.turnCount es = Call.turnCount es' + 1 ∧ ∀ e ∈ es', last = none → Quiet e
  | [], _, _, _, hcount => absurd hcount (Nat.lt_irrefl 0)
  | .stirs x :: es, w, h, hes, hcount => by
      obtain ⟨he, hes⟩ := List.forall_mem_cons.mp hes
      have hlater := Stage.turn late' row' p' hstep (h.stir he) hes hcount
      exact hlater
  | .turns now millis :: es, w, h, hes, _ => by
      obtain ⟨link, hsession⟩ := h.session
      have hfaces := h.faces
      rw [hsession] at hfaces
      obtain ⟨link', hc, hfaces'⟩ := hstep link ⟨w.id, now, millis⟩ w.store hfaces
      refine ⟨w.step (.turns now millis), es, rfl, ?_, rfl, (List.forall_mem_cons.mp hes).2⟩
      have hcall : w.progress.state? = some c := by rw [h.progress]; rfl
      rw [step_turns hcall, hsession, hc]
      exact ⟨⟨link', rfl⟩, hfaces', rfl⟩

end Episode

namespace Role

/-- What a client without a store makes of a delivery: an application has no use for a key. -/
def unstored (role : Role) (m : Message) : Option Delivery :=
  match role, m.payloadKey with
  | .application, none => some (.received m)
  | .application, some _ => none
  | .simulator, _ => some (.fetched ⟨m, none⟩)

/-- What a caller is told that gets this delivery, or comes upon this end. -/
def told (role : Role) : Except LinkError Message → Except Failure Reply
  | .ok m => .ok (.delivery (role.unstored m))
  | .error e => .error (.error (.link e))

end Role

namespace Intake

open Session (Faces)

variable {i : Intake} {s : Session} {late row : List Message} {m : Message}
  {last : Option LinkError} {e : LinkError} {id : CallId} {b : Backend} {es : List Call.Event}

/-- Without a store there is nothing to resolve. -/
theorem settle_unstored (i : Intake) (hkeys : s.keys = none) (m : Message) :
    i.settle s m = .ends (.ok (s.role.unstored m)) := by
  unfold settle Role.unstored
  cases s.role with
  | application =>
    cases m.payloadKey with
    | none => rfl
    | some key => simp [hkeys]
  | simulator =>
    cases m.payloadKey with
    | none => rfl
    | some key => simp [hkeys]

/-- How a call begins. -/
theorem step_start (hfits : i.Fits s.role) (hactive : s.closed = false) (t : Turn) (b : Backend) :
    (Call.ofIntake i).step t s b = (s, b, match s.config.mode with
      | .pull => .goes (.intake i (.pulling .draining))
      | .push => .goes (.intake i (.attending i.timeout))) := by
  obtain ⟨end?, timeout, want, rfl⟩ := hfits
  simp only [Call.ofIntake, Call.step, step]
  cases s.role <;> cases s.config.mode <;>
    simp only [Role.intake, hactive, Bool.false_eq_true, if_false] <;> rfl

/-- A step of a call that waits for what the daemon forwards. -/
theorem step_attending_cons (hkeys : s.keys = none) (hfaces : s.Faces (m :: row) last) (t : Turn)
    (b : Backend) (timeout : Option Duration) :
    ∃ link, (Call.intake i (.attending timeout)).step t s b =
        ({ s with link }, b, .ends (s.role.told (.ok m))) ∧ Faces row last { s with link } := by
  obtain ⟨link, hhear, hfaces'⟩ := hfaces.hear_cons t true (timeout.map t.now.timer)
  refine ⟨link, ?_, hfaces'⟩
  simp only [Call.step, step, hearForwarded, hhear]
  rw [if_pos (hfaces.usable m List.mem_cons_self),
    settle_unstored (s := { s with link }) i hkeys]
  rfl

theorem step_attending_end (hfaces : s.Faces [] (some e)) (t : Turn) (b : Backend)
    (timeout : Option Duration) :
    ∃ link, (Call.intake i (.attending timeout)).step t s b =
        ({ s with link }, b, .ends (s.role.told (.error e))) ∧
      Faces [] (some e) { s with link } := by
  obtain ⟨link, hhear, hfaces'⟩ := hfaces.hear_end t true (timeout.map t.now.timer)
  refine ⟨link, ?_, hfaces'⟩
  simp only [Call.step, step, hearForwarded, hhear]
  rfl

/-- A step of a call that drains the channel keeps the delivery that it hears. -/
theorem step_draining_cons (hfaces : s.Faces (m :: row) last) (t : Turn) (b : Backend) :
    ∃ link, (Call.intake i (.pulling .draining)).step t s b =
        ({ s with link, late := s.late ++ [m] }, b, .goes (.intake i (.pulling .draining))) ∧
      Faces row last { s with link, late := s.late ++ [m] } := by
  obtain ⟨link, hhear, hfaces'⟩ := hfaces.hear_cons t true (some t.now)
  refine ⟨link, ?_, hfaces'.active, hfaces'.isOpen, hfaces'.inbox, hfaces'.usable⟩
  simp only [Call.step, step, Pull.step, hhear]
  rw [if_pos (hfaces.usable m List.mem_cons_self)]
  rfl

/-- …and ends where it comes upon the end, before it has looked at what is kept… -/
theorem step_draining_end (hfaces : s.Faces [] (some e)) (t : Turn) (b : Backend) :
    ∃ link, (Call.intake i (.pulling .draining)).step t s b =
        ({ s with link }, b, .ends (s.role.told (.error e))) ∧
      Faces [] (some e) { s with link } := by
  obtain ⟨link, hhear, hfaces'⟩ := hfaces.hear_end t true (some t.now)
  refine ⟨link, ?_, hfaces'⟩
  simp only [Call.step, step, Pull.step, hhear]
  rfl

/-- …and where nothing more has come, takes the oldest that it wants. -/
theorem step_draining_none (hkeys : s.keys = none) (hfaces : s.Faces [] none)
    (hfind : s.late.find? (i.wanted s).accepts = some m) (t : Turn) (b : Backend) :
    ∃ link, (Call.intake i (.pulling .draining)).step t s b =
        ({ s with link, late := s.late.eraseP (i.wanted s).accepts }, b,
          .ends (s.role.told (.ok m))) ∧
      Faces [] none { s with link, late := s.late.eraseP (i.wanted s).accepts } := by
  obtain ⟨link, hhear, hfaces'⟩ := hfaces.hear_none t
  refine ⟨link, ?_, hfaces'.active, hfaces'.isOpen, hfaces'.inbox, hfaces'.usable⟩
  have htake : Session.takeLate (i.wanted s).accepts { s with link }
      = some (m, { s with link, late := s.late.eraseP (i.wanted s).accepts }) := by
    rw [Session.takeLate, hfind]
    rfl
  simp only [Call.step, step, Pull.step, hhear, htake, Progress.andThen, settlePulled]
  rw [settle_unstored (s := { s with link, late := _ }) i hkeys]
  rfl

/-- **A call that drains the channel** keeps all that lies there. -/
theorem run_draining_cons (i : Intake) : ∀ {row late : List Message} {w : Episode}
    {es : List Call.Event}, w.Stage s late row last (.goes (.intake i (.pulling .draining))) →
      (∀ e ∈ es, last = none → Episode.Quiet e) → row.length ≤ Call.turnCount es →
      ∃ (w' : Episode) (es' : List Call.Event), w.run es = w'.run es' ∧
        w'.Stage s (late ++ row) [] last (.goes (.intake i (.pulling .draining))) ∧
        Call.turnCount es = Call.turnCount es' + row.length ∧
        ∀ e ∈ es', last = none → Episode.Quiet e
  | [], late, w, es, h, hes, _ =>
      ⟨w, es, rfl, (List.append_nil late).symm ▸ h, rfl, hes⟩
  | m :: row, late, w, es, h, hes, hcount => by
      rw [List.length_cons] at hcount
      obtain ⟨w', es', hrun, hw', hcount', hes'⟩ := h.turn (late ++ [m]) row _
        (fun _ t b hfaces => step_draining_cons hfaces t b) hes (by omega)
      obtain ⟨w'', es'', hrun', hw'', hcount'', hes''⟩ :=
        run_draining_cons i hw' hes' (by omega)
      refine ⟨w'', es'', hrun.trans hrun', ?_, ?_, hes''⟩
      · rw [List.append_cons]
        exact hw''
      · rw [List.length_cons]
        omega

end Intake

/-! ## What a call is due, and what it gets -/

/-- The deliveries that are kept and those that lie on the channel, oldest first, and the end of the
stream if it is there. -/
structure Stock where
  kept : List Message
  last : Option LinkError := none

namespace Stock

/-- What a call is due: the oldest delivery that it wants, and when there is none, the end.  Where
there is neither, it has to wait. -/
def due (wanted : Message → Bool) (k : Stock) : Option (Except LinkError Message × Stock) :=
  match k.kept.find? wanted with
  | some m => some (.ok m, { k with kept := k.kept.eraseP wanted })
  | none => k.last.map fun e => (.error e, k)

theorem due_of_find?_some {wanted : Message → Bool} {k : Stock} {m : Message}
    (h : k.kept.find? wanted = some m) :
    k.due wanted = some (.ok m, { k with kept := k.kept.eraseP wanted }) := by
  rw [due, h]

theorem due_of_find?_none {wanted : Message → Bool} {k : Stock} (h : k.kept.find? wanted = none) :
    k.due wanted = k.last.map fun e => (.error e, k) := by
  rw [due, h]

/-- What a call gets: what it is due, unless it pulls and the end is there. -/
def gets (mode : SystemMode) (wanted : Message → Bool) (k : Stock) :
    Option (Except LinkError Message × Stock) :=
  match mode, k.last with
  | .pull, some e => some (.error e, k)
  | _, _ => k.due wanted

end Stock

/-- The deliveries that a call is content with: one that is pushed to takes what comes. -/
def Session.wants (s : Session) (i : Intake) : Message → Bool :=
  match s.config.mode with
  | .pull => (i.wanted s).accepts
  | .push => fun _ => true

/-- An open client without a store has these deliveries before it, and this end.  A client that is
pushed to keeps nothing. -/
structure Session.Stocks (k : Stock) (s : Session) : Prop where
  unstored : s.keys = none
  pushed : s.config.mode = .push → s.late = []
  stock : ∃ row, s.late ++ row = k.kept ∧ s.Faces row k.last

namespace Intake

variable {i : Intake} {s : Session} {k k' : Stock} {id : CallId} {b : Backend}
  {es : List Call.Event} {r : Except LinkError Message}

/-- The phase in which a call takes up what is there. -/
def taking (i : Intake) : SystemMode → Phase
  | .pull => .pulling .draining
  | .push => .attending i.timeout

/-- A call as it begins. -/
theorem run_begins (id : CallId) (b : Backend) {row : List Message} {last : Option LinkError}
    (hfits : i.Fits s.role) (hfaces : s.Faces row last)
    (hes : ∀ e ∈ es, last = none → Episode.Quiet e) (hturns : 0 < Call.turnCount es) :
    ∃ (w : Episode) (es' : List Call.Event),
      (Episode.start id (.ofIntake i) s b).run es = w.run es' ∧
      w.Stage s s.late row last (.goes (.intake i (i.taking s.config.mode))) ∧
      Call.turnCount es = Call.turnCount es' + 1 ∧ ∀ e ∈ es', last = none → Episode.Quiet e := by
  have hstart : (Episode.start id (.ofIntake i) s b).Stage s s.late row last
      (.goes (.ofIntake i)) := ⟨⟨s.link, rfl⟩, hfaces, rfl⟩
  refine hstart.turn s.late row _ (fun link t b hfaces => ⟨link, ?_, hfaces⟩) hes hturns
  rw [step_start (s := { s with link }) hfits hfaces.active]
  cases s.config.mode <;> rfl

/-- **A call of a client that is pushed to gets what it is due.** -/
theorem run_push (id : CallId) (b : Backend) (hkeys : s.keys = none)
    (hmode : s.config.mode = .push) (hfits : i.Fits s.role) (hfaces : s.Faces k.kept k.last)
    (hes : ∀ e ∈ es, k.last = none → Episode.Quiet e) (hturns : 2 ≤ Call.turnCount es)
    (hdue : k.due (fun _ => true) = some (r, k')) :
    ((Episode.start id (.ofIntake i) s b).run es).Stage s s.late k'.kept k'.last
      (.ends (s.role.told r)) := by
  obtain ⟨w, es', hrun, hw, hcount, hes'⟩ := run_begins id b hfits hfaces hes (by omega)
  rw [hrun]
  rw [hmode] at hw
  obtain ⟨kept, last⟩ := k
  cases kept with
  | nil =>
    cases last with
    | none => exact absurd hdue (Option.some_ne_none _).symm
    | some e =>
      obtain ⟨rfl, rfl⟩ := Prod.mk.inj (Option.some.inj hdue)
      obtain ⟨w', es'', hrun', hw', -, hes''⟩ := hw.turn s.late [] (.ends (s.role.told (.error e)))
        (fun link t b hfaces => step_attending_end (s := { s with link }) hfaces t b i.timeout)
        hes' (by omega)
      rw [hrun']
      exact hw'.ended hes''
  | cons m row =>
    obtain ⟨rfl, rfl⟩ := Prod.mk.inj (Option.some.inj hdue)
    obtain ⟨w', es'', hrun', hw', -, hes''⟩ := hw.turn s.late row (.ends (s.role.told (.ok m)))
      (fun link t b hfaces => step_attending_cons (s := { s with link }) hkeys hfaces t b i.timeout)
      hes' (by omega)
    rw [hrun']
    exact hw'.ended hes''

/-- **A call of a client that pulls gets what it is due until the end is there, and then the end**;
and what lay on the channel is kept. -/
theorem run_pull (id : CallId) (b : Backend) {row : List Message} (hkeys : s.keys = none)
    (hmode : s.config.mode = .pull) (hfits : i.Fits s.role) (hfaces : s.Faces row k.last)
    (hkept : s.late ++ row = k.kept) (hes : ∀ e ∈ es, k.last = none → Episode.Quiet e)
    (hturns : row.length + 2 ≤ Call.turnCount es)
    (hgets : k.gets .pull (i.wanted s).accepts = some (r, k')) :
    ((Episode.start id (.ofIntake i) s b).run es).Stage s k'.kept [] k'.last
      (.ends (s.role.told r)) := by
  obtain ⟨w, es', hrun, hw, hcount, hes'⟩ := run_begins id b hfits hfaces hes (by omega)
  rw [hmode] at hw
  obtain ⟨w', es'', hrun', hw', hcount', hes''⟩ := run_draining_cons i hw hes' (by omega)
  rw [hrun, hrun']
  rw [hkept] at hw'
  obtain ⟨kept, last⟩ := k
  cases last with
  | some e =>
    obtain ⟨rfl, rfl⟩ := Prod.mk.inj (Option.some.inj hgets)
    obtain ⟨v, vs, hrun'', hv, -, hvs⟩ := hw'.turn kept [] (.ends (s.role.told (.error e)))
      (fun link t b hfaces => step_draining_end (s := { s with link, late := kept }) hfaces t b)
      hes'' (by omega)
    rw [hrun'']
    exact hv.ended hvs
  | none =>
    cases hfind : kept.find? (i.wanted s).accepts with
    | none =>
      have hdue : Stock.due _ ⟨kept, none⟩ = some (r, k') := hgets
      rw [Stock.due_of_find?_none hfind] at hdue
      exact absurd hdue (Option.some_ne_none _).symm
    | some m =>
      have hdue : Stock.due _ ⟨kept, none⟩ = some (r, k') := hgets
      rw [Stock.due_of_find?_some hfind] at hdue
      obtain ⟨rfl, rfl⟩ := Prod.mk.inj (Option.some.inj hdue)
      obtain ⟨v, vs, hrun'', hv, -, hvs⟩ := hw'.turn (kept.eraseP (i.wanted s).accepts) []
        (.ends (s.role.told (.ok m)))
        (fun link t b hfaces => step_draining_none (s := { s with link, late := kept }) hkeys hfaces
          (by rw [wanted_congr rfl i]; exact hfind) t b)
        hes'' (by omega)
      rw [hrun'']
      exact hv.ended hvs

end Intake

/-! ## Calls, and the end between them -/

namespace Stock

variable {k k' : Stock} {wanted : Message → Bool} {r : Except LinkError Message}

theorem gets_push (wanted : Message → Bool) (k : Stock) : k.gets .push wanted = k.due wanted := by
  simp [gets]

theorem gets_of_none (mode : SystemMode) (wanted : Message → Bool) (h : k.last = none) :
    k.gets mode wanted = k.due wanted := by
  cases mode <;> simp [gets, h]

theorem gets_pull_of_some {e : LinkError} (h : k.last = some e) :
    k.gets .pull wanted = some (.error e, k) := by
  simp [gets, h]

/-- What is handed out is gone, and nothing else is. -/
theorem due_spec (h : k.due wanted = some (r, k')) :
    k'.last = k.last ∧ k'.kept.length ≤ k.kept.length := by
  cases hfind : k.kept.find? wanted with
  | some m =>
    rw [due_of_find?_some hfind] at h
    obtain ⟨-, rfl⟩ := Prod.mk.inj (Option.some.inj h)
    exact ⟨rfl, List.length_eraseP_le⟩
  | none =>
    rw [due_of_find?_none hfind] at h
    obtain ⟨e, -, heq⟩ := Option.map_eq_some_iff.mp h
    obtain ⟨-, rfl⟩ := Prod.mk.inj heq
    exact ⟨rfl, Nat.le_refl _⟩

theorem gets_spec {mode : SystemMode} (h : k.gets mode wanted = some (r, k')) :
    k'.last = k.last ∧ k'.kept.length ≤ k.kept.length := by
  cases mode with
  | push => exact due_spec (gets_push wanted k ▸ h)
  | pull =>
    cases hlast : k.last with
    | none => exact hlast ▸ due_spec (gets_of_none .pull wanted hlast ▸ h)
    | some e =>
      rw [gets_pull_of_some hlast] at h
      obtain ⟨-, rfl⟩ := Prod.mk.inj (Option.some.inj h)
      exact ⟨hlast, Nat.le_refl _⟩

/-- What happens to a client whose daemon goes. -/
inductive Event
  /-- A call is made, with these events from its beginning on. -/
  | calls (id : CallId) (i : Intake) (es : List Call.Event)
  | ends (x : Farewell)

/-- The intake that is asked for, if a call is made. -/
def Event.intake? : Event → Option Intake
  | .calls _ i _ => some i
  | .ends _ => none

/-- The calls are made by a client of this role and take so many turns at least.  Nothing comes in
during a call before the stream has ended. -/
def Fair (role : Role) (turns : Nat) : Option LinkError → List Event → Prop
  | _, [] => True
  | last, .calls _ i es :: rest => i.Fits role ∧ turns ≤ Call.turnCount es ∧
      (∀ e ∈ es, last = none → Episode.Quiet e) ∧ Fair role turns last rest
  | last, .ends x :: rest => x.Proper ∧ Fair role turns (last.or (some x.error)) rest

/-- What calls get one after another, if each gets what this rule says, and what is left. -/
def run (rule : (Message → Bool) → Stock → Option (Except LinkError Message × Stock))
    (wants : Intake → Message → Bool) :
    List Event → Stock → Option (List (Except LinkError Message) × Stock)
  | [], k => some ([], k)
  | .calls _ i _ :: rest, k => do
    let (r, k) ← rule (wants i) k
    let (results, k) ← run rule wants rest k
    return (r :: results, k)
  | .ends x :: rest, k => run rule wants rest { k with last := k.last.or (some x.error) }

end Stock

/-- The results of the calls in order, and the client behind them. -/
def Session.serve : List Stock.Event → Session → Backend →
    List (Option (Except Failure Reply)) × Session
  | [], s, _ => ([], s)
  | .calls id i es :: rest, s, b =>
    let w := (Episode.start id (.ofIntake i) s b).run es
    let (results, s) := serve rest w.session w.store
    (w.progress.result? :: results, s)
  | .ends x :: rest, s, b => serve rest { s with link := x.stir.onLink s.link } b

namespace Session

variable {s : Session} {k k' : Stock} {r : Except LinkError Message} {b : Backend}

/-- **A call gets what the stock has for it**, and leaves what the stock has left. -/
theorem Stocks.call (h : s.Stocks k) {i : Intake} (id : CallId) (b : Backend)
    {es : List Call.Event} (hfits : i.Fits s.role) (hturns : k.kept.length + 2 ≤ Call.turnCount es)
    (hes : ∀ e ∈ es, k.last = none → Episode.Quiet e)
    (hgets : k.gets s.config.mode (s.wants i) = some (r, k')) :
    let w := (Episode.start id (.ofIntake i) s b).run es
    w.progress = .ends (s.role.told r) ∧ w.session.Stocks k' ∧
      ∃ link late, w.session = { s with link, late } := by
  intro w
  obtain ⟨row, hkept, hfaces⟩ := h.stock
  cases hmode : s.config.mode with
  | push =>
    obtain rfl : row = k.kept := by rw [← hkept, h.pushed hmode, List.nil_append]
    have hdue : k.due (fun _ => true) = some (r, k') := by
      rw [hmode, Stock.gets_push, wants, hmode] at hgets
      exact hgets
    have hw : w.Stage s s.late k'.kept k'.last _ :=
      Intake.run_push id b h.unstored hmode hfits hfaces hes (by omega) hdue
    obtain ⟨link, hsession⟩ := hw.session
    have hfaces' := hw.faces
    rw [hsession] at hfaces' ⊢
    refine ⟨hw.progress, ⟨h.unstored, fun _ => h.pushed hmode, k'.kept, ?_, hfaces'⟩, link, s.late,
      rfl⟩
    change s.late ++ k'.kept = k'.kept
    rw [h.pushed hmode, List.nil_append]
  | pull =>
    have hlength : row.length ≤ k.kept.length := by
      rw [← hkept, List.length_append]
      omega
    have hpulls : k.gets .pull (i.wanted s).accepts = some (r, k') := by
      rw [hmode, wants, hmode] at hgets
      exact hgets
    have hw : w.Stage s k'.kept [] k'.last _ :=
      Intake.run_pull id b h.unstored hmode hfits hfaces hkept hes (by omega) hpulls
    obtain ⟨link, hsession⟩ := hw.session
    have hfaces' := hw.faces
    rw [hsession] at hfaces' ⊢
    have hpulling : s.config.mode ≠ .push := by simp [hmode]
    exact ⟨hw.progress, ⟨h.unstored, fun hpush => absurd hpush hpulling, [],
      List.append_nil _, hfaces'⟩, link, k'.kept, rfl⟩

theorem Stocks.ends (h : s.Stocks k) {x : Farewell} (hx : x.Proper) :
    Stocks { k with last := k.last.or (some x.error) } { s with link := x.stir.onLink s.link } := by
  obtain ⟨row, hkept, hfaces⟩ := h.stock
  exact ⟨h.unstored, h.pushed, row, hkept, hfaces.ends hx⟩

/-- What a client is content with depends neither on its link nor on what it keeps. -/
theorem wants_with (s : Session) (link : Link) (late : List Message) :
    wants { s with link, late } = s.wants := by
  funext i
  have hwanted : i.wanted { s with link, late } = i.wanted s := Intake.wanted_congr rfl i
  rw [wants, wants, hwanted]

/-- **Calls get one after another what the stock has for them**, wherever the end comes. -/
theorem Stocks.serve (h : s.Stocks k) (b : Backend) {turns : Nat} {events : List Stock.Event}
    {results : List (Except LinkError Message)} (hlength : k.kept.length + 2 ≤ turns)
    (hfair : Stock.Fair s.role turns k.last events)
    (hrun : k.run (Stock.gets s.config.mode) s.wants events = some (results, k')) :
    (s.serve events b).1 = results.map (fun r => some (s.role.told r)) ∧
      (s.serve events b).2.Stocks k' := by
  induction events generalizing s k b results with
  | nil =>
    obtain ⟨rfl, rfl⟩ := Prod.mk.inj (Option.some.inj hrun)
    exact ⟨rfl, h⟩
  | cons x rest ih =>
    cases x with
    | calls id i es =>
      obtain ⟨hfits, hturns, hquiet, hfair⟩ := hfair
      obtain ⟨⟨r, k₁⟩, hgets, hrun⟩ := Option.bind_eq_some_iff.mp hrun
      obtain ⟨⟨later, k₂⟩, hrest, hresults⟩ := Option.bind_eq_some_iff.mp hrun
      obtain ⟨rfl, rfl⟩ := Prod.mk.inj (Option.some.inj hresults)
      obtain ⟨hlast, hless⟩ := Stock.gets_spec hgets
      obtain ⟨hprogress, hstocks, link, late, hsession⟩ :=
        h.call id b hfits (by omega) hquiet hgets
      rw [hsession] at hstocks
      rw [← s.wants_with link late] at hrest
      obtain ⟨hlater, hstocks'⟩ := ih hstocks
        ((Episode.start id (.ofIntake i) s b).run es).store (by omega) (hlast ▸ hfair) hrest
      rw [Session.serve]
      dsimp only
      rw [hprogress, hsession, hlater]
      exact ⟨rfl, hstocks'⟩
    | ends x =>
      obtain ⟨hx, hfair⟩ := hfair
      rw [Stock.run, ← s.wants_with (x.stir.onLink s.link) s.late] at hrun
      exact ih (h.ends hx) b hlength hfair hrun

end Session

namespace Stock

variable {k : Stock} {wants : Intake → Message → Bool} {events : List Event}

/-- Rules that agree before the end agree on calls with no end between them. -/
theorem run_of_none (mode : SystemMode) : ∀ {events : List Event} {k : Stock}, k.last = none →
    (∀ x ∈ events, x.intake?.isSome) → k.run (gets mode) wants events = k.run due wants events
  | [], _, _, _ => rfl
  | .ends x :: _, _, _, hcalls => absurd (hcalls _ List.mem_cons_self) Bool.false_ne_true
  | .calls id i es :: rest, k, hlast, hcalls => by
      rw [run, run, gets_of_none mode (wants i) hlast]
      cases hdue : k.due (wants i) with
      | none => rfl
      | some p =>
        obtain ⟨r, k'⟩ := p
        have hnone := (due_spec hdue).1.trans hlast
        exact congrArg (Option.bind · _) (run_of_none mode hnone
          fun x hx => hcalls x (List.mem_cons_of_mem _ hx))

/-- Where the end is there, a client that pulls is told of nothing else, and the stock stays. -/
theorem run_pull_of_some {e : LinkError} : ∀ {events : List Event} {k : Stock}, k.last = some e →
    k.run (gets .pull) wants events
      = some ((events.filterMap Event.intake?).map fun _ => .error e, k)
  | [], _, _ => rfl
  | .ends x :: rest, k, hlast => by
      have hsame : { k with last := k.last.or (some x.error) } = k := by
        rw [hlast, Option.some_or, ← hlast]
      rw [run, hsame]
      exact run_pull_of_some hlast
  | .calls id i es :: rest, k, hlast => by
      rw [run, gets_pull_of_some hlast]
      change (run (gets .pull) wants rest k).bind _ = _
      rw [run_pull_of_some hlast]
      rfl

end Stock

/-! ## A client that is pushed to keeps nothing -/

namespace Desk

variable {h : Handshake} {w : Desk} {c : Call}

/-- Only a pull keeps deliveries, and where they are pushed nobody pulls. -/
theorem Departs.late_turn {role : Role} (h : w.Departs role) {t : Turn} (hc : (t.id, c) ∈ w.calls)
    (hpush : w.session.config.mode = .push) :
    (w.turn t c).session.late = w.session.late := by
  obtain ⟨hvoices, -, -⟩ := h.inFlight _ hc
  rw [session_turn]
  cases hreceives : c.receives with
  | false => exact (Call.step_spares t hreceives w.session w.store).late
  | true =>
    cases c with
    | intake i phase =>
      have hpulls : ∀ p, phase ≠ .pulling p := by
        rintro p rfl
        have hpull : w.session.config.mode = .pull := hvoices.1.1
        rw [hpush] at hpull
        cases hpull
      obtain ⟨⟨link, hsession⟩, -⟩ := i.step_rests t w.session w.store hpulls
      change (i.step t phase w.session w.store).1.late = _
      rw [hsession]
    | _ => cases hreceives

/-- **A client that is pushed to keeps nothing**, whatever has happened to it. -/
theorem Reached.late_of_push (hw : Reached h w) (hpush : w.session.config.mode = .push) :
    w.session.late = [] := by
  induction hw with
  | starts => rfl
  | @goes w e hbefore hsuits ih =>
    have hdeparts := hbefore.departs
    cases e with
    | begins id c =>
      rw [Desk.step] at hpush ⊢
      split at hpush
      · next hbegins =>
        rw [if_pos hbegins]
        exact ih hpush
      · next hbegins =>
        rw [if_neg hbegins]
        exact ih hpush
    | turns t =>
      rw [Desk.step] at hpush ⊢
      cases hcall : w.calls.lookup t.id with
      | none =>
        rw [hcall] at hpush
        exact ih hpush
      | some c =>
        rw [hcall] at hpush
        have hc := mem_of_lookup hcall
        obtain ⟨hvoices, hbelongs, -⟩ := hdeparts.inFlight _ hc
        have hkeeps := (Call.step_voiced t hvoices (hdeparts.plays ▸ hbelongs) w.store).keeps
        have hmode : w.session.config.mode = .push := hkeeps.config ▸ hpush
        exact (hdeparts.late_turn hc hmode).trans (ih hmode)
    | drops id =>
      rw [Desk.step] at hpush ⊢
      cases hcall : w.calls.lookup id with
      | none =>
        rw [hcall] at hpush
        exact ih hpush
      | some c =>
        rw [hcall] at hpush
        exact ih hpush
    | stirs x => exact ih hpush

end Desk

/-! ## What is handed out -/

namespace Stock

variable {s : Session} {k : Stock} {events : List Event}

/-- **Deliveries that came before the end are handed out by a client that is pushed to, and not by
one that pulls.**  Let an open client without a store have deliveries before it, kept or on the
inbound channel, and let calls be made one after another, each with turns enough to take up all of
them; the daemon ends the stream between any two of them, or has ended it before, by hanging up or
by announcing a length above the limit.  If every call finds a delivery that it wants or the end,
each gets what `Stock.gets` says, and the client is left with the rest:

* where deliveries are pushed, that is what it is due: the oldest that is left, and only when none
  is left the end;
* where they are pulled, it is what the call is due while the end is not there: the oldest that it
  wants among those kept and those on the channel;
* but once the end is there, every call of a client that pulls gets the end, whatever it wants, and
  all that is left stays where it is. -/
theorem handed_out (h : s.Stocks k) {turns : Nat} (hturns : k.kept.length + 2 ≤ turns)
    (hfair : Fair s.role turns k.last events) (b : Backend) :
    (∀ results k', k.run (gets s.config.mode) s.wants events = some (results, k') →
      (s.serve events b).1 = results.map (fun r => some (s.role.told r)) ∧
        (s.serve events b).2.Stocks k') ∧
    (s.config.mode = .push →
      k.run (gets s.config.mode) s.wants events = k.run due s.wants events) ∧
    (s.config.mode = .pull → k.last = none → (∀ x ∈ events, x.intake?.isSome) →
      k.run (gets s.config.mode) s.wants events = k.run due s.wants events) ∧
    (s.config.mode = .pull → ∀ e, k.last = some e →
      k.run (gets s.config.mode) s.wants events
        = some ((events.filterMap Event.intake?).map fun _ => .error e, k)) := by
  refine ⟨fun results k' hrun => h.serve b hturns hfair hrun, fun hpush => ?_,
    fun _ hnone hcalls => run_of_none _ hnone hcalls, fun hpull e hlast => ?_⟩
  · have hrule : gets .push = due := by
      funext wanted k
      exact gets_push wanted k
    rw [hpush, hrule]
  · rw [hpull]
    exact run_pull_of_some hlast

/-- Two deliveries lie on the channel of a client that is pushed to, and the daemon hangs up behind
its first call. -/
theorem handed_out_pushed :
    let letter (text : String) : Message :=
      { Message.bare .forward .daemon .message with payload := some (.inline text.toUTF8) }
    let body (m : Message) : ByteArray := m.encode.toOption.getD .empty
    let s : Session :=
      { identifier := "alice", role := .application, config := { mode := .push }, keys := none,
        responseWindow := .ofSeconds 1,
        link := { recv := { inbox :=
          { unread := Frame.joined [body (letter "one"), body (letter "two")] } } } }
    let receives (id : CallId) : Event :=
      .calls id (.receive none none) [.turns ⟨0⟩ 0, .turns ⟨0⟩ 0, .turns ⟨0⟩ 0, .turns ⟨0⟩ 0]
    (s.serve [receives 0, .ends .hangsUp, receives 1, receives 2] {}).1 =
      [some (.ok (.delivery (some (.received (letter "one"))))),
        some (.ok (.delivery (some (.received (letter "two"))))),
        some (.error (.error (.link .closed)))] := by
  intro letter body s receives
  have hoffers : (s.link.inbox .recv).Offers [letter "one", letter "two"] none :=
    ⟨by decide +kernel, by decide +kernel, fun _ => nofun, fun _ => by decide +kernel, rfl⟩
  have husable : ∀ m ∈ [letter "one", letter "two"], m.isDelivery s.role.delivery := by decide
  have hstocks : s.Stocks ⟨[letter "one", letter "two"], none⟩ :=
    ⟨rfl, fun _ => rfl, _, rfl, rfl, rfl, hoffers, husable⟩
  have hfits : Intake.Fits s.role (.receive none none) := ⟨none, none, false, rfl⟩
  have hquiet : ∀ e ∈ ([.turns ⟨0⟩ 0, .turns ⟨0⟩ 0, .turns ⟨0⟩ 0, .turns ⟨0⟩ 0] : List Call.Event),
      (none : Option LinkError) = none → Episode.Quiet e := by
    simp [Episode.Quiet, Call.Event.Intact, Call.Event.bytes]
  have hlate {e : Call.Event} (h : some LinkError.closed = none) : Episode.Quiet e :=
    absurd h (Option.some_ne_none _)
  have hfair : Fair s.role 4 none [receives 0, .ends .hangsUp, receives 1, receives 2] :=
    ⟨hfits, Nat.le_refl _, hquiet, trivial, hfits, Nat.le_refl _, fun _ _ => hlate, hfits,
      Nat.le_refl _, fun _ _ => hlate, trivial⟩
  obtain ⟨hserve, -⟩ := handed_out hstocks (Nat.le_refl 4) hfair {}
  exact (hserve _ _ rfl).1

/-- …but where they are pulled, one that is kept and one that lies on the channel are there for good:
the call that wants them hears that the channel is closed, and so does the next. -/
theorem handed_out_pulled :
    let letter (text : String) : Message :=
      { Message.bare .receive .daemon .message with
        metadata := some { source := some "bob", destination := some "alice" }
        payload := some (.inline text.toUTF8) }
    let body : ByteArray := (letter "two").encode.toOption.getD .empty
    let s : Session :=
      { identifier := "alice", role := .application, config := { mode := .pull }, keys := none,
        responseWindow := .ofSeconds 1, late := [letter "one"],
        link := { recv := { inbox := { unread := Frame.wrap body } } } }
    let receives (id : CallId) : Event :=
      .calls id (.receive none none) [.turns ⟨0⟩ 0, .turns ⟨0⟩ 0, .turns ⟨0⟩ 0, .turns ⟨0⟩ 0]
    let events := [.ends .hangsUp, receives 0, receives 1]
    let closed := some (.error (.error (.link .closed)))
    s.Stocks ⟨[letter "one", letter "two"], none⟩ ∧
      run due s.wants events ⟨[letter "one", letter "two"], none⟩
        = some ([.ok (letter "one"), .ok (letter "two")], ⟨[], some .closed⟩) ∧
      (s.serve events {}).1 = [closed, closed] ∧
      (s.serve events {}).2.Stocks ⟨[letter "one", letter "two"], some .closed⟩ := by
  intro letter body s receives events closed
  have hoffers : (s.link.inbox .recv).Offers [letter "two"] none :=
    ⟨by decide +kernel, by decide +kernel, fun _ => nofun, fun _ => by decide +kernel, rfl⟩
  have husable : ∀ m ∈ [letter "two"], m.isDelivery s.role.delivery := by decide
  have hpulls : s.config.mode ≠ .push := by decide
  have hstocks : s.Stocks ⟨[letter "one", letter "two"], none⟩ :=
    ⟨rfl, fun hpush => absurd hpush hpulls, [letter "two"], rfl, rfl, rfl, hoffers, husable⟩
  have hfits : Intake.Fits s.role (.receive none none) := ⟨none, none, false, rfl⟩
  have hlate {e : Call.Event} (h : some LinkError.closed = none) : Episode.Quiet e :=
    absurd h (Option.some_ne_none _)
  have hfair : Fair s.role 4 none events :=
    ⟨trivial, hfits, Nat.le_refl _, fun _ _ => hlate, hfits, Nat.le_refl _, fun _ _ => hlate, trivial⟩
  have hdue : run due s.wants events ⟨[letter "one", letter "two"], none⟩
      = some ([.ok (letter "one"), .ok (letter "two")], ⟨[], some .closed⟩) := by
    have hwants : s.wants (.receive none none) (letter "one") ∧
        s.wants (.receive none none) (letter "two") := by decide +kernel
    simp [run, events, receives, due, hwants.1, hwants.2, Farewell.error]
  obtain ⟨hserve, hleft⟩ := hstocks.serve {} (Nat.le_refl 4) hfair
    (run_pull_of_some (k := ⟨[letter "one", letter "two"], some .closed⟩) rfl)
  exact ⟨hstocks, hdue, hserve, hleft⟩

end Stock

end SimRelay
