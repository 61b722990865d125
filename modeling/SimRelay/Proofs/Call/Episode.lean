import SimRelay.Call.Basic
import SimRelay.Proofs.Link.Reassembly
import SimRelay.Proofs.Link.Writing
import SimRelay.Proofs.Session.Undisturbed

/-!
# Proofs/Call/Episode — one call in flight, and what goes on around it

Around a call the peer writes and ends streams, streams break off, the reader takes bytes in,
writers get on or fail, and other clients use the store; all of this is a `Stir`.  An `Episode` is a
session, its store and the progress of one call, and a history is a list of stirs and turns.

A channel is intact in a history that neither ends or breaks the peer's stream nor fails a writer on
it (`Event.Intact`).  Then what is pending on it grows by what arrives, until the call reads, and its
outbox goes through acts of a writer at work, until the call writes.
-/

namespace SimRelay

/-- What can happen around a call. -/
inductive Stir
  /-- The peer writes. -/
  | arrives (ch : Channel) (bytes : ByteArray)
  /-- The peer ends its stream. -/
  | ends (ch : Channel)
  /-- The stream breaks off. -/
  | breaks (ch : Channel) (text : String)
  /-- The reader takes in some of what there is to read. -/
  | fills (ch : Channel) (n : Nat)
  /-- The writer gets on. -/
  | writes (ch : Channel) (a : Outbox.Act)
  /-- The store changes by what others do. -/
  | shares (f : Backend → Backend)

namespace Stir

def onLink (l : Link) : Stir → Link
  | .arrives ch bytes => l.setInbox ch ((l.inbox ch).arrive bytes)
  | .ends ch => l.setInbox ch (l.inbox ch).finish
  | .breaks ch text => l.setInbox ch ((l.inbox ch).breakOff text)
  | .fills ch n => l.setInbox ch ((l.inbox ch).fillSome n)
  | .writes ch a => l.setOutbox ch ((l.outbox ch).act a)
  | .shares _ => l

def onStore (b : Backend) : Stir → Backend
  | .shares f => f b
  | _ => b

/-- The bytes that come in on a channel. -/
def bytes (ch : Channel) : Stir → ByteArray
  | .arrives c bytes => if c = ch then bytes else .empty
  | _ => .empty

/-- The channel stays in order: its stream does not end or break, and its writer does not fail. -/
def Intact (ch : Channel) : Stir → Prop
  | .ends c => c ≠ ch
  | .breaks c _ => c ≠ ch
  | .writes c a => c ≠ ch ∨ a.works
  | _ => True

variable {ch : Channel} {l : Link} {x : Stir}

theorem closing_onLink (l : Link) (x : Stir) : (x.onLink l).closing = l.closing := by
  cases x with
  | arrives c bytes => exact Link.closing_setInbox ..
  | ends c => exact Link.closing_setInbox ..
  | breaks c text => exact Link.closing_setInbox ..
  | fills c n => exact Link.closing_setInbox ..
  | writes c a => exact Link.closing_setOutbox ..
  | shares f => rfl

/-- **What is pending on a channel grows by what arrives** until its stream ends, whatever else goes
on. -/
theorem pending_onLink (x : Stir) (ch : Channel) (l : Link) :
    ((x.onLink l).inbox ch).pending
      = (l.inbox ch).pending ++ if (l.inbox ch).ended then .empty else x.bytes ch := by
  have hsame : (l.inbox ch).pending
      = (l.inbox ch).pending ++ if (l.inbox ch).ended then .empty else .empty := by
    rw [ite_self, ByteArray.append_empty]
  cases x with
  | arrives c bytes =>
    rw [onLink, Stir.bytes, Link.inbox_setInbox]
    split
    · next hc =>
      rw [hc, Inbox.pending_arrive]
      split
      · exact ByteArray.append_empty.symm
      · rfl
    · exact hsame
  | ends c =>
    rw [onLink, Link.inbox_setInbox]
    split
    · next hc => exact hc ▸ hsame
    · exact hsame
  | breaks c text =>
    rw [onLink, Link.inbox_setInbox]
    split
    · next hc =>
      rw [hc, Inbox.pending_breakOff]
      exact hsame
    · exact hsame
  | fills c n =>
    rw [onLink, Link.inbox_setInbox]
    split
    · next hc =>
      rw [hc]
      exact (Inbox.pending_fillSome n _).trans hsame
    · exact hsame
  | writes c a =>
    rw [onLink, Link.inbox_setOutbox]
    exact hsame
  | shares f => exact hsame

/-- An intact channel does not end, and nobody gets in line. -/
theorem line_onLink (hx : x.Intact ch) (hended : (l.inbox ch).ended = false) :
    ((x.onLink l).inbox ch).ended = false ∧ ((x.onLink l).inbox ch).line = (l.inbox ch).line := by
  cases x with
  | arrives c bytes =>
    rw [onLink, Link.inbox_setInbox]
    split
    · next hc =>
      rw [hc, Inbox.arrive, if_neg (Bool.eq_false_iff.mp hended)]
      exact ⟨hended, rfl⟩
    · exact ⟨hended, rfl⟩
  | ends c =>
    rw [onLink, Link.inbox_setInbox, if_neg hx]
    exact ⟨hended, rfl⟩
  | breaks c text =>
    rw [onLink, Link.inbox_setInbox, if_neg hx]
    exact ⟨hended, rfl⟩
  | fills c n =>
    rw [onLink, Link.inbox_setInbox]
    split
    · next hc =>
      rw [hc]
      exact ⟨hended, rfl⟩
    · exact ⟨hended, rfl⟩
  | writes c a =>
    rw [onLink, Link.inbox_setOutbox]
    exact ⟨hended, rfl⟩
  | shares f => exact ⟨hended, rfl⟩

/-- **What is pending on an intact channel grows by what arrives**, and nobody gets in line. -/
theorem inbox_onLink (hx : x.Intact ch) (hended : (l.inbox ch).ended = false) :
    ((x.onLink l).inbox ch).pending = (l.inbox ch).pending ++ x.bytes ch ∧
      ((x.onLink l).inbox ch).ended = false ∧ ((x.onLink l).inbox ch).line = (l.inbox ch).line := by
  refine ⟨?_, line_onLink hx hended⟩
  rw [pending_onLink, hended]
  rfl

/-- An outbox changes by an act of its writer at most. -/
theorem outbox_onLink_cases (x : Stir) (ch : Channel) (l : Link) :
    (x.onLink l).outbox ch = l.outbox ch ∨
      ∃ a, x = .writes ch a ∧ (x.onLink l).outbox ch = (l.outbox ch).act a := by
  cases x with
  | arrives c bytes => exact .inl (Link.outbox_setInbox ..)
  | ends c => exact .inl (Link.outbox_setInbox ..)
  | breaks c text => exact .inl (Link.outbox_setInbox ..)
  | fills c n => exact .inl (Link.outbox_setInbox ..)
  | writes c a =>
    rw [onLink, Link.outbox_setOutbox]
    split
    · next hc => exact .inr ⟨a, hc ▸ rfl, hc ▸ rfl⟩
    · exact .inl rfl
  | shares f => exact .inl rfl

/-- **What every act of a writer keeps, is kept** whatever goes on. -/
theorem outbox_stays {P : Outbox → Prop} (hact : ∀ (a : Outbox.Act) (o : Outbox), P o → P (o.act a))
    (h : P (l.outbox ch)) : P ((x.onLink l).outbox ch) := by
  rcases x.outbox_onLink_cases ch l with heq | ⟨a, -, heq⟩
  · exact heq ▸ h
  · exact heq ▸ hact a _ h

/-- **What the acts of a writer at work keep, an intact channel keeps.** -/
theorem outbox_onLink {P : Outbox → Prop} (hx : x.Intact ch)
    (hact : ∀ (a : Outbox.Act) (o : Outbox), a.works → P o → P (o.act a)) (h : P (l.outbox ch)) :
    P ((x.onLink l).outbox ch) := by
  rcases x.outbox_onLink_cases ch l with heq | ⟨a, rfl, heq⟩
  · exact heq ▸ h
  · exact heq ▸ hact a _ (hx.resolve_left fun hne => hne rfl) h

/-- **A session stays ready**, whatever goes on around it, if the channel is intact. -/
theorem ready_onLink {s : Session} {id : CallId} (hx : x.Intact ch) (h : s.Ready ch id) :
    Session.Ready ch id { s with link := x.onLink s.link } := by
  obtain ⟨-, hended, hline⟩ := inbox_onLink hx h.flows
  refine h.of_link (closing_onLink s.link x) (hended.trans h.flows.symm) ?_
  rw [Inbox.Alone, hline]
  exact h.alone

theorem works_onLink (hx : x.Intact ch) (h : (l.outbox ch).Works) :
    ((x.onLink l).outbox ch).Works :=
  outbox_onLink hx (fun _ _ ha ho => ho.act ha) h

end Stir

namespace Call

theorem result?_lift {σ α : Type} (f : σ → Call) (g : α → Reply) :
    ∀ p : Progress Failure σ α, (lift f g p).result? = p.result?.map (Except.map g)
  | .waits _ => rfl
  | .goes _ => rfl
  | .ends (.ok _) => rfl
  | .ends (.error _) => rfl

theorem reply?_lift {σ α : Type} {f : σ → Call} {g : α → Reply} {reply : Reply} :
    ∀ {p : Progress Failure σ α}, (lift f g p).reply? = some reply →
      ∃ a, p.reply? = some a ∧ reply = g a
  | .ends (.ok a), rfl => ⟨a, rfl, rfl⟩

theorem state?_lift_eq_none {σ α : Type} {f : σ → Call} {g : α → Reply} :
    ∀ {p : Progress Failure σ α}, p.state? = none → (lift f g p).state? = none
  | .ends (.ok _), _ => rfl
  | .ends (.error _), _ => rfl

theorem of_state?_lift {σ α : Type} {f : σ → Call} {g : α → Reply} {c : Call} :
    ∀ {p : Progress Failure σ α}, (lift f g p).state? = some c →
      ∃ state, p.state? = some state ∧ c = f state
  | .goes state, h => ⟨state, rfl, (Option.some.inj h).symm⟩
  | .waits state, h => ⟨state, rfl, (Option.some.inj h).symm⟩
  | .ends (.ok _), h => nomatch h
  | .ends (.error _), h => nomatch h

/-- A part that leaves states of one kind leaves calls of one kind. -/
theorem leaves_lift {σ α : Type} {P : Call → Prop} {f : σ → Call} {g : α → Reply}
    {p : Progress Failure σ α} (h : p.Leaves fun state => P (f state)) : (lift f g p).Leaves P :=
  h.andThen (fun _ h => h) (fun _ => trivial) fun _ => trivial

inductive Event
  | stirs (x : Stir)
  /-- The call takes a step. -/
  | turns (now : Instant) (millis : Nat)

namespace Event

def bytes (ch : Channel) : Event → ByteArray
  | .stirs x => x.bytes ch
  | .turns _ _ => .empty

def Intact (ch : Channel) : Event → Prop
  | .stirs x => x.Intact ch
  | .turns _ _ => True

end Event

/-- The bytes that come in on a channel in a history. -/
def arrivals (ch : Channel) : List Event → ByteArray
  | [] => .empty
  | e :: es => e.bytes ch ++ arrivals ch es

/-- How long the answer is awaited to a request whose last is written with this step, if one is. -/
def asks? (t : Turn) (s : Session) : Call → Option Duration
  | .intake i (.pulling (.asking x)) =>
    if (s.say t .recv x).2.reply?.isSome then some (i.timeout.getD s.responseWindow) else none
  | _ => none

/-- The clock can represent the deadline of that answer. -/
def Timely (t : Turn) (s : Session) (c : Call) : Prop :=
  ∀ timeout ∈ c.asks? t s, (t.now.after? timeout).isSome

instance (t : Turn) (s : Session) (c : Call) : Decidable (c.Timely t s) :=
  inferInstanceAs (Decidable (∀ timeout ∈ _, _))

/-- How often the call takes a step. -/
def turnCount : List Event → Nat
  | [] => 0
  | .stirs _ :: es => turnCount es
  | .turns _ _ :: es => turnCount es + 1

end Call

/-- A session, its store, and the progress of a call. -/
structure Episode where
  id : CallId
  session : Session
  store : Backend := {}
  progress : Progress Failure Call Reply

namespace Episode

/-- A call begins. -/
def start (id : CallId) (c : Call) (s : Session) (b : Backend) : Episode := ⟨id, s, b, .goes c⟩

def step (w : Episode) : Call.Event → Episode
  | .stirs x => { w with
      session := { w.session with link := x.onLink w.session.link }
      store := x.onStore w.store }
  | .turns now millis => match w.progress.state? with
    | none => w
    | some c =>
      let (session, store, progress) := c.step ⟨w.id, now, millis⟩ w.session w.store
      { w with session, store, progress }

/-- A whole history. -/
def run (w : Episode) (es : List Call.Event) : Episode := es.foldl step w

variable {w : Episode} {c : Call} {now : Instant} {millis : Nat}

theorem step_turns (hcall : w.progress.state? = some c) :
    w.step (.turns now millis) =
      let r := c.step ⟨w.id, now, millis⟩ w.session w.store
      { w with session := r.1, store := r.2.1, progress := r.2.2 } := by
  rw [step, hcall]

/-- A call that has ended takes no step. -/
theorem step_turns_of_ended (hended : w.progress.state? = none) :
    w.step (.turns now millis) = w := by
  rw [step, hended]

theorem run_append (w : Episode) (es es' : List Call.Event) :
    w.run (es ++ es') = (w.run es).run es' :=
  List.foldl_append

/-- If a request is written with this event, the clock can represent the deadline of its answer. -/
def Timely (w : Episode) : Call.Event → Prop
  | .stirs _ => True
  | .turns now millis => ∀ c ∈ w.progress.state?, c.Timely ⟨w.id, now, millis⟩ w.session

/-- …whichever event of a whole history it is written with. -/
def TimelyAll (w : Episode) : List Call.Event → Prop
  | [] => True
  | e :: es => w.Timely e ∧ (w.step e).TimelyAll es

instance decidableTimely (w : Episode) : (e : Call.Event) → Decidable (w.Timely e)
  | .stirs _ => .isTrue trivial
  | .turns _ _ => inferInstanceAs (Decidable (∀ c ∈ _, _))

instance decidableTimelyAll (w : Episode) : (es : List Call.Event) → Decidable (w.TimelyAll es)
  | [] => .isTrue trivial
  | e :: es => @instDecidableAnd _ _ (w.decidableTimely e) ((w.step e).decidableTimelyAll es)

theorem timelyAll_append {es es' : List Call.Event} :
    w.TimelyAll (es ++ es') ↔ w.TimelyAll es ∧ (w.run es).TimelyAll es' := by
  induction es generalizing w with
  | nil => exact (and_iff_right trivial).symm
  | cons e es ih => exact (and_congr_right fun _ => ih).trans and_assoc.symm

/-- **What every event keeps, a history keeps.** -/
theorem run_keeps {P : Episode → Prop} {allowed : Call.Event → Prop}
    (hstep : ∀ w e, allowed e → P w → P (w.step e)) {es : List Call.Event}
    (hes : ∀ e ∈ es, allowed e) (h : P w) : P (w.run es) := by
  induction es generalizing w with
  | nil => exact h
  | cons e es ih =>
    exact ih (fun e' he' => hes e' (List.mem_cons_of_mem e he'))
      (hstep w e (hes e List.mem_cons_self) h)

end Episode

end SimRelay
