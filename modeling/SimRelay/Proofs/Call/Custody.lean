import SimRelay.Proofs.Call.Bystanders
import SimRelay.Proofs.Call.Pulling
import SimRelay.Proofs.Link.Reassembly

/-!
# Proofs/Call/Custody — no delivery is lost, doubled, misrouted or overtaken

Calls that pull come one after another.  Each has its own route and its own patience, and may end
with a delivery, with nothing or with an error, or be dropped between any two of its steps, while
bytes come in as they like and other calls get on beside it.  A delivery that such a call leaves
behind is still on the channel or among those that are kept, and a later call gets it: whatever
happens, the books of the session stay in order (`Watch.Accounts`).
-/

namespace SimRelay.Pull

/-- What can happen to a session whose calls pull. -/
inductive Event
  /-- The peer writes on the inbound channel. -/
  | arrives (bytes : ByteArray)
  /-- The peer ends its stream. -/
  | ends
  /-- The stream breaks off. -/
  | breaks (text : String)
  /-- The reader takes in some of what there is to read. -/
  | fills (n : Nat)
  /-- The writer of the requests gets on, or fails. -/
  | writes (f : Outbox → Outbox)
  /-- A call begins, unless one is in flight. -/
  | begins (end? : Option String) (timeout : Option Duration) (wantPayload : Bool)
  /-- The call in flight takes a step. -/
  | turns (t : Turn) (b : Backend)
  /-- The call in flight is dropped. -/
  | drops (id : CallId)
  /-- A call of another kind, in whatever state it is, takes a step. -/
  | besides (t : Turn) (c : Call) (b : Backend)
  /-- A call of another kind is dropped. -/
  | withdraws (id : CallId)

/-- A session, the call in flight, and what has come and gone. -/
structure Watch where
  session : Session
  call : Option (Intake × Intake.Phase) := none
  /-- The stream that the peer has written on the inbound channel. -/
  written : ByteArray
  /-- The deliveries that pulls have handed out, each with what the call wanted. -/
  handed : List (Wanted × Message) := []

namespace Watch

/-- The inbound channel of the session. -/
def inbox (w : Watch) : Inbox := w.session.link.inbox .recv

/-- A change of the link alone. -/
def onLink (f : Link → Link) (w : Watch) : Watch :=
  { w with session := { w.session with link := f w.session.link } }

/-- What is on its way when the watch begins belongs to the stream. -/
def start (s : Session) : Watch := { session := s, written := (s.link.inbox .recv).pending }

def step (w : Watch) : Event → Watch
  | .arrives bytes =>
    { w.onLink (·.setInbox .recv (w.inbox.arrive bytes)) with
      written := if w.inbox.ended then w.written else w.written ++ bytes }
  | .ends => w.onLink (·.setInbox .recv w.inbox.finish)
  | .breaks text => w.onLink (·.setInbox .recv (w.inbox.breakOff text))
  | .fills n => w.onLink (·.setInbox .recv (w.inbox.fillSome n))
  | .writes f => w.onLink fun l => l.setOutbox .recv (f (l.outbox .recv))
  | .begins end? timeout wantPayload =>
    match w.call with
    | none => { w with call := some (w.session.role.intake end? timeout wantPayload, .start) }
    | some _ => w
  | .turns t b =>
    match w.call with
    | none => w
    | some (i, phase) =>
      let (session, _, progress) := i.step t phase w.session b
      { w with
        session
        call := progress.state?.map (i, ·)
        handed := w.handed
          ++ (i.pulled? t phase w.session).toList.map (i.wanted w.session, ·) }
  | .drops id => { w with session := w.session.abandon id, call := none }
  | .besides t c b =>
    if c.receives then w else { w with session := (c.step t w.session b).1 }
  | .withdraws id => { w with session := w.session.abandon id }

/-- A whole history. -/
def run (w : Watch) (es : List Event) : Watch := es.foldl step w

variable {role : Role} {w : Watch}

/-! ## The books of a session -/

/-- The bodies taken off the inbound channel are the first of the stream, and the deliveries among
them are in the books; the call in flight is one of this role's, and wants nothing that it could
have found. -/
structure Accounts (role : Role) (w : Watch) : Prop where
  pulls : w.session.config.mode = .pull
  plays : w.session.role = role
  call : ∀ c ∈ w.call, c.1.Fits role ∧ c.2.Settled (c.1.wanted w.session) w.session.late
  books : ∃ taken, w.written = Frame.joined taken ++ w.inbox.pending ∧
    (∀ body ∈ taken, body.size ≤ Frame.maxLength) ∧
    Books role (deliveries role.delivery taken) w.session.late w.handed

theorem Accounts.start {s : Session} (hmode : s.config.mode = .pull) (hlate : s.late = []) :
    (start s).Accounts s.role where
  pulls := hmode
  plays := rfl
  call _ h := nomatch h
  books := by
    refine ⟨[], ByteArray.empty_append.symm, (fun _ h => nomatch h), ?_⟩
    change Books s.role [] s.late []
    rw [hlate]
    exact .nil s.role

/-- What changes the link alone changes the books in nothing, if it only adds to the stream. -/
theorem Accounts.of_link (h : w.Accounts role) {link : Link} {written : ByteArray}
    (more : ByteArray) (hwritten : written = w.written ++ more)
    (hpending : (link.inbox .recv).pending = w.inbox.pending ++ more) :
    Accounts role { w with session := { w.session with link }, written } where
  pulls := h.pulls
  plays := h.plays
  call := h.call
  books := by
    obtain ⟨taken, hstream, hshort, hbooks⟩ := h.books
    refine ⟨taken, ?_, hshort, hbooks⟩
    change written = Frame.joined taken ++ (link.inbox .recv).pending
    rw [hwritten, hstream, hpending, ByteArray.append_assoc]

/-- A change of the link that leaves the pending bytes alone. -/
theorem Accounts.onLink (h : w.Accounts role) {f : Link → Link}
    (hpending : ((f w.session.link).inbox .recv).pending = w.inbox.pending) :
    (w.onLink f).Accounts role :=
  h.of_link .empty ByteArray.append_empty.symm (hpending.trans ByteArray.append_empty.symm)

/-- What spares the deliveries changes the books in nothing. -/
theorem Accounts.of_spares (h : w.Accounts role) {s : Session} (hs : w.session.Spares s) :
    Accounts role { w with session := s } where
  pulls := (congrArg SessionConfig.mode hs.config).trans h.pulls
  plays := hs.role.trans h.plays
  call c hc := by
    change c.1.Fits role ∧ c.2.Settled (c.1.wanted s) s.late
    rw [hs.late, Intake.wanted_congr hs.identifier]
    exact h.call c hc
  books := by
    obtain ⟨taken, hstream, hshort, hbooks⟩ := h.books
    have hpending : w.inbox.pending = .empty ++ (s.link.inbox .recv).pending := hs.recv.pending
    refine ⟨taken, ?_, hshort, ?_⟩
    · rw [hstream, hpending, ByteArray.empty_append]
      rfl
    · change Books role _ s.late w.handed
      rw [hs.late]
      exact hbooks

/-- **A step of the call in flight** takes its frame off the stream, and puts the delivery that came
and the one that went out into the books. -/
theorem Accounts.turn (h : w.Accounts role) (t : Turn) (b : Backend) {i : Intake}
    {phase : Intake.Phase} (hcall : w.call = some (i, phase)) :
    Accounts role { w with
      session := (i.step t phase w.session b).1
      call := (i.step t phase w.session b).2.2.state?.map (i, ·)
      handed := w.handed
        ++ (i.pulled? t phase w.session).toList.map (i.wanted w.session, ·) } := by
  obtain rfl := h.plays
  obtain ⟨hfits, hphase⟩ := h.call (i, phase) hcall
  obtain ⟨hmoved, hsettled⟩ := Intake.step_moved t b h.pulls hfits hphase
  obtain ⟨body?, link, kept, hsession, hhanded, hmoves⟩ := hmoved
  obtain ⟨taken, hstream, hshort, hbooks⟩ := h.books
  obtain ⟨hstream', hshort'⟩ := hhanded.stream hstream hshort
  rw [hsession] at hsettled ⊢
  refine ⟨h.pulls, rfl, fun c hc => ?_, taken ++ body?.toList, ?_, ?_, ?_⟩
  · obtain ⟨next, hnext, rfl⟩ := Option.map_eq_some_iff.mp hc
    exact ⟨hfits, hsettled.of_state? hnext⟩
  · exact hstream'
  · exact hshort'
  · rw [deliveries_append]
    exact (hbooks.come _).moves hfits.suits hmoves

/-- **Nothing that happens puts the books out of order.** -/
theorem Accounts.step (h : w.Accounts role) (e : Event) : (w.step e).Accounts role := by
  cases e with
  | arrives bytes =>
    have harrive := Inbox.pending_arrive bytes w.inbox
    refine h.of_link (if w.inbox.ended then .empty else bytes) ?_ ?_
    · split <;> simp
    · rw [Link.inbox_setInbox, if_pos rfl, harrive]
      split <;> simp
  | ends =>
    refine h.onLink ?_
    rw [Link.inbox_setInbox, if_pos rfl]
    rfl
  | breaks text =>
    refine h.onLink ?_
    rw [Link.inbox_setInbox, if_pos rfl]
    exact Inbox.pending_breakOff text w.inbox
  | fills n =>
    refine h.onLink ?_
    rw [Link.inbox_setInbox, if_pos rfl]
    exact Inbox.pending_fillSome n w.inbox
  | writes f =>
    refine h.onLink ?_
    rw [Link.inbox_setOutbox]
    rfl
  | begins end? timeout wantPayload =>
    rw [Watch.step]
    split
    · refine ⟨h.pulls, h.plays, fun c hc => ?_, h.books⟩
      obtain rfl := Option.some.inj hc
      exact ⟨h.plays ▸ ⟨end?, timeout, wantPayload, rfl⟩, trivial⟩
    · exact h
  | turns t b =>
    rw [Watch.step]
    split
    · exact h
    · next hcall => exact h.turn t b hcall
  | drops id =>
    have hdropped := h.of_spares (w.session.spares_abandon id)
    exact ⟨hdropped.pulls, hdropped.plays, (fun _ h => nomatch h), hdropped.books⟩
  | besides t c b =>
    rw [Watch.step]
    split
    · exact h
    · next hc => exact h.of_spares (Call.step_spares t (eq_false_of_ne_true hc) w.session b)
  | withdraws id => exact h.of_spares (w.session.spares_abandon id)

/-- **…and so it is over a whole history.** -/
theorem Accounts.run (h : w.Accounts role) (es : List Event) : (w.run es).Accounts role := by
  induction es generalizing w with
  | nil => exact h
  | cons e es ih => exact ih (h.step e)

/-- **No delivery is lost, doubled, misrouted or overtaken by another of its route.**  At any moment
of any history, the bodies taken off the inbound channel are the first of what the peer has written.
The deliveries among them are, each once, those that pulls have handed out and those that are kept;
the kept ones are in order of arrival; none was handed to a call that had not asked for it; and on
every route, those handed out and then those kept are all there were, in order of arrival. -/
theorem custody {s : Session} (hmode : s.config.mode = .pull) (hlate : s.late = [])
    (es : List Event) :
    let w := (start s).run es
    ∃ taken, w.written = Frame.joined taken ++ w.inbox.pending ∧
      Frame.bodies w.written = taken ++ Frame.bodies w.inbox.pending ∧
      (w.handed.map Prod.snd ++ w.session.late).Perm (deliveries s.role.delivery taken) ∧
      w.session.late.Sublist (deliveries s.role.delivery taken) ∧
      (∀ p ∈ w.handed, p.1.accepts p.2) ∧
      ∀ r, s.role.along r (w.handed.map Prod.snd) ++ s.role.along r w.session.late
        = s.role.along r (deliveries s.role.delivery taken) := by
  intro w
  have hw : w.Accounts s.role := (Accounts.start hmode hlate).run es
  obtain ⟨taken, hstream, hshort, hbooks⟩ := hw.books
  refine ⟨taken, hstream, ?_, hbooks.perm, hbooks.order, hbooks.fitting, hbooks.routes⟩
  rw [hstream]
  exact (Frame.bodies_joined_append w.inbox.pending taken hshort).1

/-- A call for `x` is dropped after it has asked.  Its delivery comes late and in front of the one
for `y` that the next call asks for: `y` is handed out, and `x` is kept. -/
theorem custody_dropped :
    let s : Session :=
      { identifier := "z", role := .application, config := {}, keys := none,
        responseWindow := .ofSeconds 1, link := {} }
    let letter (destination : String) : Message :=
      { Message.bare .receive .daemon .message with
        metadata := some { destination := some destination } }
    let arrival (m : Message) : Event := .arrives ((m.encode.map Frame.wrap).toOption.getD .empty)
    let turn : Event := .turns ⟨0, ⟨0⟩, 0⟩ {}
    let es := [.begins (some "x") none false, turn, turn, turn, turn, turn, .writes Outbox.flush,
      turn, turn, .drops 0, arrival (letter "x"), arrival (letter "y"),
      .begins (some "y") none false, turn, turn, turn, turn]
    s.config.mode = .pull ∧ s.late = [] ∧
      ((start s).run es).handed = [(.addressedTo "y", letter "y")] ∧
      ((start s).run es).session.late = [letter "x"] ∧
      ∃ taken, [letter "y", letter "x"].Perm (deliveries .receive taken) := by
  intro s letter arrival turn es
  have hhanded : ((start s).run es).handed = [(.addressedTo "y", letter "y")] := by decide +kernel
  have hlate : ((start s).run es).session.late = [letter "x"] := by decide +kernel
  obtain ⟨taken, -, -, hperm, -⟩ := custody (s := s) rfl rfl es
  rw [hhanded, hlate] at hperm
  exact ⟨rfl, rfl, hhanded, hlate, taken, hperm⟩

end Watch

end SimRelay.Pull
