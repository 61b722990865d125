import SimRelay.Proofs.Link.Writing

/-!
# Proofs/Session/Undisturbed — what a call hears that reads alone, and what it says

Where no other call stands in line, an attempt at hearing brings what is due: the first of the
pending frames, read as a message if it can be, or nothing when no frame is complete
(`Session.hear_alone`).  It is not told from the outcome whether there was a frame: one that cannot
be read counts as nothing, and is gone.

Where the writer is at work besides, a message that has a frame is said (`Session.Ready.say`).
-/

namespace SimRelay

namespace Inbox

variable {i : Inbox} {id : CallId}

/-- No other call stands in line. -/
def Alone (id : CallId) (i : Inbox) : Prop := ∀ other ∈ i.line, other = id

theorem alone_default (id : CallId) : Alone id {} := fun _ ho => absurd ho List.not_mem_nil

theorem Alone.join (h : i.Alone id) : (i.join id).Alone id :=
  fun other ho => (mem_line_join ho).elim (h other) fun heq => heq

theorem Alone.line_leave (h : i.Alone id) : (i.leave id).line = [] := by
  refine List.filter_eq_nil_iff.mpr fun other ho => ?_
  simp [h other ho]

/-- What the whole frames that are pending have for the call that reads next. -/
theorem prospect_of_joined (hended : i.ended = false) (rest : ByteArray) :
    ∀ {row : List ByteArray}, (∀ body ∈ row, body.size ≤ Frame.maxLength) →
      Frame.split rest = .error .needMore → i.pending = Frame.joined row ++ rest →
      i.prospect = match row with
        | [] => .nothing
        | body :: _ => .frame body
  | row, hrow, hrest, hpending => by
      obtain ⟨hbodies, hending⟩ := Frame.bodies_joined_append rest row hrow
      obtain ⟨hnone, hneed⟩ := Frame.bodies_of_error hrest
      rw [prospect, hpending, hbodies, hending, hnone, hneed, ending_of_flows hended,
        List.append_nil]
      cases row <;> rfl

/-- A frame that is handed out is the first of those that are pending. -/
theorem body?_prospect (i : Inbox) : i.prospect.body? = (Frame.bodies i.pending).head? :=
  Offer.body?_due ..

theorem Handed.pending_of_none {j : Inbox} (h : Handed none i j) : j.pending = i.pending :=
  (h.pending.trans ByteArray.empty_append).symm

end Inbox

/-- **A call that reads alone hears what is due**, and stands in line only while it waits. -/
theorem Link.read_alone {l : Link} {ch : Channel} {id : CallId} (hopen : l.closing = false)
    (halone : (l.inbox ch).Alone id) (expired : Bool) :
    ∃ i, l.read id expired ch = (.of expired (l.inbox ch).prospect, l.setInbox ch i) ∧
      (l.inbox ch).Handed (l.inbox ch).prospect.body? i ∧ i.Alone id ∧
      (Reading.of expired (l.inbox ch).prospect ≠ .inLine → i.line = []) := by
  obtain ⟨hoffer, hhanded⟩ := Inbox.take_spec ((l.inbox ch).join id)
  have hline := Inbox.line_take ((l.inbox ch).join id)
  have hsame : ((l.inbox ch).join id).prospect = (l.inbox ch).prospect := by
    rw [Inbox.prospect, Inbox.prospect, Inbox.pending_join, Inbox.ending_join]
  have hhead : ((l.inbox ch).join id).line.head? = some id := Inbox.firstInLine_of_alone halone
  rw [hsame] at hoffer
  rw [hoffer] at hhanded
  unfold read
  simp only [hopen, hhead, if_true, Bool.false_eq_true, if_false]
  generalize ((l.inbox ch).join id).take = taken at hoffer hhanded hline
  obtain ⟨offer, j⟩ := taken
  obtain rfl : offer = _ := hoffer
  have hj : j.Alone id := fun other ho => halone.join other (hline ▸ ho)
  have hleft := hhanded.of_join.leave id
  have hnone : (j.leave id).Alone id := fun other ho =>
    absurd (hj.line_leave ▸ ho) List.not_mem_nil
  cases hprospect : (l.inbox ch).prospect with
  | frame body =>
    rw [hprospect] at hleft
    exact ⟨_, rfl, hleft, hnone, fun _ => hj.line_leave⟩
  | failure e =>
    rw [hprospect] at hleft
    exact ⟨_, rfl, hleft, hnone, fun _ => hj.line_leave⟩
  | nothing =>
    rw [hprospect] at hleft hhanded
    cases expired with
    | true => exact ⟨_, rfl, hleft, hnone, fun _ => hj.line_leave⟩
    | false => exact ⟨_, rfl, hhanded.of_join, hj, fun h => absurd rfl h⟩

namespace Session

variable {s : Session} {ch : Channel}

/-- What a call is told, when this is what is due. -/
def Heard.of (expired : Bool) : Inbox.Offer → Heard
  | .frame body => match Message.decode body with
    | .ok m => .message m
    | .error _ => .nothing
  | .failure e => .failure (.link e)
  | .nothing => if expired then .nothing else .inLine

/-- What is read is what is heard. -/
theorem hear_of_read {t : Turn} {begins : Bool} {deadline : Option Instant}
    {offer : Inbox.Offer} {link : Link} (hactive : ¬ (begins ∧ s.closed))
    (hread : s.link.read t.id (deadline.any fun d => t.now.reached d) ch
      = (.of (deadline.any fun d => t.now.reached d) offer, link)) :
    s.hear t ch begins deadline
      = (.of (deadline.any fun d => t.now.reached d) offer, { s with link }) := by
  unfold hear
  rw [if_neg hactive]
  dsimp only
  rw [hread]
  cases offer with
  | frame body =>
    dsimp only [Heard.of, Link.Reading.of]
    cases Message.decode body <;> rfl
  | failure e => rfl
  | nothing => cases deadline.any fun d => t.now.reached d <;> rfl

/-- **A call that hears alone** is told what is due. -/
theorem hear_alone {t : Turn} {begins : Bool} (deadline : Option Instant)
    (hactive : ¬ (begins ∧ s.closed)) (hopen : s.link.closing = false)
    (halone : (s.link.inbox ch).Alone t.id) :
    ∃ i, s.hear t ch begins deadline =
        (.of (deadline.any fun d => t.now.reached d) (s.link.inbox ch).prospect,
          { s with link := s.link.setInbox ch i }) ∧
      (s.link.inbox ch).Handed (s.link.inbox ch).prospect.body? i ∧ i.Alone t.id ∧
      ((deadline.any fun d => t.now.reached d) → i.line = []) := by
  obtain ⟨i, hread, hhanded, hi, hline⟩ :=
    Link.read_alone hopen halone (deadline.any fun d => t.now.reached d)
  refine ⟨i, hear_of_read hactive hread, hhanded, hi, fun hexpired => hline ?_⟩
  rw [hexpired]
  cases (s.link.inbox ch).prospect <;> nofun

/-- **…and has left the line if anything is due.** -/
theorem hear_due {t : Turn} (begins : Bool) (deadline : Option Instant)
    (hactive : s.closed = false) (hopen : s.link.closing = false)
    (halone : (s.link.inbox ch).Alone t.id) (hdue : (s.link.inbox ch).prospect ≠ .nothing) :
    ∃ i, s.hear t ch begins deadline =
        (.of (deadline.any fun d => t.now.reached d) (s.link.inbox ch).prospect,
          { s with link := s.link.setInbox ch i }) ∧
      (s.link.inbox ch).Handed (s.link.inbox ch).prospect.body? i ∧ i.line = [] := by
  obtain ⟨i, hread, hhanded, -, hline⟩ :=
    Link.read_alone hopen halone (deadline.any fun d => t.now.reached d)
  refine ⟨i, hear_of_read (fun hboth => ?_) hread, hhanded, hline ?_⟩
  · exact absurd (hactive.symm.trans hboth.2) (by decide)
  · cases hprospect : (s.link.inbox ch).prospect with
    | frame body => simp [Link.Reading.of]
    | failure e => simp [Link.Reading.of]
    | nothing => exact absurd hprospect hdue

/-- The session is open, the stream of the channel goes on, and no other call reads it. -/
structure Ready (ch : Channel) (id : CallId) (s : Session) : Prop where
  active : s.closed = false
  isOpen : s.link.closing = false
  flows : (s.link.inbox ch).ended = false
  alone : (s.link.inbox ch).Alone id

/-- A change of the link that leaves it open. -/
theorem Ready.of_link {id : CallId} (h : s.Ready ch id) {link : Link}
    (hopen : link.closing = s.link.closing)
    (hended : (link.inbox ch).ended = (s.link.inbox ch).ended)
    (hline : (link.inbox ch).Alone id) : Ready ch id { s with link } where
  active := h.active
  isOpen := hopen.trans h.isOpen
  flows := hended.trans h.flows
  alone := hline

/-- …for another inbox that nobody else reads. -/
theorem Ready.setInbox {id : CallId} (h : s.Ready ch id) {i : Inbox} (hended : i.ended = false)
    (halone : i.Alone id) (late : List Message) :
    Ready ch id { s with link := s.link.setInbox ch i, late } where
  active := h.active
  isOpen := (Link.closing_setInbox ..).trans h.isOpen
  flows := by rw [Link.inbox_setInbox, if_pos rfl, hended]
  alone := by
    rw [Link.inbox_setInbox, if_pos rfl]
    exact halone

/-- **What is due is heard**, the inbox loses it, and the session stays ready. -/
theorem Ready.hear {t : Turn} (h : s.Ready ch t.id) (begins : Bool) (deadline : Option Instant) :
    ∃ i, s.hear t ch begins deadline =
        (.of (deadline.any fun d => t.now.reached d) (s.link.inbox ch).prospect,
          { s with link := s.link.setInbox ch i }) ∧
      (s.link.inbox ch).Handed (s.link.inbox ch).prospect.body? i ∧
      Ready ch t.id { s with link := s.link.setInbox ch i } ∧
      ((deadline.any fun d => t.now.reached d) → i.line = []) := by
  have hactive : ¬ (begins ∧ s.closed) := fun hboth => nomatch h.active.symm.trans hboth.2
  obtain ⟨i, hhear, hhanded, hi, hline⟩ :=
    hear_alone deadline hactive h.isOpen h.alone
  refine ⟨i, hhear, hhanded, h.of_link (Link.closing_setInbox ..) ?_ ?_, hline⟩
  · rw [Link.inbox_setInbox, if_pos rfl]
    exact hhanded.ended
  · rw [Link.inbox_setInbox, if_pos rfl]
    exact hi

/-- **What can be said is said** where the writer is at work: a step of it changes the outbox alone,
and when it ends the message is on the wire. -/
theorem Ready.say {t : Turn} (h : s.Ready ch t.id) (hworks : (s.link.outbox ch).Works)
    {m : Message} (hm : m.Sayable) {stream : ByteArray} {n : Nat} {x : Saying}
    (hspeaks : Speaks m stream n (s.link.outbox ch) x) :
    ∃ o, (s.say t ch x).1 = { s with link := s.link.setOutbox ch o } ∧
      Ready ch t.id { s with link := s.link.setOutbox ch o } ∧
      ((s.link.setOutbox ch o).outbox ch).Works ∧
      (s.say t ch x).2.Leaves (Speaks m stream n ((s.link.setOutbox ch o).outbox ch)) ∧
      ∀ r, (s.say t ch x).2 = .ends r →
        r = .ok () ∧ Spoken m stream n ((s.link.setOutbox ch o).outbox ch) := by
  obtain ⟨hleaves, hspoken⟩ := say_speaks t ch hspeaks
  obtain ⟨hworks', hends⟩ := say_works t ch hm h.active h.isOpen hworks hspeaks
  obtain ⟨o, hsession⟩ := s.say_spec t ch x
  rw [hsession] at hleaves hspoken hworks'
  refine ⟨o, hsession, ?_, hworks', hleaves, fun r hr => ?_⟩
  · refine h.of_link (Link.closing_setOutbox ..) ?_ ?_
    · rw [Link.inbox_setOutbox]
    · rw [Link.inbox_setOutbox]
      exact h.alone
  · obtain rfl := hends r hr
    exact ⟨rfl, hspoken hr⟩

end Session

/-! ## Hearing what is there -/

namespace Message

/-- The body spells a message. -/
def readable (body : ByteArray) : Bool := (ofBody? body).isSome

/-- What is left of a row of frames when hearing has gone on until nothing was heard: all behind
the first that cannot be read. -/
def unheard (row : List ByteArray) : List ByteArray := (row.dropWhile readable).tail

variable {body : ByteArray} {row : List ByteArray}

theorem unheard_cons_of_readable (h : readable body) : unheard (body :: row) = unheard row := by
  rw [unheard, List.dropWhile_cons_of_pos h]
  rfl

theorem unheard_cons_of_not_readable (h : ¬ readable body) : unheard (body :: row) = row := by
  rw [unheard, List.dropWhile_cons_of_neg h]
  rfl

/-- Where all can be read, all is heard. -/
theorem unheard_of_readable :
    ∀ {row : List ByteArray}, (∀ body ∈ row, readable body) → unheard row = []
  | [], _ => rfl
  | _ :: _, h =>
      (unheard_cons_of_readable (h _ List.mem_cons_self)).trans
        (unheard_of_readable fun body hb => h body (List.mem_cons_of_mem _ hb))

end Message

/-- An attempt that does not wait is over at once. -/
theorem Turn.any_now (t : Turn) : (some t.now).any (fun d => t.now.reached d) = true := by
  simp [Instant.reached]

/-- **An attempt that does not wait** hears the first of the frames that are there, if it can be
read, and takes it in any case. -/
theorem Session.Ready.hear_now {s : Session} {ch : Channel} {t : Turn} (h : s.Ready ch t.id)
    {row : List ByteArray} (hrow : ∀ body ∈ row, body.size ≤ Frame.maxLength)
    (hpending : (s.link.inbox ch).pending = Frame.joined row) :
    ∃ i, s.hear t ch true (some t.now) =
        ((row.head?.bind Message.ofBody?).elim .nothing .message,
          { s with link := s.link.setInbox ch i }) ∧
      i.pending = Frame.joined row.tail ∧ i.ended = false ∧ i.line = [] ∧
      Ready ch t.id { s with link := s.link.setInbox ch i } := by
  obtain ⟨i, hhear, hhanded, hready, hline⟩ := h.hear true (some t.now)
  have hprospect := Inbox.prospect_of_joined h.flows .empty hrow rfl
    (hpending.trans ByteArray.append_empty.symm)
  rw [hprospect] at hhear hhanded
  rw [Turn.any_now] at hhear
  have hleft := hhanded.pending
  rw [hpending] at hleft
  refine ⟨i, ?_, ?_, hhanded.ended.trans h.flows, hline (Turn.any_now t), hready⟩
  · rw [hhear]
    cases row with
    | nil => rfl
    | cons body row =>
      change (Heard.of true (.frame body), _) = _
      rw [Heard.of, List.head?_cons, Option.bind_some, Message.ofBody?]
      cases Message.decode body <;> rfl
  · cases row with
    | nil => exact (hleft.trans ByteArray.empty_append).symm
    | cons body row =>
      change Frame.wrap body ++ _ = (Frame.wrap body ++ .empty) ++ _ at hleft
      rw [ByteArray.append_empty] at hleft
      exact (ByteArray.append_right_inj _).mp hleft.symm

end SimRelay
