import SimRelay.Proofs.Call.Serving

/-!
# Proofs/Call/Questing — a pull by itself, from its beginning to its end

A `Quest` is one pull and what goes on around it.  Each step that reads sees the first of the
pending frames, if it has come whole, and what it makes of it depends on what that frame brings
(`Drained`, `Answered`); a step that asks gets on with the request (`Requested`).

So a quest is followed along the row of frames that lie before it or are still to come
(`Quest.Pursues`).  Once it has looked at what is kept, it takes one frame after another, keeps what
is for others, and ends at the first that is useless or that brings what it wants.  Where nothing is
missing of what it wants, each round brings it nearer to its end; it may end sooner, if the clock
cannot represent its deadline.
-/

namespace SimRelay

/-! ## The frames that lie ahead -/

namespace Frame

variable {b body more rest : ByteArray}

/-- **The first frame of a stream has come whole, or a part of it is still to come.** -/
theorem whole_or_part (hbody : body.size ≤ maxLength) (hstream : b ++ more = wrap body ++ rest) :
    (∃ left, b = wrap body ++ left ∧ left ++ more = rest) ∨
      split b = .error .needMore ∧ more ≠ .empty := by
  have hwhole : split (b ++ more) = .ok (body, headLength + body.size) := by
    rw [hstream]
    exact split_wrap_append hbody rest
  cases hsplit : split b with
  | ok p =>
    obtain ⟨body', n⟩ := p
    obtain ⟨rfl, -⟩ := Prod.mk.inj
      (Except.ok.inj ((split_append_of_ok hsplit more).symm.trans hwhole))
    obtain ⟨-, -, hfront⟩ := wrap_of_split hsplit
    refine .inl ⟨_, hfront, ?_⟩
    rw [hfront, ByteArray.append_assoc] at hstream
    exact (ByteArray.append_right_inj _).mp hstream
  | error fault =>
    cases fault with
    | needMore =>
      refine .inr ⟨rfl, ?_⟩
      rintro rfl
      rw [ByteArray.append_empty, hsplit] at hwhole
      cases hwhole
    | tooLarge n => exact nomatch (split_append_of_tooLarge hsplit more).symm.trans hwhole

end Frame

namespace Inbox

variable {i j : Inbox} {row : List ByteArray} {body future : ByteArray}

/-- These are the first frames of what is pending and what is still to come. -/
structure Ahead (row : List ByteArray) (future : ByteArray) (i : Inbox) : Prop where
  short : ∀ body ∈ row, body.size ≤ Frame.maxLength
  stream : ∃ rest, i.pending ++ future = Frame.joined row ++ rest

/-- **The first of them is due, or a part of it is still to come.** -/
theorem Ahead.first (h : i.Ahead (body :: row) future) (hended : i.ended = false) :
    (∀ e, i.prospect ≠ .failure e) ∧
      (i.prospect.body? = some body ∨ i.prospect.body? = none ∧ future ≠ .empty) := by
  obtain ⟨rest, hstream⟩ := h.stream
  have hbody := h.short body List.mem_cons_self
  rw [Frame.joined, ByteArray.append_assoc] at hstream
  rcases Frame.whole_or_part hbody hstream with ⟨left, hpending, -⟩ | ⟨hpart, hfuture⟩
  · have hframe : i.prospect = .frame body :=
      prospect_of_split (hpending ▸ Frame.split_wrap_append hbody left)
    rw [hframe]
    exact ⟨fun e h => (by cases h), .inl rfl⟩
  · have hnothing : i.prospect = .nothing := by
      rw [prospect_of_error hpart, ending_of_flows hended]
      rfl
    rw [hnothing]
    exact ⟨fun e h => (by cases h), .inr ⟨rfl, hfuture⟩⟩

/-- Behind the frame that is handed out are the others. -/
theorem Ahead.taken (h : i.Ahead (body :: row) future) (hj : i.Handed (some body) j) :
    j.Ahead row future := by
  obtain ⟨rest, hstream⟩ := h.stream
  refine ⟨fun b hb => h.short b (List.mem_cons_of_mem body hb), rest, ?_⟩
  have hpending : i.pending = (Frame.wrap body ++ .empty) ++ j.pending := hj.pending
  rw [hpending, ByteArray.append_empty, Frame.joined, ByteArray.append_assoc,
    ByteArray.append_assoc] at hstream
  exact (ByteArray.append_right_inj _).mp hstream

theorem Ahead.rests (h : i.Ahead row future) (hj : j.pending = i.pending) : j.Ahead row future :=
  ⟨h.short, hj ▸ h.stream⟩

/-- What is handed out was the first of the frames that there are and that come. -/
theorem Handed.frames {body? : Option ByteArray} (h : i.Handed body? j) (more : ByteArray) :
    Frame.bodies (i.pending ++ more) = body?.toList ++ Frame.bodies (j.pending ++ more) ∧
      Frame.ending (i.pending ++ more) = Frame.ending (j.pending ++ more) := by
  rw [h.pending, ByteArray.append_assoc]
  exact Frame.bodies_joined_append _ _ fun body hbody => h.short body (Option.mem_toList.mp hbody)

/-- Where nothing is to come, they are all pending. -/
theorem Ahead.length_le (h : i.Ahead row .empty) :
    row.length ≤ (Frame.bodies i.pending).length := by
  obtain ⟨rest, hstream⟩ := h.stream
  rw [ByteArray.append_empty] at hstream
  rw [hstream, (Frame.bodies_joined_append rest row h.short).1, List.length_append]
  exact Nat.le_add_right _ _

/-- More may come behind them. -/
theorem Ahead.more (h : i.Ahead row future) (bytes : ByteArray) :
    i.Ahead row (future ++ bytes) := by
  obtain ⟨rest, hstream⟩ := h.stream
  refine ⟨h.short, rest ++ bytes, ?_⟩
  rw [← ByteArray.append_assoc, hstream, ByteArray.append_assoc]

/-- **What was to come, comes.** -/
theorem Ahead.onLink {l : Link} {x : Stir}
    (h : (l.inbox .recv).Ahead row (x.bytes .recv ++ future)) (hx : x.Intact .recv)
    (hended : (l.inbox .recv).ended = false) : ((x.onLink l).inbox .recv).Ahead row future := by
  obtain ⟨rest, hstream⟩ := h.stream
  obtain ⟨hpending, -, -⟩ := x.inbox_onLink hx hended
  exact ⟨h.short, rest, by rw [hpending, ByteArray.append_assoc, hstream]⟩

/-- Where they are all there, they stay there. -/
theorem Ahead.stays {l : Link} {x : Stir} (h : (l.inbox .recv).Ahead row .empty)
    (hx : x.Intact .recv) (hended : (l.inbox .recv).ended = false) :
    ((x.onLink l).inbox .recv).Ahead row .empty := by
  have hmore := h.more (x.bytes .recv)
  rw [ByteArray.empty_append, ← ByteArray.append_empty (b := x.bytes .recv)] at hmore
  exact hmore.onLink hx hended

end Inbox

/-! ## Hearing what is due -/

namespace Session

/-- What a call is told of the frame that it has taken, if one was due. -/
def Heard.told (expired : Bool) : Option ByteArray → Heard
  | some body => (Message.ofBody? body).elim .nothing .message
  | none => if expired then .nothing else .inLine

/-- **Where no failure is due**, the first frame is heard, or that there is none. -/
theorem Ready.hear_told {s : Session} {t : Turn} (h : s.Ready .recv t.id)
    (hgoes : ∀ e, (s.link.inbox .recv).prospect ≠ .failure e) (begins : Bool)
    (deadline : Option Instant) :
    ∃ j, s.hear t .recv begins deadline =
        (.told (deadline.any fun d => t.now.reached d) (s.link.inbox .recv).prospect.body?,
          { s with link := s.link.setInbox .recv j }) ∧
      (s.link.inbox .recv).Handed (s.link.inbox .recv).prospect.body? j ∧
      ∀ late, Ready .recv t.id { s with link := s.link.setInbox .recv j, late } := by
  obtain ⟨j, hhear, hhanded, hready, -⟩ := h.hear begins deadline
  refine ⟨j, hhear.trans (congrArg (·, _) ?_), hhanded,
    fun late => ⟨hready.active, hready.isOpen, hready.flows, hready.alone⟩⟩
  cases hprospect : (s.link.inbox .recv).prospect with
  | failure e => exact absurd hprospect (hgoes e)
  | nothing => rfl
  | frame body =>
    rw [Heard.of, Inbox.Offer.body?, Heard.told, Message.ofBody?]
    cases Message.decode body <;> rfl

end Session

/-! ## What a step makes of what is there -/

/-- The body brings no delivery: it spells no message, or one that cannot be used. -/
def Message.useless (expected : Operation) (body : ByteArray) : Bool :=
  (deliveries expected [body]).isEmpty

theorem deliveries_cons (expected : Operation) (body : ByteArray) (row : List ByteArray) :
    deliveries expected (body :: row) = deliveries expected [body] ++ deliveries expected row :=
  deliveries_append expected [body] row

namespace Pull

open Session (Ready Speaks)

variable {s : Session} {t : Turn} {wanted : Wanted} {timeout : Duration}

/-- What a pull that drains makes of the frame that is due, if one is, and of what is kept. -/
inductive Drained (wanted : Wanted) (request : Message) (role : Role) (kept : List Message) :
    Option ByteArray → Progress Failure Phase (Option Message) → List Message → Prop
  /-- What can be read is drained, and kept if it is a delivery. -/
  | drains {body : ByteArray} (spelt : (Message.ofBody? body).isSome) :
      Drained wanted request role kept (some body) (.goes .draining)
        (kept ++ deliveries role.delivery [body])
  | finds {body? : Option ByteArray} {m : Message} (unspelt : body?.bind Message.ofBody? = none)
      (oldest : kept.find? wanted.accepts = some m) :
      Drained wanted request role kept body? (.ends (.ok (some m))) (kept.eraseP wanted.accepts)
  | asks {body? : Option ByteArray} (unspelt : body?.bind Message.ofBody? = none)
      (nothing : ∀ m ∈ kept, ¬ wanted.accepts m) :
      Drained wanted request role kept body? (.goes (.asking (.fresh request))) kept

/-- What a pull that awaits the answer makes of the frame that is due, if one is. -/
inductive Answered (wanted : Wanted) (role : Role) (deadline : Instant) (up : Bool)
    (kept : List Message) :
    Option ByteArray → Progress Failure Phase (Option Message) → List Message → Prop
  | hands {body : ByteArray} {m : Message} (brings : deliveries role.delivery [body] = [m])
      (fits : wanted.accepts m) :
      Answered wanted role deadline up kept (some body) (.ends (.ok (some m))) kept
  | keeps {body : ByteArray} {m : Message} (brings : deliveries role.delivery [body] = [m])
      (other : ¬ wanted.accepts m) :
      Answered wanted role deadline up kept (some body) (.goes (.asked deadline)) (kept ++ [m])
  | wastes {body : ByteArray} (useless : Message.useless role.delivery body) :
      Answered wanted role deadline up kept (some body) (.ends (.ok none)) kept
  | timesOut (late : up = true) :
      Answered wanted role deadline up kept none (.ends (.ok none)) kept
  | waits (early : up = false) :
      Answered wanted role deadline up kept none (.waits (.listening deadline)) kept

/-- What becomes of a request that is being written. -/
inductive Requested (m : Message) (now : Instant) (timeout : Duration) (o : Outbox) (idle : Prop)
    (x : Session.Saying) : Progress Failure Phase (Option Message) → Prop
  | goesOn {x' : Session.Saying} {progress : Progress Failure Phase (Option Message)}
      (state : progress.state? = some (.asking x'))
      (speaks : ∃ stream n, Speaks m stream n o x')
      (nearer : idle → x'.distance < x.distance) : Requested m now timeout o idle x progress
  | said {deadline : Instant} (timely : now.after? timeout = some deadline) :
      Requested m now timeout o idle x (.goes (.asked deadline))
  /-- The deadline cannot be represented. -/
  | overflows (untimely : now.after? timeout = none) :
      Requested m now timeout o idle x (.ends (.error .deadlineOverflow))

/-- What a step leaves that reads: it has taken the frame that was due, if one was, and this is what
it makes of it. -/
def Reads (s : Session) (t : Turn)
    (makes : Option ByteArray → Progress Failure Phase (Option Message) → List Message → Prop)
    (r : Session × Progress Failure Phase (Option Message)) : Prop :=
  ∃ j kept, r.1 = { s with link := s.link.setInbox .recv j, late := kept } ∧
    (s.link.inbox .recv).Handed (s.link.inbox .recv).prospect.body? j ∧
    r.1.Ready .recv t.id ∧ makes (s.link.inbox .recv).prospect.body? r.2 kept

/-- What a body brings that can be read… -/
theorem deliveries_of_spelt {body : ByteArray} {m : Message} (h : Message.ofBody? body = some m)
    (expected : Operation) :
    deliveries expected [body] = if m.isDelivery expected then [m] else [] := by
  have htoList := deliveries_toList expected (some body)
  rw [Option.bind_some, h, Option.filter_some] at htoList
  refine htoList.trans ?_
  split <;> rfl

/-- …and one that cannot. -/
theorem deliveries_of_unspelt {body : ByteArray} (h : Message.ofBody? body = none)
    (expected : Operation) : deliveries expected [body] = [] := by
  have htoList := deliveries_toList expected (some body)
  rw [Option.bind_some, h] at htoList
  exact htoList

section Reading

variable (hready : s.Ready .recv t.id) (hgoes : ∀ e, (s.link.inbox .recv).prospect ≠ .failure e)
include hready hgoes

/-- **A step of a pull that drains.** -/
theorem drained_step (wanted : Wanted) (timeout : Duration) :
    Reads s t (Drained wanted (wanted.request s.originator) s.role s.late)
      (step t wanted timeout .draining s) := by
  obtain ⟨j, hhear, hhanded, hleaves⟩ := hready.hear_told hgoes true (some t.now)
  rw [Turn.any_now] at hhear
  rw [Reads, step, hhear]
  generalize (s.link.inbox .recv).prospect.body? = body? at hhanded ⊢
  cases hspelt : body?.bind Message.ofBody? with
  | some m =>
    obtain ⟨body, rfl, hm⟩ := Option.bind_eq_some_iff.mp hspelt
    simp only [Session.Heard.told, hm, Option.elim]
    refine ⟨j, s.late ++ deliveries s.role.delivery [body], ?_, hhanded, ?_, .drains (hm ▸ rfl)⟩
    · rw [deliveries_of_spelt hm]
      split
      · rfl
      · rw [List.append_nil]
    · split
      · exact hleaves _
      · exact hleaves _
  | none =>
    -- nothing is heard, and the pull looks at what is kept
    have htold : Session.Heard.told true body? = .nothing := by
      cases body? with
      | none => rfl
      | some body => rw [Session.Heard.told, show Message.ofBody? body = none from hspelt]; rfl
    simp only [htold, Session.takeLate]
    cases hfind : s.late.find? wanted.accepts with
    | none => exact ⟨j, s.late, rfl, hhanded, hleaves _, .asks hspelt (List.find?_eq_none.mp hfind)⟩
    | some m => exact ⟨j, _, rfl, hhanded, hleaves _, .finds hspelt hfind⟩

/-- **A step of a pull that awaits the answer.** -/
theorem answered_step (wanted : Wanted) (begins : Bool) (deadline : Instant) :
    Reads s t (Answered wanted s.role deadline (t.now.reached deadline) s.late)
      (hearAnswer t wanted begins deadline s) := by
  obtain ⟨j, hhear, hhanded, hleaves⟩ := hready.hear_told hgoes begins (some deadline)
  rw [Option.any_some] at hhear
  rw [Reads, hearAnswer, hhear]
  generalize (s.link.inbox .recv).prospect.body? = body? at hhanded ⊢
  cases body? with
  | none =>
    cases t.now.reached deadline with
    | true => exact ⟨j, s.late, rfl, hhanded, hleaves _, .timesOut rfl⟩
    | false => exact ⟨j, s.late, rfl, hhanded, hleaves _, .waits rfl⟩
  | some body =>
    cases hspelt : Message.ofBody? body with
    | none =>
      simp only [Session.Heard.told, hspelt, Option.elim]
      refine ⟨j, s.late, rfl, hhanded, hleaves _, .wastes ?_⟩
      rw [Message.useless, deliveries_of_unspelt hspelt]
      rfl
    | some m =>
      have hbrings := deliveries_of_spelt hspelt s.role.delivery
      simp only [Session.Heard.told, hspelt, Option.elim]
      by_cases hm : m.isDelivery s.role.delivery
      · rw [if_pos hm] at hbrings
        rw [if_neg (fun h => h hm)]
        by_cases hfits : wanted.accepts m
        · rw [if_pos hfits]
          exact ⟨j, s.late, rfl, hhanded, hleaves _, .hands hbrings hfits⟩
        · rw [if_neg hfits]
          exact ⟨j, s.late ++ [m], rfl, hhanded, hleaves _, .keeps hbrings hfits⟩
      · rw [if_neg hm] at hbrings
        rw [if_pos hm]
        refine ⟨j, s.late, rfl, hhanded, hleaves _, .wastes ?_⟩
        rw [Message.useless, hbrings]
        rfl

end Reading

/-- **A step of a pull that asks.** -/
theorem requested_step (hready : s.Ready .recv t.id) (hworks : (s.link.outbox .recv).Works)
    {m : Message} (hm : m.Sayable) {stream : ByteArray} {n : Nat} {x : Session.Saying}
    (hspeaks : Speaks m stream n (s.link.outbox .recv) x) (wanted : Wanted) (timeout : Duration) :
    ∃ o progress, step t wanted timeout (.asking x) s
        = ({ s with link := s.link.setOutbox .recv o }, progress) ∧
      Ready .recv t.id { s with link := s.link.setOutbox .recv o } ∧
      ((s.link.setOutbox .recv o).outbox .recv).Works ∧
      Requested m t.now timeout ((s.link.setOutbox .recv o).outbox .recv)
        (s.link.outbox .recv).Idle x progress := by
  obtain ⟨o, hsession, hready', hworks', hleaves, hends⟩ := hready.say hworks hm hspeaks
  have hnear (hidle : (s.link.outbox .recv).Idle) := Session.say_nearer t .recv hworks hidle hspeaks
  refine ⟨o, (step t wanted timeout (.asking x) s).2, ?_, hready', hworks', ?_⟩
  · rw [step]
    dsimp only
    rw [hsession]
  · rw [step]
    dsimp only
    generalize (s.say t .recv x).2 = progress at hleaves hends hnear ⊢
    cases progress with
    | waits x' => exact .goesOn rfl ⟨stream, n, hleaves⟩ hnear
    | goes x' => exact .goesOn rfl ⟨stream, n, hleaves⟩ hnear
    | ends r =>
      obtain ⟨rfl, -⟩ := hends r rfl
      dsimp only [Progress.andThen]
      cases htimely : t.now.after? timeout with
      | some deadline => exact .said htimely
      | none => exact .overflows htimely

/-! ## A quest -/

/-- How many steps a pull takes at most that does not drain, apart from those that take a frame. -/
def Phase.distance : Phase → Nat
  | .draining => 5
  | .asking x => 1 + x.distance
  | .asked _ | .listening _ => 1

theorem Phase.distance_pos (phase : Phase) : 0 < phase.distance := by
  cases phase with
  | draining => decide
  | asking x => exact Nat.add_pos_left Nat.one_pos _
  | asked deadline => exact Nat.one_pos
  | listening deadline => exact Nat.one_pos

/-- The deadline of a pull that awaits the answer. -/
def Phase.deadline? : Phase → Option Instant
  | .asked deadline | .listening deadline => some deadline
  | .draining | .asking _ => none

/-- The step writes the last of the request. -/
def Phase.writes (t : Turn) (s : Session) : Phase → Bool
  | .asking x => (s.say t .recv x).2.reply?.isSome
  | _ => false

/-- One pull by itself, the instant of its last step, and the one at which its request was
written. -/
structure Quest where
  id : CallId
  wanted : Wanted
  timeout : Duration
  session : Session
  progress : Progress Failure Phase (Option Message) := .goes .draining
  clock : Instant
  written : Option Instant := none

namespace Quest

/-- A pull begins. -/
def start (id : CallId) (wanted : Wanted) (timeout : Duration) (now : Instant) (s : Session) :
    Quest :=
  { id, wanted, timeout, session := s, clock := now }

def step (q : Quest) : Call.Event → Quest
  | .stirs x => { q with session := { q.session with link := x.onLink q.session.link } }
  | .turns now millis => match q.progress.state? with
    | none => q
    | some phase =>
      let t : Turn := ⟨q.id, now, millis⟩
      let (session, progress) := Pull.step t q.wanted q.timeout phase q.session
      let written := if phase.writes t q.session then some now else q.written
      { q with session, progress, clock := now, written }

/-- A whole history. -/
def run (q : Quest) (es : List Call.Event) : Quest := es.foldl step q

/-- The inbound channel. -/
def inbox (q : Quest) : Inbox := q.session.link.inbox .recv

def outbox (q : Quest) : Outbox := q.session.link.outbox .recv

variable {q : Quest} {phase : Phase} {now : Instant} {millis : Nat}

theorem step_turns (hstate : q.progress.state? = some phase) (now : Instant) (millis : Nat) :
    q.step (.turns now millis) =
      let r := Pull.step ⟨q.id, now, millis⟩ q.wanted q.timeout phase q.session
      { q with
        session := r.1
        progress := r.2
        clock := now
        written :=
          if phase.writes ⟨q.id, now, millis⟩ q.session then some now else q.written } := by
  rw [step, hstate]

/-- A pull that has ended takes no step. -/
theorem step_turns_of_ended (hended : q.progress.state? = none) :
    q.step (.turns now millis) = q := by
  rw [step, hended]

/-- **A turn takes one frame at most**, and leaves the client who it was. -/
theorem turns_dealt (q : Quest) (now : Instant) (millis : Nat) :
    ∃ body?, q.session.Alike (q.step (.turns now millis)).session ∧
      q.inbox.Handed body? (q.step (.turns now millis)).inbox := by
  cases hstate : q.progress.state? with
  | none =>
    rw [step_turns_of_ended hstate]
    exact ⟨none, ⟨q.session.link, q.session.late, rfl⟩, Inbox.handed_none rfl rfl⟩
  | some phase =>
    obtain ⟨⟨body?, link, kept, hsession, hhanded, -⟩, -⟩ :=
      step_dealt ⟨q.id, now, millis⟩ q.wanted q.timeout phase q.session
    rw [step_turns hstate]
    refine ⟨body?, ⟨link, kept, hsession⟩, ?_⟩
    change q.inbox.Handed body? ((Pull.step _ _ _ _ _).1.link.inbox .recv)
    rw [hsession]
    exact hhanded

theorem run_append (q : Quest) (es es' : List Call.Event) :
    q.run (es ++ es') = (q.run es).run es' :=
  List.foldl_append

/-- What a pull is asked for stays the same. -/
theorem step_fixed (q : Quest) (e : Call.Event) :
    (q.step e).id = q.id ∧ (q.step e).wanted = q.wanted ∧ (q.step e).timeout = q.timeout := by
  cases e with
  | stirs x => exact ⟨rfl, rfl, rfl⟩
  | turns now millis =>
    cases hstate : q.progress.state? with
    | none =>
      rw [step_turns_of_ended hstate]
      exact ⟨rfl, rfl, rfl⟩
    | some phase =>
      rw [step_turns hstate]
      exact ⟨rfl, rfl, rfl⟩

theorem run_fixed (q : Quest) (es : List Call.Event) :
    (q.run es).wanted = q.wanted ∧ (q.run es).timeout = q.timeout := by
  induction es generalizing q with
  | nil => exact ⟨rfl, rfl⟩
  | cons e es ih =>
    obtain ⟨-, hwanted, htimeout⟩ := q.step_fixed e
    obtain ⟨hwanted', htimeout'⟩ := ih (q.step e)
    exact ⟨hwanted'.trans hwanted, htimeout'.trans htimeout⟩

/-! ## In pursuit -/

/-- The inbound channel of a pull that wants this is in order, and no other call reads it. -/
structure Sound (role : Role) (wanted : Wanted) (q : Quest) : Prop where
  plays : q.session.role = role
  wants : q.wanted = wanted
  ready : q.session.Ready .recv q.id
  works : q.outbox.Works

theorem Sound.stir {role : Role} {wanted : Wanted} (h : q.Sound role wanted) {x : Stir}
    (hx : x.Intact .recv) : (q.step (.stirs x)).Sound role wanted :=
  ⟨h.plays, h.wants, Stir.ready_onLink hx h.ready, Stir.works_onLink hx h.works⟩

/-- A turn in which the pull reads. -/
theorem Sound.read {role : Role} {wanted : Wanted} (h : q.Sound role wanted) (now : Instant)
    (millis : Nat) (hstate : q.progress.state? = some phase)
    {makes : Option ByteArray → Progress Failure Phase (Option Message) → List Message → Prop}
    (hreads : Reads q.session ⟨q.id, now, millis⟩ makes
      (Pull.step ⟨q.id, now, millis⟩ wanted q.timeout phase q.session)) :
    let q' := q.step (.turns now millis)
    q'.Sound role wanted ∧ q.inbox.Handed q.inbox.prospect.body? q'.inbox ∧
      makes q.inbox.prospect.body? q'.progress q'.session.late := by
  obtain ⟨j, kept, hsession, hhanded, hready, hmakes⟩ := hreads
  intro q'
  have hq' : q' = _ := step_turns hstate now millis
  rw [h.wants] at hq'
  generalize Pull.step ⟨q.id, now, millis⟩ wanted q.timeout phase q.session = r
    at hsession hready hmakes hq'
  obtain ⟨s', progress⟩ := r
  obtain rfl : s' = _ := hsession
  rw [hq']
  have hinbox : (q.session.link.setInbox .recv j).inbox .recv = j := by
    rw [Link.inbox_setInbox, if_pos rfl]
  have houtbox : (q.session.link.setInbox .recv j).outbox .recv = q.outbox :=
    Link.outbox_setInbox ..
  refine ⟨⟨h.plays, rfl, hready, houtbox.symm ▸ h.works⟩, ?_, hmakes⟩
  change q.inbox.Handed _ ((q.session.link.setInbox .recv j).inbox .recv)
  rw [hinbox]
  exact hhanded

/-- A turn in which the pull asks. -/
theorem Sound.ask {role : Role} {wanted : Wanted} (h : q.Sound role wanted) (now : Instant)
    (millis : Nat) {x : Session.Saying} (hstate : q.progress.state? = some (.asking x))
    {m : Message} (hm : m.Sayable) {stream : ByteArray} {n : Nat}
    (hspeaks : Speaks m stream n q.outbox x) :
    let q' := q.step (.turns now millis)
    q'.Sound role wanted ∧ q'.session.late = q.session.late ∧ q'.inbox = q.inbox ∧
      Requested m now q.timeout q'.outbox q.outbox.Idle x q'.progress := by
  obtain ⟨o, progress, hstep, hready, hworks, hrequested⟩ :=
    requested_step (t := ⟨q.id, now, millis⟩) h.ready h.works hm hspeaks q.wanted q.timeout
  intro q'
  have hq' : q' = _ := step_turns hstate now millis
  rw [hstep] at hq'
  rw [hq']
  have hinbox : (q.session.link.setOutbox .recv o).inbox .recv = q.inbox :=
    Link.inbox_setOutbox ..
  exact ⟨⟨h.plays, h.wants, hready, hworks⟩, rfl, hinbox, hrequested⟩

end Quest

/-- The delivery that a pull is after, in a frame of its own. -/
structure Quarry (role : Role) (wanted : Wanted) where
  message : Message
  body : ByteArray
  brings : deliveries role.delivery [body] = [message]
  fits : wanted.accepts message

/-- The request of a pull that has looked at what is kept is being written, or has been. -/
def Phase.Behind (request : Message) (o : Outbox) : Phase → Prop
  | .draining => False
  | .asking x => ∃ stream n, Speaks request stream n o x
  | .asked _ | .listening _ => True

theorem Phase.Behind.distance_le {request : Message} {o : Outbox} {phase : Phase}
    (h : phase.Behind request o) : phase.distance ≤ 4 := by
  cases phase with
  | draining => exact h.elim
  | asking x => exact Nat.add_le_add_left x.distance_le 1
  | asked deadline => exact Nat.succ_pos 3
  | listening deadline => exact Nat.succ_pos 3

theorem Phase.Behind.stir {request : Message} {phase : Phase} {l : Link} {x : Stir}
    (h : phase.Behind request (l.outbox .recv)) :
    phase.Behind request ((x.onLink l).outbox .recv) := by
  refine x.outbox_stays (P := fun o => phase.Behind request o) (fun a o ho => ?_) h
  cases phase with
  | asking y =>
    obtain ⟨stream, n, hspeaks⟩ := ho
    exact ⟨stream, n, hspeaks.act a⟩
  | _ => exact ho

theorem Quarry.useful {role : Role} {wanted : Wanted} (d : Quarry role wanted) :
    ¬ Message.useless role.delivery d.body := by
  rw [Message.useless, d.brings]
  exact Bool.false_ne_true

namespace Quest

variable {role : Role} {wanted : Wanted} {d : Quarry role wanted} {others : List Message}
  {front : List ByteArray} {future : ByteArray} {phase : Phase} {q : Quest} {x : Stir} {n : Nat}

/-- A pull has looked in vain at what was kept.  These frames lie between it and the delivery that
it is after, on the channel or still to come, and with what is kept they come to these deliveries
for others. -/
structure Pursues (d : Quarry role wanted) (others : List Message) (front : List ByteArray)
    (future : ByteArray) (phase : Phase) (q : Quest) : Prop extends q.Sound role wanted where
  state : q.progress.state? = some phase
  behind : phase.Behind (wanted.request role.originator) q.outbox
  ahead : q.inbox.Ahead (front ++ [d.body]) future
  books : q.session.late ++ deliveries role.delivery front = others

/-- A pull has ended: with what it was after, all that came before it being kept; with nothing at a
useless frame, of which there are fewer left than this; or because its deadline cannot be
represented. -/
inductive Concludes (d : Quarry role wanted) (others : List Message) (n : Nat)
    (future : ByteArray) (q : Quest) : Prop
  | gets (ended : q.progress = .ends (.ok (some d.message))) (kept : q.session.late = others)
  | misses {front : List ByteArray} (sound : q.Sound role wanted)
      (ended : q.progress = .ends (.ok none)) (ahead : q.inbox.Ahead (front ++ [d.body]) future)
      (books : q.session.late ++ deliveries role.delivery front = others)
      (fewer : front.countP (Message.useless role.delivery) < n)
  | overflows (ended : q.progress = .ends (.error .deadlineOverflow))

theorem Concludes.ended (h : q.Concludes d others n future) : q.progress.state? = none := by
  cases h with
  | gets ended => rw [ended]; rfl
  | misses _ ended => rw [ended]; rfl
  | overflows ended => rw [ended]; rfl

theorem Concludes.mono {n' : Nat} (h : q.Concludes d others n future) (hle : n ≤ n') :
    q.Concludes d others n' future := by
  cases h with
  | gets ended kept => exact .gets ended kept
  | misses sound ended ahead books fewer =>
    exact .misses sound ended ahead books (Nat.lt_of_lt_of_le fewer hle)
  | overflows ended => exact .overflows ended

theorem Concludes.stir (h : q.Concludes d others n (x.bytes .recv ++ future))
    (hx : x.Intact .recv) : (q.step (.stirs x)).Concludes d others n future := by
  cases h with
  | gets ended kept => exact .gets ended kept
  | misses sound ended ahead books fewer =>
    exact .misses (sound.stir hx) ended (ahead.onLink hx sound.ready.flows) books fewer
  | overflows ended => exact .overflows ended

/-- What goes on around a pull brings what was to come. -/
theorem Pursues.stir (h : q.Pursues d others front (x.bytes .recv ++ future) phase)
    (hx : x.Intact .recv) : (q.step (.stirs x)).Pursues d others front future phase where
  toSound := h.toSound.stir hx
  state := h.state
  behind := h.behind.stir
  ahead := h.ahead.onLink hx h.ready.flows
  books := h.books

/-- What is due to a pull in pursuit is the first of the frames before it, unless a part of that is
still to come. -/
theorem Pursues.first (h : q.Pursues d others front future phase) :
    (∀ e, q.inbox.prospect ≠ .failure e) ∧
      (front = [] ∧ q.inbox.prospect.body? = some d.body ∨
        (∃ body front', front = body :: front' ∧ q.inbox.prospect.body? = some body) ∨
        future ≠ .empty ∧ q.inbox.prospect.body? = none) := by
  have hahead := h.ahead
  cases front with
  | nil =>
    obtain ⟨hgoes, hbody | ⟨hbody, hfuture⟩⟩ := hahead.first h.ready.flows
    · exact ⟨hgoes, .inl ⟨rfl, hbody⟩⟩
    · exact ⟨hgoes, .inr (.inr ⟨hfuture, hbody⟩)⟩
  | cons body front =>
    obtain ⟨hgoes, hbody | ⟨hbody, hfuture⟩⟩ := hahead.first h.ready.flows
    · exact ⟨hgoes, .inr (.inl ⟨body, front, rfl, hbody⟩)⟩
    · exact ⟨hgoes, .inr (.inr ⟨hfuture, hbody⟩)⟩

/-- What a turn of a pull in pursuit comes to: it goes on, nearer to its end if nothing is missing
of what it is after, or it concludes. -/
def Advances (d : Quarry role wanted) (others : List Message) (front : List ByteArray)
    (future : ByteArray) (phase : Phase) (q q' : Quest) : Prop :=
  (∃ front' phase', q'.Pursues d others front' future phase' ∧
    front'.countP (Message.useless role.delivery) ≤ front.countP (Message.useless role.delivery) ∧
    (q.outbox.Idle → future = .empty →
      front'.length + phase'.distance < front.length + phase.distance)) ∨
  q'.Concludes d others (front.countP (Message.useless role.delivery)) future

/-- A step of a pull that awaits the answer. -/
theorem step_awaits {deadline : Instant} (hphase : phase.deadline? = some deadline) (t : Turn)
    (timeout : Duration) (s : Session) :
    ∃ begins, Pull.step t wanted timeout phase s = hearAnswer t wanted begins deadline s := by
  cases phase with
  | draining => cases hphase
  | asking y => cases hphase
  | asked deadline' => exact ⟨true, Option.some.inj hphase ▸ rfl⟩
  | listening deadline' => exact ⟨false, Option.some.inj hphase ▸ rfl⟩

theorem Pursues.hears (h : q.Pursues d others front future phase) (now : Instant) (millis : Nat)
    (hothers : ∀ m ∈ others, ¬ wanted.accepts m) {deadline : Instant}
    (hphase : phase.deadline? = some deadline)
    (hearly : future = .empty ∨ now.reached deadline = false) :
    Advances d others front future phase q (q.step (.turns now millis)) := by
  obtain ⟨hgoes, hfirst⟩ := h.first
  obtain ⟨begins, hstep⟩ := step_awaits hphase ⟨q.id, now, millis⟩ q.timeout q.session
  have hreads := answered_step (t := ⟨q.id, now, millis⟩) h.ready hgoes wanted begins deadline
  rw [← hstep] at hreads
  obtain ⟨hsound, hhanded, hmakes⟩ := h.toSound.read now millis h.state hreads
  generalize q.step (.turns now millis) = q' at hsound hhanded hmakes ⊢
  generalize q.inbox.prospect.body? = body? at hmakes hhanded hfirst
  generalize hprogress : q'.progress = progress at hmakes
  generalize hkept : q'.session.late = kept at hmakes
  rw [h.plays] at hmakes
  have hbooks := h.books
  rcases hfirst with ⟨rfl, rfl⟩ | ⟨body, front', rfl, rfl⟩ | ⟨hmissing, rfl⟩
  · -- what it is after is due
    have hlate : q.session.late = others := (List.append_nil _).symm.trans hbooks
    cases hmakes with
    | hands brings fits =>
      obtain rfl := List.singleton_inj.mp (brings.symm.trans d.brings)
      exact .inr (.gets hprogress (hkept.trans hlate))
    | keeps brings other =>
      obtain rfl := List.singleton_inj.mp (brings.symm.trans d.brings)
      exact absurd d.fits other
    | wastes useless => exact absurd useless d.useful
  · -- another frame is due
    have hahead : q'.inbox.Ahead (front' ++ [d.body]) future := h.ahead.taken hhanded
    rw [deliveries_cons] at hbooks
    cases hmakes with
    | hands brings fits =>
      refine absurd fits (hothers _ ?_)
      rw [← hbooks, brings]
      exact List.mem_append_right _ List.mem_cons_self
    | @keeps _ m brings other =>
      rw [brings, ← List.append_assoc] at hbooks
      refine .inl ⟨front', .asked deadline, ⟨hsound, hprogress ▸ rfl, trivial, hahead, ?_⟩,
        (List.sublist_cons_self body front').countP_le, fun _ _ => ?_⟩
      · rw [hkept]
        exact hbooks
      · have hpos := phase.distance_pos
        rw [List.length_cons]
        change front'.length + 1 < _
        omega
    | wastes useless =>
      have hnone := List.isEmpty_iff.mp useless
      rw [hnone, List.nil_append] at hbooks
      refine .inr (.misses hsound hprogress hahead (hkept ▸ hbooks) ?_)
      rw [List.countP_cons_of_pos useless]
      exact Nat.lt_succ_self _
  · -- a part of it is missing
    have hup : now.reached deadline = false := hearly.resolve_left hmissing
    cases hmakes with
    | timesOut late => exact absurd (hup.symm.trans late) (by decide)
    | waits early =>
      refine .inl ⟨front, .listening deadline, ⟨hsound, hprogress ▸ rfl, trivial, ?_, ?_⟩,
        Nat.le_refl _, fun _ hwhole => absurd hwhole hmissing⟩
      · exact h.ahead.rests hhanded.pending_of_none
      · exact hkept ▸ hbooks

/-- **A turn of a pull in pursuit.** -/
theorem Pursues.turn (h : q.Pursues d others front future phase) (now : Instant) (millis : Nat)
    (hothers : ∀ m ∈ others, ¬ wanted.accepts m)
    (hsayable : (wanted.request role.originator).Sayable)
    (hearly : future = .empty ∨ ∀ deadline ∈ phase.deadline?, now.reached deadline = false) :
    Advances d others front future phase q (q.step (.turns now millis)) := by
  cases phase with
  | draining => exact h.behind.elim
  | asked deadline =>
    exact h.hears now millis hothers rfl (hearly.imp_right fun hd => hd deadline rfl)
  | listening deadline =>
    exact h.hears now millis hothers rfl (hearly.imp_right fun hd => hd deadline rfl)
  | asking x =>
    obtain ⟨stream, n, hspeaks⟩ := h.behind
    obtain ⟨hsound, hkept, hinbox, hrequested⟩ :=
      h.toSound.ask now millis h.state hsayable hspeaks
    have hahead : (q.step (.turns now millis)).inbox.Ahead (front ++ [d.body]) future :=
      hinbox ▸ h.ahead
    generalize q.step (.turns now millis) = q' at hsound hkept hahead hrequested ⊢
    generalize hprogress : q'.progress = progress at hrequested
    cases hrequested with
    | @goesOn x' _ state speaks nearer =>
      refine .inl ⟨front, .asking x', ⟨hsound, hprogress ▸ state, speaks, hahead, hkept ▸ h.books⟩,
        Nat.le_refl _, fun hidle _ => ?_⟩
      exact Nat.add_lt_add_left (Nat.add_lt_add_left (nearer hidle) 1) front.length
    | @said deadline timely =>
      refine .inl ⟨front, .asked deadline, ⟨hsound, hprogress ▸ rfl, trivial, hahead,
        hkept ▸ h.books⟩, Nat.le_refl _, fun _ _ => ?_⟩
      exact Nat.add_lt_add_left (Nat.lt_add_of_pos_right x.distance_pos) front.length
    | overflows untimely => exact .inr (.overflows hprogress)

/-! ## Until its end -/

/-- Rounds leave the inbound channel in order. -/
theorem intact_rounds (turns : List (Instant × Nat)) :
    ∀ e ∈ Call.rounds turns, e.Intact .recv :=
  Call.forall_mem_rounds (.inr rfl) fun _ _ => trivial

variable {e : Call.Event} {es : List Call.Event}

/-- What has concluded stays so. -/
theorem Concludes.step (h : q.Concludes d others n (e.bytes .recv ++ future))
    (he : e.Intact .recv) : (q.step e).Concludes d others n future := by
  cases e with
  | stirs x => exact h.stir he
  | turns now millis =>
    rw [step_turns_of_ended h.ended]
    exact ByteArray.empty_append (b := future) ▸ h

theorem Concludes.more (h : q.Concludes d others n future) (bytes : ByteArray) :
    q.Concludes d others n (future ++ bytes) := by
  cases h with
  | gets ended kept => exact .gets ended kept
  | misses sound ended ahead books fewer =>
    exact .misses sound ended (ahead.more bytes) books fewer
  | overflows ended => exact .overflows ended

theorem Concludes.run (h : q.Concludes d others n .empty) (hes : ∀ e ∈ es, e.Intact .recv) :
    (q.run es).Concludes d others n .empty := by
  induction es generalizing q with
  | nil => exact h
  | cons e es ih =>
    obtain ⟨he, hes⟩ := List.forall_mem_cons.mp hes
    have hmore := h.more (e.bytes .recv)
    rw [ByteArray.empty_append, ← ByteArray.append_empty (b := e.bytes .recv)] at hmore
    exact ih (hmore.step he) hes

/-- A pull is in pursuit, with no more useless frames before it than this, or it has concluded. -/
inductive Fares (d : Quarry role wanted) (others : List Message) (n : Nat) (future : ByteArray)
    (q : Quest) : Prop
  | pursues {front : List ByteArray} {phase : Phase}
      (pursues : q.Pursues d others front future phase)
      (few : front.countP (Message.useless role.delivery) ≤ n)
  | concludes (concludes : q.Concludes d others n future)

theorem Fares.more (h : q.Fares d others n future) (bytes : ByteArray) :
    q.Fares d others n (future ++ bytes) := by
  cases h with
  | pursues h few =>
    exact .pursues ⟨h.toSound, h.state, h.behind, h.ahead.more bytes, h.books⟩ few
  | concludes h => exact .concludes (h.more bytes)

/-- The event is not a step that comes at the deadline or later. -/
def Early (q : Quest) : Call.Event → Prop
  | .stirs _ => True
  | .turns now _ => ∀ deadline ∈ q.progress.state?.bind Phase.deadline?,
      now.reached deadline = false

/-- No step of a whole history comes at the deadline or later. -/
def Before (q : Quest) : List Call.Event → Prop
  | [] => True
  | e :: es => q.Early e ∧ (q.step e).Before es

instance decidableEarly (q : Quest) : (e : Call.Event) → Decidable (q.Early e)
  | .stirs _ => .isTrue trivial
  | .turns _ _ => inferInstanceAs (Decidable (∀ deadline ∈ _, _))

instance decidableBefore (q : Quest) : (es : List Call.Event) → Decidable (q.Before es)
  | [] => .isTrue trivial
  | e :: es => @instDecidableAnd _ _ (q.decidableEarly e) ((q.step e).decidableBefore es)

section Faring

variable (hothers : ∀ m ∈ others, ¬ wanted.accepts m)
  (hsayable : (wanted.request role.originator).Sayable)
include hothers hsayable

/-- **Whatever happens, a pull fares on**, while it is early or nothing is missing of what it is
after. -/
theorem Fares.step (h : q.Fares d others n (e.bytes .recv ++ future)) (he : e.Intact .recv)
    (hearly : future = .empty ∨ q.Early e) : (q.step e).Fares d others n future := by
  cases h with
  | concludes h => exact .concludes (h.step he)
  | pursues h few =>
    cases e with
    | stirs x => exact .pursues (h.stir he) few
    | turns now millis =>
      have hnone : (Call.Event.turns now millis).bytes .recv ++ future = future :=
        ByteArray.empty_append
      rw [hnone] at h
      have hadvances := h.turn now millis hothers hsayable
        (hearly.imp_right fun hd deadline hdeadline =>
          hd deadline (Option.mem_bind_iff.mpr ⟨_, h.state, hdeadline⟩))
      rcases hadvances with ⟨front', phase', hpursues, hfewer, -⟩ | hconcludes
      · exact .pursues hpursues (Nat.le_trans hfewer few)
      · exact .concludes (hconcludes.mono few)

/-- **…over a whole history** in which what was to come, comes… -/
theorem Fares.comes (h : q.Fares d others n (Call.arrivals .recv es ++ future))
    (hes : ∀ e ∈ es, e.Intact .recv) (hbefore : q.Before es) :
    (q.run es).Fares d others n future := by
  induction es generalizing q with
  | nil => exact ByteArray.empty_append (b := future) ▸ h
  | cons e es ih =>
    obtain ⟨he, hes⟩ := List.forall_mem_cons.mp hes
    change q.Fares d others n (e.bytes .recv ++ Call.arrivals .recv es ++ future) at h
    rw [ByteArray.append_assoc] at h
    have hstep := h.step hothers hsayable he (.inr hbefore.1)
    exact ih hstep hes hbefore.2

/-- …or in which all has come already. -/
theorem Fares.run (h : q.Fares d others n .empty) (hes : ∀ e ∈ es, e.Intact .recv) :
    (q.run es).Fares d others n .empty := by
  induction es generalizing q with
  | nil => exact h
  | cons e es ih =>
    obtain ⟨he, hes⟩ := List.forall_mem_cons.mp hes
    have hmore := h.more (e.bytes .recv)
    rw [ByteArray.empty_append, ← ByteArray.append_empty (b := e.bytes .recv)] at hmore
    have hstep := hmore.step hothers hsayable he (.inl rfl)
    exact ih hstep hes

omit hothers hsayable in
/-- The writer can be done with all that there is. -/
theorem Pursues.flush (h : q.Pursues d others front .empty phase) :
    let q' := q.step (.stirs (.writes .recv .flushes))
    q'.Pursues d others front .empty phase ∧ q'.outbox.Idle := by
  intro q'
  have hflush : Call.Event.Intact .recv (.stirs (.writes .recv .flushes)) := .inr rfl
  refine ⟨Pursues.stir (ByteArray.empty_append.symm ▸ h) hflush, ?_⟩
  change ((q.session.link.setOutbox .recv _).outbox .recv).Idle
  rw [Link.outbox_setOutbox, if_pos rfl]
  exact Outbox.idle_flush h.works.going

/-- **A pull concludes** when all has come that it is after and it is given as many rounds as it
needs. -/
theorem Pursues.ends (h : q.Pursues d others front .empty phase)
    (few : front.countP (Message.useless role.delivery) ≤ n) {turns : List (Instant × Nat)}
    (hnear : front.length + phase.distance ≤ turns.length) :
    (q.run (Call.rounds turns)).Concludes d others n .empty := by
  induction turns generalizing q front phase with
  | nil =>
    have hpos := phase.distance_pos
    rw [List.length_nil] at hnear
    omega
  | cons turn turns ih =>
    obtain ⟨now, millis⟩ := turn
    obtain ⟨hflush, hidle⟩ := h.flush
    change ((q.step (.stirs (.writes .recv .flushes))).run
      (.turns now millis :: Call.rounds turns)).Concludes d others n .empty
    generalize q.step (.stirs (.writes .recv .flushes)) = q' at hflush hidle ⊢
    rcases hflush.turn now millis hothers hsayable (.inl rfl) with
      ⟨front', phase', hpursues, hfewer, hnearer⟩ | hconcludes
    · have hless := hnearer hidle rfl
      rw [List.length_cons] at hnear
      exact ih hpursues (Nat.le_trans hfewer few) (by omega)
    · exact (hconcludes.mono few).run (intact_rounds turns)

theorem Fares.ends (h : q.Fares d others n .empty) {turns : List (Instant × Nat)}
    (hturns : (Frame.bodies q.inbox.pending).length + 3 ≤ turns.length) :
    (q.run (Call.rounds turns)).Concludes d others n .empty := by
  cases h with
  | concludes h => exact h.run (intact_rounds turns)
  | pursues h few =>
    have hlength := h.ahead.length_le
    have hdistance := h.behind.distance_le
    rw [List.length_append, List.length_singleton] at hlength
    exact h.ends hothers hsayable few (by omega)

end Faring

end Quest

end Pull

end SimRelay
