import SimRelay.Proofs.Call.Remnants
import SimRelay.Proofs.Call.Writers
import SimRelay.Proofs.Session.Verdicts

/-!
# Proofs/Call/Listening — listening is a filter of the stream

A client that is pushed to reads one frame for each call at most, and without a store it is done
with a delivery as soon as it has read it.  So what its calls are told one after another is what
the frames spell that have come off the channel, one after another, but for those that are of no
use to the client.  A call that gets nothing has used up a frame of that kind, or its time was up;
and one that is dropped, or whose time is up, has used up none (`Push.Explains`).

A `Push.Watch` follows calls that come one after another, with whatever goes on around them and
beside them.
-/

namespace SimRelay

/-! ## A writer with nothing to write -/

namespace Outbox

variable {o : Outbox} {wire : ByteArray}

/-- The writer has nothing to write, and this is what it has written. -/
structure Still (wire : ByteArray) (o : Outbox) : Prop extends o.Idle where
  wire : o.wire = wire

theorem Still.finish (h : o.Still wire) : o.finish.Still wire := by
  unfold Outbox.finish
  split
  · exact ⟨⟨h.queue, h.hand⟩, h.wire⟩
  · exact h

theorem Still.pick (h : o.Still wire) : o.pick = o := by
  have hqueue := h.queue
  unfold Outbox.pick
  split
  · next heq =>
    rw [hqueue] at heq
    cases heq
  · rfl

/-- **Where nothing is handed over, nothing is written.** -/
theorem Still.act (h : o.Still wire) (a : Act) : (o.act a).Still wire := by
  cases a with
  | picks =>
    change o.pick.Still wire
    rw [h.pick]
    exact h
  | pushes n =>
    have hpush : o.push n = o := by simp only [push, h.hand]
    change (o.push n).Still wire
    rw [hpush]
    exact h
  | fails text =>
    have hfail : o.fail text = o := by simp only [fail, h.hand]
    change (o.fail text).Still wire
    rw [hfail]
    exact h
  | finishes => exact h.finish
  | flushes =>
    change o.flush.Still wire
    unfold flush
    simp only [h.hand]
    refine Still.finish ?_
    split
    · exact h
    · refine ⟨⟨rfl, rfl⟩, ?_⟩
      rw [h.queue]
      exact h.wire

end Outbox

namespace Link

variable {l l' : Link}

/-- The writer of the inbound channel is left alone, though the channel may be shut. -/
def SparesWriter (l l' : Link) : Prop := ∃ shut, l'.outbox .recv = { l.outbox .recv with shut }

theorem SparesWriter.of_eq (h : l'.outbox .recv = l.outbox .recv) : l.SparesWriter l' :=
  ⟨(l.outbox .recv).shut, h⟩

theorem SparesWriter.still {wire : ByteArray} (h : l.SparesWriter l')
    (hl : (l.outbox .recv).Still wire) : (l'.outbox .recv).Still wire := by
  obtain ⟨shut, heq⟩ := h
  rw [heq]
  exact ⟨⟨hl.queue, hl.hand⟩, hl.wire⟩

theorem sparesWriter_close (id : CallId) (c : Closing) (l : Link) :
    l.SparesWriter (l.close id c).1 := by
  unfold close
  split
  · split
    · exact .of_eq rfl
    · exact .of_eq rfl
  · exact .of_eq rfl
  · next first rest =>
    have hshuts (i : Inbox) : l.SparesWriter
        ((l.setOutbox first { l.outbox first with shut := true }).setInbox first i) := by
      refine ⟨if first = .recv then true else (l.outbox .recv).shut, ?_⟩
      rw [outbox_setInbox, outbox_setOutbox]
      split
      · next hfirst => rw [hfirst]
      · rfl
    dsimp only
    split
    · exact hshuts _
    · exact hshuts _

end Link

namespace Session

variable {s s' : Session}

theorem sparesWriter_of_hear {t : Turn} {ch : Channel} {begins : Bool} {deadline : Option Instant}
    {heard : Heard} (h : s.hear t ch begins deadline = (heard, s')) : s.link.SparesWriter s'.link :=
  .of_eq (outbox_of_hear h .recv)

theorem sparesWriter_say (t : Turn) {ch : Channel} (hch : ch ≠ .recv) (x : Saying) (s : Session) :
    s.link.SparesWriter (s.say t ch x).1.link := by
  obtain ⟨o, hsession⟩ := s.say_spec t ch x
  rw [hsession]
  refine .of_eq ?_
  rw [Link.outbox_setOutbox, if_neg hch]

end Session

theorem Ping.step_sparesWriter (t : Turn) (timeout : Duration) (phase : Phase) (s : Session) :
    s.link.SparesWriter (step t timeout phase s).1.link := by
  have hhears (begins : Bool) (deadline : Instant) :
      s.link.SparesWriter (hearAnswer t begins deadline s).1.link := by
    unfold hearAnswer
    split
    · next heq => exact Session.sparesWriter_of_hear heq
    · next heq => exact Session.sparesWriter_of_hear heq
    · next heq => exact Session.sparesWriter_of_hear heq
    · next heq => exact Session.sparesWriter_of_hear heq
  cases phase with
  | start =>
    rw [step]
    split
    · exact .of_eq rfl
    · exact .of_eq rfl
  | clearing =>
    rw [step]
    split
    · next heq => exact Session.sparesWriter_of_hear heq
    · next heq => exact Session.sparesWriter_of_hear heq
    · next heq => exact Session.sparesWriter_of_hear heq
  | asking x => exact s.sparesWriter_say t (by decide) x
  | asked => exact hhears true _
  | listening deadline => exact hhears false deadline

theorem Exit.step_sparesWriter (t : Turn) (phase : Phase) (s : Session) :
    s.link.SparesWriter (step t phase s).1.link := by
  cases phase with
  | start =>
    rw [step]
    split
    · exact .of_eq rfl
    · dsimp only
      split
      · exact .of_eq rfl
      · exact .of_eq rfl
  | saying x => exact s.sparesWriter_say t (by decide) x
  | closing c wrong => exact Link.sparesWriter_close t.id c s.link

theorem Hand.step_sparesWriter (t : Turn) (h : Hand) (phase : Phase) (s : Session) (b : Backend) :
    s.link.SparesWriter (h.step t phase s b).1.link := by
  unfold step
  split
  · exact .of_eq rfl
  · next p _ =>
    cases phase with
    | start =>
      dsimp only
      split
      · exact .of_eq rfl
      · split
        · next hkey =>
          obtain ⟨source, -, heq⟩ := Option.map_eq_some_iff.mp hkey
          obtain ⟨-, rfl⟩ := Prod.mk.inj heq
          exact .of_eq rfl
        · exact .of_eq rfl
        · exact .of_eq rfl
    | storing key =>
      dsimp only
      split
      · split
        · exact .of_eq rfl
        · exact .of_eq rfl
      · exact .of_eq rfl
    | releasing key => exact .of_eq rfl
    | saying x stored => exact s.sparesWriter_say t (by decide) x

/-- **Only a call that receives writes on the inbound channel.** -/
theorem Call.step_sparesWriter (t : Turn) {c : Call} (hc : c.receives = false) (s : Session)
    (b : Backend) : s.link.SparesWriter (c.step t s b).1.link := by
  cases c with
  | ping timeout phase => exact Ping.step_sparesWriter t _ phase s
  | intake i phase => cases hc
  | hand h phase => exact h.step_sparesWriter t phase s b
  | exit phase => exact Exit.step_sparesWriter t phase s

namespace Push

/-! ## Calls that are over -/

/-- A call that is over. -/
structure Past where
  intake : Intake
  /-- When it began to wait, if it did. -/
  since : Option Instant
  /-- When it ended and what its caller was told, unless it was dropped. -/
  told : Option (Instant × Except Failure (Option Delivery))

/-- The delivery that the caller got, if it got one. -/
def Past.delivery? (p : Past) : Option Delivery :=
  match p.told with
  | some (_, .ok d?) => d?
  | _ => none

/-- Why a call was told what it was told, by the frame that it used up, if it used up one. -/
inductive Explains (role : Role) : Past → Option ByteArray → Prop
  /-- The frame spells a usable delivery, which the caller gets if it has a use for it. -/
  | delivers {i : Intake} {since : Option Instant} {now : Instant} {body : ByteArray} {m : Message}
      (spelt : Message.ofBody? body = some m) (usable : m.isDelivery role.delivery) :
      Explains role ⟨i, since, some (now, .ok (role.unstored m))⟩ (some body)
  /-- The frame cannot be read, or spells no usable delivery. -/
  | wastes {i : Intake} {since : Option Instant} {now : Instant} {body : ByteArray}
      (unusable : (Message.ofBody? body).filter (Message.isDelivery role.delivery) = none) :
      Explains role ⟨i, since, some (now, .ok none)⟩ (some body)
  /-- The call had a timeout, and it has gone by. -/
  | timesOut {i : Intake} {since now : Instant} {d : Duration} (timeout : i.timeout = some d)
      (up : now.reached (since.timer d)) : Explains role ⟨i, some since, some (now, .ok none)⟩ none
  | fails {i : Intake} {since : Option Instant} {now : Instant} (e : Failure) :
      Explains role ⟨i, since, some (now, .error e)⟩ none
  | dropped {i : Intake} {since : Option Instant} : Explains role ⟨i, since, none⟩ none

/-- **What the caller got is what the frame was good for.** -/
theorem Explains.delivery?_toList {role : Role} {p : Past} {body? : Option ByteArray}
    (h : Explains role p body?) : p.delivery?.toList
      = (deliveries role.delivery body?.toList).filterMap role.unstored := by
  rw [deliveries_toList]
  cases h with
  | @delivers i since now body m spelt usable =>
    rw [Option.bind_some, spelt, Option.filter_some_pos usable]
    cases hd : role.unstored m <;> simp [Past.delivery?, hd]
  | wastes unusable =>
    rw [Option.bind_some, unusable]
    rfl
  | timesOut | fails | dropped => rfl

/-! ## One step -/

/-- The call waits for what is forwarded, and its deadline is that of its timeout. -/
def Awaits (i : Intake) (since : Option Instant) : Intake.Phase → Prop
  | .start => True
  | .attending timeout => timeout = i.timeout
  | .waiting deadline => ∃ began, since = some began ∧ deadline = i.timeout.map began.timer
  | .pulling _ | .resolving _ _ => False

/-- When a call began to wait, behind a step from this phase. -/
def sinceAt (t : Turn) (since : Option Instant) : Intake.Phase → Option Instant
  | .attending _ => some t.now
  | _ => since

/-- What is to be said of a step by which a call gets so far: it has used up a frame if it has ended
because of it, and otherwise none. -/
def Accounts (role : Role) (i : Intake) (since : Option Instant) (now : Instant)
    (body? : Option ByteArray) : Progress Failure Intake.Phase (Option Delivery) → Prop
  | .waits phase | .goes phase => body? = none ∧ Awaits i since phase
  | .ends result => Explains role ⟨i, since, some (now, result)⟩ body?

/-- What a step of a call makes of the client: it takes a frame at most off the inbound channel. -/
def Steps (i : Intake) (since : Option Instant) (now : Instant) (s : Session)
    (r : Session × Progress Failure Intake.Phase (Option Delivery)) : Prop :=
  ∃ body? j, r.1 = { s with link := s.link.setInbox .recv j } ∧
    (s.link.inbox .recv).Handed body? j ∧ Accounts s.role i since now body? r.2

variable {i : Intake} {s : Session} {since : Option Instant}

/-- A step that leaves the client as it is. -/
theorem Steps.rests {now : Instant} {p : Progress Failure Intake.Phase (Option Delivery)}
    (h : Accounts s.role i since now none p) : Steps i since now s (s, p) :=
  ⟨none, s.link.inbox .recv, by rw [Link.setInbox_inbox], Inbox.handed_none rfl rfl, h⟩

/-- **An attempt at hearing what is forwarded** ends the call if it brings a frame. -/
theorem steps_hearForwarded (hkeys : s.keys = none) (t : Turn) (i : Intake) (begins : Bool)
    (began : Instant) :
    Steps i (some began) t.now s
      (i.hearForwarded t begins (i.timeout.map began.timer) s) := by
  obtain ⟨body?, j, hsession, hhanded, htells⟩ :=
    s.hear_tells t .recv begins (i.timeout.map began.timer)
  unfold Intake.hearForwarded
  generalize s.hear t .recv begins (i.timeout.map began.timer) = r at hsession htells ⊢
  obtain ⟨heard, s'⟩ := r
  obtain rfl : s' = _ := hsession
  cases htells with
  | @message body m spelt =>
    refine ⟨some body, j, rfl, hhanded, ?_⟩
    dsimp only
    split
    · next husable =>
      rw [Intake.settle_unstored (s := { s with link := s.link.setInbox .recv j }) i hkeys]
      exact .delivers spelt husable
    · next hother =>
      refine .wastes ?_
      rw [spelt, Option.filter_some_neg (eq_false_of_ne_true hother)]
  | @garbled body unspelt =>
    refine ⟨some body, j, rfl, hhanded, .wastes ?_⟩
    rw [unspelt]
    rfl
  | late up =>
    cases htimeout : i.timeout with
    | none =>
      rw [htimeout] at up
      cases up
    | some d =>
      rw [htimeout] at up
      exact ⟨none, j, rfl, hhanded, .timesOut htimeout up⟩
  | failure e => exact ⟨none, j, rfl, hhanded, .fails _⟩
  | inLine early => exact ⟨none, j, rfl, hhanded, rfl, began, rfl, rfl⟩

/-- **A step of a call that is pushed to**, on a client without a store. -/
theorem steps_step (hpush : s.config.mode = .push) (hkeys : s.keys = none) (t : Turn) (b : Backend)
    {phase : Intake.Phase} (hphase : Awaits i since phase) :
    (i.step t phase s b).2.1 = b ∧ Steps i (sinceAt t since phase) t.now s
      ((i.step t phase s b).1, (i.step t phase s b).2.2) := by
  cases phase with
  | start =>
    simp only [Intake.step]
    split
    · exact ⟨rfl, .rests ⟨rfl, rfl⟩⟩
    · split
      · exact ⟨rfl, .rests (.fails _)⟩
      · rw [hpush]
        exact ⟨rfl, .rests ⟨rfl, rfl⟩⟩
  | attending timeout =>
    obtain rfl : timeout = i.timeout := hphase
    exact ⟨rfl, steps_hearForwarded hkeys t i true t.now⟩
  | waiting deadline =>
    obtain ⟨began, rfl, rfl⟩ := hphase
    exact ⟨rfl, steps_hearForwarded hkeys t i false began⟩
  | pulling p => exact hphase.elim
  | resolving m key => exact hphase.elim

/-! ## One call after another -/

/-- What can happen to a client that is pushed to. -/
inductive Event
  | stirs (x : Stir)
  /-- A call begins, unless one is in flight. -/
  | begins (i : Intake)
  /-- The call in flight takes a step. -/
  | turns (t : Turn)
  /-- The call in flight is dropped. -/
  | drops (id : CallId)
  /-- A call of another kind, in whatever state it is, takes a step. -/
  | besides (t : Turn) (c : Call)
  /-- A call of another kind is dropped. -/
  | withdraws (id : CallId)

/-- A call in flight. -/
structure Current where
  intake : Intake
  phase : Intake.Phase := .start
  since : Option Instant := none

/-- A client, its store and its call in flight, and what has come and gone. -/
structure Watch where
  session : Session
  store : Backend
  call : Option Current := none
  /-- The stream that the daemon has written on the inbound channel. -/
  written : ByteArray
  /-- The calls that are over, in order. -/
  past : List Past := []

namespace Watch

/-- The inbound channel of the client. -/
def inbox (w : Watch) : Inbox := w.session.link.inbox .recv

/-- What is on its way at first belongs to the stream. -/
def start (s : Session) (b : Backend) : Watch :=
  { session := s, store := b, written := (s.link.inbox .recv).pending }

/-- One step of the call in flight. -/
def turn (w : Watch) (t : Turn) (c : Current) : Watch :=
  let (session, store, progress) := c.intake.step t c.phase w.session w.store
  let since := sinceAt t c.since c.phase
  { w with
    session
    store
    call := progress.state?.map (⟨c.intake, ·, since⟩)
    past := w.past ++ (progress.result?.map fun r => ⟨c.intake, since, some (t.now, r)⟩).toList }

def step (w : Watch) : Event → Watch
  | .stirs x =>
    { w with
      session := { w.session with link := x.onLink w.session.link }
      store := x.onStore w.store
      written := w.written ++ if w.inbox.ended then .empty else x.bytes .recv }
  | .begins i => match w.call with
    | none => { w with call := some { intake := i } }
    | some _ => w
  | .turns t => w.call.elim w (w.turn t)
  | .drops id =>
    { w with
      session := w.session.abandon id
      call := none
      past := w.past ++ (w.call.map fun c => ⟨c.intake, c.since, none⟩).toList }
  | .besides t c =>
    if c.receives then w
    else { w with session := (c.step t w.session w.store).1, store := (c.step t w.session w.store).2.1 }
  | .withdraws id => { w with session := w.session.abandon id }

/-- A whole history. -/
def run (w : Watch) (es : List Event) : Watch := es.foldl step w

variable {w : Watch} {role : Role} {late : List Message} {c : Current}

/-- The calls that are over, each with the frame that it used up, if it used up one. -/
def Explained (role : Role) (past : List Past) (taken : List ByteArray) : Prop :=
  ∃ rows : List (Past × Option ByteArray), rows.map Prod.fst = past ∧
    rows.filterMap Prod.snd = taken ∧ ∀ row ∈ rows, Explains role row.1 row.2

theorem Explained.nil (role : Role) : Explained role [] [] :=
  ⟨[], rfl, rfl, fun _ h => absurd h List.not_mem_nil⟩

/-- One more call is over. -/
theorem Explained.append {past : List Past} {taken : List ByteArray} {p : Past}
    {body? : Option ByteArray} (h : Explained role past taken) (hp : Explains role p body?) :
    Explained role (past ++ [p]) (taken ++ body?.toList) := by
  obtain ⟨rows, hpast, htaken, hrows⟩ := h
  refine ⟨rows ++ [(p, body?)], ?_, ?_, List.forall_mem_append.mpr
    ⟨hrows, List.forall_mem_singleton.mpr hp⟩⟩
  · rw [List.map_append, hpast]
    rfl
  · rw [List.filterMap_append, htaken]
    cases body? <;> rfl

/-- **What callers got is what the frames were good for.** -/
theorem Explained.deliveries {past : List Past} {taken : List ByteArray}
    (h : Explained role past taken) : past.filterMap Past.delivery?
      = (SimRelay.deliveries role.delivery taken).filterMap role.unstored := by
  obtain ⟨rows, rfl, rfl, hrows⟩ := h
  induction rows with
  | nil => rfl
  | cons row rows ih =>
    obtain ⟨hrow, hrows⟩ := List.forall_mem_cons.mp hrows
    have hfirst : [row.1].filterMap Past.delivery?
        = (SimRelay.deliveries role.delivery row.2.toList).filterMap role.unstored := by
      rw [← hrow.delivery?_toList]
      cases hd : row.1.delivery? <;> simp [hd]
    rw [List.map_cons, ← List.singleton_append, List.filterMap_append, hfirst, ih hrows,
      ← List.filterMap_append, ← deliveries_append]
    cases hbody : row.2 <;> simp [hbody]

/-- The account of a client that is pushed to: each call that is over is explained by the frame that
it used up, and these frames are all that have come off the inbound channel. -/
structure Filters (role : Role) (late : List Message) (w : Watch) : Prop where
  pushed : w.session.config.mode = .push
  unstored : w.session.keys = none
  plays : w.session.role = role
  late : w.session.late = late
  call : ∀ c ∈ w.call, Awaits c.intake c.since c.phase
  books : ∃ taken, w.written = Frame.joined taken ++ w.inbox.pending ∧
    (∀ body ∈ taken, body.size ≤ Frame.maxLength) ∧ Explained role w.past taken

theorem Filters.start {s : Session} (hpush : s.config.mode = .push) (hkeys : s.keys = none)
    (b : Backend) : (start s b).Filters s.role s.late where
  pushed := hpush
  unstored := hkeys
  plays := rfl
  late := rfl
  call _ h := absurd h.symm (Option.some_ne_none _)
  books := ⟨[], ByteArray.empty_append.symm, fun _ h => absurd h List.not_mem_nil, .nil s.role⟩

/-- What spares the deliveries changes nothing of the account. -/
theorem Filters.of_spares (h : w.Filters role late) {s : Session} (hs : w.session.Spares s)
    (hkeys : s.keys = none) (b : Backend) :
    Filters role late { w with session := s, store := b } where
  pushed := (congrArg SessionConfig.mode hs.config).trans h.pushed
  unstored := hkeys
  plays := hs.role.trans h.plays
  late := hs.late.trans h.late
  call := h.call
  books := by
    obtain ⟨taken, hstream, hshort, hexplained⟩ := h.books
    have hpending : w.inbox.pending = (s.link.inbox .recv).pending :=
      hs.recv.pending_of_none.symm
    exact ⟨taken, hpending ▸ hstream, hshort, hexplained⟩

/-- A client has no store unless it had one. -/
theorem keys_of_spares {s s' : Session} (hs : s.Spares s') (hkeys : s.keys = none) :
    s'.keys = none := by
  have hnone : s'.keys.isSome = false := by rw [hs.shares, hkeys]; rfl
  simpa using hnone

/-- **A step of the call in flight** ends it if it uses up a frame. -/
theorem Filters.turn (h : w.Filters role late) (t : Turn) (hc : w.call = some c) :
    (w.turn t c).Filters role late := by
  obtain rfl := h.plays
  obtain ⟨-, body?, j, hsession, hhanded, haccounts⟩ :=
    steps_step h.pushed h.unstored t w.store (h.call c hc)
  obtain ⟨taken, hstream, hshort, hexplained⟩ := h.books
  unfold Watch.turn
  generalize c.intake.step t c.phase w.session w.store = r at hsession haccounts ⊢
  obtain ⟨s', b', progress⟩ := r
  obtain rfl : s' = _ := hsession
  obtain ⟨hwritten, hshort'⟩ := hhanded.stream hstream hshort
  have hinbox : (w.session.link.setInbox .recv j).inbox .recv = j :=
    (Link.inbox_setInbox ..).trans (if_pos rfl)
  -- the call goes on, or is over and explained
  have hbooks {past : List Past} (hpast : Explained w.session.role past (taken ++ body?.toList)) :
      ∃ taken, w.written = Frame.joined taken
          ++ ((w.session.link.setInbox .recv j).inbox .recv).pending ∧
        (∀ body ∈ taken, body.size ≤ Frame.maxLength) ∧ Explained w.session.role past taken :=
    ⟨_, by rw [hinbox]; exact hwritten, hshort', hpast⟩
  have hgoes {phase : Intake.Phase}
      (hnext : body? = none ∧ Awaits c.intake (sinceAt t c.since c.phase) phase) :
      Filters w.session.role late { w with
        session := { w.session with link := w.session.link.setInbox .recv j }
        store := b'
        call := some ⟨c.intake, phase, sinceAt t c.since c.phase⟩
        past := w.past ++ [] } := by
    obtain ⟨rfl, hawaits⟩ := hnext
    refine ⟨h.pushed, h.unstored, rfl, h.late, fun d hd => ?_, hbooks ?_⟩
    · obtain rfl := Option.some.inj hd
      exact hawaits
    · exact (List.append_nil w.past).symm ▸ (List.append_nil taken).symm ▸ hexplained
  cases progress with
  | waits phase => exact hgoes haccounts
  | goes phase => exact hgoes haccounts
  | ends result =>
    exact ⟨h.pushed, h.unstored, rfl, h.late, fun d hd => absurd hd.symm (Option.some_ne_none d),
      hbooks (hexplained.append haccounts)⟩

/-- **Nothing that happens upsets the account.** -/
theorem Filters.step (h : w.Filters role late) (e : Event) : (w.step e).Filters role late := by
  cases e with
  | stirs x =>
    obtain ⟨taken, hstream, hshort, hexplained⟩ := h.books
    refine ⟨h.pushed, h.unstored, h.plays, h.late, h.call, taken, ?_, hshort, hexplained⟩
    change w.written ++ _ = Frame.joined taken ++ ((x.onLink w.session.link).inbox .recv).pending
    rw [x.pending_onLink, hstream, ByteArray.append_assoc]
    rfl
  | begins i =>
    rw [Watch.step]
    split
    · refine ⟨h.pushed, h.unstored, h.plays, h.late, fun c hc => ?_, h.books⟩
      obtain rfl := Option.some.inj hc
      exact trivial
    · exact h
  | turns t =>
    rw [Watch.step]
    cases hc : w.call with
    | none => exact h
    | some c => exact h.turn t hc
  | drops id =>
    have hspared := w.session.spares_abandon id
    have hdropped := h.of_spares hspared (keys_of_spares hspared h.unstored) w.store
    obtain ⟨taken, hstream, hshort, hexplained⟩ := hdropped.books
    refine ⟨hdropped.pushed, hdropped.unstored, hdropped.plays, hdropped.late,
      fun c hc => absurd hc.symm (Option.some_ne_none c), taken, hstream, hshort, ?_⟩
    change Explained role (w.past ++ (w.call.map fun c => _).toList) taken
    cases w.call with
    | none => exact (List.append_nil w.past).symm ▸ hexplained
    | some c => exact List.append_nil taken ▸ hexplained.append .dropped
  | besides t c =>
    rw [Watch.step]
    split
    · exact h
    · next hc =>
      have hspared := Call.step_spares t (eq_false_of_ne_true hc) w.session w.store
      exact h.of_spares hspared (keys_of_spares hspared h.unstored) _
  | withdraws id =>
    have hspared := w.session.spares_abandon id
    exact h.of_spares hspared (keys_of_spares hspared h.unstored) w.store

/-- **…and so it is over a whole history.** -/
theorem Filters.run (h : w.Filters role late) (es : List Event) : (w.run es).Filters role late := by
  induction es generalizing w with
  | nil => exact h
  | cons e es ih => exact ih (h.step e)

/-- **Nobody writes on the inbound channel.** -/
theorem still_step {wire : ByteArray} (h : w.Filters role late)
    (hstill : (w.session.link.outbox .recv).Still wire) (e : Event) :
    ((w.step e).session.link.outbox .recv).Still wire := by
  have hleave (id : CallId) : ((w.session.abandon id).link.outbox .recv).Still wire := by
    change ((w.session.link.abandon id).outbox .recv).Still wire
    rw [Link.outbox_abandon]
    exact ⟨⟨hstill.queue, hstill.hand⟩, hstill.wire⟩
  cases e with
  | stirs x => exact x.outbox_stays (fun a o ho => ho.act a) hstill
  | begins i =>
    rw [Watch.step]
    split
    · exact hstill
    · exact hstill
  | turns t =>
    rw [Watch.step]
    cases hc : w.call with
    | none => exact hstill
    | some c =>
      obtain ⟨-, -, j, hsession, -, -⟩ := steps_step h.pushed h.unstored t w.store (h.call c hc)
      change ((c.intake.step t c.phase w.session w.store).1.link.outbox .recv).Still wire
      rw [hsession]
      change ((w.session.link.setInbox .recv j).outbox .recv).Still wire
      rw [Link.outbox_setInbox]
      exact hstill
  | drops id => exact hleave id
  | besides t c =>
    rw [Watch.step]
    split
    · exact hstill
    · next hc =>
      exact (Call.step_sparesWriter t (eq_false_of_ne_true hc) w.session w.store).still hstill
  | withdraws id => exact hleave id

theorem still_run {wire : ByteArray} (h : w.Filters role late)
    (hstill : (w.session.link.outbox .recv).Still wire) (es : List Event) :
    ((w.run es).session.link.outbox .recv).Still wire := by
  induction es generalizing w with
  | nil => exact hstill
  | cons e es ih => exact ih (h.step e) (still_step h hstill e)

/-- **Listening is a lossless filter of the stream.**  Let a client be pushed to and have no store,
and let calls that receive, fetch or listen, for whatever end and with whatever timeouts, be made
one after another, each until it ends or is dropped, while bytes come in as they like, and calls of
other kinds get on beside them.

* The frames that the calls have used up are the first of the stream, one at most for each call.
* The deliveries that the callers got are, in order, the usable ones among them, and for an
  application those without a key.
* A call that has ended with nothing has used up a frame of no use to it, or it had a timeout,
  which had gone by since it began to wait; in that case it has used up no frame.  Nor has one that
  has failed or was dropped, or the one in flight.
* What is kept stays as it is, and nothing is written on the inbound channel. -/
theorem filters_stream {s : Session} (hpush : s.config.mode = .push) (hkeys : s.keys = none)
    (b : Backend) (es : List Event) :
    let w := (start s b).run es
    ∃ (rows : List (Past × Option ByteArray)) (taken : List ByteArray),
      rows.map Prod.fst = w.past ∧ rows.filterMap Prod.snd = taken ∧
      (∀ row ∈ rows, Explains s.role row.1 row.2) ∧
      w.written = Frame.joined taken ++ w.inbox.pending ∧
      taken = (Frame.bodies w.written).take taken.length ∧
      w.past.filterMap Past.delivery?
        = (deliveries s.role.delivery taken).filterMap s.role.unstored ∧
      w.session.late = s.late ∧
      ((s.link.outbox .recv).Idle →
        (w.session.link.outbox .recv).Idle ∧
          (w.session.link.outbox .recv).wire = (s.link.outbox .recv).wire) := by
  intro w
  have hstart := Filters.start hpush hkeys b
  have hw : w.Filters s.role s.late := hstart.run es
  obtain ⟨taken, hstream, hshort, hexplained⟩ := hw.books
  have hdeliveries := hexplained.deliveries
  obtain ⟨rows, hpast, htaken, hrows⟩ := hexplained
  refine ⟨rows, taken, hpast, htaken, hrows, hstream, ?_, hdeliveries, hw.late, fun hidle => ?_⟩
  · rw [hstream, (Frame.bodies_joined_append w.inbox.pending _ hshort).1]
    exact List.take_left.symm
  · have hstill : (w.session.link.outbox .recv).Still (s.link.outbox .recv).wire :=
      still_run hstart ⟨hidle, rfl⟩ es
    exact ⟨hstill.toIdle, hstill.wire⟩

/-- A listener is dropped with half a frame come in, and nothing is missing: of the four frames,
one that cannot be read and one with a key are used up for nothing, and the last call has its
timeout. -/
theorem filters_stream_dropped :
    let s : Session :=
      { identifier := "z", role := .application, config := { mode := .push }, keys := none,
        responseWindow := .ofSeconds 1, link := {} }
    let letter (payload : Payload) : Message :=
      { Message.bare .forward .daemon .message with payload := some payload }
    let frame (payload : Payload) : ByteArray :=
      ((letter payload).encode.map Frame.wrap).toOption.getD .empty
    let one := frame (.inline "one".toUTF8)
    let turn : Event := .turns ⟨0, ⟨0⟩, 0⟩
    let call (i : Intake) : List Event := [.begins i, turn, turn]
    let es := call (.listen false) ++ [.stirs (.arrives .recv (Frame.wrap (.mk #[255]))),
        .stirs (.arrives .recv (one.extract 0 5)), .drops 0,
        .stirs (.arrives .recv (one.extract 5 one.size))] ++ call (.receive none none)
      ++ call (.listen false) ++ [.stirs (.arrives .recv (frame (.key "k")))]
      ++ call (.receive (some "x") none) ++ [.stirs (.arrives .recv (frame (.inline "two".toUTF8)))]
      ++ call (.listen false) ++ call (.receive none (some (.ofSeconds 0)))
    let got (text : String) : Delivery := .received (letter (.inline text.toUTF8))
    s.config.mode = .push ∧ s.keys = none ∧ ((start s {}).run es).past.length = 6 ∧
      ((start s {}).run es).past.filterMap Past.delivery? = [got "one", got "two"] ∧
      ∃ (rows : List (Past × Option ByteArray)) (taken : List ByteArray),
        rows.map Prod.fst = ((start s {}).run es).past ∧ rows.filterMap Prod.snd = taken ∧
        [got "one", got "two"] = (deliveries .receive taken).filterMap Role.application.unstored := by
  intro s letter frame one turn call es got
  have hlength : ((start s {}).run es).past.length = 6 := by decide +kernel
  have hgot : ((start s {}).run es).past.filterMap Past.delivery? = [got "one", got "two"] := by
    decide +kernel
  obtain ⟨rows, taken, hpast, htaken, -, -, -, hdeliveries, -⟩ :=
    filters_stream (s := s) rfl rfl {} es
  exact ⟨rfl, rfl, hlength, hgot, rows, taken, hpast, htaken, hgot.symm.trans hdeliveries⟩

end Watch

end Push

end SimRelay
