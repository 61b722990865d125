import SimRelay.Proofs.Call.Receipts
import SimRelay.Proofs.Call.Departures
import SimRelay.Proofs.Session.Verdicts

/-!
# Proofs/Call/Withstanding — no frame makes a call fail

Frames come with bodies of any kind.  A call that reads one makes something of it or nothing, and
goes on or ends; what it fails with has other causes: the client leaves, a channel is broken, the
store fails, or a request does not fit a frame (`Call.fails_untimely`).  Where none of them is
there, one is left: a pull whose deadline the clock cannot represent.

None of them comes about by the frames or by what calls do, so long as nobody leaves
(`Desk.Withstands`).
-/

namespace SimRelay

namespace Session

variable {s : Session} {t : Turn} {m : Message} {x : Saying}

/-- What can be said is said where the writer is at work, whoever else writes there. -/
theorem say_succeeds (hactive : s.closed = false) (hopen : s.link.closing = false) {ch : Channel}
    (hworks : (s.link.outbox ch).Works) (hm : m.Sayable) (hdue : x.Due m) (e : ClientError) :
    (s.say t ch x).2 ≠ .ends (.error e) := by
  have hstart {body : ByteArray} (hbody : m.encode = .ok body) :
      (s.write t ch (.start body)).2 ≠ .ends (.error e) := by
    obtain ⟨body', hbody', hsize⟩ := hm
    obtain rfl := Except.ok.inj (hbody.symm.trans hbody')
    simp only [write, Link.write, hopen, Frame.encode_eq_wrap hsize, hworks.unshut,
      Bool.false_eq_true, if_false]
    exact fun h => by cases h
  cases x with
  | fresh m' =>
    obtain rfl : m' = m := hdue
    obtain ⟨body, hbody, -⟩ := hm
    rw [say, if_neg (by simp [hactive]), hbody]
    exact hstart hbody
  | writing w =>
    cases w with
    | start body => exact hstart hdue
    | queueing frame =>
      simp only [say, write, Link.write, hworks.going, Option.isSome_none, Bool.false_eq_true,
        if_false]
      split
      · exact fun h => by cases h
      · exact fun h => by cases h
    | handed number =>
      simp only [say, write, Link.write]
      rcases hworks.fate number with hfate | hfate
      · rw [hfate]
        exact fun h => by cases h
      · rw [hfate]
        exact fun h => by cases h

end Session

/-- Settling a delivery does not fail… -/
theorem Intake.settle_succeeds (i : Intake) (s : Session) (m : Message) (e : Failure) :
    i.settle s m ≠ .ends (.error e) := by
  unfold settle
  split
  · nofun
  · split <;> nofun
  · split <;> nofun
  · nofun

/-- …and neither does exchanging its key where the store does not. -/
theorem Intake.resolve_succeeds {b : Backend} (hsound : b.failing = []) (m : Message)
    (key : String) (s : Session) (e : Failure) : (resolve m key s b).2 ≠ .error e := by
  unfold resolve
  split
  · rw [Backend.checkOut_of_sound hsound]
    cases b.get? key <;> nofun
  · rw [Backend.peek_of_sound hsound]
    cases b.get? key <;> nofun

/-- A ping on an open client finds something out. -/
theorem Ping.step_succeeds {s : Session} (hactive : s.closed = false) (t : Turn)
    (timeout : Duration) (phase : Phase) (e : Failure) :
    (step t timeout phase s).2 ≠ .ends (.error e) := by
  have hanswer (begins : Bool) (deadline : Instant) :
      (hearAnswer t begins deadline s).2 ≠ .ends (.error e) := by
    unfold hearAnswer
    split <;> exact fun h => by cases h
  cases phase with
  | start =>
    rw [step, if_neg (by simp [hactive])]
    exact fun h => by cases h
  | clearing =>
    rw [step]
    split <;> exact fun h => by cases h
  | asking x =>
    intro hend
    rw [step] at hend
    obtain ⟨u, -, hafter⟩ | ⟨e', -, hfailed⟩ := Progress.ends_of_andThen hend
    · cases hafter
    · cases hfailed
  | asked => exact hanswer true _
  | listening deadline => exact hanswer false deadline

section Steps

variable {s : Session} {t : Turn} {b : Backend} (hactive : s.closed = false)
  (hopen : s.link.closing = false) (hwhole : ∀ e, (s.link.inbox .recv).prospect ≠ .failure e)
include hactive hopen hwhole

theorem Session.hear_succeeds (begins : Bool) (deadline : Option Instant) (e : ClientError)
    (s' : Session) : s.hear t .recv begins deadline ≠ (.failure e, s') := by
  intro hhear
  rcases Session.failure_of_hear hhear with hclosed | hclosing | ⟨e', hfails⟩
  · exact absurd (hactive.symm.trans hclosed) (by decide)
  · exact absurd (hopen.symm.trans hclosing) (by decide)
  · exact hwhole e' hfails

theorem Pull.hearAnswer_succeeds (wanted : Wanted) (begins : Bool) (deadline : Instant)
    (e : Failure) : (hearAnswer t wanted begins deadline s).2 ≠ .ends (.error e) := by
  have hhear := Session.hear_succeeds (t := t) hactive hopen hwhole begins (some deadline)
  unfold hearAnswer
  split
  · split
    · nofun
    · split
      · nofun
      · nofun
  · nofun
  · next e' s' heq => exact absurd heq (hhear e' s')
  · nofun

/-- **A pull fails only where the clock cannot represent its deadline.** -/
theorem Pull.step_fails {wanted : Wanted} {timeout : Duration} {p : Phase} {e : Failure}
    (hworks : (s.link.outbox .recv).Works) (hsayable : (wanted.request s.originator).Sayable)
    (hspeaks : p.Says (wanted.request s.originator))
    (hend : (step t wanted timeout p s).2 = .ends (.error e)) :
    (∃ x, p = .asking x) ∧ e = .deadlineOverflow ∧ t.now.after? timeout = none := by
  cases p with
  | draining =>
    have hhear := Session.hear_succeeds (t := t) hactive hopen hwhole true (some t.now)
    rw [step] at hend
    split at hend
    · cases hend
    · next e' s' heq => exact absurd heq (hhear e' s')
    · split at hend
      · cases hend
      · cases hend
  | asking x =>
    rw [step] at hend
    obtain ⟨u, -, hafter⟩ | ⟨e', hsaid, -⟩ := Progress.ends_of_andThen hend
    · split at hafter
      · cases hafter
      · next huntimely =>
        exact ⟨⟨x, rfl⟩, (Except.error.inj (Progress.ends.inj hafter)).symm, huntimely⟩
    · exact absurd hsaid (Session.say_succeeds hactive hopen hworks hsayable hspeaks e')
  | asked deadline =>
    exact absurd hend (hearAnswer_succeeds hactive hopen hwhole wanted true deadline e)
  | listening deadline =>
    exact absurd hend (hearAnswer_succeeds hactive hopen hwhole wanted false deadline e)

theorem Intake.hearForwarded_succeeds (i : Intake) (begins : Bool) (deadline : Option Instant)
    (e : Failure) : (i.hearForwarded t begins deadline s).2 ≠ .ends (.error e) := by
  have hhear := Session.hear_succeeds (t := t) hactive hopen hwhole begins deadline
  unfold hearForwarded
  split
  · dsimp only
    split
    · exact i.settle_succeeds _ _ e
    · nofun
  · nofun
  · next e' s' heq => exact absurd heq (hhear e' s')
  · nofun

/-- **An intake fails only where it pulls** and the clock cannot represent its deadline. -/
theorem Intake.step_fails {i : Intake} {phase : Phase} {e : Failure}
    (hworks : (s.link.outbox .recv).Works) (hsound : b.failing = [])
    (hsayable : s.config.mode = .pull → i.Fits s.role →
      ((i.wanted s).request s.originator).Sayable)
    (hspeaks : phase.Says i s) (hend : (i.step t phase s b).2.2 = .ends (.error e)) :
    (∃ x, phase = .pulling (.asking x)) ∧ e = .deadlineOverflow ∧
      t.now.after? (i.timeout.getD s.responseWindow) = none := by
  cases phase with
  | start =>
    unfold step at hend
    dsimp only at hend
    split at hend
    · cases hend
    · rw [if_neg (by simp [hactive])] at hend
      split at hend
      · cases hend
      · cases hend
  | pulling p =>
    obtain ⟨⟨hmode, hfits⟩, hasks⟩ := hspeaks
    rw [step] at hend
    obtain ⟨m?, -, hafter⟩ | ⟨e', hpull, hfailed⟩ := Progress.ends_of_andThen hend
    · cases m? with
      | none => cases hafter
      | some m => exact absurd hafter (i.settle_succeeds _ m e)
    · obtain rfl := Except.error.inj (Progress.ends.inj hfailed)
      obtain ⟨⟨x, rfl⟩, hfails⟩ :=
        Pull.step_fails hactive hopen hwhole hworks (hsayable hmode hfits) hasks hpull
      exact ⟨⟨x, rfl⟩, hfails⟩
  | attending timeout =>
    exact absurd hend (hearForwarded_succeeds hactive hopen hwhole i true _ e)
  | waiting deadline =>
    exact absurd hend (hearForwarded_succeeds hactive hopen hwhole i false deadline e)
  | resolving m key => exact absurd (Progress.ends.inj hend) (resolve_succeeds hsound m key s e)

/-- A ping, or a call that takes a delivery. -/
def Call.heeds : Call → Bool
  | .ping _ _ | .intake _ _ => true
  | .hand _ _ | .exit _ => false

/-- A call that does not leave, and whose request fits a frame if it has to ask for deliveries. -/
def Call.Modest (s : Session) (c : Call) : Prop :=
  c ≠ .ofExit ∧ ∀ i, c = .ofIntake i → s.config.mode = .pull → i.Fits s.role →
    ((i.wanted s).request s.originator).Sayable

/-- The request of a pull is being written, and the clock cannot represent a deadline now. -/
def Call.Untimely (t : Turn) (s : Session) : Call → Prop
  | .intake i (.pulling (.asking _)) => t.now.after? (i.timeout.getD s.responseWindow) = none
  | _ => False

/-- **Whatever is read, a call fails only where it pulls** and the clock cannot represent its
deadline. -/
theorem Call.fails_untimely {c : Call} {e : Failure} (hworks : (s.link.outbox .recv).Works)
    (hsound : b.failing = []) (hmodest : c.origin.Modest s) (hvoices : c.Voices s)
    (hheeds : c.heeds) (hend : (c.step t s b).2.2 = .ends (.error e)) :
    c.Untimely t s ∧ e = .deadlineOverflow := by
  cases c with
  | hand x phase => cases hheeds
  | exit phase => cases hheeds
  | ping timeout phase =>
    obtain ⟨status, -, hafter⟩ | ⟨e', hping, -⟩ := Progress.ends_of_andThen hend
    · cases hafter
    · exact absurd hping (Ping.step_succeeds hactive t (timeout.getD s.responseWindow) phase e')
  | intake i phase =>
    obtain ⟨d, -, hafter⟩ | ⟨e', hintake, hfailed⟩ := Progress.ends_of_andThen hend
    · cases hafter
    · obtain rfl := Except.error.inj (Progress.ends.inj hfailed)
      obtain ⟨⟨x, rfl⟩, hoverflow, huntimely⟩ := Intake.step_fails hactive hopen hwhole hworks
        hsound (hmodest.2 i rfl) hvoices hintake
      exact ⟨huntimely, hoverflow⟩

end Steps

/-- A step takes one frame at most off the inbound channel. -/
theorem Call.step_handed (t : Turn) (c : Call) (s : Session) (b : Backend) :
    ∃ body?, (s.link.inbox .recv).Handed body? ((c.step t s b).1.link.inbox .recv) := by
  cases hreceives : c.receives with
  | false => exact ⟨none, (step_spares t hreceives s b).recv⟩
  | true =>
    cases c with
    | intake i phase =>
      obtain ⟨body?, hhanded, -⟩ := i.step_takes t phase s b
      exact ⟨body?, hhanded⟩
    | _ => cases hreceives

theorem Call.Modest.congr {s s' : Session} {c : Call} (h : c.Modest s) (hkeeps : s.Keeps s') :
    c.Modest s' := by
  refine ⟨h.1, fun i hi hmode hfits => ?_⟩
  have hwho : s'.originator = s.originator := congrArg Role.originator hkeeps.role
  rw [hkeeps.config] at hmode
  rw [hkeeps.role] at hfits
  rw [hwho, Intake.wanted_congr hkeeps.identifier]
  exact h.2 i hi hmode hfits

theorem Call.departs_of_modest {s : Session} {c : Call} (h : c.origin.Modest s) :
    c.departs = false := by
  cases c with
  | exit phase => exact absurd rfl h.1
  | _ => rfl

/-- **A session stays open** through the steps of calls that do not leave. -/
theorem Call.step_stays {s : Session} {c : Call} (hactive : s.closed = false)
    (hmodest : c.origin.Modest s) (hvoices : c.Voices s) (t : Turn) (b : Backend) :
    (c.step t s b).1.closed = false := by
  refine eq_false_of_ne_true fun hclosed => ?_
  obtain ⟨next, hnext, hdeparts⟩ := departs_of_closes t hvoices hactive b hclosed
  have horigin := (origin_step t c s b).of_state? hnext
  have hstill := departs_of_modest (s := s) (c := next) (horigin ▸ hmodest)
  exact absurd (hstill.symm.trans hdeparts) (by decide)

namespace Desk

variable {s : Session} {w : Desk} {id : CallId} {c : Call} {t : Turn}

/-- Nobody leaves, requests fit a frame, the inbound channel does not end, its writer does not fail,
and neither does the store. -/
def Event.Gentle (s : Session) : Event → Prop
  | .begins _ c => c.belongs s.role ∧ c.Modest s
  | .stirs x => x.Intact .recv ∧ ∀ b, b.failing = [] → (x.onStore b).failing = []
  | .turns _ | .drops _ => True

/-- **The account of a session that frames do no harm to**: it is open, and so are its inbound
channel, the writer there and the store; the calls in flight are modest; and the bodies taken off
the channel are the first of the stream. -/
structure Withstands (s : Session) (w : Desk) : Prop where
  keeps : s.Keeps w.session
  active : w.session.closed = false
  isOpen : w.session.link.closing = false
  flows : w.inbox.ended = false
  works : (w.session.link.outbox .recv).Works
  sound : w.store.failing = []
  inFlight : ∀ p ∈ w.calls, p.2.Voices w.session ∧ p.2.belongs s.role ∧ p.2.origin.Modest s
  stream : ∃ taken, w.written = Frame.joined taken ++ w.inbox.pending ∧
    ∀ body ∈ taken, body.size ≤ Frame.maxLength

/-- The bytes that are pending are the rest of the stream. -/
theorem Withstands.ending (h : w.Withstands s) :
    Frame.ending w.inbox.pending = Frame.ending w.written := by
  obtain ⟨taken, hstream, hshort⟩ := h.stream
  rw [hstream]
  exact (Frame.bodies_joined_append w.inbox.pending taken hshort).2.symm

theorem Withstands.start (hactive : s.closed = false) (hopen : s.link.closing = false)
    (hflows : (s.link.inbox .recv).ended = false) (hworks : (s.link.outbox .recv).Works)
    {b : Backend} (hsound : b.failing = []) : (start s b).Withstands s where
  keeps := .refl s
  active := hactive
  isOpen := hopen
  flows := hflows
  works := hworks
  sound := hsound
  inFlight _ h := absurd h List.not_mem_nil
  stream := ⟨[], ByteArray.empty_append.symm, fun _ h => absurd h List.not_mem_nil⟩

/-- A step of a call. -/
theorem Withstands.turn (h : w.Withstands s) (hc : (t.id, c) ∈ w.calls) :
    (w.turn t c).Withstands s := by
  obtain ⟨hvoices, hbelongs, hmodest⟩ :
      c.Voices w.session ∧ c.belongs s.role ∧ c.origin.Modest s := h.inFlight _ hc
  rw [← h.keeps.role] at hbelongs
  have hvoiced : c.Voiced w.session (c.step t w.session w.store) :=
    Call.step_voiced t hvoices hbelongs w.store
  have hsteady := Call.step_steady t (Call.departs_of_modest hmodest) w.session w.store
  have hactive := Call.step_stays h.active (hmodest.congr h.keeps) hvoices t w.store
  obtain ⟨body?, hhanded⟩ := Call.step_handed t c w.session w.store
  obtain ⟨hstopped, -, -⟩ := (Call.step_handles t hvoices w.store .recv).writer
  obtain ⟨taken, hstream, hshort⟩ := h.stream
  refine ⟨h.keeps.trans hvoiced.keeps, hactive, hsteady.closing.trans h.isOpen,
    hhanded.ended.trans h.flows, ⟨hstopped.trans h.works.going,
      (hsteady.shut .recv).trans h.works.unshut⟩, ?_, fun p hp => ?_, _,
    hhanded.stream hstream hshort⟩
  · change (c.step t w.session w.store).2.1.failing = []
    rw [Call.store_step]
    cases c.request? w.session with
    | none => exact h.sound
    | some request => exact (Backend.failing_serve request w.store).trans h.sound
  · rw [calls_turn] at hp
    rcases List.mem_append.mp hp with hp | hp
    · obtain ⟨next, hnext, rfl⟩ := Option.map_eq_some_iff.mp (Option.mem_toList.mp hp)
      have hsame : next.belongs w.session.role = c.belongs w.session.role :=
        (Call.belongs_step t c w.session w.store).of_state? hnext
      have horigin := (Call.origin_step t c w.session w.store).of_state? hnext
      exact ⟨hvoiced.next.of_state? hnext, h.keeps.role ▸ hsame.trans hbelongs, horigin ▸ hmodest⟩
    · obtain ⟨hvoices', hrest⟩ := h.inFlight p (List.mem_of_mem_erase hp)
      exact ⟨hvoices'.congr hvoiced.keeps hvoiced.closed, hrest⟩

/-- A call that is dropped. -/
theorem Withstands.drop (h : w.Withstands s) (id : CallId) (c : Call) :
    (w.drop id c).Withstands s := by
  have hspares := w.session.spares_abandon id
  have hkeeps : w.session.Keeps (w.drop id c).session := (Session.Alike.link w.session _).keeps
  have hpending : (w.drop id c).inbox.pending = w.inbox.pending := hspares.recv.pending_of_none
  refine ⟨h.keeps.trans hkeeps, h.active, h.isOpen, hspares.recv.ended.trans h.flows, ?_,
    h.sound, fun p hp => ?_, ?_⟩
  · rw [outbox_drop]
    exact h.works.leave id
  · obtain ⟨hvoices, hrest⟩ := h.inFlight p (List.mem_of_mem_erase hp)
    exact ⟨hvoices.congr hkeeps fun hclosed => hclosed, hrest⟩
  · obtain ⟨taken, hstream, hshort⟩ := h.stream
    exact ⟨taken, hpending.symm ▸ hstream, hshort⟩

/-- What goes on around the calls. -/
theorem Withstands.stir (h : w.Withstands s) {x : Stir} (hx : (Event.stirs x).Gentle s) :
    (w.step (.stirs x)).Withstands s := by
  obtain ⟨hpending, hended, -⟩ := x.inbox_onLink hx.1 h.flows
  have hkeeps : w.session.Keeps (w.step (.stirs x)).session :=
    (Session.Alike.link w.session _).keeps
  obtain ⟨taken, hstream, hshort⟩ := h.stream
  refine ⟨h.keeps.trans hkeeps, h.active, (Stir.closing_onLink _ x).trans h.isOpen, hended,
    Stir.works_onLink hx.1 h.works, hx.2 _ h.sound, fun p hp => ?_, taken, ?_, hshort⟩
  · obtain ⟨hvoices, hrest⟩ := h.inFlight p hp
    exact ⟨hvoices.congr hkeeps fun hclosed => hclosed, hrest⟩
  · change w.written ++ (if w.inbox.ended then .empty else x.bytes .recv)
      = Frame.joined taken ++ ((x.onLink w.session.link).inbox .recv).pending
    have hflows : w.inbox.ended = false := h.flows
    rw [hpending, hflows, hstream, ByteArray.append_assoc]
    rfl

/-- **Nothing that happens does the session harm.** -/
theorem Withstands.step (h : w.Withstands s) {e : Event} (he : e.Gentle s) :
    (w.step e).Withstands s := by
  cases e with
  | begins id c =>
    rw [Desk.step]
    split
    · next hbegins =>
      refine ⟨h.keeps, h.active, h.isOpen, h.flows, h.works, h.sound,
        List.forall_mem_cons.mpr ⟨⟨?_, he.1, ?_⟩, h.inFlight⟩, h.stream⟩
      · exact Call.voices_of_isNew hbegins.1 (h.keeps.role.symm ▸ he.1)
      · exact (Call.origin_of_isNew hbegins.1).symm ▸ he.2
    · exact h
  | turns t =>
    rw [Desk.step]
    cases hcall : w.calls.lookup t.id with
    | none => exact h
    | some c => exact h.turn (mem_of_lookup hcall)
  | drops id =>
    rw [Desk.step]
    cases hcall : w.calls.lookup id with
    | none => exact h
    | some c => exact h.drop id c
  | stirs x => exact h.stir he

/-- **…over a whole history.** -/
theorem Withstands.run (h : w.Withstands s) {es : List Event} (hes : ∀ e ∈ es, e.Gentle s) :
    (w.run es).Withstands s := by
  induction es generalizing w with
  | nil => exact h
  | cons e es ih =>
    obtain ⟨he, hes⟩ := List.forall_mem_cons.mp hes
    exact ih (h.step he) hes

/-- **A call at such a session fails only where it pulls** and the clock cannot represent its
deadline, if the stream is one of frames. -/
theorem Withstands.fails_untimely (h : w.Withstands s)
    (hframes : Frame.ending w.written = .needMore) (hcall : w.calls.lookup t.id = some c)
    (hheeds : c.heeds) {e : Failure} (hend : (c.step t w.session w.store).2.2 = .ends (.error e)) :
    c.Untimely t w.session ∧ e = .deadlineOverflow := by
  obtain ⟨hvoices, -, hmodest⟩ : c.Voices w.session ∧ _ ∧ c.origin.Modest s :=
    h.inFlight _ (mem_of_lookup hcall)
  have hwhole : Frame.ending (w.inbox.pending ++ .empty) = .needMore := by
    rw [ByteArray.append_empty, h.ending, hframes]
  exact Call.fails_untimely h.active h.isOpen (Inbox.whole_prospect h.flows hwhole) h.works h.sound
    (hmodest.congr h.keeps) hvoices hheeds hend

end Desk

end SimRelay
