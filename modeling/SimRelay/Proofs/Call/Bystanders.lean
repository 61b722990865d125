import SimRelay.Call.Basic
import SimRelay.Proofs.Session.Hearing

/-!
# Proofs/Call/Bystanders — calls that take no delivery

Pings, hand-overs and exits get on beside the calls that receive.  None of their steps takes a frame
off the inbound channel or touches what is kept (`Call.step_spares`), and neither does a call that
goes away.
-/

namespace SimRelay

/-! ## Closing -/

/-- **Closing hands nothing out.** -/
theorem Link.handed_close (id : CallId) (c : Closing) (ch : Channel) (l : Link) :
    (l.inbox ch).Handed none ((l.close id c).1.inbox ch) := by
  have hsame : (l.inbox ch).Handed none (l.inbox ch) := Inbox.handed_none rfl rfl
  unfold close
  split
  · split
    · exact hsame
    · exact hsame
  · exact hsame
  · next first rest =>
    have hrelease {i : Inbox} (hi : (l.inbox first).Handed none i) (o : Outbox) :
        (l.inbox ch).Handed none (((l.setOutbox first o).setInbox first i).inbox ch) := by
      rw [inbox_setInbox, inbox_setOutbox]
      split
      · next hch => exact hch ▸ hi
      · exact hsame
    have hjoin := Inbox.handed_join id (l.inbox first)
    dsimp only
    rw [inbox_setOutbox]
    split
    · exact hrelease (hjoin.leave id) _
    · exact hrelease hjoin _

/-! ## Sparing deliveries -/

namespace Session

variable {s s' : Session}

/-- Of what concerns deliveries, the session still has all: who asks, on what terms, whether there
is a store, what is kept and what is to be read on the inbound channel. -/
structure Spares (s s' : Session) : Prop where
  identifier : s'.identifier = s.identifier
  role : s'.role = s.role
  config : s'.config = s.config
  shares : s'.keys.isSome = s.keys.isSome
  late : s'.late = s.late
  recv : (s.link.inbox .recv).Handed none (s'.link.inbox .recv)

theorem Spares.refl (s : Session) : s.Spares s :=
  ⟨rfl, rfl, rfl, rfl, rfl, Inbox.handed_none rfl rfl⟩

/-- A change of the link. -/
theorem Spares.of_link {link : Link} (h : (s.link.inbox .recv).Handed none (link.inbox .recv)) :
    s.Spares { s with link } :=
  ⟨rfl, rfl, rfl, rfl, rfl, h⟩

theorem Spares.of_hear {t : Turn} {begins : Bool} {deadline : Option Instant} {heard : Heard}
    (h : s.hear t .ctrl begins deadline = (heard, s')) : s.Spares s' := by
  obtain ⟨-, i, hsession, -, -⟩ := s.hear_spec t .ctrl begins deadline
  rw [h] at hsession
  obtain rfl : s' = _ := hsession
  refine .of_link ?_
  rw [Link.inbox_setInbox, if_neg nofun]
  exact Inbox.handed_none rfl rfl

theorem spares_say (t : Turn) (ch : Channel) (x : Saying) (s : Session) :
    s.Spares (s.say t ch x).1 := by
  obtain ⟨o, hsession⟩ := s.say_spec t ch x
  rw [hsession]
  refine .of_link ?_
  rw [Link.inbox_setOutbox]
  exact Inbox.handed_none rfl rfl

theorem spares_abandon (id : CallId) (s : Session) : s.Spares (s.abandon id) := by
  refine .of_link ?_
  rw [Link.inbox_abandon]
  exact (Inbox.handed_none rfl rfl).leave id

theorem Spares.of_nextKey {t : Turn} {key : String} (h : s.nextKey t = some (key, s')) :
    s.Spares s' := by
  obtain ⟨source, hkeys, heq⟩ := Option.map_eq_some_iff.mp h
  obtain ⟨-, rfl⟩ := Prod.mk.inj heq
  exact ⟨rfl, rfl, rfl, by rw [hkeys]; rfl, rfl, (Spares.refl s).recv⟩

end Session

/-! ## The calls -/

theorem Ping.spares_hearAnswer (t : Turn) (begins : Bool) (deadline : Instant) (s : Session) :
    s.Spares (hearAnswer t begins deadline s).1 := by
  unfold hearAnswer
  split
  · next heq => exact .of_hear heq
  · next heq => exact .of_hear heq
  · next heq => exact .of_hear heq
  · next heq => exact .of_hear heq

theorem Ping.spares_step (t : Turn) (timeout : Duration) (phase : Phase) (s : Session) :
    s.Spares (step t timeout phase s).1 := by
  cases phase with
  | start =>
    rw [step]
    split
    · exact .refl s
    · exact .refl s
  | clearing =>
    rw [step]
    split
    · next heq => exact .of_hear heq
    · next heq => exact .of_hear heq
    · next heq => exact .of_hear heq
  | asking x => exact s.spares_say t .ctrl x
  | asked => exact spares_hearAnswer t true _ s
  | listening deadline => exact spares_hearAnswer t false deadline s

theorem Exit.spares_step (t : Turn) (phase : Phase) (s : Session) :
    s.Spares (step t phase s).1 := by
  have hsame : s.Spares { s with closed := true } :=
    ⟨rfl, rfl, rfl, rfl, rfl, (Session.Spares.refl s).recv⟩
  cases phase with
  | start =>
    rw [step]
    split
    · exact .refl s
    · dsimp only
      split
      · exact hsame
      · exact hsame
  | saying x => exact s.spares_say t .ctrl x
  | closing c wrong => exact .of_link (Link.handed_close t.id c .recv s.link)

theorem Hand.spares_step (t : Turn) (h : Hand) (phase : Phase) (s : Session) (b : Backend) :
    s.Spares (h.step t phase s b).1 := by
  unfold step
  split
  · exact .refl s
  · next p _ =>
    cases phase with
    | start =>
      dsimp only
      split
      · exact .refl s
      · split
        · next hkey => exact .of_nextKey hkey
        · exact .refl s
        · exact .refl s
    | storing key =>
      dsimp only
      split
      · split
        · exact .refl s
        · exact .refl s
      · exact .refl s
    | releasing key => exact .refl s
    | saying x stored => exact s.spares_say t .send x

/-- The call gets a delivery, if all goes well. -/
def Call.receives : Call → Bool
  | .intake _ _ => true
  | _ => false

/-- **A call that takes no delivery spares all of them.** -/
theorem Call.step_spares (t : Turn) {c : Call} (hc : c.receives = false) (s : Session)
    (b : Backend) : s.Spares (c.step t s b).1 := by
  cases c with
  | ping timeout phase => exact Ping.spares_step t _ phase s
  | intake i phase => exact nomatch hc
  | hand h phase => exact h.spares_step t phase s b
  | exit phase => exact Exit.spares_step t phase s

end SimRelay
