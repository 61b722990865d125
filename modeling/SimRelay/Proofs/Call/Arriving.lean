import SimRelay.Proofs.Call.Handing
import SimRelay.Proofs.Call.Requests

/-!
# Proofs/Call/Arriving — a delivery that comes to a call in flight is what the call gives

A call that receives, fetches or listens may be anywhere between its beginning and its deadline when
a delivery that it wants comes in, byte by byte, on a channel where nothing else is.  Until the
delivery is whole the call goes on as if nothing had come, and from then on it can only end with the
payload that was meant for its client (`Intake.Stepped.brings`).  Each further step brings it nearer
to that end, if the writer has written what it was given (`Intake.Stepped.nearer`).
-/

namespace SimRelay

/-! ## Hearing a frame that is due -/

namespace Session

variable {s s' s'' : Session} {t : Turn} {body came rest : ByteArray} {m : Message}

/-- A frame that has come whole is heard. -/
theorem Ready.hear_whole (h : s.Ready .recv t.id) (hbody : body.size ≤ Frame.maxLength)
    (hdecode : Message.decode body = .ok m)
    (hpending : (s.link.inbox .recv).pending = Frame.wrap body) (begins : Bool)
    (deadline : Option Instant) :
    ∃ j, s.hear t .recv begins deadline
        = (.message m, { s with link := s.link.setInbox .recv j }) ∧
      j.pending = .empty ∧ Ready .recv t.id { s with link := s.link.setInbox .recv j } := by
  obtain ⟨j, hhear, hhanded, hready, -⟩ := h.hear begins deadline
  have hpending' : (s.link.inbox .recv).pending = Frame.wrap body ++ .empty :=
    hpending.trans ByteArray.append_empty.symm
  have hprospect : (s.link.inbox .recv).prospect = .frame body :=
    Inbox.prospect_of_split (hpending' ▸ Frame.split_wrap_append hbody .empty)
  rw [hprospect] at hhear hhanded
  refine ⟨j, ?_, ?_, hready⟩
  · rw [hhear, Heard.of, hdecode]
  · have hleft := hhanded.pending
    change _ = (Frame.wrap body ++ .empty) ++ j.pending at hleft
    rw [hpending', ByteArray.append_assoc, ByteArray.empty_append] at hleft
    exact ((ByteArray.append_right_inj _).mp hleft).symm

/-- …and where a part of it is missing, nothing is. -/
theorem Ready.hear_part (h : s.Ready .recv t.id)
    (hcame : Frame.split came = .error .needMore)
    (hpending : (s.link.inbox .recv).pending = came) (begins : Bool) (deadline : Option Instant) :
    ∃ j, s.hear t .recv begins deadline
        = (if deadline.any fun d => t.now.reached d then .nothing else .inLine,
            { s with link := s.link.setInbox .recv j }) ∧
      j.pending = came ∧ Ready .recv t.id { s with link := s.link.setInbox .recv j } := by
  obtain ⟨j, hhear, hhanded, hready, -⟩ := h.hear begins deadline
  have hprospect : (s.link.inbox .recv).prospect = .nothing := by
    rw [Inbox.prospect_of_error (hpending ▸ hcame), Inbox.ending_of_flows h.flows]
    rfl
  rw [hprospect] at hhear hhanded
  exact ⟨j, hhear, hhanded.pending_of_none.trans hpending, hready⟩

/-- Up to its link and what it keeps, it is the same session. -/
def Alike (s s' : Session) : Prop := ∃ link late, s' = { s with link, late }

theorem Alike.trans : s.Alike s' → s'.Alike s'' → s.Alike s''
  | ⟨_, _, hs⟩, ⟨link, late, hs'⟩ => ⟨link, late, by rw [hs', hs]⟩

end Session

/-! ## Deliveries on their way -/

/-- A delivery on its way: the bytes that it stands for, the key under which they are stored if they
are, the message, and the body that spells it. -/
structure Shipment where
  bytes : ByteArray
  stored : Option String
  message : Message
  body : ByteArray

/-- What is stored lies in a store that does not fail. -/
def Shipment.Lies (d : Shipment) (b : Backend) : Prop :=
  ∀ key, d.stored = some key → b.failing = [] ∧ b.get? key = some d.bytes

theorem Shipment.Lies.agrees {d : Shipment} {b b' : Backend} (h : d.Lies b)
    (hb : ∀ key, d.stored = some key → b.Agrees key b') : d.Lies b' := by
  intro key hkey
  obtain ⟨hsound, hget⟩ := h key hkey
  exact ⟨(hb key hkey).failing.trans hsound, (hb key hkey).entry.trans hget⟩

namespace Intake

open Session (Ready Alike Speaks Spoken)

variable {i : Intake} {s s' : Session} {b : Backend} {t : Turn} {d : Shipment} {came : ByteArray}
  {phase : Phase}

/-- The delivery is for this call of this client, which shares the store if there is one. -/
structure Expects (i : Intake) (s : Session) (d : Shipment) : Prop where
  short : d.body.size ≤ Frame.maxLength
  spelt : Message.decode d.body = .ok d.message
  carries : d.message.payload = some ((Payload.inline d.bytes).under d.stored)
  keys : s.keys.isSome = d.stored.isSome
  delivers : d.message.isDelivery s.role.delivery
  /-- A call that pulls wants it, and can ask for it. -/
  wanted : s.config.mode = .pull → (i.wanted s).accepts d.message
  askable : s.config.mode = .pull → ((i.wanted s).request s.originator).Sayable

theorem Expects.alike (h : i.Expects s d) : s.Alike s' → i.Expects s' d
  | ⟨link, late, hs⟩ => by
      have hwanted : i.wanted s' = i.wanted s := wanted_congr (hs ▸ rfl) i
      subst hs
      exact ⟨h.short, h.spelt, h.carries, h.keys, h.delivers,
        fun hmode => hwanted ▸ h.wanted hmode, fun hmode => hwanted ▸ h.askable hmode⟩

/-- What the client gets: an application the payload, a simulator the message as it came, and the
payload if it was stored and is wanted. -/
def brought (i : Intake) (role : Role) (d : Shipment) : Delivery :=
  match role with
  | .application => .received { d.message with payload := some (.inline d.bytes) }
  | .simulator =>
    .fetched ⟨d.message, if i.wantsPayload ∧ d.stored.isSome then some d.bytes else none⟩

/-- Nothing is kept, and what has come lies on the channel. -/
def Waits (came : ByteArray) (s : Session) : Prop :=
  s.late = [] ∧ (s.link.inbox .recv).pending = came

theorem works_setInbox (hworks : (s.link.outbox .recv).Works) (j : Inbox) :
    ((s.link.setInbox .recv j).outbox .recv).Works :=
  Link.outbox_setInbox .recv .recv j s.link ▸ hworks

theorem waits_setInbox (hlate : s.late = []) {j : Inbox} (hj : j.pending = came) :
    Waits came { s with link := s.link.setInbox .recv j } := by
  refine ⟨hlate, ?_⟩
  rw [Link.inbox_setInbox, if_pos rfl]
  exact hj

/-- How far a call is when this much of a delivery has come: until all of it has, the call cannot
have any of it. -/
def Phase.At (i : Intake) (d : Shipment) (came : ByteArray) (s : Session) : Phase → Prop
  | .start | .attending _ | .waiting _ => Waits came s
  | .pulling .draining => s.config.mode = .pull ∧
      (Waits came s ∨
        came = Frame.wrap d.body ∧ s.late = [d.message] ∧
          (s.link.inbox .recv).pending = .empty)
  | .pulling p => s.config.mode = .pull ∧ Waits came s ∧
      ∃ stream n, p.Tells ((i.wanted s).request s.originator) stream n (s.link.outbox .recv)
  | .resolving m key => came = Frame.wrap d.body ∧ m = d.message ∧ d.stored = some key ∧
      (s.role = .simulator → i.wantsPayload)

/-- How many steps a call takes at most when the whole delivery has come. -/
def Phase.distance (late : List Message) : Phase → Nat
  | .start => 4
  | .pulling .draining => if late = [] then 3 else 2
  | .pulling (.asking x) => 2 + x.distance
  | .pulling _ | .attending _ | .waiting _ => 2
  | .resolving _ _ => 1

/-- A step of a call: nothing is lost of what has come, and when all has come the call ends with it
or gets nearer to that. -/
structure Stepped (i : Intake) (d : Shipment) (came : ByteArray) (t : Turn) (phase : Phase)
    (s : Session) (r : Session × Backend × Progress Failure Phase (Option Delivery)) : Prop where
  alike : s.Alike r.1
  ready : r.1.Ready .recv t.id
  works : (r.1.link.outbox .recv).Works
  lies : r.2.2.state? ≠ none ∨ s.role = .simulator → d.Lies r.2.1
  further : r.2.2.Leaves (Phase.At i d came r.1)
  brings : came = Frame.wrap d.body → ∀ result, r.2.2.result? = some result →
    result = .ok (some (i.brought s.role d))
  nearer : came = Frame.wrap d.body → (s.link.outbox .recv).Idle →
    r.2.2.Leaves fun phase' => phase'.distance r.1.late < phase.distance s.late

/-! ## Settling -/

/-- What is left to do with the delivery, if anything, is to look its bytes up. -/
theorem settle_brings (hexpects : i.Expects s d) :
    (i.settle s d.message).Leaves (fun phase => ∃ key, phase = .resolving d.message key ∧
        d.stored = some key ∧ (s.role = .simulator → i.wantsPayload)) ∧
      ∀ result, (i.settle s d.message).result? = some result →
        result = .ok (some (i.brought s.role d)) := by
  have hkeys := hexpects.keys
  have hcarries := hexpects.carries
  unfold settle brought
  cases hstored : d.stored with
  | none =>
    rw [hstored] at hcarries
    have hkey : d.message.payloadKey = none := by
      rw [Message.payloadKey, hcarries]
      rfl
    rw [hkey]
    cases s.role with
    | application =>
      refine ⟨trivial, fun result hresult => ?_⟩
      obtain rfl := Option.some.inj hresult
      -- the message has the bytes already
      have hsame : { d.message with payload := some (.inline d.bytes) } = d.message := by
        rw [← show d.message.payload = some (.inline d.bytes) from hcarries]
      rw [hsame]
    | simulator =>
      refine ⟨trivial, fun result hresult => ?_⟩
      obtain rfl := Option.some.inj hresult
      simp
  | some key =>
    rw [hstored] at hcarries hkeys
    have hkey : d.message.payloadKey = some key := by
      rw [Message.payloadKey, hcarries]
      rfl
    rw [hkey]
    have hshares : s.keys.isSome = true := hkeys
    cases s.role with
    | application =>
      simp only [hshares, if_true]
      exact ⟨⟨key, rfl, rfl, nofun⟩, fun _ hresult => (Option.some_ne_none _ hresult.symm).elim⟩
    | simulator =>
      by_cases hwants : i.wantsPayload = true
      · simp only [hwants, hshares, and_self, if_true]
        exact ⟨⟨key, rfl, rfl, fun _ => trivial⟩,
          fun _ hresult => (Option.some_ne_none _ hresult.symm).elim⟩
      · dsimp only
        rw [if_neg (c := i.wantsPayload ∧ s.keys.isSome) fun h => hwants h.1,
          if_neg (c := i.wantsPayload ∧ (some key).isSome) fun h => hwants h.1]
        refine ⟨trivial, fun result hresult => ?_⟩
        exact (Option.some.inj hresult).symm

/-- The delivery has been taken off the channel, and is settled. -/
theorem Stepped.settles (hexpects : i.Expects s d) (hlies : d.Lies b)
    (hwhole : came = Frame.wrap d.body) (halike : s.Alike s') (hready : s'.Ready .recv t.id)
    (hworks : (s'.link.outbox .recv).Works) (hfar : 2 ≤ phase.distance s.late) :
    Stepped i d came t phase s (s', b, i.settle s' d.message) := by
  have hrole : s'.role = s.role := by
    obtain ⟨link, late, rfl⟩ := halike
    rfl
  obtain ⟨hleaves, hbrings⟩ := settle_brings (hexpects.alike halike)
  refine ⟨halike, hready, hworks, fun _ => hlies, ?_, fun _ => hrole ▸ hbrings, fun _ _ => ?_⟩
  · refine hleaves.mono fun phase' hphase' => ?_
    obtain ⟨key, rfl, hkey, hwants⟩ := hphase'
    exact ⟨hwhole, rfl, hkey, hwants⟩
  · refine hleaves.mono fun phase' hphase' => ?_
    obtain ⟨key, rfl, -, -⟩ := hphase'
    exact Nat.lt_of_lt_of_le Nat.one_lt_two hfar

/-- While a part is missing, nothing is promised of how the call ends. -/
theorem Stepped.of_part {progress : Progress Failure Phase (Option Delivery)} (hlies : d.Lies b)
    (hpart : came ≠ Frame.wrap d.body) (halike : s.Alike s') (hready : s'.Ready .recv t.id)
    (hworks : (s'.link.outbox .recv).Works) (hfurther : progress.Leaves (Phase.At i d came s')) :
    Stepped i d came t phase s (s', b, progress) :=
  ⟨halike, hready, hworks, fun _ => hlies, hfurther, fun hwhole => absurd hwhole hpart,
    fun hwhole => absurd hwhole hpart⟩

/-- **The bytes are looked up**: an application takes them out of the store, and a simulator leaves
them there. -/
theorem resolving_stepped (hready : s.Ready .recv t.id) (hworks : (s.link.outbox .recv).Works)
    (hlies : d.Lies b) {m : Message} {key : String}
    (hat : Phase.At i d came s (.resolving m key)) :
    Stepped i d came t (.resolving m key) s (i.step t (.resolving m key) s b) := by
  obtain ⟨-, rfl, hkey, hwants⟩ := hat
  obtain ⟨hsound, hget⟩ := hlies key hkey
  have hstored : d.stored.isSome = true := by rw [hkey]; rfl
  have hsame : s.Alike s := ⟨s.link, s.late, rfl⟩
  have hpeek : d.Lies (b.peek key).1 := by
    refine hlies.agrees fun other _ => ⟨Backend.failing_serve (.peek key) b, ?_⟩
    exact Backend.get?_serve hsound (.peek key) other
  cases hrole : s.role with
  | application =>
    simp only [step, resolve, hrole]
    rw [Backend.checkOut_of_sound hsound, hget]
    refine ⟨hsame, hready, hworks, fun h => ?_, trivial, fun _ result hresult => ?_,
      fun _ _ => trivial⟩
    · rcases h with hgoes | hsimulator
      · exact absurd rfl hgoes
      · exact absurd (hrole.symm.trans hsimulator) (by decide)
    · rw [hrole]
      exact (Option.some.inj hresult).symm
  | simulator =>
    simp only [step, resolve, hrole]
    rw [Backend.peek_of_sound hsound, hget]
    refine ⟨hsame, hready, hworks, fun _ => hpeek, trivial, fun _ result hresult => ?_,
      fun _ _ => trivial⟩
    simp only [brought, hrole, hwants hrole, hstored, and_self, if_true]
    exact (Option.some.inj hresult).symm

/-! ## Steps -/

section Steps

variable (hexpects : i.Expects s d) (hready : s.Ready .recv t.id)
  (hworks : (s.link.outbox .recv).Works) (hlies : d.Lies b)
include hexpects hready hworks hlies

/-- A step of a call that waits for a forwarded message. -/
theorem hearForwarded_stepped (hmissing : came ≠ Frame.wrap d.body →
      Frame.split came = .error .needMore) (hwaits : Waits came s) (begins : Bool)
    (deadline : Option Instant) (hfar : 2 ≤ phase.distance s.late) :
    let r := i.hearForwarded t begins deadline s
    Stepped i d came t phase s (r.1, b, r.2) := by
  obtain ⟨hlate, hpending⟩ := hwaits
  intro r
  by_cases hwhole : came = Frame.wrap d.body
  · obtain ⟨j, hhear, -, hready'⟩ :=
      hready.hear_whole hexpects.short hexpects.spelt (hpending.trans hwhole) begins deadline
    have hr : r = ({ s with link := s.link.setInbox .recv j },
        i.settle { s with link := s.link.setInbox .recv j } d.message) := by
      simp only [r, hearForwarded, hhear, hexpects.delivers, if_true]
    rw [hr]
    exact .settles hexpects hlies hwhole ⟨_, _, rfl⟩ hready' (works_setInbox hworks j) hfar
  · obtain ⟨j, hhear, hj, hready'⟩ :=
      hready.hear_part (hmissing hwhole) hpending begins deadline
    have hr : r = ({ s with link := s.link.setInbox .recv j },
        if deadline.any fun d => t.now.reached d then .ends (.ok none)
        else .waits (.waiting deadline)) := by
      simp only [r, hearForwarded, hhear]
      cases deadline.any fun d => t.now.reached d <;> rfl
    rw [hr]
    refine .of_part hlies hwhole ⟨_, _, rfl⟩ hready' (works_setInbox hworks j) ?_
    split
    · exact trivial
    · exact waits_setInbox hlate hj

/-- A step of a call that begins. -/
theorem start_stepped (hwaits : Waits came s) :
    Stepped i d came t .start s (i.step t .start s b) := by
  have hgoes {phase' : Phase} (hat : phase'.At i d came s)
      (hnear : phase'.distance s.late < 4) :
      Stepped i d came t .start s (s, b, .goes phase') :=
    ⟨⟨s.link, s.late, rfl⟩, hready, hworks, fun _ => hlies, hat,
      fun _ _ hresult => (Option.some_ne_none _ hresult.symm).elim, fun _ _ => hnear⟩
  have hdraining (hmode : s.config.mode = .pull) :
      Stepped i d came t .start s (s, b, .goes (.pulling .draining)) := by
    refine hgoes ⟨hmode, .inl hwaits⟩ ?_
    rw [Phase.distance, if_pos hwaits.1]
    exact Nat.lt_succ_self 3
  have hattending (timeout : Option Duration) :
      Stepped i d came t .start s (s, b, .goes (.attending timeout)) :=
    hgoes hwaits (show 2 < 4 by decide)
  have hactive : ¬ s.closed = true := by simp [hready.active]
  cases i with
  | listen want => exact hattending none
  | receive destination timeout =>
    simp only [step, if_neg hactive]
    cases hmode : s.config.mode with
    | pull => exact hdraining hmode
    | push => exact hattending timeout
  | fetch source timeout want =>
    simp only [step, if_neg hactive]
    cases hmode : s.config.mode with
    | pull => exact hdraining hmode
    | push => exact hattending timeout

/-- A call that drains the channel keeps the delivery that is there. -/
theorem draining_whole (hmode : s.config.mode = .pull) (hwaits : Waits came s)
    (hwhole : came = Frame.wrap d.body) :
    Stepped i d came t (.pulling .draining) s (i.step t (.pulling .draining) s b) := by
  obtain ⟨hlate, hpending⟩ := hwaits
  obtain ⟨j, hhear, hj, hready'⟩ := hready.hear_whole hexpects.short hexpects.spelt
    (hpending.trans hwhole) true (some t.now)
  have hstep : i.step t (.pulling .draining) s b =
      ({ s with link := s.link.setInbox .recv j, late := [d.message] }, b,
        .goes (.pulling .draining)) := by
    simp only [step, Pull.step, hhear, hexpects.delivers, if_true, Session.keep, hlate,
      List.nil_append, Progress.andThen]
  rw [hstep]
  refine ⟨⟨_, _, rfl⟩, ⟨hready'.active, hready'.isOpen, hready'.flows, hready'.alone⟩,
    works_setInbox hworks j, fun _ => hlies, ⟨hmode, .inr ⟨hwhole, rfl, ?_⟩⟩,
    fun _ _ hresult => (Option.some_ne_none _ hresult.symm).elim, fun _ _ => ?_⟩
  · rw [Link.inbox_setInbox, if_pos rfl]
    exact hj
  · change (if [d.message] = [] then 3 else 2) < if s.late = [] then 3 else 2
    rw [if_neg (List.cons_ne_nil _ _), if_pos hlate]
    exact Nat.lt_succ_self 2

omit hexpects in
/-- …or asks, when the delivery is not there yet. -/
theorem draining_part (hmode : s.config.mode = .pull) (hwaits : Waits came s)
    (hpart : came ≠ Frame.wrap d.body) (hmissing : Frame.split came = .error .needMore) :
    Stepped i d came t (.pulling .draining) s (i.step t (.pulling .draining) s b) := by
  obtain ⟨hlate, hpending⟩ := hwaits
  obtain ⟨j, hhear, hj, hready'⟩ := hready.hear_part hmissing hpending true (some t.now)
  have hwanted : i.wanted { s with link := s.link.setInbox .recv j } = i.wanted s :=
    wanted_congr rfl i
  rw [Turn.any_now, if_pos rfl] at hhear
  have hstep : i.step t (.pulling .draining) s b =
      ({ s with link := s.link.setInbox .recv j }, b, .goes (.pulling (.asking (.fresh
        ((i.wanted s).request s.originator))))) := by
    simp only [step, Pull.step, hhear, Session.takeLate, hlate, List.find?_nil, Option.map_none,
      Progress.andThen]
    rfl
  rw [hstep]
  refine .of_part hlies hpart ⟨_, _, rfl⟩ hready' (works_setInbox hworks j)
    ⟨hmode, waits_setInbox hlate hj, _, _, ?_, Outbox.holds_self (works_setInbox hworks j).tidy⟩
  rw [hwanted]
  rfl

/-- …and hands out the delivery that it has kept. -/
theorem draining_kept (hmode : s.config.mode = .pull) (hwhole : came = Frame.wrap d.body)
    (hlate : s.late = [d.message]) (hpending : (s.link.inbox .recv).pending = .empty) :
    Stepped i d came t (.pulling .draining) s (i.step t (.pulling .draining) s b) := by
  have hnothing : Frame.split .empty = .error .needMore := rfl
  obtain ⟨j, hhear, -, hready'⟩ := hready.hear_part hnothing hpending true (some t.now)
  rw [Turn.any_now, if_pos rfl] at hhear
  have hstep : i.step t (.pulling .draining) s b =
      ({ s with link := s.link.setInbox .recv j, late := [] }, b,
        i.settle { s with link := s.link.setInbox .recv j, late := [] } d.message) := by
    have hwants := hexpects.wanted hmode
    simp only [step, Pull.step, hhear, Session.takeLate, hlate, List.find?_cons, hwants,
      Option.map_some, List.eraseP_cons, Progress.andThen, settlePulled, cond_true]
  rw [hstep]
  refine .settles hexpects hlies hwhole ⟨_, _, rfl⟩
    ⟨hready'.active, hready'.isOpen, hready'.flows, hready'.alone⟩ (works_setInbox hworks j) ?_
  have hdistance : (Phase.pulling .draining).distance s.late = 2 :=
    if_neg (hlate ▸ List.cons_ne_nil _ _)
  exact Nat.le_of_eq hdistance.symm

/-- A step of a call that asks, if the clock can represent its deadline when it has asked. -/
theorem asking_stepped (hmode : s.config.mode = .pull) (hwaits : Waits came s)
    {stream : ByteArray} {n : Nat} {x : Session.Saying}
    (hspeaks : Speaks ((i.wanted s).request s.originator) stream n (s.link.outbox .recv) x)
    (htimely : (Call.intake i (.pulling (.asking x))).Timely t s) :
    Stepped i d came t (.pulling (.asking x)) s (i.step t (.pulling (.asking x)) s b) := by
  obtain ⟨o, hsession, hready', hworks', hleaves, hends⟩ :=
    hready.say hworks (hexpects.askable hmode) hspeaks
  have hnear (hidle : (s.link.outbox .recv).Idle) :=
    Session.say_nearer t .recv hworks hidle hspeaks
  rw [Call.Timely, Call.asks?] at htimely
  rw [step, Pull.step]
  dsimp only
  rw [hsession]
  have hwaits' : Waits came { s with link := s.link.setOutbox .recv o } := by
    refine ⟨hwaits.1, ?_⟩
    rw [Link.inbox_setOutbox]
    exact hwaits.2
  have hwanted : i.wanted { s with link := s.link.setOutbox .recv o } = i.wanted s :=
    wanted_congr rfl i
  have hgoes {p : Pull.Phase} {progress : Progress Failure Phase (Option Delivery)}
      (hprogress : progress.state? = some (.pulling p))
      (hat : Phase.At i d came { s with link := s.link.setOutbox .recv o } (.pulling p))
      (hnearer : (s.link.outbox .recv).Idle →
        (Phase.pulling p).distance s.late < 2 + x.distance) :
      Stepped i d came t (.pulling (.asking x)) s
        ({ s with link := s.link.setOutbox .recv o }, b, progress) := by
    have hnone : progress.result? = none := Progress.result?_of_state? hprogress
    exact
      { alike := ⟨_, _, rfl⟩
        ready := hready'
        works := hworks'
        lies := fun _ => hlies
        further := Progress.leaves_of_state? hprogress hat
        brings := fun _ _ hresult => absurd (hresult.symm.trans hnone) (Option.some_ne_none _)
        nearer := fun _ hidle => Progress.leaves_of_state? hprogress (hnearer hidle) }
  generalize (s.say t .recv x).2 = progress at hleaves hends hnear htimely ⊢
  cases progress with
  | waits x' =>
    exact hgoes rfl ⟨hmode, hwaits', stream, n, hwanted ▸ hleaves⟩
      fun hidle => Nat.add_lt_add_left (hnear hidle) 2
  | goes x' =>
    exact hgoes rfl ⟨hmode, hwaits', stream, n, hwanted ▸ hleaves⟩
      fun hidle => Nat.add_lt_add_left (hnear hidle) 2
  | ends r =>
    obtain ⟨rfl, hspoken⟩ := hends r rfl
    obtain ⟨deadline, hdeadline⟩ := Option.isSome_iff_exists.mp (htimely _ rfl)
    simp only [Progress.andThen, hdeadline]
    refine hgoes rfl ⟨hmode, hwaits', stream, n, hwanted ▸ hspoken⟩ fun _ => ?_
    have hpos : 0 < x.distance := x.distance_pos
    change 2 < 2 + x.distance
    omega

/-- A step of a call that hears the answer to its request. -/
theorem hearAnswer_stepped (hmissing : came ≠ Frame.wrap d.body →
      Frame.split came = .error .needMore) (hmode : s.config.mode = .pull) (hwaits : Waits came s)
    {stream : ByteArray} {n : Nat}
    (hspoken : Spoken ((i.wanted s).request s.originator) stream n (s.link.outbox .recv))
    (begins : Bool) (deadline : Instant) (hfar : 2 ≤ phase.distance s.late) :
    let r := Pull.hearAnswer t (i.wanted s) begins deadline s
    Stepped i d came t phase s
      (r.1, b, r.2.andThen .pulling (i.settlePulled r.1) fun e => .ends (.error e)) := by
  obtain ⟨hlate, hpending⟩ := hwaits
  intro r
  by_cases hwhole : came = Frame.wrap d.body
  · obtain ⟨j, hhear, -, hready'⟩ := hready.hear_whole hexpects.short hexpects.spelt
      (hpending.trans hwhole) begins (some deadline)
    have hr : r = ({ s with link := s.link.setInbox .recv j }, .ends (.ok (some d.message))) := by
      simp only [r, Pull.hearAnswer, hhear, hexpects.delivers, not_true_eq_false, if_false,
        hexpects.wanted hmode, if_true]
    rw [hr]
    exact .settles hexpects hlies hwhole ⟨_, _, rfl⟩ hready' (works_setInbox hworks j) hfar
  · obtain ⟨j, hhear, hj, hready'⟩ :=
      hready.hear_part (hmissing hwhole) hpending begins (some deadline)
    have hr : r = ({ s with link := s.link.setInbox .recv j },
        if (some deadline).any fun d => t.now.reached d then .ends (.ok none)
        else .waits (.listening deadline)) := by
      simp only [r, Pull.hearAnswer, hhear]
      cases (some deadline).any fun d => t.now.reached d <;> rfl
    have hwanted : i.wanted { s with link := s.link.setInbox .recv j } = i.wanted s :=
      wanted_congr rfl i
    rw [hr]
    refine .of_part hlies hwhole ⟨_, _, rfl⟩ hready' (works_setInbox hworks j) ?_
    split
    · exact trivial
    · refine ⟨hmode, waits_setInbox hlate hj, stream, n, ?_⟩
      change Spoken _ stream n ((s.link.setInbox .recv j).outbox .recv)
      rw [hwanted, Link.outbox_setInbox]
      exact hspoken

/-- **A step of a call to which this much of the delivery has come.** -/
theorem step_stepped (hmissing : came ≠ Frame.wrap d.body → Frame.split came = .error .needMore)
    (htimely : (Call.intake i phase).Timely t s)
    (hat : phase.At i d came s) : Stepped i d came t phase s (i.step t phase s b) := by
  cases phase with
  | start => exact start_stepped hexpects hready hworks hlies hat
  | attending timeout =>
    exact hearForwarded_stepped hexpects hready hworks hlies hmissing hat true _ (Nat.le_refl 2)
  | waiting deadline =>
    exact hearForwarded_stepped hexpects hready hworks hlies hmissing hat false _ (Nat.le_refl 2)
  | resolving m key => exact resolving_stepped hready hworks hlies hat
  | pulling p =>
    cases p with
    | draining =>
      obtain ⟨hmode, hwaits | ⟨hwhole, hlate, hpending⟩⟩ := hat
      · by_cases hwhole : came = Frame.wrap d.body
        · exact draining_whole hexpects hready hworks hlies hmode hwaits hwhole
        · exact draining_part hready hworks hlies hmode hwaits hwhole (hmissing hwhole)
      · exact draining_kept hexpects hready hworks hlies hmode hwhole hlate hpending
    | asking x =>
      obtain ⟨hmode, hwaits, stream, n, hspeaks⟩ := hat
      exact asking_stepped hexpects hready hworks hlies hmode hwaits hspeaks htimely
    | asked deadline =>
      obtain ⟨hmode, hwaits, stream, n, hspoken⟩ := hat
      exact hearAnswer_stepped hexpects hready hworks hlies hmissing hmode hwaits hspoken true
        deadline (Nat.le_refl 2)
    | listening deadline =>
      obtain ⟨hmode, hwaits, stream, n, hspoken⟩ := hat
      exact hearAnswer_stepped hexpects hready hworks hlies hmissing hmode hwaits hspoken false
        deadline (Nat.le_refl 2)

end Steps

end Intake

end SimRelay
