import SimRelay.Proofs.Call.Arriving
import SimRelay.Proofs.Call.Pulling
import SimRelay.Proofs.Link.Carrying
import SimRelay.Proofs.Store.SingleUse

/-!
# Proofs/Call/Speaking — what a call may say

A call says one message at most, on one channel: a ping asks, an intake that pulls asks, a hand-over
hands its parcel over, and an exit takes leave (`Call.May`).  A step of a call adds that message to
the row of its channel, or adds nothing anywhere; and the phase that it leaves behind is again one
in which nothing else is being said (`Call.step_said`).

A ping says nothing once its client has begun to leave, and an exit begins to leave before it says
so; so where calls come one after another, nothing follows a leave-taking.
-/

namespace SimRelay

/-! ## Sessions -/

namespace Session

variable {s s' s'' : Session} {m : Message}

/-- The client is who it was, on the same terms. -/
structure Keeps (s s' : Session) : Prop where
  identifier : s'.identifier = s.identifier
  role : s'.role = s.role
  config : s'.config = s.config
  shares : s'.keys.isSome = s.keys.isSome

theorem Keeps.refl (s : Session) : s.Keeps s := ⟨rfl, rfl, rfl, rfl⟩

theorem Keeps.trans (h : s.Keeps s') (h' : s'.Keeps s'') : s.Keeps s'' :=
  ⟨h'.identifier.trans h.identifier, h'.role.trans h.role, h'.config.trans h.config,
    h'.shares.trans h.shares⟩

theorem Alike.keeps : s.Alike s' → s.Keeps s'
  | ⟨_, _, h⟩ => h ▸ ⟨rfl, rfl, rfl, rfl⟩

theorem Alike.closed : s.Alike s' → s'.closed = s.closed
  | ⟨_, _, h⟩ => h ▸ rfl

theorem Alike.link (s : Session) (link : Link) : s.Alike { s with link } := ⟨link, s.late, rfl⟩

/-- What a step may do to the rows of the channels: it adds this message to the row of this channel,
or nothing to any. -/
def Utters (ch : Channel) (m : Message) (s s' : Session) : Prop :=
  s.link.Retains s'.link ∨ s.link.Adds ch m s'.link

theorem retains_hear {t : Turn} {ch : Channel} {begins : Bool} {deadline : Option Instant}
    {heard : Heard} (h : s.hear t ch begins deadline = (heard, s')) :
    s.Alike s' ∧ s.link.Retains s'.link := by
  obtain ⟨-, i, hsession, -, -⟩ := s.hear_spec t ch begins deadline
  rw [h] at hsession
  obtain rfl : s' = _ := hsession
  exact ⟨.link s _, Link.retains_setInbox ch i s.link⟩

theorem alike_say (t : Turn) (ch : Channel) (x : Saying) (s : Session) :
    s.Alike (s.say t ch x).1 := by
  obtain ⟨o, hsession⟩ := s.say_spec t ch x
  rw [hsession]
  exact .link s _

theorem utters_say (t : Turn) (ch : Channel) {x : Saying} (hdue : x.Due m) (s : Session) :
    s.Utters ch m (s.say t ch x).1 :=
  (s.say_adds t ch hdue).1.imp (fun h => h.1) fun h => h.2.1

end Session

open Session (Alike Keeps Utters)

variable {s s' : Session} {m : Message}

/-! ## Pings -/

namespace Ping

/-- A ping that has begun is that of an open client, and asks for nothing but an answer. -/
def Phase.Says (s : Session) : Phase → Prop
  | .start => True
  | .asking x => s.closed = false ∧ x.Due (.ping s.originator)
  | .clearing | .asked | .listening _ => s.closed = false

/-- What holds of the session and the progress that a step of a ping leaves behind. -/
structure Said (s : Session) (r : Session × Progress Failure Phase PingStatus) : Prop where
  alike : s.Alike r.1
  utters : s.link.Retains r.1.link ∨
    s.closed = false ∧ s.link.Adds .ctrl (.ping s.originator) r.1.link
  next : r.2.Leaves (Phase.Says r.1)

/-- A ping asks for nothing but an answer, whether or not its client has left since. -/
def Phase.Asks (s : Session) : Phase → Prop
  | .asking x => x.Due (.ping s.originator)
  | .start | .clearing | .asked | .listening _ => True

/-- …and what holds then of the session and the progress that its step leaves behind. -/
structure Asked (s : Session) (r : Session × Progress Failure Phase PingStatus) : Prop where
  alike : s.Alike r.1
  utters : s.Utters .ctrl (.ping s.originator) r.1
  next : r.2.Leaves (Phase.Asks r.1)

theorem Asked.of_hear {t : Turn} {begins : Bool} {deadline : Option Instant}
    {heard : Session.Heard} (h : s.hear t .ctrl begins deadline = (heard, s'))
    {progress : Progress Failure Phase PingStatus} (hnext : progress.Leaves (Phase.Asks s')) :
    Asked s (s', progress) := by
  obtain ⟨halike, hretains⟩ := Session.retains_hear h
  exact ⟨halike, .inl hretains, hnext⟩

theorem hearAnswer_asked (t : Turn) (begins : Bool) (deadline : Instant) :
    Asked s (hearAnswer t begins deadline s) := by
  unfold hearAnswer
  split
  · next h => exact .of_hear h trivial
  · next h => exact .of_hear h trivial
  · next h => exact .of_hear h trivial
  · next h => exact .of_hear h trivial

/-- **A step of a ping asks, or says nothing.** -/
theorem step_asked (t : Turn) (timeout : Duration) {phase : Phase} (h : phase.Asks s) :
    Asked s (step t timeout phase s) := by
  cases phase with
  | start =>
    rw [step]
    split
    · exact ⟨.link s _, .inl (.refl _), trivial⟩
    · exact ⟨.link s _, .inl (.refl _), trivial⟩
  | clearing =>
    rw [step]
    split
    · next hhear => exact .of_hear hhear trivial
    · next hhear => exact .of_hear hhear trivial
    · next hhear => exact .of_hear hhear rfl
  | asking x =>
    have halike := s.alike_say t .ctrl x
    have hwho : (s.say t .ctrl x).1.originator = s.originator :=
      congrArg Role.originator halike.keeps.role
    obtain ⟨-, hleaves⟩ := s.say_adds t .ctrl h
    refine ⟨halike, s.utters_say t .ctrl h, ?_⟩
    refine hleaves.andThen (fun y hy => ?_) (fun _ => trivial) fun _ => trivial
    change y.Due (.ping (s.say t .ctrl x).1.originator)
    rw [hwho]
    exact hy
  | asked => exact hearAnswer_asked t true _
  | listening deadline => exact hearAnswer_asked t false deadline

/-- A ping says the same, and is that of an open client when it has begun. -/
theorem says_iff {phase : Phase} :
    phase.Says s ↔ phase.Asks s ∧ (phase ≠ .start → s.closed = false) := by
  cases phase <;> simp [Phase.Says, Phase.Asks, and_comm]

/-- **A step of a ping.** -/
theorem step_said (t : Turn) (timeout : Duration) {phase : Phase} (h : phase.Says s) :
    Said s (step t timeout phase s) := by
  obtain ⟨hasks, hopen⟩ := says_iff.mp h
  have hasked := step_asked t timeout hasks
  have hbegun (hs : s.closed = false) : Said s (step t timeout phase s) := by
    refine ⟨hasked.alike, hasked.utters.imp_right fun hadds => ⟨hs, hadds⟩, ?_⟩
    exact hasked.next.mono fun _ hnext =>
      says_iff.mpr ⟨hnext, fun _ => hasked.alike.closed.trans hs⟩
  by_cases hstart : phase = .start
  · subst hstart
    cases hclosed : s.closed with
    | false => exact hbegun hclosed
    | true =>
      rw [step, if_pos hclosed]
      exact ⟨.link s _, .inl (.refl _), trivial⟩
  · exact hbegun (hopen hstart)

end Ping

/-! ## Intakes -/

namespace Pull

/-- A pull says nothing but what it asks for. -/
def Phase.Says (m : Message) : Phase → Prop
  | .asking x => x.Due m
  | .draining | .asked _ | .listening _ => True

/-- What holds of the session and the progress that a step of a pull leaves behind. -/
structure Said (m : Message) (s : Session)
    (r : Session × Progress Failure Phase (Option Message)) : Prop where
  alike : s.Alike r.1
  utters : s.Utters .recv m r.1
  next : r.2.Leaves (Phase.Says m)

theorem Said.of_hear {t : Turn} {begins : Bool} {deadline : Option Instant}
    {heard : Session.Heard} (h : s.hear t .recv begins deadline = (heard, s'))
    {late : List Message} {progress : Progress Failure Phase (Option Message)}
    (hnext : progress.Leaves (Phase.Says m)) : Said m s ({ s' with late }, progress) := by
  obtain ⟨⟨link, late', rfl⟩, hretains⟩ := Session.retains_hear h
  exact ⟨⟨link, late, rfl⟩, .inl hretains, hnext⟩

theorem hearAnswer_said (t : Turn) (wanted : Wanted) (begins : Bool) (deadline : Instant) :
    Said m s (hearAnswer t wanted begins deadline s) := by
  unfold hearAnswer
  split
  · next h =>
    split
    · exact .of_hear h trivial
    · split
      · exact .of_hear h trivial
      · exact .of_hear h trivial
  · next h => exact .of_hear h trivial
  · next h => exact .of_hear h trivial
  · next h => exact .of_hear h trivial

/-- **A step of a pull.** -/
theorem step_said (t : Turn) (wanted : Wanted) (timeout : Duration) {phase : Phase}
    (h : phase.Says (wanted.request s.originator)) :
    Said (wanted.request s.originator) s (step t wanted timeout phase s) := by
  cases phase with
  | draining =>
    rw [step]
    split
    · next hhear =>
      split
      · exact .of_hear hhear trivial
      · exact .of_hear hhear trivial
    · next hhear => exact .of_hear hhear trivial
    · next heard s' hmessage hfailure hhear =>
      split
      · next htake =>
        obtain ⟨-, -, -, -, -, rfl⟩ := Session.takeLate_eq_some htake
        exact .of_hear hhear trivial
      · have hwho : s'.originator = s.originator :=
          congrArg Role.originator (Session.retains_hear hhear).1.keeps.role
        exact .of_hear hhear (congrArg wanted.request hwho)
  | asking x =>
    obtain ⟨-, hleaves⟩ := s.say_adds t .recv h
    refine ⟨s.alike_say t .recv x, s.utters_say t .recv h, ?_⟩
    refine hleaves.andThen (fun _ hy => hy) (fun _ => ?_) fun _ => trivial
    split <;> exact trivial
  | asked deadline => exact hearAnswer_said t wanted true deadline
  | listening deadline => exact hearAnswer_said t wanted false deadline

end Pull

namespace Intake

variable {i : Intake}

/-- A client of this role has such a call. -/
def belongs (role : Role) : Intake → Bool
  | .receive _ _ => role = .application
  | .fetch _ _ _ => role = .simulator
  | .listen _ => true

/-- An intake asks only where deliveries have to be asked for, and as its client does. -/
def Phase.Says (i : Intake) (s : Session) : Phase → Prop
  | .start => i.belongs s.role
  | .pulling p => (s.config.mode = .pull ∧ i.Fits s.role) ∧
      p.Says ((i.wanted s).request s.originator)
  | .attending _ | .waiting _ | .resolving _ _ => True

/-- What holds of the session and the progress that a step of an intake leaves behind. -/
structure Said (i : Intake) (s : Session)
    (r : Session × Backend × Progress Failure Phase (Option Delivery)) : Prop where
  alike : s.Alike r.1
  utters : s.link.Retains r.1.link ∨ (s.config.mode = .pull ∧ i.Fits s.role) ∧
    s.link.Adds .recv ((i.wanted s).request s.originator) r.1.link
  next : r.2.2.Leaves (Phase.Says i r.1)

theorem settle_phase (i : Intake) (s s' : Session) (m : Message) :
    (i.settle s m).Leaves (Phase.Says i s') :=
  i.settle_leaves s fun _ _ => trivial

theorem hearForwarded_said (t : Turn) (i : Intake) (begins : Bool) (deadline : Option Instant)
    (b : Backend) :
    Said i s ((hearForwarded t i begins deadline s).1, b,
      (hearForwarded t i begins deadline s).2) := by
  have hsaid {heard : Session.Heard} {s' : Session}
      {progress : Progress Failure Phase (Option Delivery)}
      (h : s.hear t .recv begins deadline = (heard, s'))
      (hnext : progress.Leaves (Phase.Says i s')) : Said i s (s', b, progress) := by
    obtain ⟨halike, hretains⟩ := Session.retains_hear h
    exact ⟨halike, .inl hretains, hnext⟩
  unfold hearForwarded
  split
  · next m s' h =>
    refine hsaid h ?_
    split
    · exact i.settle_phase s' s' m
    · exact trivial
  · next h => exact hsaid h trivial
  · next h => exact hsaid h trivial
  · next h => exact hsaid h trivial

/-- **A step of an intake.** -/
theorem step_said (t : Turn) {phase : Phase} (h : phase.Says i s) (b : Backend) :
    Said i s (i.step t phase s b) := by
  cases phase with
  | start =>
    have hrests {progress : Progress Failure Phase (Option Delivery)}
        (hnext : progress.Leaves (Phase.Says i s)) : Said i s (s, b, progress) :=
      ⟨.link s _, .inl (.refl _), hnext⟩
    -- where deliveries have to be asked for, only a call that listens does not ask
    have hasks (hfits : i.Fits s.role) (hmode : s.config.mode = .pull) :
        Said i s (s, b, .goes (.pulling .draining)) := hrests ⟨⟨hmode, hfits⟩, trivial⟩
    unfold step
    cases i with
    | listen want => exact hrests trivial
    | receive destination timeout =>
      have hrole : s.role = .application := of_decide_eq_true h
      dsimp only
      split
      · exact hrests trivial
      · split
        · next hmode => exact hasks ⟨destination, timeout, false, by rw [hrole]; rfl⟩ hmode
        · exact hrests trivial
    | fetch source timeout want =>
      have hrole : s.role = .simulator := of_decide_eq_true h
      dsimp only
      split
      · exact hrests trivial
      · split
        · next hmode => exact hasks ⟨source, timeout, want, by rw [hrole]; rfl⟩ hmode
        · exact hrests trivial
  | pulling p =>
    obtain ⟨⟨hmode, hfits⟩, hphase⟩ := h
    have hsaid := Pull.step_said t (i.wanted s) (i.timeout.getD s.responseWindow) hphase
    refine ⟨hsaid.alike, hsaid.utters.imp_right fun hadds => ⟨⟨hmode, hfits⟩, hadds⟩, ?_⟩
    refine hsaid.next.andThen (fun q hq => ?_) (fun out => ?_) fun _ => trivial
    · -- the client is who it was, and asks for what it asked for
      obtain ⟨link, late, hs⟩ := hsaid.alike
      have hwanted : i.wanted { s with link, late } = i.wanted s := wanted_congr rfl i
      change Phase.Says i (Pull.step t _ _ p s).1 (.pulling q)
      rw [hs]
      exact ⟨⟨hmode, hfits⟩, hwanted.symm ▸ hq⟩
    · cases out with
      | none => exact trivial
      | some m => exact i.settle_phase _ _ m
  | attending timeout => exact hearForwarded_said t i true _ b
  | waiting deadline => exact hearForwarded_said t i false deadline b
  | resolving m key => exact ⟨.link s _, .inl (.refl _), trivial⟩

end Intake

/-! ## Hand-overs -/

namespace Hand

variable {x : Hand}

/-- A client of this role has such a call. -/
def belongs (role : Role) : Hand → Bool
  | .send _ _ => role = .application
  | .post _ _ _ _ _ => role = .simulator
  | .postFetched _ _ => role = .simulator

/-- The message is what this hand-over comes to: bytes that are to travel go under a key exactly
where payloads travel through a store. -/
def Tells (s : Session) (x : Hand) (m : Message) : Prop :=
  ∃ p stored, x.parcel s = .ok p ∧ m = p.message (p.payload.under stored) ∧
    (stored.isSome ↔ s.keys.isSome ∧ p.travels ∧ ∃ bytes, p.payload = .inline bytes)

/-- A hand-over says nothing but what it comes to. -/
def Phase.Says (x : Hand) (s : Session) : Phase → Prop
  | .start => True
  | .storing _ => s.keys.isSome ∧
      ∃ p bytes, x.parcel s = .ok p ∧ p.travels ∧ p.payload = .inline bytes
  | .releasing key => ∃ p, x.parcel s = .ok p ∧ p.payload = .key key
  | .saying y _ => ∃ m, x.Tells s m ∧ y.Due m

theorem Tells.congr (h : x.Tells s m) (hkeeps : s.Keeps s') : x.Tells s' m := by
  obtain ⟨p, stored, hparcel, hm, hstored⟩ := h
  exact ⟨p, stored, (parcel_congr hkeeps.identifier hkeeps.role x).trans hparcel, hm,
    hkeeps.shares ▸ hstored⟩

/-- What holds of the session and the progress that a step of a hand-over leaves behind. -/
structure Said (x : Hand) (s : Session)
    (r : Session × Backend × Progress Failure Phase (Option String)) : Prop where
  keeps : s.Keeps r.1
  closed : r.1.closed = s.closed
  utters : s.link.Retains r.1.link ∨ ∃ m, x.Tells s m ∧ s.link.Adds .send m r.1.link
  next : r.2.2.Leaves (Phase.Says x r.1)

/-- A step that says nothing. -/
theorem Said.rests {b : Backend} {progress : Progress Failure Phase (Option String)}
    (hnext : progress.Leaves (Phase.Says x s)) : Said x s (s, b, progress) :=
  ⟨.refl s, rfl, .inl (.refl _), hnext⟩

/-- A hand-over begins: bytes that are to travel get a key where payloads travel by key, the key of
a payload that does not travel is released, and else the payload goes out as it is. -/
theorem start_said (t : Turn) (b : Backend) : Said x s (x.step t .start s b) := by
  unfold step
  split
  · exact .rests trivial
  · next p hparcel =>
    dsimp only
    split
    · exact .rests trivial
    · split
      · next bytes key s' hpayload htravels hnext =>
        obtain ⟨source, hsource, heq⟩ := Option.map_eq_some_iff.mp hnext
        obtain ⟨-, rfl⟩ := Prod.mk.inj heq
        have hshares : s.keys.isSome = true := by rw [hsource]; rfl
        exact ⟨⟨rfl, rfl, rfl, hshares.symm⟩, rfl, .inl (.refl _),
          rfl, p, bytes, hparcel, htravels, hpayload⟩
      · next key key' s' hpayload htravels hnext => exact .rests ⟨p, hparcel, hpayload⟩
      · next hnokey hother =>
        refine .rests ⟨_, ⟨p, none, hparcel, rfl, nofun, ?_⟩, rfl⟩
        rintro ⟨hshares, htravels, bytes, hpayload⟩
        obtain ⟨source, hsource⟩ := Option.isSome_iff_exists.mp hshares
        exact (hnokey bytes _ _ hpayload htravels (congrArg (Option.map _) hsource)).elim

/-- **A step of a hand-over.** -/
theorem step_said (t : Turn) {phase : Phase} (h : phase.Says x s) (b : Backend) :
    Said x s (x.step t phase s b) := by
  cases phase with
  | start => exact start_said t b
  | storing key =>
    obtain ⟨hshares, p, bytes, hparcel, htravels, hpayload⟩ := h
    have htells : x.Tells s (p.message (.key key)) :=
      ⟨p, some key, hparcel, rfl, fun _ => ⟨hshares, htravels, bytes, hpayload⟩, fun _ => rfl⟩
    unfold step
    rw [hparcel]
    dsimp only
    rw [hpayload]
    dsimp only
    split
    · exact .rests ⟨_, htells, rfl⟩
    · exact .rests trivial
  | releasing key =>
    obtain ⟨p, hparcel, hpayload⟩ := h
    have htells : x.Tells s (p.message (.key key)) := by
      refine ⟨p, none, hparcel, by rw [hpayload]; rfl, nofun, ?_⟩
      rintro ⟨-, -, bytes, hinline⟩
      exact nomatch hpayload.symm.trans hinline
    unfold step
    rw [hparcel]
    exact .rests ⟨_, htells, rfl⟩
  | saying y stored =>
    obtain ⟨m, htells, hdue⟩ := h
    obtain ⟨p, -, hparcel, -, -⟩ := id htells
    have halike := s.alike_say t .send y
    obtain ⟨-, hleaves⟩ := s.say_adds t .send hdue
    unfold step
    rw [hparcel]
    refine ⟨halike.keeps, halike.closed,
      (s.utters_say t .send hdue).imp_right fun hadds => ⟨m, htells, hadds⟩, ?_⟩
    exact hleaves.andThen (fun _ hy => ⟨m, htells.congr halike.keeps, hy⟩) (fun _ => trivial)
      fun _ => trivial

end Hand

/-! ## Exits -/

namespace Exit

/-- An exit that has begun is that of a client that leaves, and says nothing else. -/
def Phase.Says (s : Session) : Phase → Prop
  | .start => True
  | .saying x => s.closed ∧ x.Due (.exit s.originator)
  | .closing _ _ => s.closed

/-- The client is about to say that it leaves. -/
def Phase.isLeaving : Phase → Bool
  | .saying x => x.pends
  | _ => false

/-- What holds of the session and the progress that a step of an exit leaves behind.  The message
is handed over by a call that was about to say it and is not any more, and nobody is about to say it
again. -/
structure Said (phase : Phase) (s : Session) (r : Session × Progress Failure Phase Unit) :
    Prop where
  keeps : s.Keeps r.1
  closed : s.closed → r.1.closed
  utters : s.link.Retains r.1.link ∨
    (phase.isLeaving ∧ s.closed ∧ r.2.Leaves (·.isLeaving = false)) ∧
      s.link.Adds .ctrl (.exit s.originator) r.1.link
  silent : s.closed → phase.isLeaving = false → r.2.Leaves (·.isLeaving = false)
  next : r.2.Leaves (Phase.Says r.1)

/-- **A step of an exit.** -/
theorem step_said (t : Turn) {phase : Phase} (h : phase.Says s) :
    Said phase s (step t phase s) := by
  cases phase with
  | start =>
    rw [step]
    split
    · exact ⟨.refl s, id, .inl (.refl _), fun _ _ => trivial, trivial⟩
    · next hopen =>
      dsimp only
      split
      · exact ⟨⟨rfl, rfl, rfl, rfl⟩, fun _ => rfl, .inl (.refl _), fun hc => absurd hc hopen, rfl⟩
      · next body hbody =>
        exact ⟨⟨rfl, rfl, rfl, rfl⟩, fun _ => rfl, .inl (.refl _), fun hc => absurd hc hopen,
          rfl, hbody⟩
  | saying x =>
    obtain ⟨hclosed, hdue⟩ := h
    have halike := s.alike_say t .ctrl x
    have hclosed' : (s.say t .ctrl x).1.closed := halike.closed ▸ hclosed
    have hwho : (s.say t .ctrl x).1.originator = s.originator :=
      congrArg Role.originator halike.keeps.role
    have hleaves {P : Session.Saying → Prop} {Q : Phase → Prop}
        (hsay : (s.say t .ctrl x).2.Leaves P) (hQ : ∀ y, P y → Q (.saying y))
        (hbehind : ∀ wrong, (behind wrong).Leaves Q) : (step t (.saying x) s).2.Leaves Q :=
      hsay.andThen hQ (fun _ => hbehind none) fun e => hbehind (some e)
    obtain ⟨hadds, hdue'⟩ := s.say_adds t .ctrl hdue
    refine ⟨halike.keeps, fun _ => hclosed', ?_, fun _ hhanded => ?_, ?_⟩
    · rcases hadds with ⟨hretains, -⟩ | ⟨hpends, hadds, hhanded⟩
      · exact .inl hretains
      · exact .inr ⟨⟨hpends, hclosed, hleaves hhanded (fun _ h => h) fun _ => rfl⟩, hadds⟩
    · rcases hadds with ⟨-, hsame⟩ | ⟨hpends, -, -⟩
      · exact hleaves hsame (fun _ h => h.trans hhanded) fun _ => rfl
      · exact absurd (hpends.symm.trans hhanded) (by decide)
    · exact hleaves hdue' (fun y hy => ⟨hclosed', hwho ▸ hy⟩) fun _ => hclosed'
  | closing c wrong =>
    refine ⟨⟨rfl, rfl, rfl, rfl⟩, fun hclosed => hclosed, .inl (s.link.retains_close t.id c),
      fun _ _ => ?_, ?_⟩
    · exact (Progress.leaves_true _).andThen (fun _ _ => rfl) (fun _ => trivial) fun e => e.elim
    · exact (Progress.leaves_true _).andThen (fun _ _ => h) (fun _ => trivial) fun e => e.elim

end Exit

/-! ## Calls -/

namespace Call

/-- A client of this role has such a call. -/
def belongs (role : Role) : Call → Bool
  | .ping _ _ => true
  | .intake i _ => i.belongs role
  | .hand x _ => x.belongs role
  | .exit _ => true

/-- What is being said is what the call is for. -/
def Says (s : Session) : Call → Prop
  | .ping _ phase => phase.Says s
  | .intake i phase => phase.Says i s
  | .hand x phase => phase.Says x s
  | .exit phase => phase.Says s

/-- The client is about to say that it leaves. -/
def isLeaving : Call → Bool
  | .exit phase => phase.isLeaving
  | _ => false

/-- What a call may add to the row of a channel. -/
inductive May (s : Session) : Call → Channel → Message → Prop
  | ping {timeout : Option Duration} {phase : Ping.Phase} (isOpen : s.closed = false) :
      May s (.ping timeout phase) .ctrl (.ping s.originator)
  | ask {i : Intake} {phase : Intake.Phase} (mode : s.config.mode = .pull) (fits : i.Fits s.role) :
      May s (.intake i phase) .recv ((i.wanted s).request s.originator)
  | hand {x : Hand} {phase : Hand.Phase} {m : Message} (tells : x.Tells s m) :
      May s (.hand x phase) .send m
  | exit {phase : Exit.Phase} (leaving : phase.isLeaving) (closed : s.closed) :
      May s (.exit phase) .ctrl (.exit s.originator)

/-- What holds of the session and the progress that a step of a call leaves behind. -/
structure Said (c : Call) (s : Session) (r : Session × Backend × Progress Failure Call Reply) :
    Prop where
  keeps : s.Keeps r.1
  closed : s.closed → r.1.closed
  utters : s.link.Retains r.1.link ∨ ∃ ch m, c.May s ch m ∧ s.link.Adds ch m r.1.link ∧
    r.2.2.Leaves (·.isLeaving = false)
  silent : s.closed → c.isLeaving = false → r.2.2.Leaves (·.isLeaving = false)
  next : r.2.2.Leaves (Says r.1)

/-- A call that has not taken a step says nothing. -/
theorem phase_of_isNew {c : Call} (h : c.isNew) (hbelongs : c.belongs s.role) :
    c.Says s ∧ c.isLeaving = false := by
  unfold isNew at h
  split at h
  · exact ⟨trivial, rfl⟩
  · exact ⟨hbelongs, rfl⟩
  · exact ⟨trivial, rfl⟩
  · exact ⟨trivial, rfl⟩
  · exact nomatch h

/-- **A step of a call** adds to the rows what the call may add, once at most. -/
theorem step_said (t : Turn) {c : Call} (h : c.Says s) (b : Backend) :
    Said c s (c.step t s b) := by
  -- a call of another kind is not about to say that its client leaves
  have hother {σ α : Type} {f : σ → Call} {g : α → Reply} (hf : ∀ state, (f state).isLeaving = false)
      (p : Progress Failure σ α) : (lift f g p).Leaves (·.isLeaving = false) :=
    leaves_lift (p.leaves_true.mono fun state _ => hf state)
  cases c with
  | ping timeout phase =>
    have hsaid := Ping.step_said t (timeout.getD s.responseWindow) h
    refine ⟨hsaid.alike.keeps, fun hc => hsaid.alike.closed.trans hc, ?_,
      fun _ _ => hother (fun _ => rfl) _, leaves_lift hsaid.next⟩
    exact hsaid.utters.imp_right fun ⟨hopen, hadds⟩ =>
      ⟨.ctrl, _, .ping hopen, hadds, hother (fun _ => rfl) _⟩
  | intake i phase =>
    have hsaid := Intake.step_said t h b
    refine ⟨hsaid.alike.keeps, fun hc => hsaid.alike.closed.trans hc, ?_,
      fun _ _ => hother (fun _ => rfl) _, leaves_lift hsaid.next⟩
    exact hsaid.utters.imp_right fun ⟨⟨hmode, hfits⟩, hadds⟩ =>
      ⟨.recv, _, .ask hmode hfits, hadds, hother (fun _ => rfl) _⟩
  | hand x phase =>
    have hsaid := Hand.step_said t h b
    refine ⟨hsaid.keeps, fun hc => hsaid.closed.trans hc, ?_,
      fun _ _ => hother (fun _ => rfl) _, leaves_lift hsaid.next⟩
    exact hsaid.utters.imp_right fun ⟨m, htells, hadds⟩ =>
      ⟨.send, m, .hand htells, hadds, hother (fun _ => rfl) _⟩
  | exit phase =>
    have hsaid := Exit.step_said t h
    refine ⟨hsaid.keeps, hsaid.closed, ?_, fun hc hsilent => leaves_lift (hsaid.silent hc hsilent),
      leaves_lift hsaid.next⟩
    exact hsaid.utters.imp_right fun ⟨⟨hleaving, hclosed, hsilent⟩, hadds⟩ =>
      ⟨.ctrl, _, .exit hleaving hclosed, hadds, leaves_lift hsilent⟩

end Call

end SimRelay
