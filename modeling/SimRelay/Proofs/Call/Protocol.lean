import SimRelay.Proofs.Call.Speaking
import SimRelay.Proofs.Session.Introducing

/-!
# Proofs/Call/Protocol — a client speaks the protocol

A `Life` is a client from the moment its link is there: it shakes hands, and then it makes one call
after another, of whatever kind its role has.  Each call ends as it may, or is dropped between two
of its steps; the daemon writes what it likes, writers fail, stores fail.

What the client says is told by rows of messages, one for each channel.  On the control channel the
introduction comes first and the leave-taking last (`Life.Lawful`); every step of a call keeps the
rows lawful, since it adds what the call may add and nothing else (`Lawful.add`).
-/

namespace SimRelay

/-! ## Messages of a client -/

namespace Message

variable {m : Message}

/-- Without the sections of a handshake, a message is valid if it carries no payload where it says
that there is none. -/
theorem valid_of_plain (hintro : m.intro = none) (hterms : m.terms = none)
    (hpayload : m.resultCode = .noMessage → m.payload = none) : m.Valid := by
  have hno : ¬ (m.resultCode = .noMessage ∧ m.payload.isSome) := by
    rintro ⟨hcode, hsome⟩
    rw [hpayload hcode] at hsome
    exact nomatch hsome
  simp [Valid, defect?, hno, hintro, hterms]

end Message

/-- The operation by which this role hands payloads over. -/
def Role.handover : Role → Operation
  | .application => .send
  | .simulator => .post

/-- **Requests are valid**, carry nothing, and name the operation that answers them. -/
theorem Wanted.request_spec {role : Role} : ∀ {wanted : Wanted}, wanted.Suits role →
    (wanted.request role.originator).Valid ∧
      (wanted.request role.originator).manifest = ⟨role.delivery, role.originator, .success⟩ ∧
      (wanted.request role.originator).payload = none
  | .addressedTo _, h => by
      obtain rfl : role = .application := h
      exact ⟨Message.valid_of_plain rfl rfl nofun, rfl, rfl⟩
  | .sentBy _, h => by
      obtain rfl : role = .simulator := h
      exact ⟨Message.valid_of_plain rfl rfl nofun, rfl, rfl⟩

namespace Hand

variable {x : Hand} {s : Session} {p : Parcel} {m : Message}

/-- What a hand-over of such a client says, but for the payload. -/
def Spells (identifier : String) (role : Role) (m : Message) : Hand → Prop
  | .send destination bytes => role = .application ∧ ∃ payload,
      m = .send role.originator identifier destination payload (.ofNat bytes.size)
  | .post source destination _ size success => role = .simulator ∧ ∃ payload,
      m = .post role.originator source destination payload size success
  | .postFetched f success => role = .simulator ∧ ∃ source destination payload,
      f.source = some source ∧ f.destination = some destination ∧
        m = .post role.originator source destination payload f.payloadSize success

theorem Tells.spells (h : x.Tells s m) (hbelongs : x.belongs s.role) :
    x.Spells s.identifier s.role m := by
  obtain ⟨p, stored, hparcel, rfl, -⟩ := h
  cases x with
  | send destination bytes =>
    obtain rfl := Except.ok.inj hparcel
    exact ⟨of_decide_eq_true hbelongs, _, rfl⟩
  | post source destination payload size success =>
    obtain rfl := Except.ok.inj hparcel
    exact ⟨of_decide_eq_true hbelongs, _, rfl⟩
  | postFetched f success =>
    simp only [parcel] at hparcel
    split at hparcel
    · next source destination hsource hdestination =>
      obtain rfl := Except.ok.inj hparcel
      exact ⟨of_decide_eq_true hbelongs, source, destination, _, hsource, hdestination, rfl⟩
    · cases hparcel

/-- **What a hand-over says is valid**, and says whether the payload travels: if it does not, there
is none. -/
theorem Spells.shape {identifier : String} {role : Role} (h : x.Spells identifier role m) :
    m.Valid ∧ m.operation = role.handover ∧ m.manifest.originator = role.originator ∧
      (x.load.2 = false → m.resultCode = .noMessage ∧ m.metadata.isSome ∧ m.payload = none) := by
  have hpost (originator : Originator) (source destination : String) (payload : Payload)
      (size : UInt64) (success : Bool) :
      (Message.post originator source destination payload size success).Valid := by
    refine Message.valid_of_plain rfl rfl fun hcode => ?_
    cases success with
    | true => exact nomatch hcode
    | false => rfl
  cases x with
  | send destination bytes =>
    obtain ⟨rfl, payload, rfl⟩ := h
    exact ⟨Message.valid_of_plain rfl rfl nofun, rfl, rfl, nofun⟩
  | post source destination payload size success =>
    obtain ⟨rfl, payload, rfl⟩ := h
    refine ⟨hpost .., rfl, rfl, fun hdropped => ?_⟩
    obtain rfl : success = false := hdropped
    exact ⟨rfl, rfl, rfl⟩
  | postFetched f success =>
    obtain ⟨rfl, source, destination, payload, -, -, rfl⟩ := h
    refine ⟨hpost .., rfl, rfl, fun hdropped => ?_⟩
    obtain rfl : success = false := hdropped
    exact ⟨rfl, rfl, rfl⟩

/-- What is sent announces the length of its bytes. -/
theorem Spells.size {identifier : String} {role : Role} {destination : String} {bytes : ByteArray}
    (h : (Hand.send destination bytes).Spells identifier role m) (hsize : bytes.size < UInt64.size) :
    m.payloadSize.toNat = bytes.size := by
  obtain ⟨-, payload, rfl⟩ := h
  exact UInt64.toNat_ofNat_of_lt hsize

/-- The payload of a parcel goes out if it travels. -/
theorem payload_of_parcel (h : x.parcel s = .ok p) (payload : Payload) :
    (p.message payload).payload = if p.travels then some payload else none := by
  cases x with
  | send destination bytes =>
    obtain rfl := Except.ok.inj h
    rfl
  | post source destination payload size success =>
    obtain rfl := Except.ok.inj h
    rfl
  | postFetched f success =>
    simp only [parcel] at h
    split at h
    · obtain rfl := Except.ok.inj h
      rfl
    · cases h

/-- **Where payloads travel through a store, no bytes go out.** -/
theorem Tells.keyed (h : x.Tells s m) (hshares : s.keys.isSome) (bytes : ByteArray) :
    m.payload ≠ some (.inline bytes) := by
  obtain ⟨p, stored, hparcel, rfl, hstored⟩ := h
  rw [payload_of_parcel hparcel]
  intro heq
  split at heq
  · next htravels =>
    cases stored with
    | some key => exact nomatch heq
    | none =>
      have hinline : p.payload = .inline bytes := Option.some.inj heq
      exact nomatch hstored.mpr ⟨hshares, htravels, bytes, hinline⟩
  · exact nomatch heq

end Hand

/-! ## Calls of a client -/

namespace Call

variable {c : Call} {s : Session}

/-- The call as it began. -/
def origin : Call → Call
  | .ping timeout _ => ofPing timeout
  | .intake i _ => ofIntake i
  | .hand x _ => ofHand x
  | .exit _ => ofExit

theorem origin_of_isNew (h : c.isNew) : c.origin = c := by
  unfold isNew at h
  split at h
  · rfl
  · rfl
  · rfl
  · rfl
  · exact nomatch h

theorem origin_step (t : Turn) (c : Call) (s : Session) (b : Backend) :
    (c.step t s b).2.2.Leaves fun c' => c'.origin = c.origin := by
  cases c <;> exact leaves_lift ((Progress.leaves_true _).mono fun _ _ => rfl)

end Call

/-! ## Lives -/

namespace Life

/-- How far a client is. -/
inductive Stage
  | greeting (phase : Handshake.Phase) (link : Link)
  /-- The handshake has failed, or was given up. -/
  | gone (link : Link)
  | serving (session : Session) (call : Option Call)

def Stage.link : Stage → Link
  | .greeting _ link => link
  | .gone link => link
  | .serving s _ => s.link

/-- A change of the link. -/
def Stage.onLink (f : Link → Link) : Stage → Stage
  | .greeting phase link => .greeting phase (f link)
  | .gone link => .gone (f link)
  | .serving s call => .serving { s with link := f s.link } call

inductive Event
  /-- The client begins a call of its role, unless one is in flight. -/
  | begins (c : Call)
  /-- The handshake or the call in flight takes a step; a store may be found where the terms say. -/
  | turns (t : Turn) (openStore : StoreParams → Except StoreError Unit)
  /-- The handshake or the call in flight is dropped. -/
  | drops (id : CallId)
  | stirs (x : Stir)

end Life

/-- A client, the store that it uses, and the calls that it has begun. -/
structure Life where
  stage : Life.Stage
  store : Backend := {}
  begun : List Call := []

namespace Life

/-- A client whose link is there. -/
def start (l : Link) : Life := { stage := .greeting .start l }

/-- What follows a step of the handshake. -/
def Stage.ofGreeting (h : Handshake) (link : Link) :
    Progress InitFault Handshake.Phase SessionConfig → Stage
  | .waits phase => .greeting phase link
  | .goes phase => .greeting phase link
  | .ends (.ok config) => .serving (h.session link config) none
  | .ends (.error _) => .gone link

def step (h : Handshake) (w : Life) : Event → Life
  | .begins c => match w.stage with
    | .serving s none =>
      if c.isNew ∧ c.belongs h.role then
        { w with stage := .serving s (some c), begun := w.begun ++ [c] }
      else w
    | _ => w
  | .turns t openStore => match w.stage with
    | .greeting phase l =>
      let (link, progress) := h.step t openStore phase l
      { w with stage := .ofGreeting h link progress }
    | .serving s (some c) =>
      let (s, store, progress) := c.step t s w.store
      { w with stage := .serving s progress.state?, store }
    | _ => w
  | .drops id => match w.stage with
    | .greeting _ l => { w with stage := .gone (l.abandon id) }
    | .gone _ => w
    | .serving s _ => { w with stage := .serving (s.abandon id) none }
  | .stirs x => { w with stage := w.stage.onLink x.onLink, store := x.onStore w.store }

/-- A whole history. -/
def run (h : Handshake) (w : Life) (es : List Event) : Life := es.foldl (step h) w

variable {h : Handshake} {hello m : Message} {begun : List Call} {s s' : Session}
  {call : Option Call} {c : Call} {left left' : Bool} {row : Channel → List Message}

/-! ## Lawful rows -/

/-- What a client may have said: it introduces itself, and then there are pings, and its
leave-taking if it has left; it hands over what it was asked to, and asks for deliveries where it
has to. -/
structure Lawful (hello : Message) (begun : List Call) (s : Session) (left : Bool)
    (row : Channel → List Message) : Prop where
  ctrl : ∃ n leaving, row .ctrl = hello :: List.replicate n (.ping s.originator) ++ leaving ∧
    (leaving = [] ∨ left ∧ leaving = [.exit s.originator])
  send : ∀ m ∈ row .send, ∃ x, Call.ofHand x ∈ begun ∧ x.Tells s m
  recv : ∀ m ∈ row .recv, s.config.mode = .pull ∧
    ∃ wanted : Wanted, wanted.Suits s.role ∧ m = wanted.request s.originator

/-- The client has said that it leaves, if it will at all. -/
def hasLeft (s : Session) (call : Option Call) : Bool := s.closed && !call.any Call.isLeaving

theorem hasLeft_of_leaves {ε α : Type} {p : Progress ε Call α} (hclosed : s.closed)
    (h : p.Leaves (·.isLeaving = false)) : hasLeft s p.state? := by
  unfold hasLeft
  rw [hclosed]
  cases p with
  | waits c =>
    have hsilent : c.isLeaving = false := h
    simp [Progress.state?, hsilent]
  | goes c =>
    have hsilent : c.isLeaving = false := h
    simp [Progress.state?, hsilent]
  | ends r => rfl

/-- The same client may have said the same. -/
theorem Lawful.keeps (hrow : Lawful hello begun s left row) (hkeeps : s.Keeps s')
    (hleft : left → left') : Lawful hello begun s' left' row := by
  have hwho : s'.originator = s.originator := congrArg Role.originator hkeeps.role
  refine ⟨?_, fun m hm => ?_, fun m hm => ?_⟩
  · obtain ⟨n, leaving, heq, hleaving⟩ := hrow.ctrl
    rw [hwho]
    exact ⟨n, leaving, heq, hleaving.imp_right fun hl => ⟨hleft hl.1, hl.2⟩⟩
  · obtain ⟨x, hbegun, htells⟩ := hrow.send m hm
    exact ⟨x, hbegun, htells.congr hkeeps⟩
  · rw [hkeeps.config, hkeeps.role, hwho]
    exact hrow.recv m hm

/-- More calls have begun. -/
theorem Lawful.begins (hrow : Lawful hello begun s left row) (c : Call) :
    Lawful hello (begun ++ [c]) s left row where
  ctrl := hrow.ctrl
  send m hm := by
    obtain ⟨x, hbegun, htells⟩ := hrow.send m hm
    exact ⟨x, List.mem_append_left _ hbegun, htells⟩
  recv := hrow.recv

/-- **What a call may say keeps the rows lawful.**  A ping is one of a client that has not begun to
leave; a leave-taking is said by a client that had not said it. -/
theorem Lawful.add {ch : Channel} (hrow : Lawful hello begun s left row) (hmay : c.May s ch m)
    (horigin : c.origin ∈ begun) (hbefore : left → s.closed ∧ c.isLeaving = false)
    (hafter : s.closed → left') :
    Lawful hello begun s left' fun c => if c = ch then row c ++ [m] else row c := by
  have hleft (hl : left) : left' := hafter (hbefore hl).1
  have hrest := hrow.keeps (.refl s) hleft
  obtain ⟨n, leaving, heq, hleaving⟩ := hrow.ctrl
  cases hmay with
  | ping hopen =>
    refine ⟨⟨n + 1, [], ?_, .inl rfl⟩, hrest.send, hrest.recv⟩
    have hnone : leaving = [] := by
      refine hleaving.resolve_right fun hl => ?_
      exact nomatch hopen.symm.trans (hbefore hl.1).1
    rw [if_pos rfl, heq, hnone, List.replicate_succ']
    simp
  | ask hmode hfits =>
    refine ⟨hrest.ctrl, hrest.send, ?_⟩
    change ∀ m ∈ row .recv ++ [_], _
    refine List.forall_mem_append.mpr ⟨hrest.recv, fun m hm => ?_⟩
    exact ⟨hmode, _, hfits.suits, List.mem_singleton.mp hm⟩
  | hand htells =>
    refine ⟨hrest.ctrl, ?_, hrest.recv⟩
    change ∀ m ∈ row .send ++ [_], _
    refine List.forall_mem_append.mpr ⟨hrest.send, fun m hm => ?_⟩
    exact ⟨_, horigin, List.mem_singleton.mp hm ▸ htells⟩
  | exit hisLeaving hclosed =>
    refine ⟨⟨n, [.exit s.originator], ?_, .inr ⟨hafter hclosed, rfl⟩⟩, hrest.send, hrest.recv⟩
    have hnone : leaving = [] := by
      refine hleaving.resolve_right fun hl => ?_
      exact nomatch hisLeaving.symm.trans (hbefore hl.1).2
    rw [if_pos rfl, heq, hnone, List.append_nil]

/-! ## The account of a client -/

/-- A client that has introduced itself, and what it has said since. -/
structure Serves (h : Handshake) (hello : Message) (begun : List Call) (s : Session)
    (call : Option Call) : Prop where
  identifier : s.identifier = h.identifier
  role : s.role = h.role
  shares : s.keys.isSome = s.config.usesStore
  greeted : (s.link.outbox .ctrl).Begins (Frame.wrap hello.spelled)
  inFlight : ∀ c ∈ call, c.Says s ∧ c.origin ∈ begun
  belong : ∀ c ∈ begun, c.belongs h.role
  rows : ∃ row, (∀ ch, (s.link.outbox ch).Carries (row ch)) ∧
    Lawful hello begun s (hasLeft s call) row

/-- What becomes of the session without saying anything. -/
theorem Serves.retains {call' : Option Call} (hs : Serves h hello begun s call)
    (hkeeps : s.Keeps s') (hlink : s.link.Retains s'.link)
    (hcall : ∀ c ∈ call', c.Says s' ∧ c.origin ∈ begun)
    (hleft : hasLeft s call → hasLeft s' call') : Serves h hello begun s' call' where
  identifier := hkeeps.identifier.trans hs.identifier
  role := hkeeps.role.trans hs.role
  shares := by rw [hkeeps.shares, hkeeps.config, hs.shares]
  greeted := hlink.begins hs.greeted
  inFlight := hcall
  belong := hs.belong
  rows := by
    obtain ⟨row, hcarries, hlawful⟩ := hs.rows
    exact ⟨row, fun ch => hlink.carries (hcarries ch), hlawful.keeps hkeeps hleft⟩

/-- **A step of the call in flight** keeps the account. -/
theorem Serves.turn (hs : Serves h hello begun s (some c)) (t : Turn) (b : Backend) :
    Serves h hello begun (c.step t s b).1 (c.step t s b).2.2.state? := by
  obtain ⟨hphase, horigin⟩ := hs.inFlight c rfl
  have hsaid := Call.step_said t hphase b
  have hcall : ∀ c' ∈ (c.step t s b).2.2.state?,
      c'.Says (c.step t s b).1 ∧ c'.origin ∈ begun := by
    intro c' hc'
    have hsame := (Call.origin_step t c s b).of_state? hc'
    exact ⟨hsaid.next.of_state? hc', hsame ▸ horigin⟩
  have hbefore (hl : hasLeft s (some c)) : s.closed ∧ c.isLeaving = false := by
    simpa [hasLeft] using hl
  rcases hsaid.utters with hlink | ⟨ch, m, hmay, hadds, hsilent⟩
  · refine hs.retains hsaid.keeps hlink hcall fun hl => ?_
    obtain ⟨hclosed, hnot⟩ := hbefore hl
    exact hasLeft_of_leaves (hsaid.closed hclosed) (hsaid.silent hclosed hnot)
  · obtain ⟨row, hcarries, hlawful⟩ := hs.rows
    refine ⟨hsaid.keeps.identifier.trans hs.identifier, hsaid.keeps.role.trans hs.role,
      by rw [hsaid.keeps.shares, hsaid.keeps.config, hs.shares], hadds.begins hs.greeted, hcall,
      hs.belong, _, fun ch' => hadds.carries (hcarries ch'), ?_⟩
    have hafter (hclosed : s.closed) :
        hasLeft (c.step t s b).1 (c.step t s b).2.2.state? :=
      hasLeft_of_leaves (hsaid.closed hclosed) hsilent
    exact (hlawful.add hmay horigin hbefore hafter).keeps hsaid.keeps id

/-- A client that has just introduced itself has said nothing else. -/
theorem Serves.session {l : Link} (hopens : l.Opens [hello])
    (hbegins : (l.outbox .ctrl).Begins (Frame.wrap hello.spelled)) (config : SessionConfig) :
    Serves h hello [] (h.session l config) none where
  identifier := rfl
  role := rfl
  shares := by
    unfold Handshake.session
    cases config.usesStore <;> rfl
  greeted := hbegins
  inFlight _ hc := absurd hc.symm (Option.some_ne_none _)
  belong _ hc := absurd hc List.not_mem_nil
  rows := by
    refine ⟨fun ch => if ch = .ctrl then [hello] else [], hopens, ⟨0, [], rfl, .inl rfl⟩,
      fun m hm => ?_, fun m hm => ?_⟩
    · exact absurd hm List.not_mem_nil
    · exact absurd hm List.not_mem_nil

/-- What a client has said, however far it is. -/
def Account (h : Handshake) (hello : Message) (w : Life) : Prop :=
  match w.stage with
  | .greeting phase l => phase.Says h hello l ∧ w.begun = []
  | .gone l => l.Opens [] ∨ l.Opens [hello]
  | .serving s call => Serves h hello w.begun s call

variable {w : Life}

theorem Account.begins (hw : w.Account h hello) (c : Call) :
    (w.step h (.begins c)).Account h hello := by
  rw [Life.step]
  split
  · next s hstage =>
    rw [Account, hstage] at hw
    split
    · next hnew =>
      obtain ⟨hphase, hsilent⟩ :=
        Call.phase_of_isNew hnew.1 (hw.role.symm ▸ hnew.2 : c.belongs s.role)
      have hleft : hasLeft s none → hasLeft s (some c) := by
        simp [hasLeft, hsilent]
      obtain ⟨row, hcarries, hlawful⟩ := hw.rows
      refine ⟨hw.identifier, hw.role, hw.shares, hw.greeted, fun c' hc' => ?_,
        List.forall_mem_append.mpr ⟨hw.belong, fun c' hc' => ?_⟩,
        row, hcarries, (hlawful.begins c).keeps (.refl s) hleft⟩
      · obtain rfl := Option.some.inj hc'
        rw [Call.origin_of_isNew hnew.1]
        exact ⟨hphase, List.mem_append_right _ (List.mem_singleton_self c)⟩
      · exact List.mem_singleton.mp hc' ▸ hnew.2
    · rw [Account, hstage]
      exact hw
  · exact hw

theorem Account.turns (hw : w.Account h hello) (t : Turn)
    (openStore : StoreParams → Except StoreError Unit) :
    (w.step h (.turns t openStore)).Account h hello := by
  rw [Life.step]
  split
  · next phase l hstage =>
    rw [Account, hstage] at hw
    obtain ⟨hphase, hbegun⟩ := hw
    have hsaid := Handshake.step_said (t := t) openStore hphase
    generalize h.step t openStore phase l = r at hsaid
    obtain ⟨l', progress⟩ := r
    cases progress with
    | waits phase' => exact ⟨hsaid.next, hbegun⟩
    | goes phase' => exact ⟨hsaid.next, hbegun⟩
    | ends result =>
      cases result with
      | error fault => exact hsaid.failed fault rfl
      | ok config =>
        obtain ⟨hopens, hbegins⟩ := hsaid.done config rfl
        change Serves h hello w.begun (h.session l' config) none
        rw [hbegun]
        exact .session hopens hbegins config
  · next s c hstage =>
    rw [Account, hstage] at hw
    exact hw.turn t w.store
  · exact hw

theorem Account.drops (hw : w.Account h hello) (id : CallId) :
    (w.step h (.drops id)).Account h hello := by
  rw [Life.step]
  split
  · next phase l hstage =>
    rw [Account, hstage] at hw
    exact hw.1.opens.imp (·.retains (l.retains_abandon id)) (·.retains (l.retains_abandon id))
  · exact hw
  · next s call hstage =>
    rw [Account, hstage] at hw
    refine hw.retains (Session.Alike.link s _).keeps (s.link.retains_abandon id)
      (fun c hc => absurd hc.symm (Option.some_ne_none _)) fun hl => ?_
    have hclosed : s.closed = true := by
      unfold hasLeft at hl
      exact (Bool.and_eq_true_iff.mp hl).1
    simp [hasLeft, Session.abandon, hclosed]

/-- What is being said is so whatever goes on around the call. -/
theorem phase_onLink (hphase : c.Says s) (link : Link) : c.Says { s with link } := by
  cases c with
  | ping timeout phase => cases phase <;> exact hphase
  | intake i phase => cases phase <;> exact hphase
  | hand x phase =>
    cases phase with
    | saying y stored =>
      obtain ⟨m, htells, hdue⟩ := hphase
      exact ⟨m, htells.congr (Session.Alike.link s link).keeps, hdue⟩
    | _ => exact hphase
  | exit phase => cases phase <;> exact hphase

theorem Account.stirs (hw : w.Account h hello) (x : Stir) :
    (w.step h (.stirs x)).Account h hello := by
  have hretains := x.retains_onLink
  rw [Account] at hw
  rw [Life.step, Account]
  dsimp only
  generalize w.stage = stage at hw ⊢
  cases stage with
  | greeting phase l => exact ⟨hw.1.retains (hretains l) (h.intro_onLink x l), hw.2⟩
  | gone l => exact hw.imp (·.retains (hretains l)) (·.retains (hretains l))
  | serving s call =>
    exact hw.retains (Session.Alike.link s _).keeps (hretains s.link)
      (fun c hc => ⟨phase_onLink (hw.inFlight c hc).1 _, (hw.inFlight c hc).2⟩) id

/-- **Nothing that happens puts the account out of order.** -/
theorem Account.step (hw : w.Account h hello) : ∀ e : Event, (w.step h e).Account h hello
  | .begins c => hw.begins c
  | .turns t openStore => hw.turns t openStore
  | .drops id => hw.drops id
  | .stirs x => hw.stirs x

theorem Account.run (hw : w.Account h hello) (es : List Event) :
    (w.run h es).Account h hello := by
  induction es generalizing w with
  | nil => exact hw
  | cons e es ih => exact ih (hw.step e)

/-! ## The protocol -/

/-- The rows of messages are those of the protocol. -/
structure Speaks (h : Handshake) (hello : Message) (begun : List Call)
    (row : Channel → List Message) : Prop where
  valid : ∀ ch, ∀ m ∈ row ch, m.Valid ∧ m.manifest.originator = h.role.originator
  /-- The introduction comes first, then pings, and nothing follows a leave-taking. -/
  ctrl : row .ctrl = [] ∨ ∃ n leaving,
    row .ctrl = hello :: List.replicate n (.ping h.role.originator) ++ leaving ∧
      (leaving = [] ∨ leaving = [.exit h.role.originator])
  /-- What is handed over is what a call was asked to hand over.  It announces the length of bytes
  that are sent, and of a payload that was dropped it has the routing and not the payload. -/
  send : ∀ m ∈ row .send, m.operation = h.role.handover ∧ ∃ x, .ofHand x ∈ begun ∧
    x.Spells h.identifier h.role m ∧
    (∀ destination bytes, x = .send destination bytes → bytes.size < UInt64.size →
      m.payloadSize.toNat = bytes.size) ∧
    (x.load.2 = false → m.resultCode = .noMessage ∧ m.metadata.isSome ∧ m.payload = none)
  recv : ∀ m ∈ row .recv, m.operation = h.role.delivery ∧
    ∃ wanted : Wanted, wanted.Suits h.role ∧ m = wanted.request h.role.originator

/-- Control messages are valid and carry no payload. -/
theorem control_spec (originator : Originator) (i : Intro) :
    ∀ m ∈ [Message.init originator i, .ping originator, .exit originator],
      m.Valid ∧ m.manifest.originator = originator ∧ m.payload = none := by
  simp [Message.Valid, Message.defect?, Message.init, Message.ping, Message.exit, Message.bare,
    Message.resultCode, Message.operation]

theorem mem_control {originator : Originator} {i : Intro} {n : Nat} {leaving : List Message}
    (hleaving : leaving = [] ∨ leaving = [.exit originator])
    (hm : m ∈ Message.init originator i :: List.replicate n (.ping originator) ++ leaving) :
    m ∈ [Message.init originator i, .ping originator, .exit originator] := by
  simp only [List.cons_append, List.mem_cons, List.mem_append, List.mem_replicate] at hm
  rcases hm with rfl | ⟨-, rfl⟩ | hm
  · simp
  · simp
  · rcases hleaving with rfl | rfl
    · exact absurd hm List.not_mem_nil
    · obtain rfl := List.mem_singleton.mp hm
      simp

section Rows

variable {i : Intro}

/-- A handshake speaks the protocol as far as it goes. -/
theorem speaks_of_opening {opening : List Message}
    (hopening : opening = [] ∨ opening = [.init h.role.originator i]) (begun : List Call) :
    Speaks h (.init h.role.originator i) begun fun ch => if ch = .ctrl then opening else [] := by
  refine ⟨fun ch m hm => ?_, ?_, fun m hm => absurd hm List.not_mem_nil,
    fun m hm => absurd hm List.not_mem_nil⟩
  · split at hm
    · rcases hopening with rfl | rfl
      · exact absurd hm List.not_mem_nil
      · obtain rfl := List.mem_singleton.mp hm
        have hspec := control_spec h.role.originator i _ List.mem_cons_self
        exact ⟨hspec.1, hspec.2.1⟩
    · exact absurd hm List.not_mem_nil
  · exact hopening.imp id fun heq => ⟨0, [], heq, .inl rfl⟩

/-- **The rows of a client that serves are those of the protocol.** -/
theorem Lawful.speaks (hrow : Lawful (.init h.role.originator i) begun s left row)
    (hidentifier : s.identifier = h.identifier) (hrole : s.role = h.role)
    (hbelong : ∀ c ∈ begun, c.belongs h.role) :
    Speaks h (.init h.role.originator i) begun row := by
  have hwho : s.originator = h.role.originator := congrArg Role.originator hrole
  obtain ⟨n, leaving, hctrl, hleaving⟩ := hrow.ctrl
  rw [hwho] at hctrl hleaving
  have hleaving : leaving = [] ∨ leaving = [.exit h.role.originator] := hleaving.imp_right And.right
  have hspells {x : Hand} {m : Message} (hbegun : Call.ofHand x ∈ begun) (htells : x.Tells s m) :
      x.Spells h.identifier h.role m := by
    have hbelongs : x.belongs h.role := hbelong _ hbegun
    exact hidentifier ▸ hrole ▸ htells.spells (hrole.symm ▸ hbelongs)
  have hrecv (m : Message) (hm : m ∈ row .recv) :
      ∃ wanted : Wanted, wanted.Suits h.role ∧ m = wanted.request h.role.originator := by
    obtain ⟨-, wanted, hsuits, hm⟩ := hrow.recv m hm
    exact ⟨wanted, hrole ▸ hsuits, hwho ▸ hm⟩
  refine ⟨fun ch m hm => ?_, .inr ⟨n, leaving, hctrl, hleaving⟩, fun m hm => ?_, fun m hm => ?_⟩
  · cases ch with
    | ctrl =>
      rw [hctrl] at hm
      have hspec := control_spec _ i m (mem_control hleaving hm)
      exact ⟨hspec.1, hspec.2.1⟩
    | send =>
      obtain ⟨x, hbegun, htells⟩ := hrow.send m hm
      obtain ⟨hvalid, -, horiginator, -⟩ := (hspells hbegun htells).shape
      exact ⟨hvalid, horiginator⟩
    | recv =>
      obtain ⟨wanted, hsuits, rfl⟩ := hrecv m hm
      obtain ⟨hvalid, hmanifest, -⟩ := Wanted.request_spec hsuits
      exact ⟨hvalid, congrArg Manifest.originator hmanifest⟩
  · obtain ⟨x, hbegun, htells⟩ := hrow.send m hm
    have hx := hspells hbegun htells
    obtain ⟨-, hoperation, -, hdropped⟩ := hx.shape
    refine ⟨hoperation, x, hbegun, hx, ?_, hdropped⟩
    rintro destination bytes rfl hsize
    exact hx.size hsize
  · obtain ⟨wanted, hsuits, rfl⟩ := hrecv m hm
    obtain ⟨-, hmanifest, -⟩ := Wanted.request_spec hsuits
    exact ⟨congrArg Manifest.operation hmanifest, wanted, hsuits, rfl⟩

/-- **Where payloads travel through a store, no message carries bytes.** -/
theorem Lawful.keyed (hrow : Lawful (.init s.originator i) begun s left row)
    (hshares : s.keys.isSome) (ch : Channel) : ∀ m ∈ row ch, ∀ bytes,
      m.payload ≠ some (.inline bytes) := by
  intro m hm bytes
  have hnone (h : m.payload = none) : m.payload ≠ some (.inline bytes) := by
    rw [h]
    exact (Option.some_ne_none _).symm
  cases ch with
  | ctrl =>
    obtain ⟨n, leaving, hctrl, hleaving⟩ := hrow.ctrl
    rw [hctrl] at hm
    exact hnone (control_spec _ i m (mem_control (hleaving.imp_right And.right) hm)).2.2
  | send =>
    obtain ⟨x, -, htells⟩ := hrow.send m hm
    exact htells.keyed hshares bytes
  | recv =>
    obtain ⟨-, wanted, hsuits, rfl⟩ := hrow.recv m hm
    exact hnone (Wanted.request_spec hsuits).2.2

end Rows

section Reading

variable {h : Handshake} {begun : List Call} {link : Link}

/-- What a channel carries of its row is read off the wire in the same way, however far the client
is. -/
theorem Speaks.read {hello : Message} {row : Channel → List Message}
    (hspeaks : Speaks h hello begun row)
    (hcarries : ∀ ch, (link.outbox ch).Carries (row ch)) (ch : Channel) :
    (∃ rest, (link.outbox ch).wire ++ rest = Outbox.frames (row ch)) ∧
      (Frame.bodies (link.outbox ch).wire).map Message.decode
        = ((row ch).take (Frame.bodies (link.outbox ch).wire).length).map .ok :=
  ⟨(hcarries ch).front, (hcarries ch).decode fun m hm => (hspeaks.valid ch m hm).1⟩

/-- Before the client is served its rows are those of the opening: nothing yet, or the
introduction alone. -/
theorem opens_read {opening : List Message} {i : Intro}
    (hopening : opening = [] ∨ opening = [.init h.role.originator i])
    (hopens : link.Opens opening) : ∃ row, Speaks h (.init h.role.originator i) begun row ∧
      ∀ ch, (∃ rest, (link.outbox ch).wire ++ rest = Outbox.frames (row ch)) ∧
        (Frame.bodies (link.outbox ch).wire).map Message.decode
          = ((row ch).take (Frame.bodies (link.outbox ch).wire).length).map .ok :=
  have hspeaks := speaks_of_opening hopening begun
  ⟨_, hspeaks, hspeaks.read hopens⟩

end Reading

/-- **A client speaks the protocol, whatever happens.**  Let a client have a new link, shake hands
and then make one call after another, of whatever kind and with whatever arguments, while the
daemon, the store and the writers of its channels do as they like and any of its calls is dropped.
At any moment there is a row of messages for each channel such that

* the rows are those of the protocol (`Speaks`): all messages are valid and name the client's role;
  on the control channel there is one introduction, first, then pings, and at most one leave-taking,
  last; the other two have what was handed over and the requests for deliveries, each of this role;
* what is on the wire of a channel is the beginning of the frames of its row, and each whole frame
  decodes to the message in its place;
* when the handshake has succeeded the introduction is on the wire, nothing is said on the inbound
  channel in push mode, and no message carries bytes where payloads travel through a store. -/
theorem speaks_protocol (h : Handshake) {l : Link} (hnew : ∀ ch, l.outbox ch = {})
    (es : List Event) :
    let w := (start l).run h es
    let hello : Message := .init h.role.originator (h.intro l)
    ∃ row : Channel → List Message, Speaks h hello w.begun row ∧
      (∀ ch, let wire := (w.stage.link.outbox ch).wire
        (∃ rest, wire ++ rest = Outbox.frames (row ch)) ∧
          (Frame.bodies wire).map Message.decode
            = ((row ch).take (Frame.bodies wire).length).map .ok) ∧
      ∀ s call, w.stage = .serving s call →
        (Frame.bodies (s.link.outbox .ctrl).wire).head?.map Message.decode = some (.ok hello) ∧
        (s.config.mode = .push → row .recv = []) ∧
        (s.config.usesStore → ∀ ch, ∀ m ∈ row ch, ∀ bytes, m.payload ≠ some (.inline bytes)) := by
  intro w hello
  have hstart : (start l).Account h hello := ⟨⟨rfl, .of_new hnew⟩, rfl⟩
  have hw : w.Account h hello := hstart.run es
  clear_value w
  rw [Account] at hw
  cases hstage : w.stage with
  | greeting phase link =>
    rw [hstage] at hw
    obtain ⟨row, hspeaks, hwire⟩ := hw.1.opens.elim (opens_read (.inl rfl)) (opens_read (.inr rfl))
    exact ⟨row, hspeaks, hwire, fun s call heq => nomatch heq⟩
  | gone link =>
    rw [hstage] at hw
    obtain ⟨row, hspeaks, hwire⟩ := hw.elim (opens_read (.inl rfl)) (opens_read (.inr rfl))
    exact ⟨row, hspeaks, hwire, fun s call heq => nomatch heq⟩
  | serving s call =>
    rw [hstage] at hw
    obtain ⟨row, hcarries, hlawful⟩ := hw.rows
    have hspeaks : Speaks h hello w.begun row :=
      hlawful.speaks hw.identifier hw.role hw.belong
    refine ⟨row, hspeaks, hspeaks.read hcarries, fun s' call' heq => ?_⟩
    obtain ⟨rfl, rfl⟩ := Stage.serving.inj heq
    have hmem : hello ∈ row .ctrl := by
      obtain ⟨n, leaving, hctrl, -⟩ := hlawful.ctrl
      rw [hctrl]
      exact List.mem_append_left _ List.mem_cons_self
    refine ⟨hw.greeted.decode ((hcarries .ctrl).sayable _ hmem) (hspeaks.valid .ctrl _ hmem).1,
      fun hpush => ?_, fun hstore => ?_⟩
    · refine List.eq_nil_iff_forall_not_mem.mpr fun m hm => ?_
      exact absurd (hpush.symm.trans (hlawful.recv m hm).1) (by decide)
    · have hwho : h.role.originator = s.originator := (congrArg Role.originator hw.role).symm
      have hlawful' : Lawful (.init s.originator (h.intro l)) w.begun s (hasLeft s call) row :=
        hwho ▸ hlawful
      exact hlawful'.keyed (hw.shares.trans hstore)

/-- An application in push mode, whose payloads travel through a store, sends one and leaves: the
payload goes out under its key, and nothing is said on the inbound channel. -/
theorem speaks_protocol_stored :
    let h : Handshake :=
      { identifier := "a", role := .application, responseWindow := .ofSeconds 1,
        bringsStore := true }
    let answer := Message.initResponse .success { mode := .push, useStore := true }
    let turn : Event := .turns ⟨0, ⟨0⟩, 0⟩ fun _ => .ok ()
    let flush (ch : Channel) : Event := .stirs (.writes ch .flushes)
    let es := [turn, turn, turn, flush .ctrl, turn,
      .stirs (.arrives .ctrl ((answer.encode.map Frame.wrap).toOption.getD .empty)), turn,
      .begins (.ofHand (.send "b" "hi".toUTF8)), turn, turn, turn, turn, flush .send, turn,
      .begins .ofExit, turn, turn, turn, flush .ctrl, turn]
    let w := (start {}).run h es
    let wire (ch : Channel) := (w.stage.link.outbox ch).wire
    (∀ ch, ({} : Link).outbox ch = {}) ∧
      (Frame.bodies (wire .ctrl)).map Message.ofBody?
        = [some (.init .application (h.intro {})), some (.exit .application)] ∧
      (Frame.bodies (wire .send)).map Message.ofBody?
        = [some (.send .application "a" "b" (.key "0-a-1") 2)] ∧
      ∃ row : Channel → List Message,
        Speaks h (.init .application (h.intro {})) w.begun row ∧
          (Frame.bodies (wire .send)).map Message.decode
            = ((row .send).take (Frame.bodies (wire .send)).length).map .ok := by
  intro h answer turn flush es w wire
  have hnew (ch : Channel) : ({} : Link).outbox ch = {} := by cases ch <;> rfl
  obtain ⟨row, hspeaks, hwire, -⟩ := speaks_protocol h hnew es
  exact ⟨hnew, by decide +kernel, by decide +kernel, row, hspeaks, (hwire .send).2⟩

end Life

end SimRelay
