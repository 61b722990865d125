import SimRelay.Proofs.Call.Desk

/-!
# Proofs/Call/Receipts — what is handed out is what came, resolved

A delivery comes to a call by one of four ways: as the answer to its request, from those that are
kept, or forwarded, to a call that waits with or without a deadline.  Whichever it is, what the
caller gets is said by `Message.resolved`: the message as it came, or with its key exchanged for the
bytes that the store holds under it.

A `Receipt` tells of one step of a call which delivery it dealt with and what it gave.  Every
receipt is honest (`Receipt.Honest`), by the step alone; and in any history of calls at one desk,
the deliveries that receipts tell of came in frames of their own (`Desk.hands_out_resolved`).
-/

namespace SimRelay

/-! ## Resolving -/

/-- What is looked up is what is held, and stays. -/
theorem Backend.get?_peek {key : String} {b b' : Backend} {r : Option ByteArray}
    (h : b.peek key = (b', .ok r)) : r = b.get? key ∧ b'.entries = b.entries := by
  unfold peek receive at h
  by_cases hfails : StoreOperation.peek ∈ b.failing <;> simp [hfails] at h
  obtain ⟨rfl, rfl⟩ := h
  exact ⟨rfl, rfl⟩

/-- What a delivery is to a client of this role, which has a store or not, and for whose simulators
a payload is wanted or not: an application has its key exchanged for what is held under it, and a
simulator gets what is held beside the message. -/
def Message.resolved (role : Role) (shares want : Bool) (held : String → Option ByteArray)
    (m : Message) : Option Delivery :=
  match role, m.payloadKey with
  | .application, none => some (.received m)
  | .application, some key =>
    if shares then (held key).map fun bytes => .received { m with payload := some (.inline bytes) }
    else none
  | .simulator, none => some (.fetched ⟨m, none⟩)
  | .simulator, some key =>
    if want ∧ shares then (held key).map fun bytes => .fetched ⟨m, some bytes⟩
    else some (.fetched ⟨m, none⟩)

namespace Message

variable {shares want : Bool} {held : String → Option ByteArray} {m m' : Message} {key : String}

/-- **An application gets no key.** -/
theorem payloadKey_of_resolved {role : Role}
    (h : m.resolved role shares want held = some (.received m')) : m'.payloadKey = none := by
  unfold resolved at h
  split at h
  · next hkey =>
    obtain rfl := Delivery.received.inj (Option.some.inj h)
    exact hkey
  · split at h
    · obtain ⟨bytes, -, hm⟩ := Option.map_eq_some_iff.mp h
      obtain rfl := Delivery.received.inj hm
      rfl
    · exact absurd h (Option.some_ne_none _).symm
  · cases h
  · split at h
    · obtain ⟨bytes, -, hm⟩ := Option.map_eq_some_iff.mp h
      cases hm
    · cases h

theorem resolved_of_keyless (role : Role) (h : m.payloadKey = none) :
    m.resolved role shares want held
      = some (match role with | .application => .received m | .simulator => .fetched ⟨m, none⟩) := by
  cases role with
  | application => simp only [resolved, h]
  | simulator => simp only [resolved, h]

theorem resolved_application (h : m.payloadKey = some key) :
    m.resolved .application shares want held = if shares then
      (held key).map fun bytes => .received { m with payload := some (.inline bytes) } else none := by
  simp only [resolved, h]

theorem resolved_simulator (h : m.payloadKey = some key) :
    m.resolved .simulator shares want held = if want ∧ shares then
      (held key).map fun bytes => .fetched ⟨m, some bytes⟩ else some (.fetched ⟨m, none⟩) := by
  simp only [resolved, h]

end Message

/-! ## Receipts -/

/-- One step of a call that receives: what it dealt with and what it gave. -/
structure Receipt where
  intake : Intake
  /-- The delivery that the step has taken or that was in hand, as it came. -/
  wire : Option Message
  before : Backend
  after : Backend
  /-- What the caller gets, if the call has ended. -/
  result : Option (Except Failure (Option Delivery))

namespace Receipt

/-- The step exchanges this key of an application's delivery for what is held under it. -/
def Redeems (role : Role) (shares : Bool) (r : Receipt) (key : String) : Prop :=
  role = .application ∧ shares = true ∧ (∃ m, r.wire = some m ∧ m.payloadKey = some key) ∧
    ∃ d?, r.result = some (.ok d?)

/-- The step has asked for this key of an application's delivery in vain, of a store that may have
taken it out nevertheless. -/
def Risks (role : Role) (r : Receipt) (key : String) : Prop :=
  role = .application ∧ ¬ r.before.FailsSafely ∧
    (∃ m, r.wire = some m ∧ m.payloadKey = some key) ∧ ∃ e, r.result = some (.error e)

/-- The caller gets the delivery that came, resolved by what the store held, and nothing if there
was none; and the store loses the key that an application's delivery is exchanged for, and no other,
but for one that it may have lost in failing. -/
structure Honest (role : Role) (shares : Bool) (r : Receipt) : Prop where
  resolved : ∀ d?, r.result = some (.ok d?) →
    d? = r.wire.bind (Message.resolved role shares r.intake.wantsPayload r.before.get?)
  /-- With a delivery at hand, a call fails only because the store does. -/
  failed : ∀ e m, r.result = some (.error e) → r.wire = some m → ∃ fault, e = .error (.store fault)
  redeemed : ∀ key, r.Redeems role shares key → r.after.get? key = none
  spared : ∀ key, ¬ r.Redeems role shares key → ¬ r.Risks role key →
    r.after.get? key = r.before.get? key

/-- The delivery as it came, if the caller gets anything. -/
def given? (r : Receipt) : Option Message :=
  match r.result with
  | some (.ok (some _)) => r.wire
  | _ => none

variable {role : Role} {shares : Bool} {r : Receipt}

/-- **A simulator leaves the store as it is.** -/
theorem Honest.spared_simulator (h : r.Honest .simulator shares) (key : String) :
    r.after.get? key = r.before.get? key :=
  h.spared key (fun hredeems => Role.noConfusion hredeems.1) fun hrisks => Role.noConfusion hrisks.1

/-- **What an application gets carries no key.** -/
theorem Honest.keyless (h : r.Honest role shares) {m : Message}
    (hresult : r.result = some (.ok (some (.received m)))) : m.payloadKey = none := by
  obtain ⟨w, -, hw⟩ := Option.bind_eq_some_iff.mp (h.resolved _ hresult).symm
  exact Message.payloadKey_of_resolved hw

/-- A step that leaves the store alone and gives nothing but what it has resolved without it. -/
theorem Honest.of_same (hstore : r.after = r.before)
    (hresolved : ∀ d?, r.result = some (.ok d?) →
      d? = r.wire.bind (Message.resolved role shares r.intake.wantsPayload r.before.get?))
    (hfailed : ∀ e m, r.result = some (.error e) → r.wire = some m →
      ∃ fault, e = .error (.store fault))
    (hkey : ∀ key, r.Redeems role shares key → r.before.get? key = none) :
    r.Honest role shares where
  resolved := hresolved
  failed := hfailed
  redeemed key h := hstore ▸ hkey key h
  spared key _ _ := by rw [hstore]

end Receipt

/-! ## One step -/

/-- What a call owes the delivery in hand: its own key is asked for, and only where it has to be. -/
def Call.Owes (role : Role) (shares : Bool) : Call → Prop
  | .intake i (.resolving m key) =>
    m.payloadKey = some key ∧ shares = true ∧ (role = .simulator → i.wantsPayload = true)
  | _ => True

namespace Intake

variable {i : Intake} {s : Session} {b : Backend} {m : Message}
  {p : Progress Failure Phase (Option Delivery)}

/-- The delivery that a step has taken, or that was in hand. -/
def wire? (t : Turn) (i : Intake) (phase : Phase) (s : Session) : Option Message :=
  match phase with
  | .start => none
  | .pulling _ => i.pulled? t phase s
  | .attending timeout => (s.hear t .recv true (timeout.map t.now.timer)).1.message?.filter
      (Message.isDelivery s.role.delivery)
  | .waiting deadline => (s.hear t .recv false deadline).1.message?.filter
      (Message.isDelivery s.role.delivery)
  | .resolving m _ => some m

/-- The receipt of a step. -/
def receipt (t : Turn) (i : Intake) (phase : Phase) (s : Session) (b : Backend) : Receipt :=
  { intake := i, wire := i.wire? t phase s, before := b, after := (i.step t phase s b).2.1
    result := (i.step t phase s b).2.2.result? }

/-- What is to be said of a step that goes so: its receipt is honest, and if the call goes on with a
delivery in hand, it is the one that the step has dealt with. -/
structure Settles (i : Intake) (role : Role) (shares : Bool) (b : Backend) (wire : Option Message)
    (r : Backend × Progress Failure Phase (Option Delivery)) : Prop where
  honest : Receipt.Honest role shares ⟨i, wire, b, r.1, r.2.result?⟩
  next : r.2.Leaves fun phase => (Call.intake i phase).Owes role shares ∧
    ∀ m, (Call.intake i phase).inHand? = some m → wire = some m

/-- A step that has taken no delivery. -/
theorem Settles.of_none {role : Role} {shares : Bool} (hresult : ∀ d, p.result? ≠ some (.ok (some d)))
    (hnext : p.Leaves fun phase => (Call.intake i phase).inHand? = none) :
    i.Settles role shares b none (b, p) where
  honest := by
    refine .of_same rfl (fun d? hd => ?_) (fun _ _ _ hwire => absurd hwire.symm (by simp))
      fun key hredeems => ?_
    · cases d? with
      | none => rfl
      | some d => exact absurd hd (hresult d)
    · obtain ⟨-, -, ⟨m, hm, -⟩, -⟩ := hredeems
      exact absurd hm.symm (Option.some_ne_none m)
  next := by
    refine hnext.mono fun phase hphase => ⟨?_, fun m hm => ?_⟩
    · cases phase with
      | resolving m key => exact absurd hphase (Option.some_ne_none m)
      | _ => trivial
    · exact absurd (hm.symm.trans hphase) (Option.some_ne_none m)

/-- A delivery that the store need not be asked for. -/
theorem Settles.of_resolved {d? : Option Delivery}
    (hd : d? = m.resolved s.role s.keys.isSome i.wantsPayload b.get?)
    (hkey : s.role = .application → s.keys.isSome → m.payloadKey = none) :
    i.Settles s.role s.keys.isSome b (some m) (b, .ends (.ok d?)) where
  honest := by
    refine .of_same rfl (fun d hresult => ?_) (fun e _ he _ => ?_) fun key hredeems => ?_
    · obtain rfl := Except.ok.inj (Option.some.inj hresult)
      exact hd
    · cases he
    · obtain ⟨hrole, hshares, ⟨m', hm, hown⟩, -⟩ := hredeems
      obtain rfl := Option.some.inj hm
      exact absurd (hown.symm.trans (hkey hrole hshares)) (Option.some_ne_none key)
  next := trivial

/-- **What is left to do with a delivery** is to ask the store for the payload under its key, where
it has to be asked. -/
theorem settle_settles (i : Intake) (s : Session) (b : Backend) (m : Message) :
    i.Settles s.role s.keys.isSome b (some m) (b, i.settle s m) := by
  -- the call goes on to ask
  have hasks {key : String} (hkey : m.payloadKey = some key) (hshares : s.keys.isSome)
      (hwants : s.role = .simulator → i.wantsPayload = true) :
      i.Settles s.role s.keys.isSome b (some m) (b, .goes (.resolving m key)) := by
    refine ⟨.of_same rfl (fun _ h => ?_) (fun _ _ h => ?_) fun key' h => ?_, ⟨hkey, hshares, hwants⟩,
      fun _ h => h⟩
    · cases h
    · cases h
    · obtain ⟨-, -, -, d?, hd⟩ := h
      cases hd
  unfold settle
  split
  · next hrole hkey =>
    refine .of_resolved ?_ fun _ _ => hkey
    rw [hrole, Message.resolved_of_keyless _ hkey]
  · next key hrole hkey =>
    split
    · next hshares => exact hasks hkey hshares fun h => by rw [hrole] at h; cases h
    · next hshares =>
      refine .of_resolved ?_ fun _ h => absurd h hshares
      rw [hrole, Message.resolved_application hkey, if_neg hshares]
  · next key hrole hkey =>
    split
    · next hwants => exact hasks hkey hwants.2 fun _ => hwants.1
    · next hwants =>
      refine .of_resolved ?_ fun h => by rw [hrole] at h; cases h
      rw [hrole, Message.resolved_simulator hkey, if_neg hwants]
  · next hrole hkey =>
    refine .of_resolved ?_ fun _ _ => hkey
    rw [hrole, Message.resolved_of_keyless _ hkey]

/-- What the store answers an application. -/
theorem resolve_application (hrole : s.role = .application) (m : Message) (key : String)
    (b : Backend) :
    resolve m key s b = ((b.checkOut key).1,
      ((b.checkOut key).2.mapError fun fault => .error (.store fault)).map
        (Option.map fun bytes => .received { m with payload := some (.inline bytes) })) := by
  simp only [resolve, hrole]
  generalize b.checkOut key = r
  obtain ⟨b', fault | _ | bytes⟩ := r <;> rfl

/-- …and what it answers a simulator. -/
theorem resolve_simulator (hrole : s.role = .simulator) (m : Message) (key : String) (b : Backend) :
    resolve m key s b = ((b.peek key).1,
      ((b.peek key).2.mapError fun fault => .error (.store fault)).map
        (Option.map fun bytes => .fetched ⟨m, some bytes⟩)) := by
  simp only [resolve, hrole]
  generalize b.peek key = r
  obtain ⟨b', fault | _ | bytes⟩ := r <;> rfl

/-- **The store's answer is the delivery, resolved**, and an application's key is gone with it. -/
theorem get?_resolve {key : String} {d? : Option Delivery}
    (howes : (Call.intake i (.resolving m key)).Owes s.role s.keys.isSome)
    (h : (resolve m key s b).2 = .ok d?) :
    d? = m.resolved s.role s.keys.isSome i.wantsPayload b.get? ∧
      ∀ other, (resolve m key s b).1.get? other
        = if s.role = .application ∧ other = key then none else b.get? other := by
  obtain ⟨hkey, hshares, hwants⟩ := howes
  cases hrole : s.role with
  | application =>
    rw [resolve_application hrole] at h ⊢
    rw [Message.resolved_application hkey, if_pos hshares]
    cases hout : b.checkOut key with
    | mk b' answer =>
      rw [hout] at h
      cases answer with
      | error fault => cases h
      | ok found =>
        obtain ⟨rfl, -⟩ := Backend.get?_checkOut hout key
        refine ⟨(Except.ok.inj h).symm, fun other => ?_⟩
        simpa using (Backend.get?_checkOut hout other).2
  | simulator =>
    rw [resolve_simulator hrole] at h ⊢
    rw [Message.resolved_simulator hkey, if_pos ⟨hwants hrole, hshares⟩]
    cases hout : b.peek key with
    | mk b' answer =>
      rw [hout] at h
      cases answer with
      | error fault => cases h
      | ok found =>
        obtain ⟨rfl, hentries⟩ := Backend.get?_peek hout
        exact ⟨(Except.ok.inj h).symm, fun other => by simp [Backend.get?, hentries]⟩

/-- **A store that fails keeps what it has**, but for the key that an application asks for, if it
may fail after taking it out. -/
theorem get?_resolve_of_error {key : String} {e : Failure} (h : (resolve m key s b).2 = .error e)
    {other : String} (hsafe : s.role = .application → other = key → b.FailsSafely) :
    (resolve m key s b).1.get? other = b.get? other := by
  cases hrole : s.role with
  | application =>
    by_cases hother : other = key
    · exact congrArg (List.lookup other) ((entries_of_resolve m key s b h).1 (hsafe hrole hother))
    · rw [resolve_application hrole]
      change (b.checkOut key).1.entries.lookup other = _
      rcases b.entries_checkOut key with hentries | hentries
      · rw [hentries, Backend.lookup_without, if_neg hother]
        rfl
      · rw [hentries]
        rfl
  | simulator =>
    rw [resolve_simulator hrole]
    exact congrArg (List.lookup other) (b.entries_peek key)

/-- A step that resolves the delivery in hand. -/
theorem resolve_settles {key : String} (b : Backend)
    (howes : (Call.intake i (.resolving m key)).Owes s.role s.keys.isSome) :
    i.Settles s.role s.keys.isSome b (some m) ((resolve m key s b).1, .ends (resolve m key s b).2) := by
  have hown : m.payloadKey = some key := howes.1
  have hshares : s.keys.isSome = true := howes.2.1
  refine ⟨?_, trivial⟩
  cases hresult : (resolve m key s b).2 with
  | error e =>
    obtain ⟨-, fault, hfault⟩ := entries_of_resolve m key s b hresult
    refine ⟨fun d? hd => ?_, fun e' m' he _ => ?_, fun other h => ?_, fun other _ hrisks => ?_⟩
    · cases hd
    · exact ⟨fault, (Except.error.inj (Option.some.inj he)).symm.trans hfault⟩
    · obtain ⟨-, -, -, d?, hd⟩ := h
      cases hd
    · refine get?_resolve_of_error hresult fun hrole hother => ?_
      by_contra hunsafe
      exact hrisks ⟨hrole, hunsafe, ⟨m, rfl, hother ▸ hown⟩, e, rfl⟩
  | ok d? =>
    obtain ⟨hd?, hget⟩ := get?_resolve howes hresult
    refine ⟨fun d hd => ?_, fun e m' he _ => ?_, fun other h => ?_, fun other h _ => ?_⟩
    · obtain rfl := Except.ok.inj (Option.some.inj hd)
      exact hd?
    · cases he
    · obtain ⟨hrole, -, ⟨m', hm, hother⟩, -⟩ := h
      obtain rfl := Option.some.inj hm
      obtain rfl := Option.some.inj (hother.symm.trans hown)
      exact (hget other).trans (if_pos ⟨hrole, rfl⟩)
    · refine (hget other).trans (if_neg ?_)
      rintro ⟨hrole, rfl⟩
      exact h ⟨hrole, hshares, ⟨m, rfl, hown⟩, d?, rfl⟩

/-- A step that hears what is forwarded. -/
theorem hearForwarded_settles (t : Turn) (i : Intake) (begins : Bool) (deadline : Option Instant)
    (s : Session) (b : Backend) :
    i.Settles s.role s.keys.isSome b ((s.hear t .recv begins deadline).1.message?.filter
      (Message.isDelivery s.role.delivery)) (b, (i.hearForwarded t begins deadline s).2) := by
  unfold hearForwarded
  split
  · next m s' hhear =>
    obtain ⟨link, rfl⟩ := Session.exists_link_of_hear hhear
    rw [hhear]
    dsimp only [Session.Heard.message?]
    split
    · next hdelivery =>
      rw [Option.filter_some_pos hdelivery]
      exact i.settle_settles { s with link } b m
    · next hother =>
      rw [Option.filter_some_neg (eq_false_of_ne_true hother)]
      exact .of_none (fun _ h => by cases h) trivial
  · next hhear => exact hhear ▸ .of_none (fun _ h => by cases h) trivial
  · next hhear => exact hhear ▸ .of_none (fun _ h => by cases h) trivial
  · next hhear => exact hhear ▸ .of_none (fun _ h => by cases h) rfl

/-- A step that pulls. -/
theorem pulling_settles (t : Turn) (i : Intake) (p : Pull.Phase) (s : Session) (b : Backend) :
    i.Settles s.role s.keys.isSome b (i.pulled? t (.pulling p) s) (i.step t (.pulling p) s b).2 := by
  obtain ⟨⟨-, link, kept, hsession, -, -⟩, -⟩ :=
    Pull.step_dealt t (i.wanted s) (i.timeout.getD s.responseWindow) p s
  simp only [step, pulled?]
  generalize Pull.step t (i.wanted s) (i.timeout.getD s.responseWindow) p s = r at hsession ⊢
  obtain ⟨s', progress⟩ := r
  obtain rfl : s' = _ := hsession
  cases progress with
  | waits phase => exact .of_none (fun _ h => by cases h) rfl
  | goes phase => exact .of_none (fun _ h => by cases h) rfl
  | ends r =>
    rcases r with e | m?
    · exact .of_none (fun _ h => by cases h) trivial
    · cases m? with
      | none => exact .of_none (fun _ h => by cases h) trivial
      | some m => exact i.settle_settles { s with link, late := kept } b m

/-- **A step deals with one delivery at most**, whichever way it comes. -/
theorem step_settles (t : Turn) {phase : Phase}
    (howes : (Call.intake i phase).Owes s.role s.keys.isSome) :
    i.Settles s.role s.keys.isSome b (i.wire? t phase s) (i.step t phase s b).2 := by
  cases phase with
  | start =>
    have hstart : ∃ p, (i.step t .start s b).2 = (b, p) ∧ (∀ d, p.result? ≠ some (.ok (some d))) ∧
        p.Leaves fun phase => (Call.intake i phase).inHand? = none := by
      simp only [step]
      split
      · exact ⟨_, rfl, (fun d h => by cases h), rfl⟩
      · split
        · exact ⟨_, rfl, (fun d h => by cases h), trivial⟩
        · split <;> exact ⟨_, rfl, (fun d h => by cases h), rfl⟩
    obtain ⟨p, hp, hresult, hnext⟩ := hstart
    exact hp ▸ .of_none hresult hnext
  | pulling p => exact pulling_settles t i p s b
  | attending timeout => exact hearForwarded_settles t i true _ s b
  | waiting deadline => exact hearForwarded_settles t i false deadline s b
  | resolving m key => exact resolve_settles b howes

theorem session_hearForwarded (t : Turn) (i : Intake) (begins : Bool) (deadline : Option Instant)
    (s : Session) :
    (i.hearForwarded t begins deadline s).1 = (s.hear t .recv begins deadline).2 := by
  unfold hearForwarded
  split
  · next h => rw [h]
  · next h => rw [h]
  · next h => rw [h]
  · next h => rw [h]

/-- What a step makes of deliveries before it settles one: those in hand, those that are kept and
the one that comes are the one it deals with and those that are kept then. -/
def Takes (held : Option Message) (wire : Option Message) (s s' : Session) : Prop :=
  ∃ body?, (s.link.inbox .recv).Handed body? (s'.link.inbox .recv) ∧
    (held.toList ++ s.late ++ deliveries s.role.delivery body?.toList).Perm
      (wire.toList ++ s'.late)

/-- A step that reads nothing. -/
theorem Takes.rests {held : Option Message} {s' : Session} (hlate : s'.late = s.late)
    (hrecv : (s.link.inbox .recv).Handed none (s'.link.inbox .recv)) : Takes held held s s' :=
  ⟨none, hrecv, by rw [hlate]; exact .of_eq (List.append_nil _)⟩

theorem hear_takes (t : Turn) (begins : Bool) (deadline : Option Instant) (s : Session) :
    Takes none ((s.hear t .recv begins deadline).1.message?.filter
      (Message.isDelivery s.role.delivery)) s (s.hear t .recv begins deadline).2 := by
  obtain ⟨body?, j, hsession, hhanded, hheard⟩ := s.hear_spec t .recv begins deadline
  rw [hsession, hheard]
  refine ⟨body?, ?_, ?_⟩
  · rw [Link.inbox_setInbox, if_pos rfl]
    exact hhanded
  · rw [deliveries_toList]
    exact List.perm_append_comm

/-- **No step loses a delivery before it is settled.** -/
theorem step_takes (t : Turn) (i : Intake) (phase : Phase) (s : Session) (b : Backend) :
    Takes (Call.intake i phase).inHand? (i.wire? t phase s) s (i.step t phase s b).1 := by
  cases phase with
  | start =>
    have hsame : (i.step t .start s b).1 = s := by
      simp only [step]
      split
      · rfl
      · split
        · rfl
        · split <;> rfl
    change Takes none none s _
    rw [hsame]
    exact .rests rfl (Inbox.handed_none rfl rfl)
  | pulling p =>
    obtain ⟨⟨body?, link, kept, hsession, hhanded, hdeals⟩, -⟩ :=
      Pull.step_dealt t (i.wanted s) (i.timeout.getD s.responseWindow) p s
    change Takes none _ s (Pull.step t _ _ p s).1
    rw [hsession]
    exact ⟨body?, hhanded, hdeals.perm⟩
  | attending timeout =>
    change Takes none _ s (i.hearForwarded t true _ s).1
    rw [session_hearForwarded]
    exact hear_takes t true _ s
  | waiting deadline =>
    change Takes none _ s (i.hearForwarded t false deadline s).1
    rw [session_hearForwarded]
    exact hear_takes t false deadline s
  | resolving m key => exact .rests rfl (Inbox.handed_none rfl rfl)

end Intake

namespace Call

variable {role : Role} {shares : Bool} {c : Call}

/-- A call that takes no delivery owes none… -/
theorem owes_of_receives (h : c.receives = false) : c.Owes role shares := by
  cases c with
  | intake i phase => cases h
  | _ => exact trivial

/-- …and has none in hand. -/
theorem inHand?_of_receives (h : c.receives = false) : c.inHand? = none := by
  cases c with
  | intake i phase => cases h
  | _ => exact rfl

theorem owes_of_inHand? (h : c.inHand? = none) : c.Owes role shares := by
  cases c with
  | intake i phase =>
    cases phase with
    | resolving m key => exact absurd h (Option.some_ne_none m)
    | _ => trivial
  | _ => trivial

/-- A call goes on as the call it is. -/
theorem step_receives (t : Turn) (h : c.receives = false) (s : Session) (b : Backend) :
    (c.step t s b).2.2.Leaves fun c => c.receives = false := by
  cases c with
  | ping timeout phase => exact leaves_lift ((Progress.leaves_true _).mono fun _ _ => rfl)
  | intake i phase => cases h
  | hand h phase => exact leaves_lift ((Progress.leaves_true _).mono fun _ _ => rfl)
  | exit phase => exact leaves_lift ((Progress.leaves_true _).mono fun _ _ => rfl)

/-- The receipt of a step, if the call receives. -/
def receipt? (t : Turn) (c : Call) (s : Session) (b : Backend) : Option Receipt :=
  match c with
  | .intake i phase => some (i.receipt t phase s b)
  | _ => none

theorem inHand?_of_leaves {p : Progress Failure Call Reply}
    (h : p.Leaves fun c => c.receives = false) : p.state?.bind inHand? = none := by
  cases hstate : p.state? with
  | none => rfl
  | some c => exact inHand?_of_receives (h.of_state? hstate)

end Call

/-- The delivery of a step is with the caller, in hand, or done with. -/
theorem Intake.Settles.splits {i : Intake} {role : Role} {shares : Bool} {b b' : Backend}
    {wire : Option Message} {p : Progress Failure Intake.Phase (Option Delivery)}
    (h : i.Settles role shares b wire (b', p)) :
    ∃ spent, (Receipt.given? ⟨i, wire, b, b', p.result?⟩).toList
      ++ ((Call.lift (.intake i) .delivery p).state?.bind Call.inHand?).toList ++ spent
        = wire.toList := by
  have hgoes {phase : Intake.Phase}
      (hnext : ∀ m, (Call.intake i phase).inHand? = some m → wire = some m) :
      ∃ spent, (Call.intake i phase).inHand?.toList ++ spent = wire.toList := by
    cases hhand : (Call.intake i phase).inHand? with
    | none => exact ⟨wire.toList, rfl⟩
    | some m => exact ⟨[], by rw [hnext m hhand]; rfl⟩
  match p with
  | .waits phase => exact hgoes h.next.2
  | .goes phase => exact hgoes h.next.2
  | .ends (.ok (some d)) => exact ⟨[], (List.append_nil _).trans (List.append_nil wire.toList)⟩
  | .ends (.ok none) => exact ⟨wire.toList, rfl⟩
  | .ends (.error e) => exact ⟨wire.toList, rfl⟩

/-! ## At one desk -/

namespace Desk

variable {w : Desk} {role : Role} {shares : Bool} {given : List Message} {c : Call} {id : CallId}

/-- The receipt of an event, if it is a step of a call that receives. -/
def receipt? (w : Desk) : Event → Option Receipt
  | .turns t => (w.calls.lookup t.id).bind fun c => c.receipt? t w.session w.store
  | _ => none

/-- The receipts of a whole history, in order. -/
def receipts (w : Desk) : List Event → List Receipt
  | [] => []
  | e :: es => (w.receipt? e).toList ++ (w.step e).receipts es

/-- The account of what is handed out: the bodies taken off the inbound channel are the first of the
stream; and each delivery among them was given to a caller, is in hand, is kept or is done with,
once. -/
structure Counts (role : Role) (shares : Bool) (given : List Message) (w : Desk) : Prop where
  plays : w.session.role = role
  sharing : w.session.keys.isSome = shares
  owes : ∀ p ∈ w.calls, p.2.Owes role shares
  books : ∃ taken spent, w.written = Frame.joined taken ++ w.inbox.pending ∧
    (∀ body ∈ taken, body.size ≤ Frame.maxLength) ∧
    (given ++ w.inHand ++ w.session.late ++ spent).Perm (deliveries role.delivery taken)

theorem Counts.start {s : Session} (hlate : s.late = []) (b : Backend) :
    (start s b).Counts s.role s.keys.isSome [] where
  plays := rfl
  sharing := rfl
  owes _ h := absurd h List.not_mem_nil
  books := by
    refine ⟨[], [], ByteArray.empty_append.symm, fun _ h => absurd h List.not_mem_nil, ?_⟩
    change ([] ++ s.late ++ []).Perm []
    rw [hlate]
    exact .refl _

/-- A step of a call in flight that gives this, if it gives anything. -/
theorem Counts.turn (h : w.Counts role shares given) (t : Turn) (hc : (t.id, c) ∈ w.calls)
    {out wire : Option Message}
    (htakes : Intake.Takes c.inHand? wire w.session (c.step t w.session w.store).1)
    (hsplits : ∃ spent, out.toList
      ++ ((c.step t w.session w.store).2.2.state?.bind Call.inHand?).toList ++ spent = wire.toList)
    (howes : (c.step t w.session w.store).2.2.Leaves (Call.Owes role shares)) :
    (w.turn t c).Counts role shares (given ++ out.toList) := by
  obtain ⟨-, hrole, hshares⟩ := Call.step_terms t c w.session w.store
  obtain ⟨body?, hhanded, hperm⟩ := htakes
  obtain ⟨spent', hsplit⟩ := hsplits
  obtain ⟨taken, spent, hstream, hshort, hbooks⟩ := h.books
  obtain ⟨hstream', hshort'⟩ := hhanded.stream hstream hshort
  refine ⟨hrole.trans h.plays, hshares.trans h.sharing, fun p hp => ?_, taken ++ body?.toList,
    spent ++ spent', ?_, ?_, ?_⟩
  · rw [calls_turn] at hp
    rcases List.mem_append.mp hp with hp | hp
    · obtain ⟨next, hnext, rfl⟩ := Option.map_eq_some_iff.mp (Option.mem_toList.mp hp)
      exact howes.of_state? hnext
    · exact h.owes p (List.mem_of_mem_erase hp)
  · exact hstream'
  · exact hshort'
  · rw [deliveries_append, inHand_turn, session_turn]
    -- what the step takes and what it makes of it meet here, so that each delivery is counted
    refine List.perm_iff_count.mpr fun m => ?_
    rw [h.plays] at hperm
    have hperm := hperm.count_eq m
    have hsplit := congrArg (List.count m) hsplit
    have hbooks := hbooks.count_eq m
    have hhand := (w.inHand_perm hc).count_eq m
    simp only [List.count_append] at hperm hsplit hbooks hhand ⊢
    omega

/-- **A step of any call** gives what it has taken, or what it had in hand. -/
theorem Counts.turns (h : w.Counts role shares given) {t : Turn}
    (hcall : w.calls.lookup t.id = some c) :
    (w.turn t c).Counts role shares
        (given ++ ((c.receipt? t w.session w.store).bind Receipt.given?).toList) ∧
      ∀ r ∈ c.receipt? t w.session w.store, r.Honest role shares := by
  have hc := mem_of_lookup hcall
  cases hreceives : c.receives with
  | false =>
    have hspares := Call.step_spares t hreceives w.session w.store
    have hnext := Call.step_receives t hreceives w.session w.store
    have htakes : Intake.Takes c.inHand? none w.session (c.step t w.session w.store).1 :=
      Call.inHand?_of_receives hreceives ▸ .rests hspares.late hspares.recv
    have hsplits : ∃ spent, (none : Option Message).toList
        ++ ((c.step t w.session w.store).2.2.state?.bind Call.inHand?).toList ++ spent
          = (none : Option Message).toList :=
      ⟨[], by rw [Call.inHand?_of_leaves hnext]; rfl⟩
    have hcounts := h.turn t hc htakes hsplits
      (hnext.mono fun _ hbare => Call.owes_of_receives hbare)
    cases c with
    | intake i phase => cases hreceives
    | _ => exact ⟨hcounts, fun r hr => absurd hr.symm (Option.some_ne_none r)⟩
  | true =>
    cases c with
    | intake i phase =>
      have howes : (Call.intake i phase).Owes w.session.role w.session.keys.isSome := by
        rw [h.plays, h.sharing]
        exact h.owes _ hc
      have hsettles := Intake.step_settles (b := w.store) t howes
      rw [h.plays, h.sharing] at hsettles
      refine ⟨h.turn t hc (i.step_takes t phase w.session w.store) hsettles.splits ?_,
        fun r hr => ?_⟩
      · exact Call.leaves_lift (hsettles.next.mono fun _ hnext => hnext.1)
      · obtain rfl := Option.some.inj hr
        exact hsettles.honest
    | _ => cases hreceives

/-- What leaves the deliveries alone, or takes some from the hand of a call. -/
theorem Counts.drop (h : w.Counts role shares given) (hc : (id, c) ∈ w.calls) :
    (w.drop id c).Counts role shares given := by
  have hspares := w.session.spares_abandon id
  obtain ⟨taken, spent, hstream, hshort, hbooks⟩ := h.books
  have hpending : w.inbox.pending = (w.drop id c).inbox.pending := hspares.recv.pending_of_none.symm
  refine ⟨h.plays, h.sharing, fun p hp => h.owes p (List.mem_of_mem_erase hp), taken,
    spent ++ c.inHand?.toList, hpending ▸ hstream, hshort, ?_⟩
  have hhand := w.inHand_perm hc
  change (given ++ (w.calls.erase (id, c)).flatMap _ ++ w.session.late ++ _).Perm _
  refine List.perm_iff_count.mpr fun m => ?_
  have hbooks := hbooks.count_eq m
  have hhand := hhand.count_eq m
  simp only [List.count_append] at hbooks hhand ⊢
  omega

/-- **Every event keeps the account**, with what its receipt tells of. -/
theorem Counts.step (h : w.Counts role shares given) (e : Event) :
    (w.step e).Counts role shares (given ++ ((w.receipt? e).bind Receipt.given?).toList) ∧
      ∀ r ∈ w.receipt? e, r.Honest role shares := by
  have hsame {w' : Desk} (h' : w'.Counts role shares given) :
      w'.Counts role shares (given ++ ((none : Option Receipt).bind Receipt.given?).toList) ∧
        ∀ r ∈ (none : Option Receipt), r.Honest role shares :=
    ⟨(List.append_nil given).symm ▸ h', fun r hr => absurd hr.symm (Option.some_ne_none r)⟩
  cases e with
  | begins id c =>
    refine hsame ?_
    rw [Desk.step]
    split
    · next hbegins =>
      obtain ⟨taken, spent, hstream, hshort, hbooks⟩ := h.books
      obtain ⟨hhand, -⟩ := Call.bare_of_isNew hbegins.1
      refine ⟨h.plays, h.sharing, List.forall_mem_cons.mpr ⟨?_, h.owes⟩, taken, spent, hstream, hshort,
        ?_⟩
      · exact Call.owes_of_inHand? hhand
      · change (given ++ (c.inHand?.toList ++ w.inHand) ++ w.session.late ++ spent).Perm _
        rw [hhand]
        exact hbooks
    · exact h
  | turns t =>
    cases hcall : w.calls.lookup t.id with
    | none =>
      rw [Desk.step, receipt?, hcall]
      exact hsame h
    | some c =>
      rw [Desk.step, receipt?, hcall]
      exact h.turns hcall
  | drops id =>
    refine hsame ?_
    rw [Desk.step]
    cases hcall : w.calls.lookup id with
    | none => exact h
    | some c => exact h.drop (mem_of_lookup hcall)
  | stirs x =>
    obtain ⟨taken, spent, hstream, hshort, hbooks⟩ := h.books
    refine hsame ⟨h.plays, h.sharing, h.owes, taken, spent, ?_, hshort, hbooks⟩
    change w.written ++ _ = Frame.joined taken ++ ((x.onLink w.session.link).inbox .recv).pending
    rw [x.pending_onLink, hstream, ByteArray.append_assoc]
    rfl

/-- **…and so does a whole history.** -/
theorem Counts.run (h : w.Counts role shares given) (es : List Event) :
    (w.run es).Counts role shares (given ++ (w.receipts es).filterMap Receipt.given?) ∧
      ∀ r ∈ w.receipts es, r.Honest role shares := by
  induction es generalizing w given with
  | nil => exact ⟨(List.append_nil given).symm ▸ h, fun r hr => absurd hr List.not_mem_nil⟩
  | cons e es ih =>
    obtain ⟨hstep, hhonest⟩ := h.step e
    obtain ⟨hrun, hlater⟩ := ih hstep
    refine ⟨?_, List.forall_mem_append.mpr ⟨fun r hr => hhonest r (Option.mem_toList.mp hr), hlater⟩⟩
    have hgiven : (w.receipts (e :: es)).filterMap Receipt.given?
        = ((w.receipt? e).bind Receipt.given?).toList
          ++ ((w.step e).receipts es).filterMap Receipt.given? := by
      rw [receipts, List.filterMap_append]
      cases w.receipt? e with
      | none => rfl
      | some r => cases hr : r.given? <;> simp [hr]
    rw [hgiven, ← List.append_assoc]
    exact hrun

/-- **What a client is handed out is a message that came, resolved.**  Let any number of calls be in
flight on one client, in either mode and for either role, with all that may happen around them, and
let nothing be kept at first.  Every step of a call that receives, whichever way its delivery comes,
leaves an honest receipt:

* what the caller gets is the delivery, resolved (`Message.resolved`): an application gets it as it
  came, or with its key exchanged for the bytes that the store held under it, and nothing when there
  is no store or no such key; a simulator gets it as it came, beside it the bytes that the store
  holds if they are wanted, and nothing when they are wanted and are not there;
* with a delivery at hand, a call fails only because the store does;
* the key that an application's delivery is exchanged for is gone from the store, and every other
  entry stays, as does that key when the store fails and fails safely; a simulator's step leaves all
  of them;
* what an application gets carries no key.

The bodies taken off the inbound channel are the first of what the daemon has written, and the
deliveries that callers were given are among those that they spell, each in a frame of its own. -/
theorem hands_out_resolved {s : Session} (hlate : s.late = []) (b : Backend) (es : List Event) :
    let w := (start s b).run es
    let receipts := (start s b).receipts es
    (∀ r ∈ receipts, r.Honest s.role s.keys.isSome) ∧
      (∀ r ∈ receipts, ∀ m, r.result = some (.ok (some (.received m))) → m.payloadKey = none) ∧
      (s.role = .simulator → ∀ r ∈ receipts, r.after.get? = r.before.get?) ∧
      ∃ taken spent, w.written = Frame.joined taken ++ w.inbox.pending ∧
        Frame.bodies w.written = taken ++ Frame.bodies w.inbox.pending ∧
        (receipts.filterMap Receipt.given? ++ w.inHand ++ w.session.late ++ spent).Perm
          (deliveries s.role.delivery taken) := by
  intro w receipts
  obtain ⟨hcounts, hhonest⟩ := (Counts.start hlate b).run es
  obtain ⟨taken, spent, hstream, hshort, hbooks⟩ := hcounts.books
  refine ⟨hhonest, fun r hr m hm => (hhonest r hr).keyless hm, fun hrole r hr => ?_, taken, spent,
    hstream, ?_, hbooks⟩
  · rw [hrole] at hhonest
    exact funext (hhonest r hr).spared_simulator
  · have hrow := (Frame.bodies_joined_append w.inbox.pending taken hshort).1
    exact (congrArg Frame.bodies hstream).trans hrow

/-- An application listens; the key that comes is exchanged for the payload, and is gone. -/
theorem hands_out_resolved_exchanged :
    let s : Session :=
      { identifier := "z", role := .application, config := ⟨.push, some ⟨"store", 6379, 0⟩⟩,
        keys := some ⟨"z", 0⟩, responseWindow := .ofSeconds 1, link := {} }
    let letter (payload : Payload) : Message :=
      { Message.bare .forward .daemon .message with payload := some payload }
    let b : Backend := { entries := [("k", "hello".toUTF8), ("l", "world".toUTF8)] }
    let arrival (m : Message) : Event :=
      .stirs (.arrives .recv ((m.encode.map Frame.wrap).toOption.getD .empty))
    let turn : Event := .turns ⟨0, ⟨0⟩, 0⟩
    let es := [.begins 0 (.ofIntake (.listen false)), turn, turn, arrival (letter (.key "k")), turn,
      turn]
    s.late = [] ∧ ((start s b).receipts es).filterMap (·.result.bind Except.toOption)
        = [some (.received (letter (.inline "hello".toUTF8)))] ∧
      (∀ r ∈ (start s b).receipts es, r.Honest .application true) ∧
      ((start s b).run es).store.entries = [("l", "world".toUTF8)] ∧
      ∃ taken spent, ([letter (.key "k")] ++ spent).Perm (deliveries .receive taken) := by
  intro s letter b arrival turn es
  have hresults : ((start s b).receipts es).filterMap (·.result.bind Except.toOption)
      = [some (.received (letter (.inline "hello".toUTF8)))] := by decide +kernel
  have hgiven : ((start s b).receipts es).filterMap Receipt.given? = [letter (.key "k")] := by
    decide +kernel
  have hstore : ((start s b).run es).store.entries = [("l", "world".toUTF8)] := by decide +kernel
  have hhand : ((start s b).run es).inHand = [] := by decide +kernel
  have hkept : ((start s b).run es).session.late = [] := by decide +kernel
  obtain ⟨hhonest, -, -, taken, spent, -, -, hperm⟩ := hands_out_resolved (s := s) rfl b es
  rw [hgiven, hhand, hkept] at hperm
  exact ⟨rfl, hresults, hhonest, hstore, taken, spent, hperm⟩

end Desk

end SimRelay
