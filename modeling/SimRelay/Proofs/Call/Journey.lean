import SimRelay.Proofs.Call.Serving

/-!
# Proofs/Call/Journey — a payload arrives as it was sent

A payload goes from one application to another in four legs: it is sent, fetched by the simulator,
posted back and received.  In between the daemon relays each message with another manifest.  Each
leg is a history of its own: a hand-over that has succeeded (`Hand.Done`), or a call to which the
relayed message comes in time (`Intake.Reached`).

What travels is a letter throughout.  Where payloads are stored it carries only a key; the entry of
that key is made in the first leg, looked at in the second, and taken out in the last.
-/

namespace SimRelay

/-! ## Letters on the wire -/

namespace Message

variable {a b : String} {p body relayed : ByteArray} {stored : Option String}
  {operation : Operation}

/-- What can be seen of a letter on the wire: its content, and, if its bytes are stored, that its
length is a matter of names and keys. -/
structure Travels (a b : String) (p : ByteArray) (stored : Option String) (body : ByteArray) :
    Prop where
  bears : Bears a b p stored body
  size : ∀ key, stored = some key →
    (Frame.wrap body).size = 79 + a.utf8ByteSize + b.utf8ByteSize + key.utf8ByteSize

theorem Bears.travels (h : Bears a b p stored body) : Travels a b p stored body where
  bears := h
  size := by
    rintro key rfl
    exact h.size

end Message

open Message (letter Bears Relays Travels)

/-! ## Handing over -/

/-- A hand-over has succeeded with this reply, after a history in which others have left the entry
of its key. -/
structure Hand.Done (h : Hand) (s : Session) (store : Backend) (stored : Option String)
    (reply : Reply) (w : Episode) : Prop where
  tidy : (s.link.outbox .send).Tidy
  history : ∃ id es, w = (Episode.start id (.ofHand h) s store).run es ∧
    ∀ key, stored = some key → ∀ e ∈ es, e.Spares key
  reply : w.progress.reply? = some reply

/-- The last that the session has put on the wire is this frame. -/
def Episode.Wrote (s : Session) (w : Episode) (body : ByteArray) : Prop :=
  (w.session.link.outbox .send).wire = (s.link.outbox .send).stream ++ Frame.wrap body

namespace Hand

variable {s : Session} {store : Backend} {w : Episode} {stored : Option String} {a b : String}
  {p : ByteArray} {h : Hand} {parcel : Parcel} {reply : Reply}

/-- What has become of the parcel. -/
theorem Done.sent (hdone : h.Done s store stored reply w) (hparcel : h.parcel s = .ok parcel)
    (htravels : parcel.travels = true) :
    ∃ stored', reply = h.reply stored' ∧ parcel.Stows s.keys.isSome stored' ∧
      parcel.Lies (stored = some ·) w.store stored' ∧
      (∃ body, (parcel.message (parcel.payload.under stored')).encode = .ok body ∧
        w.Wrote s body) ∧
      (∀ key, stored = some key → w.store.failing = store.failing) ∧
      ((∀ bytes, parcel.payload ≠ .inline bytes) → ∀ key, stored = some key →
        w.store.get? key = store.get? key) := by
  obtain ⟨id, es, rfl, hspares⟩ := hdone.history
  have hfollows : Follows h parcel s.keys.isSome _ _ (stored = some ·) store
      ((Episode.start id (.ofHand h) s store).run es) :=
    follows hparcel htravels hdone.tidy hspares
  obtain ⟨stored', hreply, hsent⟩ := hfollows.sent reply hdone.reply
  obtain ⟨body, hbody, -, hwire⟩ := hsent.spoken.wire
  exact ⟨stored', hreply, hsent.stows, hsent.lies, ⟨body, hbody, hwire⟩, hfollows.failing,
    hfollows.spares⟩

/-- **A payload that was sent** is on the wire as a letter, and in the store if payloads are
stored. -/
theorem Done.send (hdone : (Hand.send b p).Done s store stored (.stored stored) w) :
    stored.isSome = s.keys.isSome ∧
      (∃ body, w.Wrote s body ∧ Bears s.identifier b p stored body) ∧
      ∀ key, stored = some key → w.store.failing = store.failing ∧
        w.store.get? key = some p := by
  obtain ⟨stored', hreply, hstows, hlies, ⟨body, hbody, hwrote⟩, hfailing, -⟩ :=
    hdone.sent rfl rfl
  obtain rfl := Reply.stored.inj hreply
  refine ⟨?_, ⟨body, hwrote, _, rfl, hbody⟩, fun key hkey => ⟨hfailing key hkey, ?_⟩⟩
  · rw [Bool.eq_iff_iff]
    exact hstows.trans ⟨And.left, fun hshares => ⟨hshares, p, rfl⟩⟩
  · obtain ⟨bytes, hbytes, hget⟩ := hlies key hkey hkey
    obtain rfl := Payload.inline.inj hbytes
    exact hget

/-- **A fetched letter that was posted** is on the wire again, with all that it carried, and its
entry is what it was. -/
theorem Done.post {f : Fetched} (hdone : (Hand.postFetched f true).Done s store stored reply w)
    {manifest : Manifest} (hletter : f.message = letter manifest a b p stored)
    (hkeys : s.keys.isSome = stored.isSome) :
    (∃ body, w.Wrote s body ∧ Bears a b p stored body) ∧
      ∀ key, stored = some key → store.Agrees key w.store := by
  have hparcel : (Hand.postFetched f true).parcel s = .ok {
      message := fun q => .post s.originator a b q (.ofNat p.size) true
      payload := (Payload.inline p).under stored
      travels := true } := by
    obtain ⟨message, looked⟩ := f
    obtain rfl : message = _ := hletter
    rfl
  obtain ⟨stored', -, hstows, -, ⟨body, hbody, hwrote⟩, hfailing, hspares⟩ :=
    hdone.sent hparcel rfl
  -- a key is not stored again, and bytes are not stored where there is no store
  have hnone : stored' = none := by
    cases hstored' : stored' with
    | none => rfl
    | some key' =>
      rw [hstored'] at hstows
      obtain ⟨hshares, bytes, hbytes⟩ := hstows.mp rfl
      cases hstored : stored with
      | none =>
        rw [hkeys, hstored] at hshares
        exact nomatch hshares
      | some key =>
        rw [hstored] at hbytes
        exact nomatch hbytes
  rw [hnone] at hbody
  refine ⟨⟨body, hwrote, _, rfl, hbody⟩, fun key hkey => ⟨hfailing key hkey, ?_⟩⟩
  refine hspares (fun bytes hbytes => ?_) key hkey
  rw [hkey] at hbytes
  exact nomatch hbytes

end Hand

/-! ## Taking in -/

/-- A letter on its way. -/
def Shipment.letter (manifest : Manifest) (a b : String) (p : ByteArray) (stored : Option String)
    (body : ByteArray) : Shipment :=
  ⟨p, stored, .letter manifest a b p stored, body⟩

namespace Intake

variable {i : Intake} {s : Session} {store : Backend} {stored : Option String} {body p : ByteArray}
  {w : Episode} {a b : String}

/-- A call that has to ask asks for what goes from the one to the other. -/
def Seeks (i : Intake) (a b : String) (s : Session) : Prop :=
  s.config.mode = .pull →
    ((i.wanted s).request s.originator).Sayable ∧
      ∀ m : Message, m.source = some a → m.destination = some b → (i.wanted s).accepts m

/-- The frame of this body has come whole to a call in flight.  Nothing else was pending when the
call began, and nothing else has come in.  If the call has written a request, the clock could
represent the deadline. -/
structure Reached (i : Intake) (s : Session) (store : Backend) (stored : Option String)
    (body : ByteArray) (w : Episode) : Prop where
  works : (s.link.outbox .recv).Works
  waits : Waits .empty s
  keys : s.keys.isSome = stored.isSome
  history : ∃ id before after, s.Ready .recv id ∧
    w = (Episode.start id (.ofIntake i) s store).run (before ++ after) ∧
    (∀ e ∈ before ++ after, Allows stored e) ∧
    (Episode.start id (.ofIntake i) s store).TimelyAll (before ++ after) ∧
    Call.arrivals .recv before = Frame.wrap body ∧
    ((Episode.start id (.ofIntake i) s store).run before).progress.state?.isSome ∧
    ∀ e ∈ after, e.bytes .recv = .empty

/-- What a call gives: if it has ended it has given this, and if not it ends with this in five turns
in which its writer keeps up. -/
structure Gives (w : Episode) (out : Delivery) : Prop where
  only : ∀ result, w.progress.result? = some result → result = .ok (.delivery (some out))
  soon : ∀ turns : List (Instant × Nat), 5 ≤ turns.length → w.TimelyAll (Call.rounds turns) →
    (w.run (Call.rounds turns)).progress.result? = some (.ok (.delivery (some out)))

/-- **A call that is reached by a letter gives what the letter stands for.** -/
theorem Reached.gives (h : i.Reached s store stored body w) {manifest : Manifest}
    (hcode : manifest.resultCode = .message)
    (hoperation : manifest.operation = s.role.delivery ∨ manifest.operation = .forward)
    (hbody : (letter manifest a b p stored).encode = .ok body)
    (hshort : body.size ≤ Frame.maxLength) (hseeks : i.Seeks a b s)
    (hlies : (Shipment.letter manifest a b p stored body).Lies store) :
    Gives w (i.brought s.role (Shipment.letter manifest a b p stored body)) ∧
      (s.role = .simulator → (Shipment.letter manifest a b p stored body).Lies w.store) := by
  obtain ⟨d, hd⟩ : ∃ d, Shipment.letter manifest a b p stored body = d := ⟨_, rfl⟩
  have hexpects : i.Expects s d := by
    subst hd
    refine ⟨hshort, Message.decode_of_encode hbody (Message.valid_letter hcode a b p stored), rfl,
      h.keys, ?_, fun hmode => (hseeks hmode).2 _ rfl rfl, fun hmode => (hseeks hmode).1⟩
    change ((decide (manifest.operation = s.role.delivery) ||
      decide (manifest.operation = .forward)) && decide (manifest.resultCode = .message)) = true
    simp [hcode, hoperation]
  have hstored : d.stored = stored := hd ▸ rfl
  obtain ⟨id, before, after, hready, rfl, hallows, htimely, hcame, hflight, hquiet⟩ := h.history
  rw [show body = d.body from hd ▸ rfl] at hcame
  rw [← hstored] at hallows
  rw [hd] at hlies ⊢
  obtain ⟨hbefore, hafter⟩ := List.forall_mem_append.mp hallows
  obtain ⟨htimely, htimely'⟩ := Episode.timelyAll_append.mp htimely
  have hstart : Follows i s d .empty (Episode.start id (.ofIntake i) s store) := by
    refine ⟨⟨s.link, s.late, rfl⟩, hready, h.works, fun _ => hlies, fun c hc => ?_⟩
    obtain rfl := Option.some.inj hc
    exact ⟨.start, rfl, h.waits⟩
  have hwhole := hstart.run hexpects .empty
    (by rw [ByteArray.append_empty, ByteArray.empty_append, hcame]) hbefore htimely
  rw [ByteArray.empty_append, hcame] at hwhole
  obtain ⟨c, hc⟩ := Option.isSome_iff_exists.mp hflight
  have hserved : Served i s d ((Episode.start id (.ofIntake i) s store).run (before ++ after)) := by
    rw [Episode.run_append]
    refine Served.run ⟨hwhole, fun result hresult => ?_⟩ hexpects
      (fun e he => ⟨hafter e he, hquiet e he⟩) htimely'
    exact nomatch (Progress.result?_of_state? hc).symm.trans hresult
  refine ⟨⟨hserved.brought, fun turns hturns htimely => ?_⟩,
    fun hrole => hserved.follows.lies (.inr hrole)⟩
  exact hserved.ends hexpects htimely fun phase _ => Nat.le_trans (phase.distance_le _) hturns

end Intake

/-! ## The whole way -/

section Journey

variable {sender : Session} {b : String} {p : ByteArray} {store : Backend} {stored : Option String}
  {w : Episode}

/-- **A payload arrives as it was sent.**  If an application's sending succeeds, its message is on
the wire and carries the payload, or a key if payloads are stored.  Relayed with another manifest
to a simulator's fetch or listen that is in flight, it brings a fetched payload from that source, to
that destination and of that length, with its bytes unless they are stored and were not wanted.
That fetched payload, posted back with success, is on the wire in the same way; and relayed to the
destination's call it brings a message from that source, to that destination, of that length, and
with the payload itself.

Each leg may begin in any session of its client, and between the legs others may do to the store
what leaves the entry of the key.  Wherever a key is carried, lengths are a matter of names and keys
alone. -/
theorem Payload.arrives_intact
    (hsent : (Hand.send b p).Done sender store stored (.stored stored) w)
    (hsound : store.failing = []) :
    let a := sender.identifier
    stored.isSome = sender.keys.isSome ∧
    ∃ body, w.Wrote sender body ∧ Travels a b p stored body ∧
    ∀ operation relayed, operation = .fetch ∨ operation = .forward →
      Relays operation body relayed → relayed.size ≤ Frame.maxLength →
      Travels a b p stored relayed ∧
    ∀ (simulator : Session) (store₂ : Backend) (fetch : Intake) (w₂ : Episode),
      simulator.role = .simulator → (∀ key, stored = some key → w.store.Agrees key store₂) →
      fetch.Seeks a b simulator → fetch.Reached simulator store₂ stored relayed w₂ →
    ∃ f : Fetched, Intake.Gives w₂ (.fetched f) ∧
      f.source = some a ∧ f.destination = some b ∧ f.payloadSize = .ofNat p.size ∧
      (stored = none ∨ fetch.wantsPayload → f.payloadBytes = some p) ∧
    ∀ (poster : Session) (store₃ : Backend) (w₃ : Episode),
      poster.keys.isSome = stored.isSome →
      (∀ key, stored = some key → w₂.store.Agrees key store₃) →
      (Hand.postFetched f true).Done poster store₃ stored .done w₃ →
    ∃ body, w₃.Wrote poster body ∧ Travels a b p stored body ∧
    ∀ operation relayed, operation = .receive ∨ operation = .forward →
      Relays operation body relayed → relayed.size ≤ Frame.maxLength →
      Travels a b p stored relayed ∧
    ∀ (receiver : Session) (store₄ : Backend) (receive : Intake) (w₄ : Episode),
      receiver.role = .application → (∀ key, stored = some key → w₃.store.Agrees key store₄) →
      receive.Seeks a b receiver → receive.Reached receiver store₄ stored relayed w₄ →
    ∃ m : Message, Intake.Gives w₄ (.received m) ∧
      m.source = some a ∧ m.destination = some b ∧ m.payloadSize = .ofNat p.size ∧
      m.payload = some (.inline p) := by
  intro a
  obtain ⟨hstored, ⟨body, hwrote, hbears⟩, hput⟩ := hsent.send
  refine ⟨hstored, body, hwrote, hbears.travels,
    fun operation relayed hoperation hrelays hshort => ?_⟩
  obtain ⟨originator, hrelayed⟩ := hbears.relay hrelays
  refine ⟨Bears.travels ⟨_, rfl, hrelayed⟩,
    fun simulator store₂ fetch w₂ hrole hagrees hseeks hreached => ?_⟩
  have hlies : (Shipment.letter ⟨operation, originator, .message⟩ a b p stored relayed).Lies
      store₂ := by
    intro key hkey
    obtain ⟨hfailing, hget⟩ := hput key hkey
    exact ⟨(hagrees key hkey).failing.trans (hfailing.trans hsound),
      (hagrees key hkey).entry.trans hget⟩
  obtain ⟨hgives, hlies₂⟩ := hreached.gives rfl (hrole ▸ hoperation) hrelayed hshort hseeks hlies
  rw [hrole] at hgives
  refine ⟨_, hgives, rfl, rfl, rfl, fun hwants => ?_,
    fun poster store₃ w₃ hkeys hagrees₃ hposted => ?_⟩
  · cases stored with
    | none =>
      simp [Fetched.payloadBytes, Message.payloadBytes, Shipment.letter, letter, Payload.under]
    | some key =>
      have hwants : fetch.wantsPayload = true := hwants.resolve_left (Option.some_ne_none key)
      simp [Fetched.payloadBytes, Shipment.letter, hwants]
  · obtain ⟨⟨body₃, hwrote₃, hbears₃⟩, hspared⟩ := hposted.post rfl hkeys
    refine ⟨body₃, hwrote₃, hbears₃.travels,
      fun operation relayed hoperation hrelays hshort => ?_⟩
    obtain ⟨originator, hrelayed⟩ := hbears₃.relay hrelays
    refine ⟨Bears.travels ⟨_, rfl, hrelayed⟩,
      fun receiver store₄ receive w₄ hrole₄ hagrees₄ hseeks₄ hreached₄ => ?_⟩
    have hlies₄ : (Shipment.letter ⟨operation, originator, .message⟩ a b p stored relayed).Lies
        store₄ :=
      Shipment.Lies.agrees (hlies₂ hrole) fun key hkey =>
        ((hagrees₃ key hkey).trans (hspared key hkey)).trans (hagrees₄ key hkey)
    obtain ⟨hgives₄, -⟩ :=
      hreached₄.gives rfl (hrole₄ ▸ hoperation) hrelayed hshort hseeks₄ hlies₄
    rw [hrole₄] at hgives₄
    exact ⟨_, hgives₄, rfl, rfl, rfl, rfl⟩

/-- Two bytes that are stored go the whole way: the simulator pulls, and the receiver is pushed. -/
theorem Payload.arrives_intact_stored :
    let client (name : String) (role : Role) (mode : SystemMode) : Session :=
      { identifier := name, role, config := ⟨mode, some ⟨"store", 6379, 0⟩⟩,
        keys := some ⟨name, 0⟩, responseWindow := .ofSeconds 1, link := {} }
    let frame (operation : Operation) : ByteArray :=
      (letter ⟨operation, .daemon, .message⟩ "a" "b" ⟨#[7, 8]⟩ (some "0-a-1")).extended {}
    let handing : List Call.Event := [.turns ⟨0⟩ 0, .turns ⟨0⟩ 0, .turns ⟨0⟩ 0, .turns ⟨0⟩ 0,
      .stirs (.writes .send .flushes), .turns ⟨0⟩ 0]
    let asking : List Call.Event := [.turns ⟨0⟩ 0, .turns ⟨0⟩ 0, .turns ⟨0⟩ 0, .turns ⟨0⟩ 0,
      .stirs (.writes .recv .flushes), .turns ⟨0⟩ 0,
      .stirs (.arrives .recv (Frame.wrap (frame .fetch)))]
    let taking : List Call.Event := [.turns ⟨0⟩ 0, .turns ⟨0⟩ 0]
    let w := (Episode.start 0 (.ofHand (.send "b" ⟨#[7, 8]⟩))
      (client "a" .application .push) {}).run handing
    let w₂ := (Episode.start 0 (.ofIntake (.fetch none none true))
      (client "s" .simulator .pull) w.store).run (asking ++ taking)
    let f : Fetched :=
      ⟨letter ⟨.fetch, .daemon, .message⟩ "a" "b" ⟨#[7, 8]⟩ (some "0-a-1"), some ⟨#[7, 8]⟩⟩
    let w₃ := (Episode.start 1 (.ofHand (.postFetched f true))
      (client "s" .simulator .pull) w₂.store).run handing
    let w₄ := (Episode.start 0 (.ofIntake (.receive none none))
      (client "b" .application .push) w₃.store).run
        ([.turns ⟨0⟩ 0, .stirs (.arrives .recv (Frame.wrap (frame .forward)))] ++ taking)
    w₂.progress.reply? = some (.delivery (some (.fetched f))) ∧
      ∃ m, Intake.Gives w₄ (.received m) ∧
        m.source = some "a" ∧ m.payload = some (.inline ⟨#[7, 8]⟩) := by
  intro client frame handing asking taking w w₂ f w₃ w₄
  have hdone {h : Hand} {s : Session} {b : Backend} {id : CallId} {reply : Reply}
      (hgoing : (s.link.outbox .send).stopped = none)
      (hreply : ((Episode.start id (.ofHand h) s b).run handing).progress.reply? = some reply) :
      h.Done s b (some "0-a-1") reply ((Episode.start id (.ofHand h) s b).run handing) :=
    ⟨fun hstopped => absurd hgoing hstopped,
      ⟨id, handing, rfl, by simp [handing, Call.Event.Spares, Stir.Spares]⟩, hreply⟩
  -- what goes on around the two calls that take the payload in
  have hturn : Intake.Allows (some "0-a-1") (.turns ⟨0⟩ 0) := .turns ⟨0⟩ 0
  have hwrites : Intake.Allows (some "0-a-1") (.stirs (.writes .recv .flushes)) :=
    ⟨.inr rfl, fun _ _ => trivial⟩
  have harrives {bytes : ByteArray} :
      Intake.Allows (some "0-a-1") (.stirs (.arrives .recv bytes)) :=
    ⟨trivial, fun _ _ => trivial⟩
  have hpushes : (client "b" .application .push).config.mode ≠ .pull := by decide +kernel
  have hquiet : ∀ e ∈ taking, e.bytes .recv = .empty := by
    simp [taking, Call.Event.bytes]
  -- the first leg, and the second
  have hsent : (Hand.send "b" ⟨#[7, 8]⟩).Done (client "a" .application .push) {} (some "0-a-1")
      (.stored (some "0-a-1")) w := hdone rfl (by decide +kernel)
  obtain ⟨-, body, -, htravels, hfetch⟩ := arrives_intact hsent rfl
  obtain ⟨-, hfetch⟩ := hfetch .fetch (frame .fetch) (.inl rfl)
    (htravels.bears.relays .fetch .daemon) (by decide +kernel)
  have hfetches : (Intake.fetch none none true).Seeks "a" "b" (client "s" .simulator .pull) :=
    fun _ => ⟨⟨_, rfl, by decide +kernel⟩, fun _ _ _ => rfl⟩
  have hreached : (Intake.fetch none none true).Reached (client "s" .simulator .pull) w.store
      (some "0-a-1") (frame .fetch) w₂ := by
    refine ⟨⟨rfl, rfl⟩, ⟨rfl, rfl⟩, rfl, 0, asking, taking,
      ⟨rfl, rfl, rfl, Inbox.alone_default 0⟩, rfl, ?_, by decide +kernel, by decide +kernel,
      by decide +kernel, hquiet⟩
    simp only [asking, taking, List.cons_append, List.nil_append, List.forall_mem_cons]
    exact ⟨hturn, hturn, hturn, hturn, hwrites, hturn, harrives, hturn, hturn,
      List.forall_mem_nil _⟩
  obtain ⟨f', hgives, -, -, -, -, hpost⟩ := hfetch (client "s" .simulator .pull) w.store
    (.fetch none none true) w₂ rfl (fun key _ => .refl key _) hfetches hreached
  have hfetched : w₂.progress.reply? = some (.delivery (some (.fetched f))) := by decide +kernel
  obtain rfl : f' = f := by
    have hresult := hgives.only _ (Progress.result?_of_reply? hfetched)
    simpa using hresult.symm
  -- the third, and the last
  have hposted : (Hand.postFetched f true).Done (client "s" .simulator .pull) w₂.store
      (some "0-a-1") .done w₃ := hdone rfl (by decide +kernel)
  obtain ⟨body₃, -, htravels₃, hreceive⟩ := hpost (client "s" .simulator .pull) w₂.store w₃ rfl
    (fun key _ => .refl key _) hposted
  obtain ⟨-, hreceive⟩ := hreceive .forward (frame .forward) (.inr rfl)
    (htravels₃.bears.relays .forward .daemon) (by decide +kernel)
  have hreached₄ : (Intake.receive none none).Reached (client "b" .application .push) w₃.store
      (some "0-a-1") (frame .forward) w₄ := by
    refine ⟨⟨rfl, rfl⟩, ⟨rfl, rfl⟩, rfl, 0, _, taking,
      ⟨rfl, rfl, rfl, Inbox.alone_default 0⟩, rfl, ?_, by decide +kernel, by decide +kernel,
      by decide +kernel, hquiet⟩
    simp only [taking, List.cons_append, List.nil_append, List.forall_mem_cons]
    exact ⟨hturn, harrives, hturn, hturn, List.forall_mem_nil _⟩
  obtain ⟨m, hreceived, hsource, -, -, hpayload⟩ := hreceive (client "b" .application .push)
    w₃.store (.receive none none) w₄ rfl (fun key _ => .refl key _)
    (fun hmode => absurd hmode hpushes) hreached₄
  exact ⟨hfetched, m, hreceived, hsource, hpayload⟩

end Journey

end SimRelay
