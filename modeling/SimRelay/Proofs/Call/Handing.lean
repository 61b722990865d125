import SimRelay.Proofs.Call.Bystanders
import SimRelay.Proofs.Call.Episode
import SimRelay.Proofs.Store.Dealings
import SimRelay.Proofs.Wire.Letters

/-!
# Proofs/Call/Handing — what a hand-over that has succeeded has put on the wire

A payload that is to travel goes out as it is, or under a key beneath which its bytes lie in the
store.  A hand-over that has succeeded has put this one message on the wire behind everything that
was handed over before (`Hand.sent`), whatever else went on; and if others spare the key, its bytes
still lie in the store.
-/

namespace SimRelay

/-! ## What others do to the store -/

namespace Backend

/-- What can be told of a key has not changed: whether the store fails, and the entry. -/
structure Agrees (key : String) (b b' : Backend) : Prop where
  failing : b'.failing = b.failing
  entry : b'.get? key = b.get? key

theorem Agrees.refl (key : String) (b : Backend) : b.Agrees key b := ⟨rfl, rfl⟩

theorem Agrees.trans {key : String} {b b' b'' : Backend} (h : b.Agrees key b')
    (h' : b'.Agrees key b'') : b.Agrees key b'' :=
  ⟨h'.failing.trans h.failing, h'.entry.trans h.entry⟩

end Backend

/-- What others do to the store leaves the entry of this key. -/
def Stir.Spares (key : String) : Stir → Prop
  | .shares f => ∀ b : Backend, b.Agrees key (f b)
  | _ => True

/-- …and it does so in every event. -/
def Call.Event.Spares (key : String) : Event → Prop
  | .stirs x => x.Spares key
  | .turns _ _ => True

theorem Stir.Spares.onStore {key : String} {x : Stir} (h : x.Spares key) (b : Backend) :
    b.Agrees key (x.onStore b) := by
  cases x with
  | shares f => exact h b
  | _ => exact .refl key b

/-! ## Parcels on their way -/

namespace Hand

open Session (Spoken Speaks)

variable {h : Hand} {p : Parcel} {s : Session} {b : Backend} {phase : Phase} {shares : Bool}
  {stream : ByteArray} {n : Nat} {spared : String → Prop}

/-- Bytes go out under a key where payloads travel through a store.  A key goes out as it is. -/
def Parcel.Stows (p : Parcel) (shares : Bool) (stored : Option String) : Prop :=
  stored.isSome ↔ shares ∧ ∃ bytes, p.payload = .inline bytes

/-- If the bytes were stored under one of the keys that are spared, they lie there. -/
def Parcel.Lies (p : Parcel) (spared : String → Prop) (b : Backend) (stored : Option String) :
    Prop :=
  ∀ key, stored = some key → spared key →
    ∃ bytes, p.payload = .inline bytes ∧ b.get? key = some bytes

/-- How far a parcel that travels is. -/
def Phase.At (p : Parcel) (shares : Bool) (stream : ByteArray) (n : Nat) (spared : String → Prop)
    (s : Session) (b : Backend) : Phase → Prop
  | .start => (s.link.outbox .send).Holds stream n
  | .storing _ => (s.link.outbox .send).Holds stream n ∧ shares ∧ ∃ bytes, p.payload = .inline bytes
  | .releasing _ => False
  | .saying x stored =>
      Speaks (p.message (p.payload.under stored)) stream n (s.link.outbox .send) x ∧
        p.Stows shares stored ∧ p.Lies spared b stored

/-- The parcel has gone out. -/
structure Parcel.Sent (p : Parcel) (shares : Bool) (stream : ByteArray) (n : Nat)
    (spared : String → Prop) (s : Session) (b : Backend) (stored : Option String) : Prop where
  spoken : Spoken (p.message (p.payload.under stored)) stream n (s.link.outbox .send)
  stows : p.Stows shares stored
  lies : p.Lies spared b stored

/-- A step of a hand-over: the parcel is further on, or it has gone out, or nothing came of it. -/
structure Stepped (p : Parcel) (shares : Bool) (stream : ByteArray) (n : Nat)
    (spared : String → Prop) (b : Backend)
    (r : Session × Backend × Progress Failure Phase (Option String)) : Prop where
  keys : r.1.keys.isSome = shares
  further : r.2.2.Leaves (Phase.At p shares stream n spared r.1 r.2.1)
  sent : ∀ stored, r.2.2.reply? = some stored → p.Sent shares stream n spared r.1 r.2.1 stored
  failing : r.2.1.failing = b.failing
  spares : (∀ bytes, p.payload ≠ .inline bytes) → r.2.1 = b

section Step

variable (t : Turn) (hparcel : h.parcel s = .ok p)
include hparcel

/-- A hand-over begins: bytes get a key where payloads travel by key, and else the payload goes out
as it is. -/
theorem start_stepped (htravels : p.travels = true)
    (hholds : (s.link.outbox .send).Holds stream n) :
    Stepped p s.keys.isSome stream n spared b (h.step t .start s b) := by
  have hspeaks (hstows : p.Stows s.keys.isSome none) :
      Stepped p s.keys.isSome stream n spared b (s, b, .goes (speak (p.message p.payload) none)) :=
    ⟨rfl, ⟨⟨rfl, hholds⟩, hstows, nofun⟩, nofun, rfl, fun _ => rfl⟩
  unfold step
  rw [hparcel]
  dsimp only
  split
  · exact ⟨rfl, trivial, nofun, rfl, fun _ => rfl⟩
  · rw [htravels]
    cases hpayload : p.payload with
    | key key =>
      rw [hpayload] at hspeaks
      refine hspeaks ⟨nofun, fun hstored => ?_⟩
      obtain ⟨-, bytes, hbytes⟩ := hstored
      exact nomatch hpayload.symm.trans hbytes
    | inline bytes =>
      cases hnext : s.nextKey t with
      | none =>
        have hkeys : s.keys = none := Option.map_eq_none_iff.mp hnext
        rw [hpayload] at hspeaks
        refine hspeaks ⟨nofun, fun hstored => ?_⟩
        rw [hkeys] at hstored
        exact nomatch hstored.1
      | some drawn =>
        obtain ⟨source, hsource, rfl⟩ := Option.map_eq_some_iff.mp hnext
        have hshares : s.keys.isSome = true := by rw [hsource]; rfl
        exact ⟨hshares.symm, ⟨hholds, hshares, bytes, hpayload⟩, nofun, rfl,
          fun hno => absurd hpayload (hno bytes)⟩

/-- The store is given the bytes. -/
theorem storing_stepped {key : String} (hholds : (s.link.outbox .send).Holds stream n)
    (hshares : s.keys.isSome) {bytes : ByteArray} (hpayload : p.payload = .inline bytes) :
    Stepped p s.keys.isSome stream n spared b (h.step t (.storing key) s b) := by
  have hfailing := Backend.failing_serve (.put key bytes) b
  change (b.put key bytes).1.failing = b.failing at hfailing
  unfold step
  rw [hparcel]
  dsimp only
  rw [hpayload]
  dsimp only
  cases hput : b.put key bytes with
  | mk b' result =>
    rw [hput] at hfailing
    cases result with
    | error e => exact ⟨rfl, trivial, nofun, hfailing, fun hno => absurd hpayload (hno bytes)⟩
    | ok _ =>
      refine ⟨rfl, ⟨⟨rfl, hholds⟩, ⟨fun _ => ⟨hshares, bytes, hpayload⟩, fun _ => rfl⟩, ?_⟩, nofun,
        hfailing, fun hno => absurd hpayload (hno bytes)⟩
      intro key' hkey' _
      obtain rfl := Option.some.inj hkey'
      exact ⟨bytes, hpayload, (Backend.get?_put hput key).trans (if_pos rfl)⟩

/-- The message is said. -/
theorem saying_stepped {x : Session.Saying} {stored : Option String}
    (hspeaks : Speaks (p.message (p.payload.under stored)) stream n (s.link.outbox .send) x)
    (hstows : p.Stows s.keys.isSome stored) (hlies : p.Lies spared b stored) :
    Stepped p s.keys.isSome stream n spared b (h.step t (.saying x stored) s b) := by
  obtain ⟨hleaves, hspoken⟩ := Session.say_speaks t .send hspeaks
  obtain ⟨o, hsession⟩ := s.say_spec t .send x
  unfold step
  rw [hparcel]
  dsimp only
  rw [hsession] at hleaves hspoken ⊢
  generalize (s.say t .send x).2 = progress at hleaves hspoken ⊢
  cases progress with
  | waits x' => exact ⟨rfl, ⟨hleaves, hstows, hlies⟩, nofun, rfl, fun _ => rfl⟩
  | goes x' => exact ⟨rfl, ⟨hleaves, hstows, hlies⟩, nofun, rfl, fun _ => rfl⟩
  | ends r =>
    cases r with
    | error e => exact ⟨rfl, trivial, nofun, rfl, fun _ => rfl⟩
    | ok _ =>
      refine ⟨rfl, trivial, fun stored' hstored => ?_, rfl, fun _ => rfl⟩
      obtain rfl := Option.some.inj hstored
      exact ⟨hspoken rfl, hstows, hlies⟩

/-- **A step of a hand-over.** -/
theorem step_stepped (htravels : p.travels = true) (hkeys : s.keys.isSome = shares)
    (hat : phase.At p shares stream n spared s b) :
    Stepped p shares stream n spared b (h.step t phase s b) := by
  subst hkeys
  cases phase with
  | start => exact start_stepped t hparcel htravels hat
  | storing key =>
    obtain ⟨hholds, hshares, bytes, hpayload⟩ := hat
    exact storing_stepped t hparcel hholds hshares hpayload
  | releasing key => exact hat.elim
  | saying x stored => exact saying_stepped t hparcel hat.1 hat.2.1 hat.2.2

end Step

/-- A hand-over is that of the same client, whatever else has changed. -/
theorem parcel_congr {s' : Session} (hidentifier : s'.identifier = s.identifier)
    (hrole : s'.role = s.role) (h : Hand) : h.parcel s' = h.parcel s := by
  cases h <;> simp only [parcel, Session.originator, hidentifier, hrole]

/-! ## Histories -/

/-- The hand-over of a parcel is on its way, or has ended. -/
structure Follows (h : Hand) (p : Parcel) (shares : Bool) (stream : ByteArray) (n : Nat)
    (spared : String → Prop) (b : Backend) (w : Episode) : Prop where
  parcel : h.parcel w.session = .ok p
  keys : w.session.keys.isSome = shares
  call : ∀ c, w.progress.state? = some c →
    ∃ phase, c = .hand h phase ∧ phase.At p shares stream n spared w.session w.store
  sent : ∀ reply, w.progress.reply? = some reply →
    ∃ stored, reply = h.reply stored ∧ p.Sent shares stream n spared w.session w.store stored
  failing : ∀ key, spared key → w.store.failing = b.failing
  spares : (∀ bytes, p.payload ≠ .inline bytes) → ∀ key, spared key →
    w.store.get? key = b.get? key

variable {w : Episode} {b₀ : Backend}

theorem Parcel.Lies.agrees {b' : Backend} {stored : Option String} (h : p.Lies spared b stored)
    (hb : ∀ key, spared key → b.Agrees key b') : p.Lies spared b' stored := by
  intro key hkey hspared
  obtain ⟨bytes, hpayload, hget⟩ := h key hkey hspared
  exact ⟨bytes, hpayload, (hb key hspared).entry.trans hget⟩

/-- What goes on around a hand-over leaves the parcel where it is, or moves it forward. -/
theorem Phase.At.stir (hat : phase.At p shares stream n spared s b) {x : Stir}
    (hx : ∀ key, spared key → x.Spares key) :
    phase.At p shares stream n spared { s with link := x.onLink s.link } (x.onStore b) := by
  cases phase with
  | start => exact Stir.outbox_stays (fun a _ ho => ho.act a) hat
  | storing key => exact ⟨Stir.outbox_stays (fun a _ ho => ho.act a) hat.1, hat.2⟩
  | releasing key => exact hat
  | saying y stored =>
    exact ⟨Stir.outbox_stays (P := fun o => Speaks _ stream n o y) (fun a _ ho => ho.act a) hat.1,
      hat.2.1, hat.2.2.agrees fun key hkey => (hx key hkey).onStore b⟩

/-- **Whatever happens, the parcel is followed.** -/
theorem Follows.step (hw : Follows h p shares stream n spared b₀ w) (htravels : p.travels = true)
    {e : Call.Event} (he : ∀ key, spared key → e.Spares key) :
    Follows h p shares stream n spared b₀ (w.step e) := by
  cases e with
  | stirs x =>
    have hagrees (key : String) (hkey : spared key) : w.store.Agrees key (x.onStore w.store) :=
      Stir.Spares.onStore (he key hkey) w.store
    refine ⟨(parcel_congr rfl rfl h).trans hw.parcel, hw.keys, fun c hc => ?_,
      fun reply hreply => ?_,
      fun key hkey => (hagrees key hkey).failing.trans (hw.failing key hkey),
      fun hno key hkey => (hagrees key hkey).entry.trans (hw.spares hno key hkey)⟩
    · obtain ⟨phase, rfl, hat⟩ := hw.call c hc
      exact ⟨phase, rfl, hat.stir he⟩
    · obtain ⟨stored, rfl, hsent⟩ := hw.sent reply hreply
      refine ⟨stored, rfl, Stir.outbox_stays (fun a _ ho => Spoken.act ho a) hsent.spoken,
        hsent.stows, hsent.lies.agrees hagrees⟩
  | turns now millis =>
    cases hc : w.progress.state? with
    | none =>
      rw [Episode.step_turns_of_ended hc]
      exact hw
    | some c =>
      obtain ⟨phase, rfl, hat⟩ := hw.call c hc
      have hstep : Stepped p shares stream n spared w.store _ :=
        step_stepped ⟨w.id, now, millis⟩ hw.parcel htravels hw.keys hat
      have hspares := h.spares_step ⟨w.id, now, millis⟩ phase w.session w.store
      rw [Episode.step_turns hc]
      refine ⟨(parcel_congr hspares.identifier hspares.role h).trans hw.parcel, hstep.keys,
        fun c' hc' => ?_, fun reply hreply => ?_,
        fun key hkey => hstep.failing.trans (hw.failing key hkey),
        fun hno key hkey => ?_⟩
      · obtain ⟨phase', hphase', rfl⟩ := Call.of_state?_lift hc'
        exact ⟨phase', rfl, hstep.further.of_state? hphase'⟩
      · obtain ⟨stored, hstored, rfl⟩ := Call.reply?_lift hreply
        exact ⟨stored, rfl, hstep.sent stored hstored⟩
      · exact (congrArg (Backend.get? · key) (hstep.spares hno)).trans (hw.spares hno key hkey)

/-- **A hand-over that has succeeded has put its parcel on the wire**, behind everything that had
been handed over, and nothing else.  Whenever that is, and whatever else goes on, its bytes lie in
the store under the key with which they went out, if others spare it; and where there are no bytes
to put there, the store is what it was. -/
theorem follows (hparcel : h.parcel s = .ok p) (htravels : p.travels = true)
    (htidy : (s.link.outbox .send).Tidy) {id : CallId} {es : List Call.Event}
    (hes : ∀ key, spared key → ∀ e ∈ es, e.Spares key) :
    Follows h p s.keys.isSome (s.link.outbox .send).stream (s.link.outbox .send).accepted spared b
      ((Episode.start id (.ofHand h) s b).run es) := by
  have hstart : Follows h p s.keys.isSome (s.link.outbox .send).stream
      (s.link.outbox .send).accepted spared b (Episode.start id (.ofHand h) s b) := by
    refine ⟨hparcel, rfl, fun c hc => ?_, fun _ hreply => ?_, fun _ _ => rfl, fun _ _ _ => rfl⟩
    · obtain rfl := Option.some.inj hc
      exact ⟨.start, rfl, Outbox.holds_self htidy⟩
    · exact (Option.some_ne_none _ hreply.symm).elim
  have hallowed (e : Call.Event) (he : e ∈ es) (key : String) (hkey : spared key) :
      e.Spares key := hes key hkey e he
  exact Episode.run_keeps (P := Follows h p s.keys.isSome _ _ spared b)
    (fun w e he hw => hw.step htravels he) hallowed hstart

end Hand

end SimRelay
