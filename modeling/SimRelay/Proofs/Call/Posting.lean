import SimRelay.Proofs.Call.Handing
import SimRelay.Proofs.Store.Keys

/-!
# Proofs/Call/Posting — how a fetched payload goes back

A hand-over goes to the store once at most.  Before that visit the store is what others have made of
it, and afterwards what they make of what the visit has left (`Call.Once`).  What the visit is for
can be told from the payload: bytes that are to travel are stored under a fresh key where payloads
travel by key, and there the key of a payload that does not travel is released (`Parcel.Deals`).

So the account of a hand-over (`Hand.Account`) has two parts, the store and the outbox, and each
step adds to one of them at most: first comes the visit, and then the message is said.  Where the
writer is at work nothing but the store can stop it, and a fetched payload that has a route goes
back in one message (`Fetched.goes_back`).
-/

namespace SimRelay

/-! ## What others do in the meantime -/

namespace Call

variable {es : List Event} {b b' : Backend} {l l' : Link} {ch : Channel}
  {P Q : Backend → Backend → Prop}

/-- What becomes of a link in an event, the call apart. -/
def Event.onLink (l : Link) : Event → Link
  | .stirs x => x.onLink l
  | .turns _ _ => l

/-- …and of the store. -/
def Event.onStore (b : Backend) : Event → Backend
  | .stirs x => x.onStore b
  | .turns _ _ => b

/-- The call has handed nothing over on this channel: its outbox is what others have made of it. -/
def Silent (es : List Event) (l l' : Link) (ch : Channel) : Prop :=
  l'.outbox ch = (es.foldl Event.onLink l).outbox ch

/-- The store was changed so at one point of the history, and else by others only. -/
def Once (es : List Event) (P : Backend → Backend → Prop) (b b' : Backend) : Prop :=
  ∃ earlier later after, es = earlier ++ later ∧ P (earlier.foldl Event.onStore b) after ∧
    b' = later.foldl Event.onStore after

theorem Once.mono (h : Once es P b b') (himp : ∀ before after, P before after → Q before after) :
    Once es Q b b' := by
  obtain ⟨earlier, later, after, hes, hafter, hb'⟩ := h
  exact ⟨earlier, later, after, hes, himp _ _ hafter, hb'⟩

theorem Once.exists (h : Once es P b b') : ∃ before after, P before after := by
  obtain ⟨earlier, later, after, -, hafter, -⟩ := h
  exact ⟨_, after, hafter⟩

/-- It is changed in this event. -/
theorem Once.last {now : Instant} {millis : Nat} (h : P (es.foldl Event.onStore b) b') :
    Once (es ++ [.turns now millis]) P b b' := ⟨es, [.turns now millis], b', rfl, h, rfl⟩

/-- It was changed before this event. -/
theorem Once.step (h : Once es P b b') (e : Event) : Once (es ++ [e]) P b (e.onStore b') := by
  obtain ⟨earlier, later, after, rfl, hafter, rfl⟩ := h
  refine ⟨earlier, later ++ [e], after, List.append_assoc .., hafter, ?_⟩
  rw [List.foldl_append]
  rfl

theorem foldl_onStore_turns (now : Instant) (millis : Nat) :
    (es ++ [Event.turns now millis]).foldl Event.onStore b = es.foldl Event.onStore b := by
  rw [List.foldl_append]
  rfl

/-- The outbox of a channel depends on that outbox only. -/
theorem outbox_onLink_congr (x : Stir) (h : l.outbox ch = l'.outbox ch) :
    (x.onLink l).outbox ch = (x.onLink l').outbox ch := by
  cases x with
  | arrives c bytes => simpa only [Stir.onLink, Link.outbox_setInbox] using h
  | ends c => simpa only [Stir.onLink, Link.outbox_setInbox] using h
  | breaks c text => simpa only [Stir.onLink, Link.outbox_setInbox] using h
  | fills c n => simpa only [Stir.onLink, Link.outbox_setInbox] using h
  | writes c a =>
    simp only [Stir.onLink, Link.outbox_setOutbox]
    split
    · next hc => rw [hc, h]
    · exact h
  | shares f => exact h

theorem Silent.passes (h : Silent es l l' ch) (e : Event) :
    Silent (es ++ [e]) l (e.onLink l') ch := by
  rw [Silent, List.foldl_append]
  cases e with
  | stirs x => exact outbox_onLink_congr x h
  | turns now millis => exact h

theorem Silent.turns {l'' : Link} (h : Silent es l l' ch) (houtbox : l''.outbox ch = l'.outbox ch)
    (now : Instant) (millis : Nat) : Silent (es ++ [.turns now millis]) l l'' ch := by
  rw [Silent, List.foldl_append]
  exact houtbox.trans h

/-- **What others make of an outbox** whose writer is at work is told by its stream. -/
theorem Silent.holds (h : Silent es l l' ch) (htidy : (l.outbox ch).Tidy) :
    (l'.outbox ch).Holds (l.outbox ch).stream (l.outbox ch).accepted := by
  have hkeeps : ∀ (es : List Event) (l : Link) {stream : ByteArray} {n : Nat},
      (l.outbox ch).Holds stream n → ((es.foldl Event.onLink l).outbox ch).Holds stream n := by
    intro es
    induction es with
    | nil => exact fun l _ _ h => h
    | cons e es ih =>
      intro l stream n h
      refine ih (e.onLink l) ?_
      cases e with
      | stirs x => exact Stir.outbox_stays (fun a _ ho => ho.act a) h
      | turns now millis => exact h
  rw [h]
  exact hkeeps es l (Outbox.holds_self htidy)

/-- The step of a call is taken at one of these times. -/
def Event.Timed (clock : Nat → Prop) : Event → Prop
  | .stirs _ => True
  | .turns _ millis => clock millis

/-- Turns of a call, before each of which all is written that it has handed over to be sent. -/
def sends (turns : List (Instant × Nat)) : List Event :=
  turns.flatMap fun turn => [.stirs (.writes .send .flushes), .turns turn.1 turn.2]

end Call

/-- **What every event keeps, of the history so far**, holds of the whole history. -/
theorem Episode.run_follows {P : List Call.Event → Episode → Prop} {allowed : Call.Event → Prop}
    (hstep : ∀ es e w, allowed e → P es w → P (es ++ [e]) (w.step e)) {es before : List Call.Event}
    {w : Episode} (hes : ∀ e ∈ es, allowed e) (h : P before w) : P (before ++ es) (w.run es) := by
  induction es generalizing before w with
  | nil => exact (List.append_nil before).symm ▸ h
  | cons e es ih =>
    have hrest := ih (fun e' he' => hes e' (List.mem_cons_of_mem e he'))
      (hstep before e w (hes e List.mem_cons_self) h)
    rwa [List.append_assoc] at hrest

/-- A session is open, and the writer of what it sends is at work. -/
structure Session.Able (s : Session) : Prop where
  active : s.closed = false
  unshut : s.link.closing = false
  works : (s.link.outbox .send).Works

theorem Session.Able.onLink {s : Session} {x : Stir} (h : s.Able) (hx : x.Intact .send) :
    Session.Able { s with link := x.onLink s.link } :=
  ⟨h.active, (Stir.closing_onLink s.link x).trans h.unshut, Stir.works_onLink hx h.works⟩

/-! ## Parcels and the store -/

namespace Hand

open Call (Silent Once)
open Session (Spoken Speaks)

/-- Bytes that travel are stored, under a key from this source. -/
structure Parcel.Draws (p : Parcel) (keys : Option KeySource) (source : KeySource)
    (bytes : ByteArray) : Prop where
  keys : keys = some source
  payload : p.payload = .inline bytes
  travels : p.travels = true

/-- The key of a payload that does not travel is released. -/
structure Parcel.Frees (p : Parcel) (keys : Option KeySource) (key : String) : Prop where
  shares : keys.isSome = true
  payload : p.payload = .key key
  travels : p.travels = false

/-- What a visit at this time makes of the store, and the key under which bytes were stored. -/
inductive Parcel.Deals (p : Parcel) (keys : Option KeySource) (millis : Nat) (before : Backend) :
    Option String → Backend → Prop
  | stores {source : KeySource} {bytes : ByteArray} {after : Backend}
      (draws : p.Draws keys source bytes)
      (put : before.put (source.next millis).1 bytes = (after, .ok ())) :
      Deals p keys millis before (some (source.next millis).1) after
  | releases {key : String} (frees : p.Frees keys key) :
      Deals p keys millis before none (before.checkOut key).1
  | spares (draws : ∀ source bytes, ¬ p.Draws keys source bytes)
      (frees : ∀ key, ¬ p.Frees keys key) : Deals p keys millis before none before

/-- The store was visited at one of these times, and the bytes that were stored, if any were, are
under this key. -/
def Parcel.Visited (p : Parcel) (clock : Nat → Prop) (keys : Option KeySource)
    (es : List Call.Event) (stored : Option String) (b b' : Backend) : Prop :=
  ∃ millis, clock millis ∧
    Once es (fun before after => p.Deals keys millis before stored after) b b'

/-- The store could not keep the bytes, and nothing was said. -/
def Parcel.Unstored (p : Parcel) (clock : Nat → Prop) (keys : Option KeySource)
    (es : List Call.Event) (fault : StoreError) (b b' : Backend) : Prop :=
  ∃ millis source bytes, clock millis ∧ p.Draws keys source bytes ∧
    Once es (fun before after =>
      before.put (source.next millis).1 bytes = (after, .error fault)) b b'

/-- How far a hand-over is: on its way to the store, or back from it with the message on its way. -/
def Phase.Along (p : Parcel) (clock : Nat → Prop) (s : Session) (b : Backend)
    (es : List Call.Event) (s' : Session) (b' : Backend) : Phase → Prop
  | .start => Silent es s.link s'.link .send ∧ b' = es.foldl Call.Event.onStore b ∧
      s'.keys = s.keys
  | .storing key => Silent es s.link s'.link .send ∧ b' = es.foldl Call.Event.onStore b ∧
      ∃ millis source bytes, clock millis ∧ p.Draws s.keys source bytes ∧
        key = (source.next millis).1
  | .releasing key => Silent es s.link s'.link .send ∧ b' = es.foldl Call.Event.onStore b ∧
      p.Frees s.keys key
  | .saying x stored => p.Visited clock s.keys es stored b b' ∧
      Speaks (p.message (p.payload.under stored)) (s.link.outbox .send).stream
        (s.link.outbox .send).accepted (s'.link.outbox .send) x

/-- …or what came of it: the message has gone out, or the store has failed. -/
def Account (p : Parcel) (clock : Nat → Prop) (s : Session) (b : Backend) (es : List Call.Event) :
    Session × Backend × Progress Failure Phase (Option String) → Prop
  | (s', b', .waits phase) => phase.Along p clock s b es s' b'
  | (s', b', .goes phase) => phase.Along p clock s b es s' b'
  | (s', b', .ends (.ok stored)) => p.Visited clock s.keys es stored b b' ∧
      Spoken (p.message (p.payload.under stored)) (s.link.outbox .send).stream
        (s.link.outbox .send).accepted (s'.link.outbox .send)
  | (s', b', .ends (.error e)) => ∃ fault, e = .error (.store fault) ∧
      Silent es s.link s'.link .send ∧ p.Unstored clock s.keys es fault b b'

/-- Whatever is to be said is fit to be said, if the store is visited at one of these times. -/
def Parcel.Sayable (p : Parcel) (clock : Nat → Prop) (keys : Option KeySource) : Prop :=
  ∀ millis before stored after, clock millis → p.Deals keys millis before stored after →
    (p.message (p.payload.under stored)).Sayable

variable {h : Hand} {p : Parcel} {clock : Nat → Prop} {s s' : Session} {b b' : Backend}
  {es : List Call.Event} {phase : Phase} {stored : Option String}

theorem Parcel.Visited.sayable (h : p.Visited clock s.keys es stored b b')
    (hsayable : p.Sayable clock s.keys) : (p.message (p.payload.under stored)).Sayable := by
  obtain ⟨millis, hclock, honce⟩ := h
  obtain ⟨before, after, hdeals⟩ := honce.exists
  exact hsayable millis before stored after hclock hdeals

/-! ## Steps -/

/-- A step of a hand-over draws a key, or it says its message, and else it leaves the session as it
is. -/
theorem step_session (t : Turn) (h : Hand) (phase : Phase) (s : Session) (b : Backend) :
    (∃ keys, (h.step t phase s b).1 = { s with keys }) ∨
      ∃ x stored, phase = .saying x stored ∧ (h.step t phase s b).1 = (s.say t .send x).1 := by
  unfold step
  split
  · exact .inl ⟨s.keys, rfl⟩
  · next p _ =>
    cases phase with
    | start =>
      dsimp only
      split
      · exact .inl ⟨s.keys, rfl⟩
      · split
        · next hnext =>
          obtain ⟨source, -, heq⟩ := Option.map_eq_some_iff.mp hnext
          obtain ⟨-, rfl⟩ := Prod.mk.inj heq
          exact .inl ⟨_, rfl⟩
        · exact .inl ⟨s.keys, rfl⟩
        · exact .inl ⟨s.keys, rfl⟩
    | storing key =>
      dsimp only
      split
      · split
        · exact .inl ⟨s.keys, rfl⟩
        · exact .inl ⟨s.keys, rfl⟩
      · exact .inl ⟨s.keys, rfl⟩
    | releasing key => exact .inl ⟨s.keys, rfl⟩
    | saying x stored => exact .inr ⟨x, stored, rfl, rfl⟩

/-- No other outbox has to do with it. -/
theorem outbox_step (t : Turn) (h : Hand) (phase : Phase) (s : Session) (b : Backend)
    {ch : Channel} (hch : ch ≠ .send) :
    (h.step t phase s b).1.link.outbox ch = s.link.outbox ch := by
  rcases h.step_session t phase s b with ⟨keys, heq⟩ | ⟨x, stored, -, heq⟩
  · rw [heq]
  · obtain ⟨o, hsay⟩ := s.say_spec t .send x
    rw [heq, hsay, Link.outbox_setOutbox, if_neg (Ne.symm hch)]

section Step

variable (t : Turn) (hparcel : h.parcel s' = .ok p)
include hparcel

/-- A hand-over begins: it draws a key, or goes to release one, or has nothing to do with the
store. -/
theorem start_account (hclock : clock t.millis) (htidy : (s.link.outbox .send).Tidy)
    (hable : s'.Able) (hat : Phase.Along p clock s b es s' b' .start) :
    Account p clock s b (es ++ [.turns t.now t.millis]) (h.step t .start s' b') := by
  obtain ⟨hsilent, hstore, hkeys⟩ := hat
  have hsilent' := hsilent.turns rfl t.now t.millis
  have hstore' := hstore.trans (Call.foldl_onStore_turns t.now t.millis).symm
  have hspeaks (hdraws : ∀ source bytes, ¬ p.Draws s.keys source bytes)
      (hfrees : ∀ key, ¬ p.Frees s.keys key) :
      Phase.Along p clock s b (es ++ [.turns t.now t.millis]) s' b'
        (speak (p.message p.payload) none) :=
    ⟨⟨t.millis, hclock, .last (hstore ▸ .spares hdraws hfrees)⟩, rfl, hsilent.holds htidy⟩
  unfold step Session.nextKey
  rw [hparcel, hkeys]
  dsimp only
  rw [if_neg (by simp [hable.active])]
  cases hpayload : p.payload with
  | inline bytes =>
    rw [hpayload] at hspeaks
    have hfrees (key : String) (hf : p.Frees s.keys key) : False :=
      Payload.noConfusion (hpayload.symm.trans hf.payload)
    cases htravels : p.travels with
    | false =>
      exact hspeaks (fun _ _ hd => Bool.false_ne_true (htravels.symm.trans hd.travels)) hfrees
    | true =>
      cases hsource : s.keys with
      | none =>
        exact hspeaks (fun _ _ hd => Option.some_ne_none _ (hd.keys.symm.trans hsource)) hfrees
      | some source =>
        exact ⟨hsilent', hstore', t.millis, source, bytes, hclock, ⟨hsource, hpayload, htravels⟩,
          rfl⟩
  | key key =>
    rw [hpayload] at hspeaks
    have hdraws (source : KeySource) (bytes : ByteArray) (hd : p.Draws s.keys source bytes) :
        False := Payload.noConfusion (hpayload.symm.trans hd.payload)
    cases htravels : p.travels with
    | true =>
      exact hspeaks hdraws fun _ hf => Bool.false_ne_true (hf.travels.symm.trans htravels)
    | false =>
      cases hsource : s.keys with
      | none =>
        refine hspeaks hdraws fun _ hf => ?_
        have hshares := hf.shares
        rw [hsource] at hshares
        exact Bool.false_ne_true hshares
      | some source =>
        exact ⟨hsilent', hstore', by rw [hsource]; rfl, hpayload, htravels⟩

/-- The store is given the bytes. -/
theorem storing_account {key : String} (htidy : (s.link.outbox .send).Tidy)
    (hat : Phase.Along p clock s b es s' b' (.storing key)) :
    Account p clock s b (es ++ [.turns t.now t.millis]) (h.step t (.storing key) s' b') := by
  obtain ⟨hsilent, rfl, millis, source, bytes, hdrawn, hdraws, rfl⟩ := hat
  unfold step
  rw [hparcel]
  dsimp only
  rw [hdraws.payload]
  dsimp only
  cases hput : (es.foldl Call.Event.onStore b).put (source.next millis).1 bytes with
  | mk after result =>
    cases result with
    | error fault =>
      exact ⟨fault, rfl, hsilent.turns rfl t.now t.millis, millis, source, bytes, hdrawn, hdraws,
        .last hput⟩
    | ok _ =>
      exact ⟨⟨millis, hdrawn, .last (.stores hdraws hput)⟩, rfl, hsilent.holds htidy⟩

/-- The key is released, and whether the store does so makes no difference. -/
theorem releasing_account {key : String} (hclock : clock t.millis)
    (htidy : (s.link.outbox .send).Tidy)
    (hat : Phase.Along p clock s b es s' b' (.releasing key)) :
    Account p clock s b (es ++ [.turns t.now t.millis]) (h.step t (.releasing key) s' b') := by
  obtain ⟨hsilent, rfl, hfrees⟩ := hat
  unfold step
  rw [hparcel]
  dsimp only
  refine ⟨⟨t.millis, hclock, .last (.releases hfrees)⟩, ?_⟩
  rw [hfrees.payload]
  exact ⟨rfl, hsilent.holds htidy⟩

/-- The message is said. -/
theorem saying_account {x : Session.Saying} {stored : Option String}
    (hsayable : (p.message (p.payload.under stored)).Sayable) (hable : s'.Able)
    (hat : Phase.Along p clock s b es s' b' (.saying x stored)) :
    Account p clock s b (es ++ [.turns t.now t.millis]) (h.step t (.saying x stored) s' b') := by
  obtain ⟨⟨millis, hdrawn, honce⟩, hspeaks⟩ := hat
  have hvisited : p.Visited clock s.keys (es ++ [.turns t.now t.millis]) stored b b' :=
    ⟨millis, hdrawn, honce.step _⟩
  obtain ⟨hleaves, hspoken⟩ := Session.say_speaks t .send hspeaks
  obtain ⟨-, hends⟩ :=
    Session.say_works t .send hsayable hable.active hable.unshut hable.works hspeaks
  unfold step
  rw [hparcel]
  dsimp only
  generalize (s'.say t .send x).2 = progress at hleaves hspoken hends ⊢
  cases progress with
  | waits x' => exact ⟨hvisited, hleaves⟩
  | goes x' => exact ⟨hvisited, hleaves⟩
  | ends result =>
    obtain rfl := hends result rfl
    exact ⟨hvisited, hspoken rfl⟩

/-- **A step of a hand-over** adds to what the store has or to what is on the wire, and fails where
the store does and nowhere else. -/
theorem step_account (hclock : clock t.millis) (htidy : (s.link.outbox .send).Tidy)
    (hsayable : p.Sayable clock s.keys) (hable : s'.Able)
    (hat : phase.Along p clock s b es s' b') :
    Account p clock s b (es ++ [.turns t.now t.millis]) (h.step t phase s' b') := by
  cases phase with
  | start => exact start_account t hparcel hclock htidy hable hat
  | storing key => exact storing_account t hparcel htidy hat
  | releasing key => exact releasing_account t hparcel hclock htidy hat
  | saying x stored =>
    exact saying_account t hparcel (hat.1.sayable hsayable) hable hat

omit hparcel in
/-- …and the writer is at work still. -/
theorem step_able (hsayable : p.Sayable clock s.keys) (hable : s'.Able)
    (hat : phase.Along p clock s b es s' b') : (h.step t phase s' b').1.Able := by
  rcases h.step_session t phase s' b' with ⟨keys, heq⟩ | ⟨x, stored, rfl, heq⟩
  · rw [heq]
    exact ⟨hable.active, hable.unshut, hable.works⟩
  · obtain ⟨o, hsay⟩ := s'.say_spec t .send x
    have hworks := (Session.say_works t .send (hat.1.sayable hsayable) hable.active hable.unshut
      hable.works hat.2).1
    rw [heq]
    rw [hsay] at hworks ⊢
    exact ⟨hable.active, (Link.closing_setOutbox ..).trans hable.unshut, hworks⟩

end Step

/-- How many steps a hand-over takes at most, where each frame is written as soon as it is handed
over. -/
def Phase.distance : Phase → Nat
  | .start => 5
  | .storing _ => 4
  | .releasing _ => 4
  | .saying x _ => x.distance

theorem Phase.distance_pos (phase : Phase) : 0 < phase.distance := by
  cases phase with
  | start => exact Nat.succ_pos 4
  | storing key => exact Nat.succ_pos 3
  | releasing key => exact Nat.succ_pos 3
  | saying x stored => exact x.distance_pos

theorem Phase.distance_le (phase : Phase) : phase.distance ≤ 5 := by
  cases phase with
  | start => exact Nat.le_refl 5
  | storing key => exact Nat.le_succ 4
  | releasing key => exact Nat.le_succ 4
  | saying x stored => exact x.distance_le.trans (by decide)

/-- **Where everything has been written, a hand-over gets on.** -/
theorem step_nearer (t : Turn) (hworks : (s'.link.outbox .send).Works)
    (hidle : (s'.link.outbox .send).Idle) (hat : phase.Along p clock s b es s' b') :
    (h.step t phase s' b').2.2.Leaves fun next => next.distance < phase.distance := by
  have hfresh (m : Message) (stored : Option String) : (speak m stored).distance < 4 :=
    Nat.lt_succ_self 3
  unfold step
  split
  · exact trivial
  · cases phase with
    | start =>
      dsimp only
      split
      · exact trivial
      · split
        · exact Nat.lt_succ_self 4
        · exact Nat.lt_succ_self 4
        · exact Nat.lt_succ_of_lt (hfresh _ _)
    | storing key =>
      dsimp only
      split
      · split
        · exact hfresh _ _
        · exact trivial
      · exact hfresh _ _
    | releasing key => exact hfresh _ _
    | saying x stored =>
      exact (Session.say_nearer t .send hworks hidle hat.2).andThen (fun _ h => h)
        (fun _ => trivial) fun _ => trivial

/-! ## Histories -/

/-- An event that is no step of the hand-over leaves the account of it as it is. -/
theorem Account.passes {progress : Progress Failure Phase (Option String)}
    (h : Account p clock s b es (s', b', progress)) (e : Call.Event) :
    Account p clock s b (es ++ [e])
      ({ s' with link := e.onLink s'.link }, e.onStore b', progress) := by
  have hstore (hb' : b' = es.foldl Call.Event.onStore b) :
      e.onStore b' = (es ++ [e]).foldl Call.Event.onStore b := by
    rw [List.foldl_append, hb']
    rfl
  have hvisited {stored : Option String} (hv : p.Visited clock s.keys es stored b b') :
      p.Visited clock s.keys (es ++ [e]) stored b (e.onStore b') := by
    obtain ⟨millis, hclock, honce⟩ := hv
    exact ⟨millis, hclock, honce.step e⟩
  have houtbox {P : Outbox → Prop} (hact : ∀ (a : Outbox.Act) (o : Outbox), P o → P (o.act a))
      (ho : P (s'.link.outbox .send)) : P ((e.onLink s'.link).outbox .send) := by
    cases e with
    | stirs x => exact Stir.outbox_stays hact ho
    | turns now millis => exact ho
  have halong {phase : Phase} (hat : phase.Along p clock s b es s' b') :
      phase.Along p clock s b (es ++ [e]) { s' with link := e.onLink s'.link }
        (e.onStore b') := by
    cases phase with
    | start => exact ⟨hat.1.passes e, hstore hat.2.1, hat.2.2⟩
    | storing key => exact ⟨hat.1.passes e, hstore hat.2.1, hat.2.2⟩
    | releasing key => exact ⟨hat.1.passes e, hstore hat.2.1, hat.2.2⟩
    | saying y stored =>
      exact ⟨hvisited hat.1, houtbox (P := fun o => Speaks _ _ _ o y) (fun a _ ho => ho.act a)
        hat.2⟩
  cases progress with
  | waits phase => exact halong h
  | goes phase => exact halong h
  | ends result =>
    cases result with
    | ok stored =>
      exact ⟨hvisited h.1, houtbox (P := Spoken _ _ _) (fun a _ ho => ho.act a) h.2⟩
    | error error =>
      obtain ⟨fault, rfl, hsilent, millis, source, bytes, hclock, hdraws, honce⟩ := h
      exact ⟨fault, rfl, hsilent.passes e, millis, source, bytes, hclock, hdraws, honce.step e⟩

/-- A hand-over is on its way, or has ended, on a session whose writer is at work. -/
structure Goes (h : Hand) (p : Parcel) (clock : Nat → Prop) (s : Session) (b : Backend)
    (es : List Call.Event) (w : Episode) : Prop where
  parcel : h.parcel w.session = .ok p
  able : w.session.Able
  silent : ∀ ch, ch ≠ .send → Silent es s.link w.session.link ch
  account : ∃ progress, w.progress = Call.lift (.hand h) h.reply progress ∧
    Account p clock s b es (w.session, w.store, progress)

variable {w : Episode} {e : Call.Event}

/-- A turn of a hand-over that has not ended. -/
theorem Goes.turn (hw : Goes h p clock s b es w) (htidy : (s.link.outbox .send).Tidy)
    (hsayable : p.Sayable clock s.keys) {now : Instant} {millis : Nat} (hclock : clock millis)
    (hcall : w.progress.state? = some (.hand h phase))
    (hat : phase.Along p clock s b es w.session w.store) :
    Goes h p clock s b (es ++ [.turns now millis]) (w.step (.turns now millis)) := by
  have hspares := h.spares_step ⟨w.id, now, millis⟩ phase w.session w.store
  rw [Episode.step_turns hcall]
  exact ⟨(parcel_congr hspares.identifier hspares.role h).trans hw.parcel,
    step_able _ hsayable hw.able hat,
    fun ch hch => (hw.silent ch hch).turns (h.outbox_step _ phase _ _ hch) now millis, _, rfl,
    step_account _ hw.parcel hclock htidy hsayable hw.able hat⟩

/-- **Whatever happens, the hand-over is accounted for.** -/
theorem Goes.step (hw : Goes h p clock s b es w) (htidy : (s.link.outbox .send).Tidy)
    (hsayable : p.Sayable clock s.keys) (he : e.Intact .send ∧ e.Timed clock) :
    Goes h p clock s b (es ++ [e]) (w.step e) := by
  obtain ⟨progress, hprogress, haccount⟩ := hw.account
  cases e with
  | stirs x =>
    exact ⟨(parcel_congr rfl rfl h).trans hw.parcel, hw.able.onLink he.1,
      fun ch hch => (hw.silent ch hch).passes (.stirs x), progress, hprogress,
      haccount.passes (.stirs x)⟩
  | turns now millis =>
    cases progress with
    | waits phase => exact hw.turn htidy hsayable he.2 (congrArg _ hprogress) haccount
    | goes phase => exact hw.turn htidy hsayable he.2 (congrArg _ hprogress) haccount
    | ends result =>
      have hended : w.progress.state? = none := hprogress ▸ Call.state?_lift_eq_none rfl
      rw [Episode.step_turns_of_ended hended]
      exact ⟨hw.parcel, hw.able,
        fun ch hch => (hw.silent ch hch).passes (.turns now millis), _, hprogress,
        haccount.passes (.turns now millis)⟩

/-- **…from its beginning on.** -/
theorem goes (hparcel : h.parcel s = .ok p) (hable : s.Able)
    (hsayable : p.Sayable clock s.keys) (hes : ∀ e ∈ es, e.Intact .send ∧ e.Timed clock)
    (id : CallId) (b : Backend) :
    Goes h p clock s b es ((Episode.start id (.ofHand h) s b).run es) := by
  have hstart : Goes h p clock s b [] (Episode.start id (.ofHand h) s b) :=
    ⟨hparcel, hable, fun _ _ => rfl, .goes .start, rfl, rfl, rfl, rfl⟩
  exact Episode.run_follows (P := Goes h p clock s b)
    (fun _ _ _ he hw => hw.step hable.works.tidy hsayable he) hes hstart

/-- Where a hand-over is, if it has not ended. -/
theorem Goes.along {c : Call} (hw : Goes h p clock s b es w)
    (hcall : w.progress.state? = some c) :
    ∃ phase, c = .hand h phase ∧ phase.Along p clock s b es w.session w.store := by
  obtain ⟨progress, hprogress, haccount⟩ := hw.account
  rw [hprogress] at hcall
  obtain ⟨phase, hphase, rfl⟩ := Call.of_state?_lift hcall
  refine ⟨phase, rfl, ?_⟩
  cases progress with
  | waits phase' => exact Option.some.inj hphase ▸ haccount
  | goes phase' => exact Option.some.inj hphase ▸ haccount
  | ends result => exact (Option.some_ne_none _ hphase.symm).elim

/-- The writer can be done with all that there is. -/
theorem Goes.flush (hw : Goes h p clock s b es w) (htidy : (s.link.outbox .send).Tidy)
    (hsayable : p.Sayable clock s.keys) :
    let w' := w.step (.stirs (.writes .send .flushes))
    Goes h p clock s b (es ++ [.stirs (.writes .send .flushes)]) w' ∧
      (w'.session.link.outbox .send).Idle := by
  refine ⟨hw.step htidy hsayable ⟨.inr rfl, trivial⟩, ?_⟩
  change ((w.session.link.setOutbox .send _).outbox .send).Idle
  rw [Link.outbox_setOutbox, if_pos rfl]
  exact Outbox.idle_flush hw.able.works.going

/-- **A hand-over ends** as soon as it is given as many turns as it needs. -/
theorem Goes.ends {turns : List (Instant × Nat)} (hw : Goes h p clock s b es w)
    (htidy : (s.link.outbox .send).Tidy) (hsayable : p.Sayable clock s.keys)
    (hclock : ∀ turn ∈ turns, clock turn.2)
    (hnear : ∀ phase, w.progress.state? = some (.hand h phase) → phase.distance ≤ turns.length) :
    (w.run (Call.sends turns)).progress.state? = none := by
  induction turns generalizing es w with
  | nil =>
    cases hcall : w.progress.state? with
    | none => exact hcall
    | some c =>
      obtain ⟨phase, rfl, -⟩ := hw.along hcall
      exact absurd (hnear phase hcall) (Nat.not_le.mpr phase.distance_pos)
  | cons turn turns ih =>
    obtain ⟨now, millis⟩ := turn
    obtain ⟨hflushed, hidle⟩ := hw.flush htidy hsayable
    -- what the writer does is no step of the call
    have hnear' (phase : Phase) (hcall : (w.step (.stirs (.writes .send .flushes))).progress.state?
        = some (.hand h phase)) : phase.distance ≤ turns.length + 1 := hnear phase hcall
    change ((w.step (.stirs (.writes .send .flushes))).run
      (.turns now millis :: Call.sends turns)).progress.state? = none
    generalize w.step (.stirs (.writes .send .flushes)) = w' at hflushed hidle hnear'
    refine ih (hflushed.step htidy hsayable (e := .turns now millis)
        ⟨trivial, hclock _ List.mem_cons_self⟩)
      (fun turn hturn => hclock turn (List.mem_cons_of_mem _ hturn)) fun next hnext => ?_
    cases hcall : w'.progress.state? with
    | none =>
      rw [Episode.step_turns_of_ended hcall] at hnext
      exact absurd (hnext.symm.trans hcall) (Option.some_ne_none _)
    | some c =>
      obtain ⟨phase, rfl, hat⟩ := hflushed.along hcall
      rw [Episode.step_turns hcall] at hnext
      obtain ⟨next', hnext', heq⟩ := Call.of_state?_lift hnext
      obtain rfl := (Call.hand.inj heq).2
      have hlt := (step_nearer ⟨w'.id, now, millis⟩ hflushed.able.works hidle hat).of_state? hnext'
      exact Nat.le_of_lt_succ (Nat.lt_of_lt_of_le hlt (hnear' phase hcall))

/-! ## What cannot be routed -/

/-- A hand-over has come to nothing, or will: all there is, is what others have made of it. -/
structure Refused (h : Hand) (wrong : ClientError) (s : Session) (b : Backend)
    (es : List Call.Event) (w : Episode) : Prop where
  parcel : h.parcel w.session = .error wrong
  silent : ∀ ch, Silent es s.link w.session.link ch
  store : w.store = es.foldl Call.Event.onStore b
  progress : w.progress = .goes (.hand h .start) ∨ w.progress = .ends (.error (.error wrong))

variable {wrong : ClientError}

theorem Refused.turn (hw : Refused h wrong s b es w) (now : Instant) (millis : Nat) :
    w.step (.turns now millis) = { w with progress := .ends (.error (.error wrong)) } := by
  rcases hw.progress with hgoes | hended
  · rw [Episode.step_turns (c := .hand h .start) (by rw [hgoes]; rfl)]
    simp only [Call.step, Hand.step, hw.parcel]
    rfl
  · rw [Episode.step_turns_of_ended (by rw [hended]; rfl), ← hended]

/-- **What cannot be handed over leaves no trace**, whatever happens. -/
theorem Refused.step (hw : Refused h wrong s b es w) (e : Call.Event) :
    Refused h wrong s b (es ++ [e]) (w.step e) := by
  have hstore : e.onStore w.store = (es ++ [e]).foldl Call.Event.onStore b := by
    rw [List.foldl_append, hw.store]
    rfl
  cases e with
  | stirs x =>
    exact ⟨(parcel_congr rfl rfl h).trans hw.parcel,
      fun ch => (hw.silent ch).passes (.stirs x), hstore, hw.progress⟩
  | turns now millis =>
    rw [hw.turn now millis]
    exact ⟨hw.parcel, fun ch => (hw.silent ch).passes (.turns now millis), hstore, .inr rfl⟩

theorem refused (hparcel : h.parcel s = .error wrong) (id : CallId) (b : Backend)
    (es : List Call.Event) :
    Refused h wrong s b es ((Episode.start id (.ofHand h) s b).run es) := by
  have hstart : Refused h wrong s b [] (Episode.start id (.ofHand h) s b) :=
    ⟨hparcel, fun _ => rfl, rfl, .inl rfl⟩
  exact Episode.run_follows (P := Refused h wrong s b) (fun _ e _ (_ : True) hw => hw.step e)
    (fun _ _ => trivial) hstart

/-- …but for its error. -/
theorem Refused.result {result : Except Failure Reply} (hw : Refused h wrong s b es w)
    (hresult : w.progress.result? = some result) : result = .error (.error wrong) := by
  rcases hw.progress with hgoing | hended
  · rw [hgoing] at hresult
    exact (Option.some_ne_none _ hresult.symm).elim
  · rw [hended] at hresult
    exact (Option.some.inj hresult).symm

/-- It ends with its first turn. -/
theorem Refused.ends {turns : List (Instant × Nat)} (hw : Refused h wrong s b es w)
    (hturns : turns ≠ []) : (w.run (Call.sends turns)).progress.state? = none := by
  obtain ⟨⟨now, millis⟩, later, rfl⟩ := List.exists_cons_of_ne_nil hturns
  have hended : ((w.step (.stirs (.writes .send .flushes))).step
      (.turns now millis)).progress.state? = none := by
    rw [(hw.step (.stirs (.writes .send .flushes))).turn now millis]
    rfl
  change (((w.step (.stirs (.writes .send .flushes))).step (.turns now millis)).run
    (Call.sends later)).progress.state? = none
  refine Episode.run_keeps (P := fun w => w.progress.state? = none)
    (fun w e (_ : True) hw => ?_) (fun _ _ => trivial) hended
  cases e with
  | stirs x => exact hw
  | turns now millis => rw [Episode.step_turns_of_ended hw]; exact hw

end Hand

/-! ## Fetched payloads -/

namespace Fetched

open Call (Silent Once)

/-- The bytes with which a fetched message without a key goes back: its own, else those that were
looked up, else none at all. -/
def bytes (f : Fetched) : ByteArray := (f.message.payloadBytes <|> f.payload).getD .empty

/-- The payload with which a fetched message goes back, if its key is drawn at this time. -/
def outgoing (f : Fetched) (keys : Option KeySource) (millis : Nat) : Payload :=
  match f.key, keys with
  | some key, _ => .key key
  | none, none => .inline f.bytes
  | none, some source => .key (source.next millis).1

/-- The message with which it goes back: with its own route, and with a payload only if that
travels. -/
def back (f : Fetched) (originator : Originator) (keys : Option KeySource) (success : Bool)
    (millis : Nat) : Message where
  manifest := ⟨.post, originator, if success then .message else .noMessage⟩
  metadata := some {
    source := f.source, destination := f.destination, payloadSize := f.payloadSize }
  payload := if success then some (f.outgoing keys millis) else none

/-- What going back makes of the store, if its key is drawn at this time. -/
structure Deals (f : Fetched) (keys : Option KeySource) (success : Bool) (millis : Nat)
    (before after : Backend) : Prop where
  /-- Bytes that travel are stored under a fresh key, where payloads travel by key. -/
  stores : success = true → f.key = none → ∀ source, keys = some source →
    (∀ key, source.Spent key → key ≠ (source.next millis).1) ∧
      ∀ key, after.get? key =
        if key = (source.next millis).1 then some f.bytes else before.get? key
  /-- The key of a payload that is dropped is released there. -/
  releases : success = false → keys.isSome → ∀ dropped, f.key = some dropped →
    (∀ found, (before.checkOut dropped).2 = .ok found →
      ∀ key, after.get? key = if key = dropped then none else before.get? key) ∧
    ∀ fault, (before.checkOut dropped).2 = .error fault → before.FailsSafely →
      after.entries = before.entries
  /-- Otherwise the store is not asked anything. -/
  spares : (success = true → f.key.isSome ∨ keys = none) →
    (success = false → f.key = none ∨ keys = none) → after = before

/-- A fetched message has gone back, its key having been drawn at this time if it needed one: one
message has been said behind everything that was handed over before, and nothing else; and the store
was asked for what that takes. -/
structure GoneBack (f : Fetched) (success : Bool) (s : Session) (b : Backend)
    (es : List Call.Event) (w : Episode) (millis : Nat) : Prop where
  clock : ∃ now, .turns now millis ∈ es
  spoken : Session.Spoken (f.back s.originator s.keys success millis) (s.link.outbox .send).stream
    (s.link.outbox .send).accepted (w.session.link.outbox .send)
  silent : ∀ ch, ch ≠ .send → Silent es s.link w.session.link ch
  store : Once es (f.Deals s.keys success millis) b w.store

/-- The bytes with which it was to go back could not be stored: nothing has been said, and nothing
is stored, if the store fails safely. -/
structure Unstored (f : Fetched) (success : Bool) (s : Session) (b : Backend)
    (es : List Call.Event) (w : Episode) (fault : StoreError) : Prop where
  travels : success = true
  keyless : f.key = none
  silent : ∀ ch, Silent es s.link w.session.link ch
  store : ∃ source millis, s.keys = some source ∧ Once es (fun before after =>
    before.put (source.next millis).1 f.bytes = (after, .error fault) ∧
      (before.FailsSafely → after.entries = before.entries)) b w.store

/-- What is to be handed over when a fetched message goes back from one to the other. -/
def parcel (f : Fetched) (originator : Originator) (source destination : String)
    (success : Bool) : Hand.Parcel where
  message := fun p => .post originator source destination p f.payloadSize success
  payload := Hand.fetchedPayload f
  travels := success

variable {f : Fetched} {s : Session} {b : Backend} {success : Bool} {millis : Nat}
  {before after : Backend} {keys : Option KeySource} {stored : Option String}
  {originator : Originator} {a a' : String} {es : List Call.Event} {w : Episode}

theorem parcel_of_route (hsource : f.source = some a) (hdestination : f.destination = some a') :
    (Hand.postFetched f success).parcel s = .ok (f.parcel s.originator a a' success) := by
  simp only [Hand.parcel, hsource, hdestination, parcel]

theorem parcel_of_unrouted (h : f.source = none ∨ f.destination = none) :
    (Hand.postFetched f success).parcel s = .error (.protocol (.invalid .unrouted)) := by
  unfold Hand.parcel
  dsimp only
  split
  · next hsource hdestination =>
    rcases h with h | h
    · exact absurd (hsource.symm.trans h) (Option.some_ne_none _)
    · exact absurd (hdestination.symm.trans h) (Option.some_ne_none _)
  · rfl

/-- A fetched payload is its key, or bytes. -/
theorem fetchedPayload_eq (f : Fetched) :
    Hand.fetchedPayload f = (f.key.map Payload.key).getD (.inline f.bytes) := by
  obtain ⟨message, looked⟩ := f
  unfold Hand.fetchedPayload key bytes Message.payloadKey Message.payloadBytes
  dsimp only
  cases message.payload with
  | none => cases looked <;> rfl
  | some payload => cases payload <;> rfl

theorem draws_iff {source : KeySource} {bytes : ByteArray} :
    (f.parcel originator a a' success).Draws keys source bytes ↔
      success = true ∧ f.key = none ∧ keys = some source ∧ bytes = f.bytes := by
  have hpayload : (f.parcel originator a a' success).payload = _ := f.fetchedPayload_eq
  constructor
  · rintro ⟨hkeys, hbytes, htravels⟩
    rw [hpayload] at hbytes
    cases hkey : f.key with
    | some key =>
      rw [hkey] at hbytes
      exact Payload.noConfusion hbytes
    | none =>
      rw [hkey] at hbytes
      exact ⟨htravels, rfl, hkeys, (Payload.inline.inj hbytes).symm⟩
  · rintro ⟨htravels, hkey, hkeys, rfl⟩
    exact ⟨hkeys, by rw [hpayload, hkey]; rfl, htravels⟩

theorem frees_iff {dropped : String} :
    (f.parcel originator a a' success).Frees keys dropped ↔
      success = false ∧ keys.isSome ∧ f.key = some dropped := by
  have hpayload : (f.parcel originator a a' success).payload = _ := f.fetchedPayload_eq
  constructor
  · rintro ⟨hkeys, hbytes, htravels⟩
    rw [hpayload] at hbytes
    cases hkey : f.key with
    | some key =>
      rw [hkey] at hbytes
      exact ⟨htravels, hkeys, congrArg some (Payload.key.inj hbytes)⟩
    | none =>
      rw [hkey] at hbytes
      exact Payload.noConfusion hbytes
  · rintro ⟨htravels, hkeys, hkey⟩
    exact ⟨hkeys, by rw [hpayload, hkey]; rfl, htravels⟩

/-- **What becomes of the store** when a fetched message goes back. -/
theorem deals (h : (f.parcel originator a a' success).Deals keys millis before stored after) :
    f.Deals keys success millis before after := by
  cases h with
  | stores hdraws hput =>
    obtain ⟨rfl, hkey, rfl, rfl⟩ := draws_iff.mp hdraws
    refine ⟨fun _ _ source hsource => ?_, fun hdropped => Bool.noConfusion hdropped,
      fun hspared => ?_⟩
    · obtain rfl := Option.some.inj hsource
      exact ⟨fun key hspent => hspent.ne_next millis, Backend.get?_put hput⟩
    · rcases hspared rfl with hkeyed | hnone
      · rw [hkey] at hkeyed
        exact (Bool.false_ne_true hkeyed).elim
      · exact (Option.some_ne_none _ hnone).elim
  | releases hfrees =>
    obtain ⟨rfl, hkeys, hkey⟩ := frees_iff.mp hfrees
    refine ⟨fun htravels => Bool.noConfusion htravels, fun _ _ dropped hdropped => ?_,
      fun _ hspared => ?_⟩
    · obtain rfl := Option.some.inj (hkey.symm.trans hdropped)
      exact ⟨fun found hfound => (Backend.get?_checkOut (Prod.ext rfl hfound) · |>.2),
        fun fault hfault safe => Backend.entries_checkOut_of_error safe hfault⟩
    · rcases hspared rfl with hnone | hnone
      · exact (Option.some_ne_none _ (hkey.symm.trans hnone)).elim
      · rw [hnone] at hkeys
        exact (Bool.false_ne_true hkeys).elim
  | spares hdraws hfrees =>
    exact ⟨fun htravels hkey source hsource =>
        (hdraws source f.bytes (draws_iff.mpr ⟨htravels, hkey, hsource, rfl⟩)).elim,
      fun hdropped hkeys key hkey => (hfrees key (frees_iff.mpr ⟨hdropped, hkeys, hkey⟩)).elim,
      fun _ _ => rfl⟩

/-- **…and what is said.** -/
theorem message_of_deals (hsource : f.source = some a) (hdestination : f.destination = some a')
    (h : (f.parcel originator a a' success).Deals keys millis before stored after) :
    (f.parcel originator a a' success).message
        ((f.parcel originator a a' success).payload.under stored)
      = f.back originator keys success millis := by
  have hback (payload : Payload) (hpayload : success = true → payload = f.outgoing keys millis) :
      Message.post originator a a' payload f.payloadSize success
        = f.back originator keys success millis := by
    unfold back Message.post
    rw [hsource, hdestination]
    cases success with
    | false => rfl
    | true => rw [hpayload rfl]; rfl
  refine hback _ fun htravels => ?_
  cases h with
  | stores hdraws hput =>
    obtain ⟨-, hkey, rfl, -⟩ := draws_iff.mp hdraws
    unfold outgoing
    rw [hkey]
    rfl
  | releases hfrees =>
    exact (Bool.false_ne_true ((frees_iff.mp hfrees).1.symm.trans htravels)).elim
  | spares hdraws hfrees =>
    change Hand.fetchedPayload f = _
    rw [fetchedPayload_eq]
    unfold outgoing
    cases hkey : f.key with
    | some key => rfl
    | none =>
      cases hkeys : keys with
      | none => rfl
      | some source =>
        exact (hdraws source f.bytes (draws_iff.mpr ⟨htravels, hkey, hkeys, rfl⟩)).elim

/-- **How going back ends**, if there is a route. -/
theorem result_of_goes {clock : Nat → Prop} (hsource : f.source = some a)
    (hdestination : f.destination = some a')
    (hgoes : Hand.Goes (.postFetched f success) (f.parcel s.originator a a' success) clock s b es w)
    (hclock : ∀ millis, clock millis → ∃ now, .turns now millis ∈ es)
    {result : Except Failure Reply} (hresult : w.progress.result? = some result) :
    (result = .ok .done ∧ ∃ millis, f.GoneBack success s b es w millis) ∨
      ∃ fault, result = .error (.error (.store fault)) ∧ f.Unstored success s b es w fault := by
  obtain ⟨progress, hprogress, haccount⟩ := hgoes.account
  rw [hprogress, Call.result?_lift] at hresult
  obtain ⟨r, hr, rfl⟩ := Option.map_eq_some_iff.mp hresult
  cases progress with
  | waits phase => exact (Option.some_ne_none _ hr.symm).elim
  | goes phase => exact (Option.some_ne_none _ hr.symm).elim
  | ends r' =>
    obtain rfl := Option.some.inj hr
    cases r' with
    | ok stored =>
      obtain ⟨⟨millis, htime, honce⟩, hspoken⟩ := haccount
      obtain ⟨before, after, hdeals⟩ := honce.exists
      rw [message_of_deals hsource hdestination hdeals] at hspoken
      exact .inl ⟨rfl, millis, hclock millis htime, hspoken, hgoes.silent,
        honce.mono fun _ _ => deals⟩
    | error e =>
      obtain ⟨fault, rfl, hsilent, millis, source, bytes, -, hdraws, honce⟩ := haccount
      obtain ⟨htravels, hkey, hkeys, rfl⟩ := draws_iff.mp hdraws
      refine .inr ⟨fault, rfl, htravels, hkey, fun ch => ?_, source, millis, hkeys,
        honce.mono fun before after hput => ⟨hput, fun safe => ?_⟩⟩
      · by_cases hch : ch = .send
        · exact hch ▸ hsilent
        · exact hgoes.silent ch hch
      · have hentries := Backend.entries_put_of_error safe (congrArg Prod.snd hput)
        rwa [hput] at hentries

section Route

variable (hsource : f.source = some a) (hdestination : f.destination = some a')
  (hsayable : ∀ now millis, .turns now millis ∈ es →
    (f.back s.originator s.keys success millis).Sayable)
include hsource hdestination hsayable

/-- What can be said at each time at which the call takes a step, can be said. -/
theorem parcel_sayable : (f.parcel s.originator a a' success).Sayable
    (fun millis => ∃ now, .turns now millis ∈ es) s.keys := by
  rintro millis before stored after ⟨now, hturn⟩ hdeals
  rw [message_of_deals hsource hdestination hdeals]
  exact hsayable now millis hturn

/-- **Going back is accounted for** in each part of a history. -/
theorem goes_of_route (hable : s.Able) (hes : ∀ e ∈ es, e.Intact .send) {part : List Call.Event}
    (hpart : ∀ e ∈ part, e ∈ es) (id : CallId) (b : Backend) :
    Hand.Goes (.postFetched f success) (f.parcel s.originator a a' success)
      (fun millis => ∃ now, .turns now millis ∈ es) s b part
      ((Episode.start id (.ofHand (.postFetched f success)) s b).run part) := by
  refine Hand.goes (parcel_of_route hsource hdestination) hable
    (parcel_sayable hsource hdestination hsayable) (fun e he => ⟨hes e (hpart e he), ?_⟩) id b
  cases e with
  | stirs x => exact trivial
  | turns now millis => exact ⟨now, hpart _ he⟩

/-- …and it ends in a history that has five turns at its end, each with everything written. -/
theorem ends_of_route (hable : s.Able) (hes : ∀ e ∈ es, e.Intact .send)
    {earlier : List Call.Event} {turns : List (Instant × Nat)}
    (hlast : es = earlier ++ Call.sends turns) (hlength : 5 ≤ turns.length) (id : CallId)
    (b : Backend) :
    ((Episode.start id (.ofHand (.postFetched f success)) s b).run es).progress.state? = none := by
  have hearlier (e : Call.Event) (he : e ∈ earlier) : e ∈ es := by
    rw [hlast]
    exact List.mem_append_left _ he
  have hturns (turn : Instant × Nat) (hturn : turn ∈ turns) :
      Call.Event.turns turn.1 turn.2 ∈ es := by
    rw [hlast]
    exact List.mem_append_right _ (List.mem_flatMap.mpr ⟨turn, hturn, by simp⟩)
  have hends := (goes_of_route hsource hdestination hsayable hable hes hearlier id b).ends
    hable.works.tidy (parcel_sayable hsource hdestination hsayable)
    (fun turn hturn => ⟨turn.1, hturns turn hturn⟩)
    fun phase _ => phase.distance_le.trans hlength
  rwa [← Episode.run_append, ← hlast] at hends

end Route

/-- **A fetched payload goes back faithfully, or is released.**  Let a session be open and its
writer at work, and let everything that is to be said be fit to be said.  Whatever a fetched message
has, whether its payload is to travel or was dropped, and whatever happens while it goes back, so
long as the writer does not fail,

* if the message does not say where it comes from or where it goes, going back ends with the error
  that says so, nothing is said, and the store is what others have made of it;
* else, unless the store fails to keep the bytes, going back succeeds; then one message has been
  said, which has the message's own route and size (`Fetched.back`), and nothing else has, and the
  store was asked for what that takes and for nothing else (`Fetched.Deals`);
* if the store does fail, the error is the store's, nothing is said and, if it fails safely, nothing
  is stored;
* going back ends, one way or the other, after five steps at most if whatever is handed over is
  written at once. -/
theorem goes_back (f : Fetched) (success : Bool) (s : Session) (b : Backend) (id : CallId)
    (hactive : s.closed = false) (hopen : s.link.closing = false)
    (hworks : (s.link.outbox .send).Works) (es : List Call.Event)
    (hes : ∀ e ∈ es, e.Intact .send)
    (hsayable : f.source.isSome → f.destination.isSome → ∀ now millis, .turns now millis ∈ es →
      (f.back s.originator s.keys success millis).Sayable) :
    let w := (Episode.start id (.ofHand (.postFetched f success)) s b).run es
    (f.source = none ∨ f.destination = none →
      (∀ ch, Silent es s.link w.session.link ch) ∧ w.store = es.foldl Call.Event.onStore b ∧
        ∀ result, w.progress.result? = some result →
          result = .error (.error (.protocol (.invalid .unrouted)))) ∧
    (f.source.isSome → f.destination.isSome → ∀ result, w.progress.result? = some result →
      (result = .ok .done ∧ ∃ millis, f.GoneBack success s b es w millis) ∨
        ∃ fault, result = .error (.error (.store fault)) ∧
          f.Unstored success s b es w fault) ∧
    ∀ earlier turns, es = earlier ++ Call.sends turns → 5 ≤ turns.length →
      ∃ result, w.progress.result? = some result := by
  intro w
  have hable : s.Able := ⟨hactive, hopen, hworks⟩
  have hunrouted (hroute : f.source = none ∨ f.destination = none) (es : List Call.Event) :
      Hand.Refused (.postFetched f success) (.protocol (.invalid .unrouted)) s b es
        ((Episode.start id (.ofHand (.postFetched f success)) s b).run es) :=
    Hand.refused (parcel_of_unrouted hroute) id b es
  refine ⟨fun hroute => ?_, fun hsource hdestination result hresult => ?_,
    fun earlier turns hlast hlength => Progress.exists_result_of_state? ?_⟩
  · have hrefused := hunrouted hroute es
    exact ⟨hrefused.silent, hrefused.store, fun result hresult => hrefused.result hresult⟩
  · have hsayable' := hsayable hsource hdestination
    obtain ⟨a, hsource⟩ := Option.isSome_iff_exists.mp hsource
    obtain ⟨a', hdestination⟩ := Option.isSome_iff_exists.mp hdestination
    exact result_of_goes hsource hdestination
      (goes_of_route hsource hdestination hsayable' hable hes (fun _ he => he) id b)
      (fun _ htime => htime) hresult
  · have hrefused (hroute : f.source = none ∨ f.destination = none) :
        w.progress.state? = none := by
      have hends := (hunrouted hroute earlier).ends
        (List.ne_nil_of_length_pos (Nat.lt_of_lt_of_le (Nat.succ_pos 4) hlength))
      rwa [← Episode.run_append, ← hlast] at hends
    cases hsource : f.source with
    | none => exact hrefused (.inl hsource)
    | some a =>
      cases hdestination : f.destination with
      | none => exact hrefused (.inr hdestination)
      | some a' =>
        exact ends_of_route hsource hdestination
          (hsayable (hsource ▸ rfl) (hdestination ▸ rfl)) hable hes hlast hlength id b

/-- Bytes that were looked up go back under a key of their own, while somebody else stores under
another. -/
theorem goes_back_stored :
    let s : Session :=
      { identifier := "z", role := .simulator, config := ⟨.push, some ⟨"store", 6379, 0⟩⟩,
        keys := some ⟨"z", 0⟩, responseWindow := .ofSeconds 1, link := {} }
    let f : Fetched := {
      message := { manifest := ⟨.fetch, .daemon, .message⟩, metadata := some {
        source := some "a", destination := some "b", payloadSize := 2 } }
      payload := some "hi".toUTF8 }
    let es : List Call.Event := [.turns ⟨0⟩ 5, .stirs (.shares fun b => (b.put "k" "yo".toUTF8).1),
      .turns ⟨0⟩ 5, .turns ⟨0⟩ 5, .turns ⟨0⟩ 5, .stirs (.writes .send .flushes), .turns ⟨0⟩ 5]
    let w := (Episode.start 0 (.ofHand (.postFetched f true)) s {}).run es
    w.progress.result? = some (.ok .done) ∧ f.GoneBack true s {} es w 5 ∧
      w.store.get? "5-z-1" = some "hi".toUTF8 ∧ w.store.get? "k" = some "yo".toUTF8 := by
  intro s f es w
  have hdone : w.progress.result? = some (.ok .done) := by decide +kernel
  have hclock {now : Instant} {millis : Nat} (h : Call.Event.turns now millis ∈ es) :
      millis = 5 := by
    simp [es] at h
    exact h.2
  have hes : ∀ e ∈ es, e.Intact .send := by
    simp [es, Call.Event.Intact, Stir.Intact, Outbox.Act.works]
  obtain ⟨-, hroute, -⟩ := goes_back f true s {} 0 rfl rfl ⟨rfl, rfl⟩ es hes
    fun _ _ now millis hturn => by
      rw [hclock hturn]
      exact ⟨_, rfl, by decide +kernel⟩
  rcases hroute rfl rfl _ hdone with ⟨-, millis, hback⟩ | ⟨fault, hfault, -⟩
  · obtain ⟨now, hturn⟩ := hback.clock
    obtain rfl := hclock hturn
    exact ⟨hdone, hback, by decide +kernel, by decide +kernel⟩
  · cases hfault

end Fetched

end SimRelay
