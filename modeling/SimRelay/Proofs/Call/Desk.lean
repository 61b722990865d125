import SimRelay.Proofs.Call.Dealing
import SimRelay.Proofs.Store.SingleUse

/-!
# Proofs/Call/Desk — calls that take deliveries at the same time

A `Desk` is one client with any number of calls in flight, of whatever kind.  One step is taken at a
time, by whichever call it may be; calls are dropped, the daemon writes, writers and the store fail.

Two accounts are kept.  The `Balance` is about deliveries: whatever comes off the inbound channel
is with a caller, in hand, kept or lost, and it is lost only with the request to the store that
should have resolved it.  The `Vigil` is about calls: one that has looked at what is kept finds
nothing there that it wants but what others have kept since.
-/

namespace SimRelay

/-- A call that has not begun has nothing in hand, and has looked at nothing. -/
theorem Call.bare_of_isNew {c : Call} (h : c.isNew) :
    c.inHand? = none ∧ c.hasLooked = false := by
  unfold isNew at h
  split at h
  · exact ⟨rfl, rfl⟩
  · exact ⟨rfl, rfl⟩
  · exact ⟨rfl, rfl⟩
  · exact ⟨rfl, rfl⟩
  · exact nomatch h

/-- A client, its store and its calls in flight, and what has come and gone. -/
structure Desk where
  session : Session
  store : Backend
  calls : List (CallId × Call) := []
  /-- The stream that the daemon has written on the inbound channel. -/
  written : ByteArray
  /-- For each call, what other calls have kept since it looked at what is kept. -/
  missed : CallId → List Message := fun _ => []
  /-- The deliveries with which calls have concluded. -/
  concluded : List Message := []
  /-- The deliveries that were in hand when the store failed or their call was dropped. -/
  lost : List Message := []

namespace Desk

inductive Event
  /-- A call begins, unless one of that number is in flight. -/
  | begins (id : CallId) (c : Call)
  /-- A call in flight takes a step. -/
  | turns (t : Turn)
  /-- A call is dropped. -/
  | drops (id : CallId)
  | stirs (x : Stir)

/-- What is on its way at first belongs to the stream. -/
def start (s : Session) (b : Backend) : Desk :=
  { session := s, store := b, written := (s.link.inbox .recv).pending }

/-- The inbound channel of the client. -/
def inbox (w : Desk) : Inbox := w.session.link.inbox .recv

/-- The deliveries that calls have in hand. -/
def inHand (w : Desk) : List Message := w.calls.flatMap fun p => p.2.inHand?.toList

/-- One step of a call in flight. -/
def turn (w : Desk) (t : Turn) (c : Call) : Desk :=
  let (session, store, progress) := c.step t w.session w.store
  { w with
    session
    store
    calls := (progress.state?.map (t.id, ·)).toList ++ w.calls.erase (t.id, c)
    missed := fun id =>
      if id = t.id then if c.hasLooked then w.missed id else []
      else w.missed id ++ session.late.drop w.session.late.length
    concluded := w.concluded ++ (c.concluded? progress).toList
    lost := w.lost ++ (c.lost? progress).toList }

/-- A call in flight goes away, and with it what it has in hand. -/
def drop (w : Desk) (id : CallId) (c : Call) : Desk :=
  { w with
    session := w.session.abandon id
    calls := w.calls.erase (id, c)
    lost := w.lost ++ c.inHand?.toList }

def step (w : Desk) : Event → Desk
  | .begins id c =>
    if c.isNew ∧ w.calls.lookup id = none then { w with calls := (id, c) :: w.calls } else w
  | .turns t => (w.calls.lookup t.id).elim w (w.turn t)
  | .drops id => (w.calls.lookup id).elim w (w.drop id)
  | .stirs x =>
    { w with
      session := { w.session with link := x.onLink w.session.link }
      store := x.onStore w.store
      written := w.written ++ if w.inbox.ended then .empty else x.bytes .recv }

/-- A whole history. -/
def run (w : Desk) (es : List Event) : Desk := es.foldl step w

variable {w : Desk} {id : CallId} {c : Call} {role : Role}

theorem mem_of_lookup (h : w.calls.lookup id = some c) : (id, c) ∈ w.calls := by
  obtain ⟨before, after, hcalls, -⟩ := List.lookup_eq_some_iff.mp h
  rw [hcalls]
  exact List.mem_append_right _ List.mem_cons_self

theorem session_turn (t : Turn) (c : Call) (w : Desk) :
    (w.turn t c).session = (c.step t w.session w.store).1 := rfl

theorem calls_turn (t : Turn) (c : Call) (w : Desk) :
    (w.turn t c).calls = ((c.step t w.session w.store).2.2.state?.map (t.id, ·)).toList
      ++ w.calls.erase (t.id, c) := rfl

theorem missed_turn (t : Turn) (c : Call) (w : Desk) (id : CallId) :
    (w.turn t c).missed id = if id = t.id then if c.hasLooked then w.missed id else []
      else w.missed id ++ (w.turn t c).session.late.drop w.session.late.length := rfl

theorem concluded_turn (t : Turn) (c : Call) (w : Desk) : (w.turn t c).concluded
    = w.concluded ++ (c.concluded? (c.step t w.session w.store).2.2).toList := rfl

theorem lost_turn (t : Turn) (c : Call) (w : Desk) :
    (w.turn t c).lost = w.lost ++ (c.lost? (c.step t w.session w.store).2.2).toList := rfl

theorem inHand_turn (t : Turn) (c : Call) (w : Desk) :
    (w.turn t c).inHand = ((c.step t w.session w.store).2.2.state?.bind Call.inHand?).toList
      ++ (w.calls.erase (t.id, c)).flatMap fun p => p.2.inHand?.toList := by
  rw [inHand, calls_turn, List.flatMap_append]
  cases (c.step t w.session w.store).2.2.state? with
  | none => rfl
  | some next => exact congrArg (· ++ _) (List.append_nil _)

/-- What one call has in hand, and what the others have. -/
theorem inHand_perm (h : (id, c) ∈ w.calls) :
    w.inHand.Perm
      (c.inHand?.toList ++ (w.calls.erase (id, c)).flatMap fun p => p.2.inHand?.toList) :=
  (List.perm_cons_erase h).flatMap_right _

/-! ## Balance -/

/-- The account of deliveries: the bodies taken off the inbound channel are the first of the stream,
and each delivery among them is concluded, lost, in hand or kept, once. -/
structure Balance (role : Role) (w : Desk) : Prop where
  plays : w.session.role = role
  shares : w.session.keys.isSome
  fits : ∀ p ∈ w.calls, p.2.Fits
  books : ∃ taken, w.written = Frame.joined taken ++ w.inbox.pending ∧
    (∀ body ∈ taken, body.size ≤ Frame.maxLength) ∧
    (w.concluded ++ w.lost ++ w.inHand ++ w.session.late).Perm (deliveries role.delivery taken)

theorem Balance.start {s : Session} (hshares : s.keys.isSome) (hlate : s.late = []) (b : Backend) :
    (start s b).Balance s.role where
  plays := rfl
  shares := hshares
  fits _ h := absurd h List.not_mem_nil
  books := by
    refine ⟨[], ByteArray.empty_append.symm, fun _ h => absurd h List.not_mem_nil, ?_⟩
    change ([] ++ s.late).Perm []
    rw [hlate]
    exact .refl _

/-- **A step of a call keeps the account**, since it keeps the balance. -/
theorem Balance.turn (h : w.Balance role) (t : Turn) (hc : (t.id, c) ∈ w.calls) :
    (w.turn t c).Balance role := by
  obtain rfl := h.plays
  obtain ⟨-, hrole, hshares⟩ := Call.step_terms t c w.session w.store
  obtain ⟨body?, hhanded, hperm⟩ := Call.step_balances h.shares t c w.store
  have hsets : Progress.Leaves _ _ := Call.step_sets t c w.session w.store
  obtain ⟨taken, hstream, hshort, hbooks⟩ := h.books
  obtain ⟨hstream', hshort'⟩ := hhanded.stream hstream hshort
  refine ⟨hrole, hshares.trans h.shares, fun p hp => ?_, taken ++ body?.toList, ?_, ?_, ?_⟩
  · rw [calls_turn] at hp
    rcases List.mem_append.mp hp with hp | hp
    · obtain ⟨next, hnext, rfl⟩ := Option.map_eq_some_iff.mp (Option.mem_toList.mp hp)
      exact (hsets.of_state? hnext).1
    · exact h.fits p (List.mem_of_mem_erase hp)
  · exact hstream'
  · exact hshort'
  · rw [deliveries_append, inHand_turn, concluded_turn, lost_turn, session_turn]
    -- four rows meet here, so that each delivery is counted
    refine List.perm_iff_count.mpr fun m => ?_
    have hperm := hperm.count_eq m
    have hbooks := hbooks.count_eq m
    have hhand := (w.inHand_perm hc).count_eq m
    simp only [Call.outcome, List.count_append] at hperm hbooks hhand ⊢
    omega

/-- What spares the deliveries keeps the account. -/
theorem Balance.of_spares (h : w.Balance role) {s : Session} (hs : w.session.Spares s) :
    Desk.Balance role { w with session := s } where
  plays := hs.role.trans h.plays
  shares := hs.shares.trans h.shares
  fits := h.fits
  books := by
    obtain ⟨taken, hstream, hshort, hbooks⟩ := h.books
    have hpending : w.inbox.pending = .empty ++ (s.link.inbox .recv).pending := hs.recv.pending
    refine ⟨taken, ?_, hshort, ?_⟩
    · rw [hstream, hpending, ByteArray.empty_append]
      rfl
    · change (w.concluded ++ w.lost ++ w.inHand ++ s.late).Perm _
      rw [hs.late]
      exact hbooks

/-- **A call that goes away** leaves what is kept and what is pending. -/
theorem Balance.drop (h : w.Balance role) (hc : (id, c) ∈ w.calls) :
    (w.drop id c).Balance role := by
  have hspared := h.of_spares (w.session.spares_abandon id)
  obtain ⟨taken, hstream, hshort, hbooks⟩ := hspared.books
  refine ⟨hspared.plays, hspared.shares, fun p hp => h.fits p (List.mem_of_mem_erase hp), taken,
    hstream, hshort, ?_⟩
  have hhand := w.inHand_perm hc
  change (w.concluded ++ (w.lost ++ c.inHand?.toList)
    ++ (w.calls.erase (id, c)).flatMap _ ++ w.session.late).Perm _
  refine List.perm_iff_count.mpr fun m => ?_
  have hbooks : (w.concluded ++ w.lost ++ w.inHand ++ w.session.late).count m = _ :=
    hbooks.count_eq m
  have hhand := hhand.count_eq m
  simp only [List.count_append] at hbooks hhand ⊢
  omega

/-- **Nothing that happens upsets the balance.** -/
theorem Balance.step (h : w.Balance role) (e : Event) : (w.step e).Balance role := by
  cases e with
  | begins id c =>
    rw [Desk.step]
    split
    · next hbegins =>
      obtain ⟨taken, hstream, hshort, hbooks⟩ := h.books
      refine ⟨h.plays, h.shares, ?_, taken, hstream, hshort, ?_⟩
      · exact List.forall_mem_cons.mpr ⟨(Call.fits_of_isNew hbegins.1).1, h.fits⟩
      · have hnone : w.inHand = c.inHand?.toList ++ w.inHand := by
          rw [(Call.bare_of_isNew hbegins.1).1]
          rfl
        change (w.concluded ++ w.lost ++ (c.inHand?.toList ++ w.inHand) ++ w.session.late).Perm _
        rw [← hnone]
        exact hbooks
    · exact h
  | turns t =>
    rw [Desk.step]
    cases hcall : w.calls.lookup t.id with
    | none => exact h
    | some c => exact h.turn t (mem_of_lookup hcall)
  | drops id =>
    rw [Desk.step]
    cases hcall : w.calls.lookup id with
    | none => exact h
    | some c => exact h.drop (mem_of_lookup hcall)
  | stirs x =>
    obtain ⟨taken, hstream, hshort, hbooks⟩ := h.books
    refine ⟨h.plays, h.shares, h.fits, taken, ?_, hshort, hbooks⟩
    change w.written ++ _ = Frame.joined taken ++ ((x.onLink w.session.link).inbox .recv).pending
    rw [x.pending_onLink, hstream, ByteArray.append_assoc]
    rfl

/-- **…and so it is over a whole history.** -/
theorem Balance.run (h : w.Balance role) (es : List Event) : (w.run es).Balance role := by
  induction es generalizing w with
  | nil => exact h
  | cons e es ih => exact ih (h.step e)

/-! ## Losses -/

/-- The event leaves a call without an answer from the store: the request fails, or the call is
dropped before it is made. -/
def Forsakes (w : Desk) (id : CallId) (c : Call) : Event → Prop
  | .turns t => t.id = id ∧
      ∃ e, (c.step t w.session w.store).2.2 = .ends (.error (.error (.store e)))
  | .drops id' => id' = id
  | _ => False

/-- The event loses a delivery: its call has it in hand and is left without an answer. -/
def Loses (w : Desk) (e : Event) (m : Message) : Prop :=
  ∃ id i key, w.calls.lookup id = some (.intake i (.resolving m key)) ∧
    w.Forsakes id (.intake i (.resolving m key)) e

/-- What may become of the deliveries that are lost: one joins them that the event loses, and then
nothing else changes of what concerns it, if the store was not asked or fails safely; or none
does. -/
def LosesAtMost (w : Desk) (e : Event) (w' : Desk) : Prop :=
  (w'.lost = w.lost ∧ ∀ m, ¬ w.Loses e m) ∨
    ∃ m key, m.payloadKey = some key ∧ w.Loses e m ∧ w'.lost = w.lost ++ [m] ∧
      w'.session.late = w.session.late ∧ w'.inbox.pending = w.inbox.pending ∧
      (((∃ t, e = .turns t) → w.store.FailsSafely) → w'.store.entries = w.store.entries)

/-- A call is dropped. -/
theorem losesAtMost_drop (hfits : c.Fits) (hcall : w.calls.lookup id = some c) :
    w.LosesAtMost (.drops id) (w.drop id c) := by
  cases hhand : c.inHand? with
  | none =>
    refine .inl ⟨?_, ?_⟩
    · change w.lost ++ c.inHand?.toList = w.lost
      rw [hhand]
      exact List.append_nil _
    · rintro m ⟨id', i, key, hcall', rfl⟩
      obtain rfl := Option.some.inj (hcall.symm.trans hcall')
      exact absurd hhand (Option.some_ne_none m)
  | some m =>
    obtain ⟨i, key, rfl⟩ := Call.eq_resolving_of_inHand? hhand
    have hspares := w.session.spares_abandon id
    exact .inr ⟨m, key, hfits, ⟨id, i, key, hcall, rfl⟩, rfl, hspares.late,
      hspares.recv.pending_of_none, fun _ => rfl⟩

/-- A call takes a step. -/
theorem losesAtMost_turn (t : Turn) (hfits : c.Fits) (hcall : w.calls.lookup t.id = some c) :
    w.LosesAtMost (.turns t) (w.turn t c) := by
  cases hlost : c.lost? (c.step t w.session w.store).2.2 with
  | none =>
    refine .inl ⟨?_, ?_⟩
    · rw [lost_turn, hlost]
      exact List.append_nil _
    · rintro m ⟨id', i, key, hcall', rfl, fault, hfails⟩
      obtain rfl := Option.some.inj (hcall.symm.trans hcall')
      rw [hfails] at hlost
      exact absurd hlost (Option.some_ne_none m)
  | some m =>
    have hlosing : (w.turn t c).lost = w.lost ++ [m] := by
      rw [lost_turn, hlost]
      rfl
    obtain ⟨i, key, e, rfl, hfails⟩ := Call.eq_resolving_of_lost? hlost
    obtain ⟨hsession, hentries, fault, rfl⟩ := Call.resolving_failed hfails
    have hinbox := congrArg (fun s : Session => (s.link.inbox .recv).pending) hsession
    exact .inr ⟨m, key, hfits, ⟨t.id, i, key, hcall, rfl, fault, hfails⟩, hlosing,
      congrArg Session.late hsession, hinbox, fun hsafe => hentries (hsafe ⟨t, rfl⟩)⟩

/-- **A delivery is lost when its call is left without an answer**, and not otherwise. -/
theorem losesAtMost_step (h : ∀ p ∈ w.calls, p.2.Fits) (e : Event) :
    w.LosesAtMost e (w.step e) := by
  cases e with
  | begins id c =>
    refine .inl ⟨?_, fun m ⟨_, _, _, _, hforsakes⟩ => hforsakes⟩
    rw [step]
    split <;> rfl
  | stirs x => exact .inl ⟨rfl, fun m ⟨_, _, _, _, hforsakes⟩ => hforsakes⟩
  | drops id =>
    rw [step]
    cases hcall : w.calls.lookup id with
    | none =>
      refine .inl ⟨rfl, ?_⟩
      rintro m ⟨id', i, key, hcall', rfl⟩
      exact absurd (hcall'.symm.trans hcall) (Option.some_ne_none _)
    | some c => exact losesAtMost_drop (h _ (mem_of_lookup hcall)) hcall
  | turns t =>
    rw [step]
    cases hcall : w.calls.lookup t.id with
    | none =>
      refine .inl ⟨rfl, ?_⟩
      rintro m ⟨id', i, key, hcall', rfl, -⟩
      exact absurd (hcall'.symm.trans hcall) (Option.some_ne_none _)
    | some c => exact losesAtMost_turn t (h _ (mem_of_lookup hcall)) hcall

/-- **With a store, every delivery is accounted for, and is lost only when its call is left without
an answer from the store.**  Let a client's payloads travel through a store, and let any number of
calls be in flight, in either mode and for either role, with all that may happen around them.  At
any moment, the bodies taken off the inbound channel are the first of what the daemon has written,
and each delivery among them is, once, one of

* those with which a call has concluded: the store has answered for it, or did not have to;
* those that a call has in hand while it asks the store;
* those that are kept, where the next call that wants them finds them;
* those that are lost.

A delivery is lost when the request for its payload fails or its call is dropped before it is made,
and at no other time: a call that fails or is dropped without a delivery in hand loses nothing.
The delivery that is lost is neither kept nor on the channel any more than it was, and the store
still has its payload, under the key that nobody is told again, unless the request that failed had
taken effect (`Backend.FailsSafely`). -/
theorem delivery_accounted {s : Session} (hshares : s.keys.isSome) (hlate : s.late = [])
    (b : Backend) (es : List Event) :
    let w := (start s b).run es
    (∃ taken, w.written = Frame.joined taken ++ w.inbox.pending ∧
      Frame.bodies w.written = taken ++ Frame.bodies w.inbox.pending ∧
      (w.concluded ++ w.lost ++ w.inHand ++ w.session.late).Perm
        (deliveries s.role.delivery taken)) ∧
      ∀ e, ((w.step e).lost = w.lost ∧ ∀ m, ¬ w.Loses e m) ∨
        ∃ m key, m.payloadKey = some key ∧ w.Loses e m ∧ (w.step e).lost = w.lost ++ [m] ∧
          (w.step e).session.late = w.session.late ∧
          (w.step e).inbox.pending = w.inbox.pending ∧
          (((∃ t, e = .turns t) → w.store.FailsSafely) →
            (w.step e).store.entries = w.store.entries) := by
  intro w
  have hw : w.Balance s.role := (Balance.start hshares hlate b).run es
  obtain ⟨taken, hstream, hshort, hbooks⟩ := hw.books
  refine ⟨⟨taken, hstream, ?_, hbooks⟩, losesAtMost_step hw.fits⟩
  rw [hstream]
  exact (Frame.bodies_joined_append w.inbox.pending taken hshort).1

/-- A listener is dropped with a delivery in hand; the one after it is handed out in full. -/
theorem delivery_accounted_dropped :
    let s : Session :=
      { identifier := "z", role := .application, config := ⟨.push, some ⟨"store", 6379, 0⟩⟩,
        keys := some ⟨"z", 0⟩, responseWindow := .ofSeconds 1, link := {} }
    let letter (key : String) : Message :=
      { Message.bare .forward .daemon .message with payload := some (.key key) }
    let b : Backend := { entries := [("k", "hello".toUTF8), ("l", "world".toUTF8)] }
    let arrival (m : Message) : Event :=
      .stirs (.arrives .recv ((m.encode.map Frame.wrap).toOption.getD .empty))
    let turn (id : CallId) : Event := .turns ⟨id, ⟨0⟩, 0⟩
    let es := [.begins 0 (.ofIntake (.listen false)), turn 0, turn 0, arrival (letter "k"),
      arrival (letter "l"), turn 0, .drops 0, .begins 1 (.ofIntake (.listen false)), turn 1, turn 1,
      turn 1]
    s.keys.isSome ∧ s.late = [] ∧ ((start s b).run es).concluded = [letter "l"] ∧
      ((start s b).run es).lost = [letter "k"] ∧ ((start s b).run es).inHand = [] ∧
      ((start s b).run es).session.late = [] ∧
      ((start s b).run es).store.get? "k" = some "hello".toUTF8 ∧
      ∃ taken, [letter "l", letter "k"].Perm (deliveries .receive taken) := by
  intro s letter b arrival turn es
  have hconcluded : ((start s b).run es).concluded = [letter "l"] := by decide +kernel
  have hlost : ((start s b).run es).lost = [letter "k"] := by decide +kernel
  have hhand : ((start s b).run es).inHand = [] := by decide +kernel
  have hlate : ((start s b).run es).session.late = [] := by decide +kernel
  have hstore : ((start s b).run es).store.get? "k" = some "hello".toUTF8 := by decide +kernel
  obtain ⟨⟨taken, -, -, hperm⟩, -⟩ := delivery_accounted (s := s) rfl rfl b es
  rw [hconcluded, hlost, hhand, hlate] at hperm
  exact ⟨rfl, rfl, hconcluded, hlost, hhand, hlate, hstore, taken, hperm⟩

/-- …but the call that loses a delivery had taken it off the channel.  Whether the store fails for a
simulator that wants the payload or an application that listens is dropped, the next call finds
nothing, though the store has the payload. -/
theorem delivery_gone :
    let s (role : Role) : Session :=
      { identifier := "z", role, config := ⟨.push, some ⟨"store", 6379, 0⟩⟩,
        keys := some ⟨"z", 0⟩, responseWindow := .ofSeconds 1, link := {} }
    let letter : Message :=
      { Message.bare .forward .daemon .message with payload := some (.key "k") }
    let b (failing : List StoreOperation) : Backend :=
      { entries := [("k", "hello".toUTF8)], failing }
    let turn (id : CallId) : Event := .turns ⟨id, ⟨0⟩, 0⟩
    let takes (i : Intake) : List Event := [.begins 0 (.ofIntake i), turn 0,
      .stirs (.arrives .recv ((letter.encode.map Frame.wrap).toOption.getD .empty)), turn 0]
    let again (i : Intake) : List Event := [.begins 1 (.ofIntake i), turn 1]
    let failed := (start (s .simulator) (b [.peek])).run (takes (.fetch none none true)
      ++ turn 0 :: again (.fetch none (some (.ofSeconds 0)) false))
    let dropped := (start (s .application) (b [])).run (takes (.listen false)
      ++ .drops 0 :: again (.receive none (some (.ofSeconds 0))))
    let Gone (w : Desk) : Prop :=
      w.lost = [letter] ∧ w.session.late = [] ∧ w.inbox.pending = .empty ∧
        w.store.get? "k" = some "hello".toUTF8 ∧
        (w.calls.lookup 1).bind (fun c => (c.step ⟨1, ⟨0⟩, 0⟩ w.session w.store).2.2.reply?)
          = some (.delivery none)
    Gone failed ∧ Gone dropped := by
  intro s letter b turn takes again failed dropped Gone
  exact ⟨⟨by decide +kernel, by decide +kernel, by decide +kernel, by decide +kernel,
    by decide +kernel⟩, by decide +kernel, by decide +kernel, by decide +kernel, by decide +kernel,
    by decide +kernel⟩

/-! ## Vigil -/

/-- The account of what is overlooked: a call that has looked at what is kept finds nothing there
that it wants but what others have kept since. -/
structure Vigil (w : Desk) : Prop where
  distinct : (w.calls.map Prod.fst).Nodup
  missed : ∀ p ∈ w.calls, p.2.hasLooked →
    (w.session.late.filter (p.2.wants w.session)).Sublist (w.missed p.1)

theorem Vigil.start (s : Session) (b : Backend) : (start s b).Vigil where
  distinct := .nil
  missed _ h := absurd h List.not_mem_nil

/-- The other calls in flight have other numbers. -/
theorem Vigil.others (h : w.Vigil) (hc : (id, c) ∈ w.calls) :
    id ∉ (w.calls.erase (id, c)).map Prod.fst ∧
      ((w.calls.erase (id, c)).map Prod.fst).Nodup :=
  List.nodup_cons.mp <| ((List.perm_cons_erase hc).map Prod.fst).nodup_iff.mp h.distinct

theorem Vigil.ne_of_mem (h : w.Vigil) (hc : (id, c) ∈ w.calls) {p : CallId × Call}
    (hp : p ∈ w.calls.erase (id, c)) : p.1 ≠ id := by
  rintro rfl
  exact (h.others hc).1 (List.mem_map_of_mem hp)

/-- **What a call that has looked leaves behind in a step** is what it has missed. -/
theorem Vigil.own (h : w.Vigil) (t : Turn) (hc : (t.id, c) ∈ w.calls) (hlooked : c.hasLooked) :
    ((w.turn t c).session.late.filter (c.wants w.session)).Sublist ((w.turn t c).missed t.id) := by
  have hmissed : (w.turn t c).missed t.id = w.missed t.id := by
    rw [missed_turn, if_pos rfl, if_pos hlooked]
  have hlate : (w.turn t c).session.late.filter (c.wants w.session)
      = w.session.late.filter (c.wants w.session) :=
    (Call.step_heeds t c w.session w.store).own hlooked
  rw [hmissed, hlate]
  exact h.missed _ hc hlooked

/-- The call that has taken a step goes on under its number, if it does. -/
theorem Vigil.lookup_turn (h : w.Vigil) (t : Turn) (hc : (t.id, c) ∈ w.calls) :
    (w.turn t c).calls.lookup t.id = (c.step t w.session w.store).2.2.state? := by
  rw [calls_turn]
  cases (c.step t w.session w.store).2.2.state? with
  | some next => exact List.lookup_cons_self
  | none =>
    refine List.lookup_eq_none_iff.mpr fun p hp => ?_
    simpa using (h.ne_of_mem hc hp).symm

/-- **A step of a call keeps the account**: what it keeps is what the others miss. -/
theorem Vigil.turn (h : w.Vigil) (t : Turn) (hc : (t.id, c) ∈ w.calls) : (w.turn t c).Vigil := by
  have hheeds := Call.step_heeds t c w.session w.store
  have hwho : (w.turn t c).session.identifier = w.session.identifier :=
    (Call.step_terms t c w.session w.store).1
  obtain ⟨hfresh, hdistinct⟩ := h.others hc
  refine ⟨?_, fun p hp hlooked => ?_⟩
  · rw [calls_turn]
    cases (c.step t w.session w.store).2.2.state? with
    | none => exact hdistinct
    | some next => exact List.nodup_cons.mpr ⟨hfresh, hdistinct⟩
  · rw [Call.wants_congr hwho]
    rw [calls_turn] at hp
    rcases List.mem_append.mp hp with hp | hp
    · obtain ⟨next, hnext, rfl⟩ := Option.map_eq_some_iff.mp (Option.mem_toList.mp hp)
      obtain ⟨hwants, hlooks⟩ := hheeds.next.of_state? hnext
      rw [hwants]
      cases hbefore : c.hasLooked with
      | true => exact h.own t hc hbefore
      | false =>
        have hnone : (w.turn t c).session.late.filter (c.wants w.session) = [] :=
          List.filter_eq_nil_iff.mpr (hlooks hlooked hbefore)
        rw [hnone]
        exact List.nil_sublist _
    · have hold := h.missed p (List.mem_of_mem_erase hp) hlooked
      have hnew := hheeds.others.filter (p.2.wants w.session)
      rw [List.filter_append] at hnew
      rw [missed_turn, if_neg (h.ne_of_mem hc hp)]
      exact hnew.trans (hold.append List.filter_sublist)

/-- **Nothing that happens makes a call overlook more.** -/
theorem Vigil.step (h : w.Vigil) (e : Event) : (w.step e).Vigil := by
  cases e with
  | begins id c =>
    rw [Desk.step]
    split
    · next hbegins =>
      have hfresh : id ∉ w.calls.map Prod.fst := by
        intro hid
        obtain ⟨p, hp, rfl⟩ := List.mem_map.mp hid
        simpa using List.lookup_eq_none_iff.mp hbegins.2 p hp
      refine ⟨List.nodup_cons.mpr ⟨hfresh, h.distinct⟩, ?_⟩
      refine List.forall_mem_cons.mpr ⟨fun hlooked => ?_, h.missed⟩
      exact nomatch (Call.bare_of_isNew hbegins.1).2.symm.trans hlooked
    · exact h
  | turns t =>
    rw [Desk.step]
    cases hcall : w.calls.lookup t.id with
    | none => exact h
    | some c => exact h.turn t (mem_of_lookup hcall)
  | drops id =>
    rw [Desk.step]
    cases hcall : w.calls.lookup id with
    | none => exact h
    | some c =>
      refine ⟨(h.others (mem_of_lookup hcall)).2, fun p hp hlooked => ?_⟩
      have hwho : (w.session.abandon id).identifier = w.session.identifier := rfl
      change (w.session.late.filter (p.2.wants (w.session.abandon id))).Sublist _
      rw [Call.wants_congr hwho]
      exact h.missed p (List.mem_of_mem_erase hp) hlooked
  | stirs x =>
    refine ⟨h.distinct, fun p hp hlooked => ?_⟩
    change (w.session.late.filter (p.2.wants { w.session with link := _ })).Sublist _
    rw [Call.wants_congr rfl]
    exact h.missed p hp hlooked

/-- **…and so it is over a whole history.** -/
theorem Vigil.run (h : w.Vigil) (es : List Event) : (w.run es).Vigil := by
  induction es generalizing w with
  | nil => exact h
  | cons e es ih => exact ih (h.step e)

/-- **A call overlooks only what other calls have kept since it looked.**  Let any number of calls
be in flight at once, with all that may happen around them, and let one of them that pulls take its
next step, whatever comes of it: it may end with a delivery, with nothing because its time is up,
or with an error, or go on.

* While it drains the channel, it hands out the oldest kept delivery that it wants or nothing, and
  it goes on to ask only if nothing that is kept is wanted.
* When it has looked, what it leaves behind of the deliveries that it wants was kept by other calls
  since it looked, in this order: none of them was there when it looked, and none came to it. -/
theorem overlooks_only_missed (s : Session) (b : Backend) (es : List Event) {t : Turn} {i : Intake}
    {p : Pull.Phase}
    (hcall : ((start s b).run es).calls.lookup t.id = some (.intake i (.pulling p))) :
    let w := (start s b).run es
    let w' := w.step (.turns t)
    let wanted := (i.wanted w.session).accepts
    (p.isDraining →
      (∀ m, i.pulled? t (.pulling p) w.session = some m → w.session.late.find? wanted = some m) ∧
      ∀ p', w'.calls.lookup t.id = some (.intake i (.pulling p')) → p'.isDraining = false →
        ∀ m ∈ w'.session.late, ¬ wanted m) ∧
      (p.isDraining = false → (w'.session.late.filter wanted).Sublist (w'.missed t.id)) := by
  intro w w' wanted
  have hw : w.Vigil := (Vigil.start s b).run es
  have hmem := mem_of_lookup hcall
  have hw' : w' = w.turn t (.intake i (.pulling p)) := by
    change (w.calls.lookup t.id).elim w (w.turn t) = _
    rw [hcall]
    rfl
  rw [hw']
  refine ⟨fun hdrains => ⟨fun m hpulled => ?_, fun p' hnext hlooked => ?_⟩, fun hlooked => ?_⟩
  · obtain ⟨⟨body?, link, kept, -, -, hdeals⟩, -⟩ :=
      Pull.step_dealt t (i.wanted w.session) (i.timeout.getD w.session.responseWindow) p w.session
    have hout : Pull.handedOut? (Pull.step t (i.wanted w.session)
      (i.timeout.getD w.session.responseWindow) p w.session).2 = some m := hpulled
    rw [hout, hdrains] at hdeals
    exact hdeals.find?
  · rw [hw.lookup_turn t hmem] at hnext
    have hheeds := Call.step_heeds t (.intake i (.pulling p)) w.session w.store
    refine (hheeds.next.of_state? hnext).2 (Call.hasLooked_pulling.mpr hlooked) ?_
    rw [Call.hasLooked, hdrains]
    rfl
  · exact hw.own t hmem (Call.hasLooked_pulling.mpr hlooked)

/-- Two calls have asked, for `x` and for `y`.  The one for `x` reads what came for `y` and keeps
it, and the other has missed that. -/
theorem overlooks_only_missed_raced :
    let s : Session :=
      { identifier := "z", role := .application, config := {}, keys := none,
        responseWindow := .ofSeconds 1, link := {} }
    let letter : Message :=
      { Message.bare .receive .daemon .message with metadata := some { destination := some "y" } }
    let turn (id : CallId) : Event := .turns ⟨id, ⟨0⟩, 0⟩
    let asks (id : CallId) (destination : String) : List Event :=
      [.begins id (.ofIntake (.receive (some destination) none)), turn id, turn id, turn id, turn id,
        turn id, .stirs (.writes .recv .flushes), turn id, turn id]
    let es := asks 0 "x" ++ asks 1 "y"
      ++ [.stirs (.arrives .recv ((letter.encode.map Frame.wrap).toOption.getD .empty)), turn 0]
    let t : Turn := ⟨1, ⟨0⟩, 0⟩
    ((start s {}).run es).calls.lookup t.id
        = some (.intake (.receive (some "y") none) (.pulling (.listening ⟨1000000000⟩))) ∧
      (((start s {}).run es).step (.turns t)).missed t.id = [letter] ∧
      ((((start s {}).run es).step (.turns t)).session.late.filter
        (Wanted.addressedTo "y").accepts).Sublist [letter] := by
  intro s letter turn asks es t
  have hcall : ((start s {}).run es).calls.lookup t.id
      = some (.intake (.receive (some "y") none) (.pulling (.listening ⟨1000000000⟩))) := by
    decide +kernel
  have hmissed : (((start s {}).run es).step (.turns t)).missed t.id = [letter] := by
    decide +kernel
  obtain ⟨-, hleft⟩ := overlooks_only_missed s {} es hcall
  exact ⟨hcall, hmissed, hmissed ▸ hleft rfl⟩

/-- …so that a call ends with nothing because its time is up, while the delivery that it asked for
has been read and is kept. -/
theorem overlooked_by_asker :
    let s : Session :=
      { identifier := "z", role := .application, config := {}, keys := none,
        responseWindow := .ofSeconds 1, link := {} }
    let letter : Message :=
      { Message.bare .receive .daemon .message with metadata := some { destination := some "y" } }
    let turn (id : CallId) : Event := .turns ⟨id, ⟨0⟩, 0⟩
    let asks (id : CallId) (destination : String) : List Event :=
      [.begins id (.ofIntake (.receive (some destination) none)), turn id, turn id, turn id, turn id,
        turn id, .stirs (.writes .recv .flushes), turn id, turn id]
    let es := asks 0 "x" ++ asks 1 "y"
      ++ [.stirs (.arrives .recv ((letter.encode.map Frame.wrap).toOption.getD .empty)), turn 0]
    let w := (start s {}).run es
    (w.calls.lookup 1).bind
        (fun c => (c.step ⟨1, ⟨1000000000⟩, 0⟩ w.session w.store).2.2.reply?)
        = some (.delivery none) ∧
      (w.step (.turns ⟨1, ⟨1000000000⟩, 0⟩)).session.late = [letter] ∧
      (Wanted.addressedTo "y").accepts letter := by
  intro s letter turn asks es w
  exact ⟨by decide +kernel, by decide +kernel, by decide +kernel⟩

end Desk

end SimRelay
