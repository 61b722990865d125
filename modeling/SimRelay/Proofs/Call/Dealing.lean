import SimRelay.Proofs.Call.Bystanders
import SimRelay.Proofs.Call.Episode
import SimRelay.Proofs.Store.Dealings

/-!
# Proofs/Call/Dealing — what a step makes of deliveries, whoever else is at it

Any number of calls read the inbound channel of one client.  Two things can be said of a step of any
of them, whatever the others have done.

It loses no delivery but one (`Call.step_balances`): what was kept, what comes and what the call
has in hand are afterwards with the caller, in hand or kept, unless the store fails for the
delivery that the call has in hand.

And it heeds what is kept (`Call.step_heeds`): a call looks once, and asks only if nothing there is
wanted; from then on it keeps nothing that it wants itself.  What other calls keep, it does not see.
-/

namespace SimRelay

/-- The message of a delivery. -/
def Delivery.message : Delivery → Message
  | .received m => m
  | .fetched f => f.message

/-! ## Steps that do not pull -/

/-- The call has looked at what is kept, and has found nothing there that it wants. -/
def Call.hasLooked : Call → Bool
  | .intake _ (.pulling p) => !p.isDraining
  | _ => false

namespace Intake

variable {i : Intake} {s : Session}

/-- A session whose link alone may have changed, and a call that has not looked at what is kept. -/
def Rests (i : Intake) (s : Session)
    (r : Session × Progress Failure Phase (Option Delivery)) : Prop :=
  (∃ link, r.1 = { s with link }) ∧
    r.2.Leaves fun phase => (Call.intake i phase).hasLooked = false

theorem hearForwarded_rests (t : Turn) (i : Intake) (begins : Bool) (deadline : Option Instant)
    (s : Session) : i.Rests s (i.hearForwarded t begins deadline s) := by
  unfold hearForwarded
  split
  · next h =>
    refine ⟨Session.exists_link_of_hear h, ?_⟩
    dsimp only
    split
    · exact i.settle_leaves _ fun _ _ => rfl
    · exact trivial
  · next h => exact ⟨Session.exists_link_of_hear h, trivial⟩
  · next h => exact ⟨Session.exists_link_of_hear h, trivial⟩
  · next h => exact ⟨Session.exists_link_of_hear h, rfl⟩

/-- **Only a pull touches what is kept.** -/
theorem step_rests (t : Turn) (i : Intake) {phase : Phase} (s : Session) (b : Backend)
    (hphase : ∀ p, phase ≠ .pulling p) :
    i.Rests s ((i.step t phase s b).1, (i.step t phase s b).2.2) := by
  cases phase with
  | start =>
    simp only [step]
    split
    · exact ⟨⟨s.link, rfl⟩, rfl⟩
    · split
      · exact ⟨⟨s.link, rfl⟩, trivial⟩
      · split <;> exact ⟨⟨s.link, rfl⟩, rfl⟩
  | pulling p => exact absurd rfl (hphase p)
  | attending timeout => exact hearForwarded_rests t i true _ s
  | waiting deadline => exact hearForwarded_rests t i false deadline s
  | resolving m key => exact ⟨⟨s.link, rfl⟩, trivial⟩

/-- **A request that fails safely leaves the store's entries**, and its failure is what the call
hears. -/
theorem entries_of_resolve (m : Message) (key : String) (s : Session) (b : Backend) {e : Failure}
    (h : (resolve m key s b).2 = .error e) :
    (b.FailsSafely → (resolve m key s b).1.entries = b.entries) ∧
      ∃ fault, e = .error (.store fault) := by
  unfold resolve at h ⊢
  generalize s.role = role at h ⊢
  cases role with
  | application =>
    have hentries {fault : StoreError} (hfails : (b.checkOut key).2 = .error fault)
        (safe : b.FailsSafely) : (b.checkOut key).1.entries = b.entries :=
      Backend.entries_checkOut_of_error safe hfails
    dsimp only at h ⊢
    generalize b.checkOut key = r at h hentries ⊢
    obtain ⟨b', fault | _ | bytes⟩ := r
    · exact ⟨hentries rfl, fault, (Except.error.inj h).symm⟩
    · cases h
    · cases h
  | simulator =>
    have hentries := b.entries_peek key
    dsimp only at h ⊢
    generalize b.peek key = r at h hentries ⊢
    obtain ⟨b', fault | _ | bytes⟩ := r
    · exact ⟨fun _ => hentries, fault, (Except.error.inj h).symm⟩
    · cases h
    · cases h

end Intake

namespace Call

variable {s : Session}

/-- A call that receives changes the link and what is kept. -/
theorem exists_late_of_step (t : Turn) (i : Intake) (phase : Intake.Phase) (s : Session)
    (b : Backend) :
    ∃ link late, ((intake i phase).step t s b).1 = { s with link, late } := by
  by_cases hpulls : ∃ p, phase = .pulling p
  · obtain ⟨p, rfl⟩ := hpulls
    obtain ⟨⟨-, link, late, hsession, -, -⟩, -⟩ :=
      Pull.step_dealt t (i.wanted s) (i.timeout.getD s.responseWindow) p s
    exact ⟨link, late, hsession⟩
  · obtain ⟨⟨link, hsession⟩, -⟩ := i.step_rests t s b fun p hp => hpulls ⟨p, hp⟩
    exact ⟨link, s.late, hsession⟩

/-- **Whatever a call does, the client is who it was** and has a store if it had one. -/
theorem step_terms (t : Turn) (c : Call) (s : Session) (b : Backend) :
    (c.step t s b).1.identifier = s.identifier ∧ (c.step t s b).1.role = s.role ∧
      (c.step t s b).1.keys.isSome = s.keys.isSome := by
  cases hreceives : c.receives with
  | false =>
    have hspares := Call.step_spares t hreceives s b
    exact ⟨hspares.identifier, hspares.role, hspares.shares⟩
  | true =>
    cases c with
    | intake i phase =>
      obtain ⟨link, late, hsession⟩ := exists_late_of_step t i phase s b
      rw [hsession]
      exact ⟨rfl, rfl, rfl⟩
    | _ => exact nomatch hreceives

/-! ## Balance -/

/-- The delivery that a call has in hand while it asks the store for the payload. -/
def inHand? : Call → Option Message
  | .intake _ (.resolving m _) => some m
  | _ => none

/-- The delivery with which a step that goes so concludes its call: the store has answered for it,
whatever it has answered, or did not have to. -/
def concluded? : Call → Progress Failure Call Reply → Option Message
  | .intake _ (.resolving m _), .ends (.ok _) => some m
  | .intake _ (.resolving _ _), _ => none
  | .intake _ _, .ends (.ok (.delivery (some d))) => some d.message
  | _, _ => none

/-- The delivery that is gone with a step that goes so: the store has failed for it. -/
def lost? : Call → Progress Failure Call Reply → Option Message
  | .intake _ (.resolving m _), .ends (.error _) => some m
  | _, _ => none

theorem eq_resolving_of_inHand? {c : Call} {m : Message} (h : c.inHand? = some m) :
    ∃ i key, c = .intake i (.resolving m key) := by
  unfold inHand? at h
  split at h
  · next i m' key =>
    obtain rfl := Option.some.inj h
    exact ⟨i, key, rfl⟩
  · exact nomatch h

theorem eq_resolving_of_lost? {c : Call} {m : Message} {p : Progress Failure Call Reply}
    (h : c.lost? p = some m) :
    ∃ i key e, c = .intake i (.resolving m key) ∧ p = .ends (.error e) := by
  unfold lost? at h
  split at h
  · next i m' key e =>
    obtain rfl := Option.some.inj h
    exact ⟨i, key, e, rfl, rfl⟩
  · exact nomatch h

/-- **When the store fails for a delivery**, the session is as it was, and so are the entries if
the store fails safely. -/
theorem resolving_failed {t : Turn} {i : Intake} {m : Message} {key : String} {b : Backend}
    {e : Failure} (h : ((intake i (.resolving m key)).step t s b).2.2 = .ends (.error e)) :
    ((intake i (.resolving m key)).step t s b).1 = s ∧
      (b.FailsSafely → ((intake i (.resolving m key)).step t s b).2.1.entries = b.entries) ∧
      ∃ fault, e = .error (.store fault) := by
  have hresolve {e : Failure} := Intake.entries_of_resolve m key s b (e := e)
  refine ⟨rfl, ?_⟩
  simp only [step, Intake.step] at h ⊢
  generalize Intake.resolve m key s b = r at h hresolve ⊢
  obtain ⟨b', e' | delivery⟩ := r
  · obtain rfl : e' = e := Except.error.inj (Progress.ends.inj h)
    exact hresolve rfl
  · cases h

/-- What becomes of deliveries in a step that goes so, but for those that are kept. -/
def outcome (c : Call) (p : Progress Failure Call Reply) : List Message :=
  (c.concluded? p).toList ++ (c.lost? p).toList ++ (p.state?.bind inHand?).toList

end Call

namespace Intake

variable {i : Intake} {s : Session}

/-- The delivery that a step has taken, if it had none before: it is with the caller or in hand. -/
def taken? (i : Intake) : Progress Failure Phase (Option Delivery) → Option Message
  | .ends (.ok (some d)) => some d.message
  | .ends _ => none
  | .waits phase => (Call.intake i phase).inHand?
  | .goes phase => (Call.intake i phase).inHand?

theorem outcome_lift {phase : Phase} (hphase : (Call.intake i phase).inHand? = none)
    (p : Progress Failure Phase (Option Delivery)) :
    (Call.intake i phase).outcome (Call.lift (.intake i) .delivery p) = (i.taken? p).toList := by
  cases phase with
  | resolving m key => exact nomatch hphase
  | _ =>
    match p with
    | .waits _ => rfl
    | .goes _ => rfl
    | .ends (.ok (some _)) => rfl
    | .ends (.ok none) => rfl
    | .ends (.error _) => rfl

/-- **With a store, no delivery is let go**: it goes to the caller or is resolved by its key. -/
theorem taken?_settle (hshares : s.keys.isSome) (i : Intake) (m : Message) :
    i.taken? (i.settle s m) = some m := by
  unfold settle
  split
  · rfl
  · rw [if_pos hshares]
    rfl
  · split <;> rfl
  · rfl

/-- A pull that has handed something out has it settled. -/
theorem taken?_pulled (hshares : s.keys.isSome) (i : Intake) :
    ∀ p : Progress Failure Pull.Phase (Option Message),
      i.taken? (p.andThen .pulling (i.settlePulled s) fun e => .ends (.error e))
        = Pull.handedOut? p
  | .waits _ => rfl
  | .goes _ => rfl
  | .ends (.error _) => rfl
  | .ends (.ok none) => rfl
  | .ends (.ok (some m)) => i.taken?_settle hshares m

end Intake

/-- Nothing is lost between what is kept and what has come. -/
theorem Pull.Deals.perm {wanted : Wanted} {late came kept : List Message} {drains : Bool}
    {out : Option Message} (h : Pull.Deals wanted late came drains out kept) :
    (late ++ came).Perm (out.toList ++ kept) := by
  cases h with
  | keeps => exact .refl _
  | passes only => exact only ▸ List.perm_append_comm
  | finds nothing split =>
    rw [nothing, split, List.append_nil]
    exact List.perm_middle

/-- What a pull finds is the oldest that it wants. -/
theorem Pull.Deals.find? {wanted : Wanted} {late came kept : List Message} {m : Message}
    (h : Pull.Deals wanted late came true (some m) kept) :
    late.find? wanted.accepts = some m := by
  cases h with
  | @finds before after _ nothing split fits oldest =>
    refine List.find?_eq_some_iff_append.mpr ⟨fits, before, after, split, fun x hx => ?_⟩
    simpa using oldest x hx

/-- What joins those that are kept, joins them at the end. -/
theorem Pull.Deals.sublist {wanted : Wanted} {late came kept : List Message} {drains : Bool}
    {out : Option Message} (h : Pull.Deals wanted late came drains out kept) :
    kept.Sublist (late ++ kept.drop late.length) := by
  cases h with
  | keeps => exact List.drop_left ▸ .refl _
  | passes => exact List.sublist_append_left late _
  | @finds before after m nothing split =>
    have hkept : (before ++ after).Sublist late :=
      split ▸ (List.Sublist.refl before).append (List.sublist_cons_self m after)
    exact hkept.trans (List.sublist_append_left late _)

namespace Call

variable {s : Session} {c : Call}

/-- What a step makes of deliveries: those that were in hand, kept or have come are concluded, lost,
in hand or kept. -/
def Balances (c : Call) (s : Session) (r : Session × Backend × Progress Failure Call Reply) : Prop :=
  ∃ body?, (s.link.inbox .recv).Handed body? (r.1.link.inbox .recv) ∧
    (c.inHand?.toList ++ s.late ++ deliveries s.role.delivery body?.toList).Perm
      (c.outcome r.2.2 ++ r.1.late)

/-- A step that reads nothing and keeps what is kept. -/
theorem Balances.rests {r : Session × Backend × Progress Failure Call Reply}
    (hlate : r.1.late = s.late)
    (hrecv : (s.link.inbox .recv).Handed none (r.1.link.inbox .recv))
    (houtcome : c.outcome r.2.2 = c.inHand?.toList) : c.Balances s r := by
  refine ⟨none, hrecv, ?_⟩
  rw [hlate, houtcome]
  exact .of_eq (List.append_nil _)

/-- A step of a call that takes no delivery. -/
theorem Balances.of_spares {σ α : Type} {f : σ → Call} {g : α → Reply} {s' : Session}
    (hc : c.receives = false) (hf : ∀ state, (f state).inHand? = none) (h : s.Spares s')
    (b : Backend) (p : Progress Failure σ α) : c.Balances s (s', b, lift f g p) := by
  refine .rests h.late h.recv ?_
  have hnext : (lift f g p).state?.bind inHand? = none :=
    match p with
    | .waits state => hf state
    | .goes state => hf state
    | .ends (.ok _) => rfl
    | .ends (.error _) => rfl
  rw [outcome, hnext]
  cases c with
  | intake i phase => exact nomatch hc
  | _ => rfl

/-- A step that hears what is forwarded. -/
theorem hearForwarded_balances (hshares : s.keys.isSome) (t : Turn) (i : Intake)
    {phase : Intake.Phase} (hphase : (intake i phase).inHand? = none) (begins : Bool)
    (deadline : Option Instant) (b : Backend) :
    let r := i.hearForwarded t begins deadline s
    (intake i phase).Balances s (r.1, b, lift (.intake i) .delivery r.2) := by
  intro r
  obtain ⟨body?, j, hsession, hhanded, hheard⟩ := s.hear_spec t .recv begins deadline
  have hsettled {heard : Session.Heard} {s' : Session}
      (hhear : s.hear t .recv begins deadline = (heard, s'))
      {progress : Progress Failure Intake.Phase (Option Delivery)}
      (htaken : i.taken? progress = heard.message?.filter (Message.isDelivery s.role.delivery)) :
      (intake i phase).Balances s (s', b, lift (.intake i) .delivery progress) := by
    rw [hhear] at hsession hheard
    obtain rfl : s' = _ := hsession
    refine ⟨body?, ?_, ?_⟩
    · rw [Link.inbox_setInbox, if_pos rfl]
      exact hhanded
    · rw [deliveries_toList, ← hheard, Intake.outcome_lift hphase, htaken, hphase]
      exact List.perm_append_comm
  have hr : r = i.hearForwarded t begins deadline s := rfl
  clear_value r
  unfold Intake.hearForwarded at hr
  split at hr
  · next m s' hhear =>
    obtain ⟨link, rfl⟩ := Session.exists_link_of_hear hhear
    rw [hr]
    refine hsettled hhear ?_
    dsimp only [Session.Heard.message?]
    split
    · next hdelivery =>
      rw [Option.filter_some_pos hdelivery]
      exact i.taken?_settle hshares m
    · next hother =>
      rw [Option.filter_some_neg (eq_false_of_ne_true hother)]
      rfl
  · next hhear => exact hr ▸ hsettled hhear rfl
  · next hhear => exact hr ▸ hsettled hhear rfl
  · next hhear => exact hr ▸ hsettled hhear rfl

/-- A step that pulls. -/
theorem pulling_balances (hshares : s.keys.isSome) (t : Turn) (i : Intake) (p : Pull.Phase)
    (b : Backend) :
    (intake i (.pulling p)).Balances s ((intake i (.pulling p)).step t s b) := by
  obtain ⟨⟨body?, link, kept, hsession, hhanded, hdeals⟩, -⟩ :=
    Pull.step_dealt t (i.wanted s) (i.timeout.getD s.responseWindow) p s
  simp only [step, Intake.step]
  generalize Pull.step t (i.wanted s) (i.timeout.getD s.responseWindow) p s = r
    at hsession hdeals ⊢
  obtain ⟨s', progress⟩ := r
  obtain rfl : s' = _ := hsession
  refine ⟨body?, hhanded, ?_⟩
  have hafter : Session.keys { s with link, late := kept } = s.keys := rfl
  rw [Intake.outcome_lift rfl, Intake.taken?_pulled (hafter ▸ hshares) i]
  exact hdeals.perm

/-- **A step loses no delivery but the one in hand**, and that one only if the store fails. -/
theorem step_balances (hshares : s.keys.isSome) (t : Turn) (c : Call) (b : Backend) :
    c.Balances s (c.step t s b) := by
  have hsame : (s.link.inbox .recv).Handed none (s.link.inbox .recv) := Inbox.handed_none rfl rfl
  cases c with
  | ping timeout phase =>
    exact .of_spares rfl (fun _ => rfl) (Ping.spares_step t _ phase s) b _
  | hand x phase =>
    exact .of_spares rfl (fun _ => rfl) (x.spares_step t phase s b) _ _
  | exit phase =>
    exact .of_spares rfl (fun _ => rfl) (Exit.spares_step t phase s) b _
  | intake i phase =>
    cases phase with
    | start =>
      simp only [step, Intake.step]
      split
      · exact .rests rfl hsame rfl
      · split
        · exact .rests rfl hsame rfl
        · split <;> exact .rests rfl hsame rfl
    | pulling p => exact pulling_balances hshares t i p b
    | attending timeout => exact hearForwarded_balances hshares t i rfl true _ b
    | waiting deadline => exact hearForwarded_balances hshares t i rfl false deadline b
    | resolving m key =>
      simp only [step, Intake.step]
      generalize Intake.resolve m key s b = r
      obtain ⟨b', e | delivery⟩ := r
      · exact .rests rfl hsame rfl
      · exact .rests rfl hsame rfl

/-! ## Heed -/

theorem hasLooked_pulling {i : Intake} {p : Pull.Phase} :
    (intake i (.pulling p)).hasLooked ↔ p.isDraining = false := by
  rw [hasLooked, Bool.not_eq_true']

/-- Which deliveries a call wants. -/
def wants (s : Session) : Call → Message → Bool
  | .intake i _ => (i.wanted s).accepts
  | _ => fun _ => false

/-- A call wants the same whatever else has changed. -/
theorem wants_congr {s' : Session} (h : s'.identifier = s.identifier) :
    ∀ c : Call, c.wants s' = c.wants s
  | .intake i _ => congrArg Wanted.accepts (Intake.wanted_congr h i)
  | .ping _ _ | .hand _ _ | .exit _ => rfl

/-- What a step makes of what is kept: others may find more there than before; the call itself, when
it has looked, leaves there what it wants if that was there; and when it looks, it goes on only if
nothing there is wanted. -/
structure Heeds (c : Call) (s : Session) (r : Session × Backend × Progress Failure Call Reply) :
    Prop where
  others : r.1.late.Sublist (s.late ++ r.1.late.drop s.late.length)
  own : c.hasLooked → r.1.late.filter (c.wants s) = s.late.filter (c.wants s)
  next : r.2.2.Leaves fun c' => c'.wants s = c.wants s ∧
    (c'.hasLooked → c.hasLooked = false → ∀ m ∈ r.1.late, ¬ c.wants s m)

/-- A step that keeps what is kept, of a call that has not looked at it. -/
theorem Heeds.rests {r : Session × Backend × Progress Failure Call Reply}
    (hlate : r.1.late = s.late) (hc : c.hasLooked = false)
    (hnext : r.2.2.Leaves fun c' => c'.wants s = c.wants s ∧ c'.hasLooked = false) :
    c.Heeds s r where
  others := hlate ▸ List.sublist_append_left _ _
  own hlooked := nomatch hc.symm.trans hlooked
  next := hnext.mono fun _ h => ⟨h.1, fun hlooked => nomatch h.2.symm.trans hlooked⟩

/-- A step that pulls. -/
theorem pulling_heeds (t : Turn) (i : Intake) (p : Pull.Phase) (s : Session) (b : Backend) :
    (intake i (.pulling p)).Heeds s ((intake i (.pulling p)).step t s b) := by
  obtain ⟨⟨body?, link, kept, hsession, -, hdeals⟩, hnext⟩ :=
    Pull.step_dealt t (i.wanted s) (i.timeout.getD s.responseWindow) p s
  simp only [step, Intake.step]
  generalize Pull.step t (i.wanted s) (i.timeout.getD s.responseWindow) p s = r
    at hsession hdeals hnext ⊢
  obtain ⟨s', progress⟩ := r
  obtain rfl : s' = _ := hsession
  refine ⟨hdeals.sublist, fun hlooked => ?_, leaves_lift (hnext.andThen (fun p' hp' => ?_)
    (fun out => ?_) fun _ => trivial)⟩
  · rw [hasLooked_pulling.mp hlooked] at hdeals
    exact hdeals.filter_kept
  · refine ⟨rfl, fun hlooked' hlooked => ?_⟩
    have hdrains : p.isDraining = true := by simpa [hasLooked] using hlooked
    rw [hdrains] at hp'
    exact Pull.Phase.Settled.unwanted hp' (hasLooked_pulling.mp hlooked')
  · cases out with
    | none => exact trivial
    | some m =>
      exact i.settle_leaves _ fun _ _ => ⟨rfl, fun hlooked' => absurd hlooked' Bool.false_ne_true⟩

/-- **A call looks once at what is kept**, and asks only if it wants nothing there; from then on it
keeps nothing that it wants. -/
theorem step_heeds (t : Turn) (c : Call) (s : Session) (b : Backend) :
    c.Heeds s (c.step t s b) := by
  cases c with
  | ping timeout phase =>
    refine .rests (Ping.spares_step t _ phase s).late rfl ?_
    exact leaves_lift ((Progress.leaves_true _).mono fun _ _ => ⟨rfl, rfl⟩)
  | hand x phase =>
    refine .rests (x.spares_step t phase s b).late rfl ?_
    exact leaves_lift ((Progress.leaves_true _).mono fun _ _ => ⟨rfl, rfl⟩)
  | exit phase =>
    refine .rests (Exit.spares_step t phase s).late rfl ?_
    exact leaves_lift ((Progress.leaves_true _).mono fun _ _ => ⟨rfl, rfl⟩)
  | intake i phase =>
    by_cases hpulls : ∃ p, phase = .pulling p
    · obtain ⟨p, rfl⟩ := hpulls
      exact pulling_heeds t i p s b
    · have hphase (p : Pull.Phase) (hp : phase = .pulling p) : False := hpulls ⟨p, hp⟩
      obtain ⟨⟨link, hsession⟩, hnext⟩ := i.step_rests t s b hphase
      dsimp only at hsession
      have hlate : (i.step t phase s b).1.late = s.late := by rw [hsession]
      refine .rests hlate ?_ (leaves_lift (hnext.mono fun _ h => ⟨rfl, h⟩))
      cases phase with
      | pulling p => exact absurd rfl (hphase p)
      | _ => rfl

end Call

end SimRelay
