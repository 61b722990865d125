import SimRelay.Call.Intake
import SimRelay.Proofs.Call.Deliveries
import SimRelay.Proofs.Link.Outcome

/-!
# Proofs/Call/Pulling — one step of a call that pulls

A step of a pull reads one frame at most.  A pull that drains keeps the delivery it brings, if it
does, and looks at what is kept when no more comes; one that has asked hands out what it wants as it
comes, and keeps the rest (`Pull.step_dealt`).

So where calls come one after another, a step hands out the oldest delivery that is wanted or
nothing at all (`Pull.step_stepped`): a pull asks only when nothing that is kept is wanted
(`Phase.Settled`), and keeps nothing that is.

The whole of a receiving or fetching call is its pull and two steps that read nothing
(`Intake.step_moved`).
-/

namespace SimRelay

/-! ## Pulls -/

namespace Pull

variable {wanted : Wanted} {s : Session}

/-- The delivery with which a pull ends, if it ends with one. -/
def handedOut? : Progress Failure Phase (Option Message) → Option Message
  | .ends (.ok out) => out
  | _ => none

/-- The pull has not looked yet at what is kept. -/
def Phase.isDraining : Phase → Bool
  | .draining => true
  | .asking _ | .asked _ | .listening _ => false

/-- Behind the draining, nothing that is kept is wanted. -/
def Phase.Settled (wanted : Wanted) (kept : List Message) : Phase → Prop
  | .draining => True
  | .asking _ | .asked _ | .listening _ => ∀ m ∈ kept, ¬ wanted.accepts m

theorem Phase.settled_of_unwanted {kept : List Message} (h : ∀ m ∈ kept, ¬ wanted.accepts m) :
    ∀ phase : Phase, phase.Settled wanted kept
  | .draining => trivial
  | .asking _ | .asked _ | .listening _ => h

/-- What a step hands out of the deliveries that are kept and of those that have come, and what it
keeps.  Only one that drains looks at what is kept. -/
inductive Deals (wanted : Wanted) (late came : List Message) :
    Bool → Option Message → List Message → Prop
  /-- All are kept; behind the draining, nothing that is wanted joins them. -/
  | keeps {drains : Bool} (others : drains = false → ∀ m ∈ came, ¬ wanted.accepts m) :
      Deals wanted late came drains none (late ++ came)
  /-- What comes is wanted, and passes those that are kept. -/
  | passes {m : Message} (only : came = [m]) (fits : wanted.accepts m) :
      Deals wanted late came false (some m) late
  /-- The oldest that is wanted is found among those that are kept. -/
  | finds {before after : List Message} {m : Message} (nothing : came = [])
      (split : late = before ++ m :: after) (fits : wanted.accepts m)
      (oldest : ∀ x ∈ before, ¬ wanted.accepts x) :
      Deals wanted late came true (some m) (before ++ after)

namespace Deals

variable {late came kept : List Message} {drains : Bool} {out : Option Message}

/-- Nothing came, and nothing is handed out. -/
theorem rests (wanted : Wanted) (late : List Message) (drains : Bool) :
    Deals wanted late [] drains none late := by
  have h : Deals wanted late [] drains none (late ++ []) :=
    .keeps fun _ m hm => absurd hm List.not_mem_nil
  rwa [List.append_nil] at h

/-- **Behind the draining, what is kept has no more in it that is wanted** than it had. -/
theorem filter_kept (h : Deals wanted late came false out kept) :
    kept.filter wanted.accepts = late.filter wanted.accepts := by
  cases h with
  | keeps others =>
    rw [List.filter_append, List.filter_eq_nil_iff.mpr (others rfl), List.append_nil]
  | passes => rfl

/-- **Out of one row**, the oldest that is wanted is handed out or nothing at all, if nothing that
is kept behind the draining is wanted. -/
theorem moves (h : Deals wanted late came drains out kept)
    (hkept : drains = false → ∀ m ∈ late, ¬ wanted.accepts m) :
    Moves wanted (late ++ came) out kept := by
  cases h with
  | keeps => exact .keeps
  | passes only fits =>
    have h : Moves wanted (late ++ came) _ (late ++ []) := .hands (only ▸ rfl) fits (hkept rfl)
    rwa [List.append_nil] at h
  | finds nothing split fits oldest =>
    exact .hands (by rw [nothing, List.append_nil, split]) fits oldest

end Deals

/-- What a step that hands this out, or nothing, may do to a session: it takes a frame at most off
the inbound channel, and what it does not hand out it keeps. -/
def Moved (wanted : Wanted) (out : Option Message) (s s' : Session) : Prop :=
  ∃ body? link kept, s' = { s with link, late := kept } ∧
    (s.link.inbox .recv).Handed body? (link.inbox .recv) ∧
    Moves wanted (s.late ++ deliveries s.role.delivery body?.toList) out kept

/-- What holds of the session and the progress that a step of a pull leaves behind: it takes a frame
at most off the inbound channel and deals with the delivery in it; and when it has looked, nothing
that is kept is wanted. -/
structure Dealt (wanted : Wanted) (drains : Bool) (s : Session)
    (r : Session × Progress Failure Phase (Option Message)) : Prop where
  deals : ∃ body? link kept, r.1 = { s with link, late := kept } ∧
    (s.link.inbox .recv).Handed body? (link.inbox .recv) ∧
    Deals wanted s.late (deliveries s.role.delivery body?.toList) drains (handedOut? r.2) kept
  next : r.2.Leaves fun phase => if drains then phase.Settled wanted r.1.late
    else phase.isDraining = false

section Hearing

variable {t : Turn} {begins drains : Bool} {deadline : Option Instant} {heard : Session.Heard}
  {s' : Session} {kept : List Message}
  {progress : Progress Failure Phase (Option Message)}

/-- A step that hears something. -/
theorem Dealt.of_hear (hhear : s.hear t .recv begins deadline = (heard, s'))
    (hdeals : Deals wanted s.late
      (heard.message?.filter (Message.isDelivery s.role.delivery)).toList drains
      (handedOut? progress) kept)
    (hnext : progress.Leaves fun phase => if drains then phase.Settled wanted kept
      else phase.isDraining = false) :
    Dealt wanted drains s ({ s' with late := kept }, progress) := by
  obtain ⟨body?, i, hsession, hhanded, hheard⟩ := s.hear_spec t .recv begins deadline
  rw [hhear] at hsession hheard
  obtain rfl : s' = _ := hsession
  refine ⟨⟨body?, s.link.setInbox .recv i, kept, rfl, ?_, ?_⟩, hnext⟩
  · rw [Link.inbox_setInbox, if_pos rfl]
    exact hhanded
  · rw [deliveries_toList, ← hheard]
    exact hdeals

/-- A step that hears no delivery and hands nothing out. -/
theorem Dealt.of_quiet (hhear : s.hear t .recv begins deadline = (heard, s'))
    (hquiet : heard.message?.filter (Message.isDelivery s.role.delivery) = none)
    (hnone : handedOut? progress = none)
    (hnext : progress.Leaves fun phase => if drains then phase.Settled wanted s.late
      else phase.isDraining = false) :
    Dealt wanted drains s (s', progress) := by
  obtain ⟨link, rfl⟩ := Session.exists_link_of_hear hhear
  refine .of_hear hhear ?_ hnext
  rw [hquiet, hnone]
  exact .rests wanted s.late drains

end Hearing

/-- A step that gets on with asking. -/
theorem Dealt.of_say {o : Outbox} {progress : Progress Failure Phase (Option Message)}
    (hnone : handedOut? progress = none)
    (hnext : progress.Leaves fun phase => phase.isDraining = false) :
    Dealt wanted false s ({ s with link := s.link.setOutbox .recv o }, progress) := by
  refine ⟨⟨none, s.link.setOutbox .recv o, s.late, rfl, ?_, ?_⟩, hnext⟩
  · rw [Link.inbox_setOutbox]
    exact Inbox.handed_none rfl rfl
  · rw [hnone]
    exact .rests wanted s.late false

/-- **An attempt at hearing the answer.** -/
theorem hearAnswer_dealt (t : Turn) (begins : Bool) (deadline : Instant) :
    Dealt wanted false s (hearAnswer t wanted begins deadline s) := by
  unfold hearAnswer
  split
  · next m s' hhear =>
    obtain ⟨link, rfl⟩ := Session.exists_link_of_hear hhear
    dsimp only
    split
    · next hno =>
      exact .of_quiet hhear (Option.filter_some_neg (eq_false_of_ne_true hno)) rfl trivial
    · next hyes =>
      have hyes := Decidable.not_not.mp hyes
      split
      · next hfits =>
        refine .of_hear hhear ?_ trivial
        rw [Session.Heard.message?, Option.filter_some_pos hyes]
        exact .passes rfl hfits
      · next hother =>
        refine .of_hear hhear ?_ rfl
        rw [Session.Heard.message?, Option.filter_some_pos hyes]
        exact .keeps fun _ x hx => List.mem_singleton.mp hx ▸ hother
  · next hhear => exact .of_quiet hhear rfl rfl trivial
  · next hhear => exact .of_quiet hhear rfl rfl trivial
  · next hhear => exact .of_quiet hhear rfl rfl rfl

/-- **An attempt at draining**: what comes is kept, and when nothing more comes, the oldest that is
wanted answers the call. -/
theorem drain_dealt (t : Turn) (timeout : Duration) :
    Dealt wanted true s (step t wanted timeout .draining s) := by
  rw [step]
  split
  · next m s' hhear =>
    obtain ⟨link, rfl⟩ := Session.exists_link_of_hear hhear
    by_cases hm : m.isDelivery s.role.delivery
    · rw [if_pos hm]
      refine .of_hear hhear ?_ trivial
      rw [Session.Heard.message?, Option.filter_some_pos hm]
      exact .keeps nofun
    · rw [if_neg hm]
      exact .of_quiet hhear (Option.filter_some_neg (eq_false_of_ne_true hm)) rfl trivial
  · next hhear => exact .of_quiet hhear rfl rfl trivial
  · next heard s' hmessage hfailure hhear =>
    obtain ⟨link, rfl⟩ := Session.exists_link_of_hear hhear
    have hnone : heard.message? = none := by
      cases heard with
      | message m => exact absurd rfl (hmessage m)
      | failure e => rfl
      | nothing => rfl
      | inLine => rfl
    split
    · next m s'' htake =>
      obtain ⟨before, after, hlate, hfits, holdest, rfl⟩ := Session.takeLate_eq_some htake
      refine .of_hear hhear ?_ trivial
      rw [hnone]
      exact .finds rfl hlate hfits holdest
    · next htake =>
      have hkept := Session.takeLate_eq_none htake
      have hquiet : heard.message?.filter (Message.isDelivery s.role.delivery) = none := by
        rw [hnone]
        rfl
      exact .of_quiet hhear hquiet rfl hkept

/-- A step that gets on with asking. -/
theorem ask_dealt (t : Turn) (timeout : Duration) (x : Session.Saying) :
    Dealt wanted false s (step t wanted timeout (.asking x) s) := by
  obtain ⟨o, hsession⟩ := s.say_spec t .recv x
  rw [step]
  dsimp only
  rw [hsession]
  -- whatever becomes of the saying, nothing comes and nothing is handed out
  cases (s.say t .recv x).2 with
  | waits x => exact .of_say rfl rfl
  | goes x => exact .of_say rfl rfl
  | ends r =>
    cases r with
    | error e => exact .of_say rfl trivial
    | ok _ =>
      dsimp only [Progress.andThen]
      split
      · exact .of_say rfl rfl
      · exact .of_say rfl trivial

/-- **A step of a pull**: one frame at most comes in, one delivery at most goes out, and what is
not handed out is kept.  A pull looks once at what is kept, when it has drained the channel, and
asks only if nothing there is wanted. -/
theorem step_dealt (t : Turn) (wanted : Wanted) (timeout : Duration) (phase : Phase)
    (s : Session) : Dealt wanted phase.isDraining s (step t wanted timeout phase s) := by
  cases phase with
  | draining => exact drain_dealt t timeout
  | asking x => exact ask_dealt t timeout x
  | asked deadline => exact hearAnswer_dealt t true deadline
  | listening deadline => exact hearAnswer_dealt t false deadline

/-- What holds of the session and the progress that a step of a pull leaves behind, if nothing that
it could have found is wanted. -/
structure Stepped (wanted : Wanted) (s : Session)
    (r : Session × Progress Failure Phase (Option Message)) : Prop where
  moved : Moved wanted (handedOut? r.2) s r.1
  settled : r.2.Leaves (Phase.Settled wanted r.1.late)

theorem Phase.Settled.unwanted {phase : Phase} {kept : List Message}
    (h : phase.Settled wanted kept) (hlooked : phase.isDraining = false) :
    ∀ m ∈ kept, ¬ wanted.accepts m := by
  cases phase with
  | draining => exact nomatch hlooked
  | asking x => exact h
  | asked deadline => exact h
  | listening deadline => exact h

/-- **A step of a pull that has the channel to itself**: what it hands out is the oldest that is
wanted, and nothing that it keeps behind the draining is wanted. -/
theorem step_stepped (t : Turn) (timeout : Duration) {phase : Phase}
    (hphase : phase.Settled wanted s.late) : Stepped wanted s (step t wanted timeout phase s) := by
  obtain ⟨⟨body?, link, kept, hsession, hhanded, hdeals⟩, hnext⟩ :=
    step_dealt t wanted timeout phase s
  rw [hsession] at hnext
  refine ⟨⟨body?, link, kept, hsession, hhanded, hdeals.moves hphase.unwanted⟩, ?_⟩
  rw [hsession]
  cases hdrains : phase.isDraining with
  | true =>
    rw [hdrains] at hnext
    exact hnext
  | false =>
    rw [hdrains] at hdeals
    have hkept : ∀ m ∈ kept, ¬ wanted.accepts m := by
      refine List.filter_eq_nil_iff.mp (hdeals.filter_kept.trans ?_)
      exact List.filter_eq_nil_iff.mpr (hphase.unwanted hdrains)
    exact (Progress.leaves_true _).mono fun next _ => next.settled_of_unwanted hkept

end Pull

/-! ## Calls -/

/-- What a client of this role can ask for: an application by destination, a simulator by source. -/
def Role.intake (role : Role) (end? : Option String) (timeout : Option Duration)
    (wantPayload : Bool) : Intake :=
  match role with
  | .application => .receive end? timeout
  | .simulator => .fetch end? timeout wantPayload

namespace Intake

variable {i : Intake} {s : Session}

/-- A call means the same client whatever else has changed. -/
theorem wanted_congr {s' : Session} (h : s'.identifier = s.identifier) :
    ∀ i : Intake, i.wanted s' = i.wanted s
  | .receive destination _ => congrArg (fun own => Wanted.addressedTo (destination.getD own)) h
  | .fetch _ _ _ => rfl
  | .listen _ => rfl

/-- The delivery that the pull of a call hands out in a step, if it does. -/
def pulled? (t : Turn) (i : Intake) (phase : Phase) (s : Session) : Option Message :=
  match phase with
  | .pulling p =>
    Pull.handedOut? (Pull.step t (i.wanted s) (i.timeout.getD s.responseWindow) p s).2
  | _ => none

/-- A call of a client of this role. -/
def Fits (role : Role) (i : Intake) : Prop :=
  ∃ end? timeout want, i = role.intake end? timeout want

theorem Fits.suits (h : i.Fits s.role) : (i.wanted s).Suits s.role := by
  obtain ⟨end?, timeout, want, rfl⟩ := h
  cases hrole : s.role with
  | application => exact rfl
  | simulator => exact rfl

/-- A call that waits for nothing but its pull. -/
def Phase.Settled (wanted : Wanted) (kept : List Message) : Phase → Prop
  | .start | .resolving _ _ => True
  | .pulling p => p.Settled wanted kept
  | .attending _ | .waiting _ => False

/-- A step that reads nothing. -/
theorem moved_none (wanted : Wanted) (s : Session) : Pull.Moved wanted none s s :=
  ⟨none, s.link, s.late, rfl, Inbox.handed_none rfl rfl,
    (Pull.Deals.rests wanted s.late true).moves nofun⟩

/-- What is left to do with a delivery, if anything, is to resolve it by its own key. -/
theorem settle_leaves {P : Phase → Prop} (i : Intake) (s : Session) {m : Message}
    (h : ∀ key, m.payloadKey = some key → P (.resolving m key)) : (i.settle s m).Leaves P := by
  unfold settle
  split
  · exact trivial
  · next key _ hkey =>
    split
    · exact h key hkey
    · exact trivial
  · next key _ hkey =>
    split
    · exact h key hkey
    · exact trivial
  · exact trivial

/-- What a pull brought is settled without reading. -/
theorem settlePulled_leaves (wanted : Wanted) (kept : List Message) (i : Intake) (s : Session)
    (out : Option Message) : (i.settlePulled s out).Leaves (Phase.Settled wanted kept) := by
  cases out with
  | none => exact trivial
  | some m => exact i.settle_leaves s fun _ _ => trivial

/-- **A step of a call that pulls** does what the step of its pull does, and its other steps leave
the session as it is. -/
theorem step_moved (t : Turn) (b : Backend) {phase : Phase} (hmode : s.config.mode = .pull)
    (hfits : i.Fits s.role) (hphase : phase.Settled (i.wanted s) s.late) :
    Pull.Moved (i.wanted s) (i.pulled? t phase s) s (i.step t phase s b).1 ∧
      (i.step t phase s b).2.2.Leaves (Phase.Settled (i.wanted s) (i.step t phase s b).1.late) := by
  cases phase with
  | start =>
    have hstart : i.step t .start s b =
        if s.closed then (s, b, .ends (.error (.error .closed)))
        else (s, b, .goes (.pulling .draining)) := by
      obtain ⟨end?, timeout, want, rfl⟩ := hfits
      unfold step
      cases s.role <;> simp only [Role.intake, hmode]
    rw [hstart]
    split
    · exact ⟨moved_none _ s, trivial⟩
    · exact ⟨moved_none _ s, trivial⟩
  | pulling p =>
    have hpull := Pull.step_stepped t (i.timeout.getD s.responseWindow) hphase
    exact ⟨hpull.moved, hpull.settled.andThen (fun _ h => h)
      (settlePulled_leaves _ _ i _) fun _ => trivial⟩
  | resolving m key => exact ⟨moved_none _ s, trivial⟩
  | attending timeout => exact hphase.elim
  | waiting deadline => exact hphase.elim

end Intake

end SimRelay
