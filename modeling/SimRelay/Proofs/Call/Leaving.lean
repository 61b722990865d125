import SimRelay.Proofs.Call.Desk
import SimRelay.Proofs.Call.Protocol
import SimRelay.Proofs.Session.Greeting

/-!
# Proofs/Call/Leaving — a client that has left does nothing any more

Any number of calls may be in flight when a client leaves.  Of the exits among them one at most is
more than a caller at the door (`Call.departs`), so that one leave-taking at most is said, and the
link is closed by that exit alone (`Desk.Departs`).  When it returns the link is shut, and nothing
that happens later opens it again (`Desk.Left`).

A client that has begun to leave turns away whoever knocks (`Call.refusal`): its session and its
store are then what they were, in every part.
-/

namespace SimRelay

/-! ## Turned away -/

/-- Whoever begins to listen to a client that has begun to leave hears that it is closed. -/
theorem Session.hear_closed {s : Session} (hclosed : s.closed) (t : Turn) (ch : Channel)
    (deadline : Option Instant) : s.hear t ch true deadline = (.failure .closed, s) := by
  unfold hear
  exact if_pos ⟨rfl, hclosed⟩

namespace Call

variable {s : Session} {b : Backend} {c : Call}

/-- The call has not asked yet whether its client is open. -/
def Knocks (c : Call) : Prop := c.isNew ∨ ∃ want, c = .intake (.listen want) (.attending none)

/-- What a client answers that has begun to leave. -/
def refusal : Call → Except Failure Reply
  | .exit _ => .ok .done
  | .hand (.postFetched f _) _ =>
    if f.source.isSome ∧ f.destination.isSome then .error (.error .closed)
    else .error (.error (.protocol (.invalid .unrouted)))
  | _ => .error (.error .closed)

theorem step_attending (hclosed : s.closed) (t : Turn) (want : Bool) (b : Backend) :
    (Call.intake (.listen want) (.attending none)).step t s b
      = (s, b, .ends (.error (.error .closed))) := by
  simp only [step, Intake.step, Intake.hearForwarded, Session.hear_closed hclosed]
  rfl

/-- A hand-over of a client that has begun to leave, unless it cannot be made at all. -/
theorem step_hand (hclosed : s.closed) (t : Turn) (x : Hand) (b : Backend) :
    (Call.ofHand x).step t s b = (s, b, .ends (Call.ofHand x).refusal) := by
  cases x with
  | send destination bytes =>
    simp only [ofHand, step, Hand.step, Hand.parcel, hclosed, if_true]
    rfl
  | post source destination payload size success =>
    simp only [ofHand, step, Hand.step, Hand.parcel, hclosed, if_true]
    rfl
  | postFetched f success =>
    simp only [ofHand, step, Hand.step, Hand.parcel, refusal]
    cases f.source with
    | none => rfl
    | some source =>
      cases f.destination with
      | none => rfl
      | some destination =>
        simp only [hclosed, if_true]
        rfl

/-- **A client that has begun to leave answers whoever knocks at once**, or asks a listener in to
tell it so, and nothing about the client or its store changes. -/
theorem step_refused (hclosed : s.closed) (h : c.Knocks) (t : Turn) (b : Backend) :
    c.step t s b = (s, b, .ends c.refusal) ∨
      ∃ want, c = .intake (.listen want) .start ∧
        c.step t s b = (s, b, .goes (.intake (.listen want) (.attending none))) := by
  rcases h with hnew | ⟨want, rfl⟩
  · unfold isNew at hnew
    split at hnew
    · left
      simp only [step, Ping.step, hclosed, if_true]
      rfl
    · next i =>
      cases i with
      | receive destination timeout =>
        left
        simp only [step, Intake.step, hclosed, if_true]
        rfl
      | fetch source timeout want =>
        left
        simp only [step, Intake.step, hclosed, if_true]
        rfl
      | listen want => exact .inr ⟨want, rfl, rfl⟩
    · next x => exact .inl (step_hand hclosed t x b)
    · left
      simp only [step, Exit.step, hclosed, if_true]
      rfl
    · exact absurd hnew Bool.false_ne_true
  · exact .inl (step_attending hclosed t want b)

/-- **…so the call comes to that answer**, whatever it is. -/
theorem advance_refused (hclosed : s.closed) (h : c.Knocks) (t : Turn) (b : Backend) :
    c.advance t s b = (s, b, .ends c.refusal) := by
  change c.steps t (_ + 14 + 2) s b = _
  rw [steps]
  rcases step_refused hclosed h t b with hstep | ⟨want, rfl, hstep⟩
  · rw [hstep]
  · rw [hstep]
    dsimp only
    rw [steps, step_attending hclosed]
    rfl

/-- Calls made one after another, and what comes of each. -/
def series : List (Turn × Call) → Session → Backend →
    Session × Backend × List (Progress Failure Call Reply)
  | [], s, b => (s, b, [])
  | (t, c) :: calls, s, b =>
    let (s, b, progress) := c.advance t s b
    let (s, b, rest) := series calls s b
    (s, b, progress :: rest)

/-- **…and so does a whole series of them.** -/
theorem series_refused (hclosed : s.closed) (b : Backend) :
    ∀ calls : List (Turn × Call), (∀ x ∈ calls, x.2.isNew) →
      series calls s b = (s, b, calls.map fun x => .ends x.2.refusal)
  | [], _ => rfl
  | (t, c) :: calls, hnew => by
      obtain ⟨hc, hcalls⟩ := List.forall_mem_cons.mp hnew
      rw [series, advance_refused hclosed (.inl hc)]
      dsimp only
      rw [series_refused hclosed b calls hcalls]
      rfl

end Call

/-! ## As open as it was -/

namespace Session

variable {s s' : Session}

theorem steady_hear {t : Turn} {ch : Channel} {begins : Bool} {deadline : Option Instant}
    {heard : Heard} (h : s.hear t ch begins deadline = (heard, s')) : s.link.Steady s'.link := by
  obtain ⟨-, i, hsession, -, -⟩ := s.hear_spec t ch begins deadline
  rw [h] at hsession
  obtain rfl : s' = _ := hsession
  exact Link.steady_setInbox ch i s.link

theorem steady_say (t : Turn) (ch : Channel) (x : Saying) (s : Session) :
    s.link.Steady (s.say t ch x).1.link := by
  have hwrite (w : Link.Writing) : s.link.Steady (s.write t ch w).1.link :=
    Link.steady_write t.id ch w s.link
  unfold say
  cases x with
  | fresh m =>
    dsimp only
    split
    · exact .refl _
    · split
      · exact .refl _
      · exact hwrite _
  | writing w => exact hwrite w

end Session

open Session (steady_hear steady_say)

variable {s s' : Session}

theorem Ping.step_steady (t : Turn) (timeout : Duration) (phase : Phase) (s : Session) :
    s.link.Steady (step t timeout phase s).1.link := by
  have hanswer (begins : Bool) (deadline : Instant) :
      s.link.Steady (hearAnswer t begins deadline s).1.link := by
    unfold hearAnswer
    split
    · next h => exact steady_hear h
    · next h => exact steady_hear h
    · next h => exact steady_hear h
    · next h => exact steady_hear h
  cases phase with
  | start =>
    rw [step]
    split
    · exact .refl _
    · exact .refl _
  | clearing =>
    rw [step]
    split
    · next h => exact steady_hear h
    · next h => exact steady_hear h
    · next h => exact steady_hear h
  | asking x => exact steady_say t .ctrl x s
  | asked => exact hanswer true _
  | listening deadline => exact hanswer false deadline

theorem Pull.step_steady (t : Turn) (wanted : Wanted) (timeout : Duration) (phase : Phase)
    (s : Session) : s.link.Steady (step t wanted timeout phase s).1.link := by
  have hanswer (begins : Bool) (deadline : Instant) :
      s.link.Steady (hearAnswer t wanted begins deadline s).1.link := by
    unfold hearAnswer
    split
    · next m s' h =>
      have hsteady : s.link.Steady s'.link := steady_hear h
      split
      · exact hsteady
      · split <;> exact hsteady
    · next h => exact steady_hear h
    · next h => exact steady_hear h
    · next h => exact steady_hear h
  cases phase with
  | draining =>
    rw [step]
    split
    · next m s' h =>
      have hsteady : s.link.Steady s'.link := steady_hear h
      dsimp only
      split <;> exact hsteady
    · next h => exact steady_hear h
    · next heard s' hmessage hfailure h =>
      have hsteady : s.link.Steady s'.link := steady_hear h
      split
      · next htake =>
        obtain ⟨-, -, -, -, -, rfl⟩ := Session.takeLate_eq_some htake
        exact hsteady
      · exact hsteady
  | asking x => exact steady_say t .recv x s
  | asked deadline => exact hanswer true deadline
  | listening deadline => exact hanswer false deadline

theorem Intake.step_steady (t : Turn) (i : Intake) (phase : Phase) (s : Session) (b : Backend) :
    s.link.Steady (i.step t phase s b).1.link := by
  have hforwarded (begins : Bool) (deadline : Option Instant) :
      s.link.Steady (hearForwarded t i begins deadline s).1.link := by
    unfold hearForwarded
    split
    · next h => exact steady_hear h
    · next h => exact steady_hear h
    · next h => exact steady_hear h
    · next h => exact steady_hear h
  cases phase with
  | start =>
    unfold step
    dsimp only
    split
    · exact .refl _
    · split
      · exact .refl _
      · split <;> exact .refl _
  | pulling p => exact Pull.step_steady t _ _ p s
  | attending timeout => exact hforwarded true _
  | waiting deadline => exact hforwarded false deadline
  | resolving m key => exact .refl _

theorem Hand.step_steady (t : Turn) (x : Hand) (phase : Phase) (s : Session) (b : Backend) :
    s.link.Steady (x.step t phase s b).1.link := by
  unfold step
  split
  · exact .refl _
  · cases phase with
    | start =>
      dsimp only
      split
      · exact .refl _
      · split
        · next hnext =>
          obtain ⟨source, -, heq⟩ := Option.map_eq_some_iff.mp hnext
          obtain ⟨-, rfl⟩ := Prod.mk.inj heq
          exact .refl _
        · exact .refl _
        · exact .refl _
    | storing key =>
      dsimp only
      split
      · split <;> exact .refl _
      · exact .refl _
    | releasing key => exact .refl _
    | saying y stored => exact steady_say t .send y s

/-! ## Whoever leaves -/

namespace Exit

/-- The exit has found its client open, as one exit does at most. -/
def Phase.departs : Phase → Bool
  | .start => false
  | .saying _ => true
  | .closing _ _ => true

/-- How far the link is closed. -/
def Phase.Stands (l : Link) : Phase → Prop
  | .start => True
  | .saying _ => l.closing = false
  | .closing c _ => c.Stands l

/-- **A step of an exit** goes on with closing the link, and ends when it is shut. -/
theorem step_stands (t : Turn) {phase : Phase} (h : phase.Stands s.link)
    (hopened : s.closed = false → s.link.closing = false) :
    (step t phase s).2.Leaves (Phase.Stands (step t phase s).1.link) ∧
      (phase.departs → ∀ r, (step t phase s).2 = .ends r → (step t phase s).1.link.Shut) := by
  cases phase with
  | start =>
    refine ⟨?_, fun h => absurd h Bool.false_ne_true⟩
    rw [step]
    split
    · exact trivial
    · next hclosed =>
      dsimp only
      split
      · exact hopened (eq_false_of_ne_true hclosed)
      · exact hopened (eq_false_of_ne_true hclosed)
  | saying x =>
    have hclosing : (s.say t .ctrl x).1.link.closing = false :=
      (steady_say t .ctrl x s).closing.trans h
    refine ⟨?_, fun _ r hend => ?_⟩
    · exact (Progress.leaves_true _).andThen (fun _ _ => hclosing) (fun _ => hclosing)
        fun _ => hclosing
    · obtain ⟨_, -, hbehind⟩ | ⟨_, -, hbehind⟩ := Progress.ends_of_andThen hend
      · cases hbehind
      · cases hbehind
  | closing c wrong =>
    obtain ⟨hleaves, hshut⟩ := Link.close_stands h t.id
    refine ⟨hleaves.andThen (fun _ hc => hc) (fun _ => trivial) fun e => e.elim, fun _ r hend => ?_⟩
    obtain ⟨result, hclose, -⟩ | ⟨e, -, -⟩ := Progress.ends_of_andThen hend
    · exact hshut (.ok result) hclose
    · exact e.elim

end Exit

namespace Call

variable {c : Call} {role : Role} {ch : Channel} {m : Message}

/-- The call is the exit that has found its client open. -/
def departs : Call → Bool
  | .exit phase => phase.departs
  | _ => false

/-- How far the call closes the link, if it does. -/
def Stands (l : Link) : Call → Prop
  | .exit phase => phase.Stands l
  | _ => True

/-- An exit that has not found its client open has done nothing. -/
theorem start_of_still {phase : Exit.Phase} (h : (Call.exit phase).departs = false) :
    phase = .start := by
  cases phase with
  | start => rfl
  | saying x => exact absurd h.symm Bool.false_ne_true
  | closing c wrong => exact absurd h.symm Bool.false_ne_true

theorem stands_of_still (h : c.departs = false) (l : Link) : c.Stands l := by
  cases c with
  | exit phase =>
    obtain rfl := start_of_still h
    exact trivial
  | _ => exact trivial

theorem Stands.steady {l l' : Link} (h : c.Stands l) (hl : l.Steady l') : c.Stands l' := by
  cases c with
  | exit phase =>
    cases phase with
    | start => exact trivial
    | saying x => exact hl.closing.trans h
    | closing c wrong => exact Link.Closing.Stands.steady h hl
  | _ => exact trivial

/-- **A step of a call** closes no more than it should, and an exit that ends has closed the
link. -/
theorem step_stands (t : Turn) (h : c.Stands s.link)
    (hopened : s.closed = false → s.link.closing = false) (b : Backend) :
    (c.step t s b).2.2.Leaves (Stands (c.step t s b).1.link) ∧
      (c.departs → ∀ r, (c.step t s b).2.2 = .ends r → (c.step t s b).1.link.Shut) := by
  cases c with
  | exit phase =>
    obtain ⟨hleaves, hshut⟩ := Exit.step_stands t h hopened
    refine ⟨leaves_lift hleaves, fun hdeparts r hend => ?_⟩
    obtain ⟨u, hp, -⟩ | ⟨e, hp, -⟩ := Progress.ends_of_andThen hend
    · exact hshut hdeparts _ hp
    · exact hshut hdeparts _ hp
  | _ =>
    exact ⟨leaves_lift ((Progress.leaves_true _).mono fun _ _ => trivial),
      fun h => absurd h Bool.false_ne_true⟩

/-- **Only the exit that leaves closes anything.** -/
theorem step_steady (t : Turn) (h : c.departs = false) (s : Session) (b : Backend) :
    s.link.Steady (c.step t s b).1.link := by
  cases c with
  | ping timeout phase => exact Ping.step_steady t _ phase s
  | intake i phase => exact i.step_steady t phase s b
  | hand x phase => exact x.step_steady t phase s b
  | exit phase =>
    obtain rfl := start_of_still h
    simp only [step, Exit.step]
    split
    · exact .refl _
    · split <;> exact .refl _

/-- A client that is closed is left by nobody else. -/
theorem step_departs (t : Turn) (hclosed : s.closed) (h : c.departs = false) (b : Backend) :
    (c.step t s b).2.2.Leaves (·.departs = false) := by
  cases c with
  | exit phase =>
    obtain rfl := start_of_still h
    simp only [step, Exit.step, hclosed, if_true]
    exact trivial
  | _ => exact leaves_lift ((Progress.leaves_true _).mono fun _ _ => rfl)

/-! ### What is said on the way -/

/-- What is being said is what the call is for, though the client may have left since. -/
def Voices (s : Session) : Call → Prop
  | .ping _ phase => phase.Asks s
  | c => c.Says s

theorem Voices.congr (h : c.Voices s) (hkeeps : s.Keeps s') (hclosed : s.closed → s'.closed) :
    c.Voices s' := by
  have hwho : s'.originator = s.originator := congrArg Role.originator hkeeps.role
  have hparcel (x : Hand) : x.parcel s' = x.parcel s :=
    Hand.parcel_congr hkeeps.identifier hkeeps.role x
  cases c with
  | ping timeout phase =>
    cases phase with
    | asking x =>
      change x.Due (.ping s'.originator)
      rw [hwho]
      exact h
    | _ => exact trivial
  | intake i phase =>
    cases phase with
    | start =>
      change i.belongs s'.role
      rw [hkeeps.role]
      exact h
    | pulling p =>
      change (s'.config.mode = .pull ∧ i.Fits s'.role) ∧
        p.Says ((i.wanted s').request s'.originator)
      rw [hkeeps.config, hkeeps.role, hwho, Intake.wanted_congr hkeeps.identifier]
      exact h
    | _ => exact trivial
  | hand x phase =>
    cases phase with
    | start => exact trivial
    | storing key =>
      change s'.keys.isSome ∧ ∃ p bytes, x.parcel s' = .ok p ∧ _
      rw [hkeeps.shares, hparcel]
      exact h
    | releasing key =>
      change ∃ p, x.parcel s' = .ok p ∧ _
      rw [hparcel]
      exact h
    | saying y stored =>
      obtain ⟨m, htells, hdue⟩ := h
      exact ⟨m, htells.congr hkeeps, hdue⟩
  | exit phase =>
    cases phase with
    | start => exact trivial
    | saying x =>
      obtain ⟨hc, hdue⟩ := h
      exact ⟨hclosed hc, hwho.symm ▸ hdue⟩
    | closing c wrong => exact hclosed h

theorem voices_of_isNew (h : c.isNew) (hbelongs : c.belongs s.role) : c.Voices s := by
  cases c with
  | ping timeout phase =>
    cases phase with
    | start => exact trivial
    | _ => exact nomatch h
  | intake i phase => exact (phase_of_isNew h hbelongs).1
  | hand x phase => exact (phase_of_isNew h hbelongs).1
  | exit phase => exact (phase_of_isNew h hbelongs).1

/-- Who departs does so from a client that has begun to leave. -/
theorem closed_of_departs (h : c.Voices s) (hdeparts : c.departs) : s.closed := by
  cases c with
  | exit phase =>
    cases phase with
    | start => exact nomatch hdeparts
    | saying x => exact h.1
    | closing c wrong => exact h
  | _ => exact nomatch hdeparts

theorem departs_of_isLeaving (h : c.isLeaving) : c.departs := by
  cases c with
  | exit phase =>
    cases phase with
    | saying x => rfl
    | _ => exact nomatch h
  | _ => exact nomatch h

theorem belongs_step (t : Turn) (c : Call) (s : Session) (b : Backend) :
    (c.step t s b).2.2.Leaves fun c' => c'.belongs role = c.belongs role := by
  cases c <;> exact leaves_lift ((Progress.leaves_true _).mono fun _ _ => rfl)

/-- **Whatever a call may say is valid**, and a leave-taking is said on the control channel by the
exit that leaves. -/
theorem May.shape (h : c.May s ch m) (hbelongs : c.belongs s.role) :
    m.Valid ∧ (m.operation = .exit → ch = .ctrl ∧ c.isLeaving) := by
  cases h with
  | ping hopen => exact ⟨Message.valid_of_plain rfl rfl nofun, nofun⟩
  | ask hmode hfits =>
    obtain ⟨hvalid, hmanifest, -⟩ := Wanted.request_spec hfits.suits
    refine ⟨hvalid, fun hexit => ?_⟩
    have hop : Operation.exit = s.role.delivery :=
      hexit.symm.trans (congrArg Manifest.operation hmanifest)
    cases hrole : s.role <;> exact nomatch hrole ▸ hop
  | hand htells =>
    obtain ⟨hvalid, hoperation, -⟩ := (htells.spells hbelongs).shape
    refine ⟨hvalid, fun hexit => ?_⟩
    have hop : Operation.exit = s.role.handover := hexit.symm.trans hoperation
    cases hrole : s.role <;> exact nomatch hrole ▸ hop
  | exit hleaving hclosed => exact ⟨Message.valid_of_plain rfl rfl nofun, fun _ => ⟨rfl, hleaving⟩⟩

/-- What holds of the session and the progress that a step of a call leaves behind, though its
client may have left since it began. -/
structure Voiced (c : Call) (s : Session) (r : Session × Backend × Progress Failure Call Reply) :
    Prop where
  keeps : s.Keeps r.1
  closed : s.closed → r.1.closed
  utters : s.link.Retains r.1.link ∨ ∃ ch m, s.link.Adds ch m r.1.link ∧ m.Valid ∧
    (m.operation = .exit → ch = .ctrl ∧ c.isLeaving ∧ r.2.2.Leaves (·.isLeaving = false))
  silent : s.closed → c.isLeaving = false → r.2.2.Leaves (·.isLeaving = false)
  next : r.2.2.Leaves (Voices r.1)

theorem Says.voices (h : c.Says s) : c.Voices s := by
  cases c with
  | ping timeout phase => exact (Ping.says_iff.mp h).1
  | _ => exact h

/-- **A step of a call says what the call may say**, and of leave-taking no more than that. -/
theorem step_voiced (t : Turn) (h : c.Voices s) (hbelongs : c.belongs s.role) (b : Backend) :
    Voiced c s (c.step t s b) := by
  have hbegun (h : c.Says s) : Voiced c s (c.step t s b) := by
    have hsaid := step_said t h b
    refine ⟨hsaid.keeps, hsaid.closed, hsaid.utters.imp_right ?_, hsaid.silent,
      hsaid.next.mono fun _ => Says.voices⟩
    rintro ⟨ch, m, hmay, hadds, hsilent⟩
    obtain ⟨hvalid, hexit⟩ := hmay.shape hbelongs
    exact ⟨ch, m, hadds, hvalid, fun hop => ⟨(hexit hop).1, (hexit hop).2, hsilent⟩⟩
  cases c with
  | ping timeout phase =>
    have hasked := Ping.step_asked t (timeout.getD s.responseWindow) h
    have hvalid : (Message.ping s.originator).Valid := Message.valid_of_plain rfl rfl nofun
    refine ⟨hasked.alike.keeps, fun hc => hasked.alike.closed.trans hc, ?_, fun _ _ => ?_,
      leaves_lift hasked.next⟩
    · exact hasked.utters.imp_right fun hadds => ⟨.ctrl, _, hadds, hvalid, nofun⟩
    · exact leaves_lift ((Progress.leaves_true _).mono fun _ _ => rfl)
  | intake i phase => exact hbegun h
  | hand x phase => exact hbegun h
  | exit phase => exact hbegun h

/-- A kind of call that only a closed client has in flight, and that becomes of no other call
there. -/
theorem flag_step {f : Call → Bool} {p : Progress Failure Call Reply} {before after : Bool}
    (hown : f c → before) (hnext : p.Leaves fun c' => f c' → after) (hmono : before → after)
    (hkeeps : before → f c = false → p.Leaves (f · = false)) :
    (p.state?.any f).toNat + before.toNat ≤ (f c).toNat + after.toNat := by
  have hle {x y : Bool} (hxy : x → y) : x.toNat ≤ y.toNat := by
    cases x with
    | false => exact Nat.zero_le _
    | true => exact Nat.le_of_eq (congrArg Bool.toNat (hxy rfl).symm)
  cases hstate : p.state? with
  | none =>
    rw [Option.any_none, Bool.toNat_false, Nat.zero_add]
    exact Nat.le_trans (hle hmono) (Nat.le_add_left _ _)
  | some c' =>
    cases before with
    | false => exact Nat.le_trans (hle (hnext.of_state? hstate)) (Nat.le_add_left _ _)
    | true =>
      obtain rfl : after = true := hmono rfl
      refine Nat.add_le_add_right (hle fun hc' => ?_) 1
      refine Decidable.byContradiction fun hc => ?_
      have hnot : f c' = false := (hkeeps rfl (eq_false_of_ne_true hc)).of_state? hstate
      exact nomatch hnot.symm.trans hc'

end Call

/-! ## Leave-takings -/

namespace Link

variable {l l' : Link} {n n' : Nat} {ch : Channel} {m : Message}

/-- The rows of the channels have so many leave-takings at most, all of them on the control
channel. -/
def TakesLeave (n : Nat) (l : Link) : Prop :=
  ∃ row : Channel → List Message, (∀ ch, (l.outbox ch).Carries (row ch)) ∧
    (∀ ch, ∀ m ∈ row ch, m.Valid ∧ (m.operation = .exit → ch = .ctrl)) ∧
    (row .ctrl).countP (·.operation = .exit) ≤ n

theorem TakesLeave.retains (h : l.TakesLeave n) (hl : l.Retains l') : l'.TakesLeave n := by
  obtain ⟨row, hcarries, hvalid, hcount⟩ := h
  exact ⟨row, fun ch => hl.carries (hcarries ch), hvalid, hcount⟩

theorem TakesLeave.mono (h : l.TakesLeave n) (hn : n ≤ n') : l.TakesLeave n' := by
  obtain ⟨row, hcarries, hvalid, hcount⟩ := h
  exact ⟨row, hcarries, hvalid, Nat.le_trans hcount hn⟩

/-- One more message. -/
theorem TakesLeave.adds (h : l.TakesLeave n) (hl : l.Adds ch m l') (hm : m.Valid)
    (hexit : m.operation = .exit → ch = .ctrl) :
    l'.TakesLeave (n + if m.operation = .exit then 1 else 0) := by
  obtain ⟨row, hcarries, hvalid, hcount⟩ := h
  refine ⟨_, fun c => hl.carries (hcarries c), fun c m' hm' => ?_, ?_⟩
  · split at hm'
    · next heq =>
      rcases List.mem_append.mp hm' with hm' | hm'
      · exact hvalid c m' hm'
      · obtain rfl := List.mem_singleton.mp hm'
        exact ⟨hm, fun hop => heq.trans (hexit hop)⟩
    · exact hvalid c m' hm'
  · by_cases hch : Channel.ctrl = ch
    · rw [if_pos hch, List.countP_append, List.countP_singleton]
      simp only [decide_eq_true_eq]
      exact Nat.add_le_add_right hcount _
    · rw [if_neg hch]
      exact Nat.le_trans hcount (Nat.le_add_right _ _)

/-- How many whole frames on the wire of a channel take leave. -/
def leaveTakings (ch : Channel) (l : Link) : Nat :=
  (Frame.bodies (l.outbox ch).wire).countP fun body =>
    (Message.ofBody? body).any (·.operation = .exit)

/-- **What the rows have not, the wires have not.** -/
theorem TakesLeave.leaveTakings (h : l.TakesLeave n) :
    l.leaveTakings .ctrl ≤ n ∧ ∀ ch, ch ≠ .ctrl → l.leaveTakings ch = 0 := by
  obtain ⟨row, hcarries, hvalid, hcount⟩ := h
  have hle (ch : Channel) : l.leaveTakings ch ≤ (row ch).countP (·.operation = .exit) := by
    have hdecode := (hcarries ch).decode fun m hm => (hvalid ch m hm).1
    have hwire : l.leaveTakings ch
        = ((Frame.bodies (l.outbox ch).wire).map Message.decode).countP fun r =>
          r.toOption.any (·.operation = .exit) := by
      rw [List.countP_map]
      rfl
    rw [hwire, hdecode, List.countP_map]
    exact (List.take_sublist _ _).countP_le
  refine ⟨Nat.le_trans (hle .ctrl) hcount, fun ch hch => ?_⟩
  have hnone : (row ch).countP (·.operation = .exit) = 0 :=
    List.countP_eq_zero.mpr fun m hm hop => hch ((hvalid ch m hm).2 (of_decide_eq_true hop))
  exact Nat.eq_zero_of_le_zero (hnone ▸ hle ch)

end Link

namespace Desk

variable {w w' : Desk} {id : CallId} {c : Call} {role : Role} {t : Turn}

/-- No call begins but one that a client of this role has. -/
def Event.suits (role : Role) : Event → Bool
  | .begins _ c => c.belongs role
  | _ => true

/-- How many calls of a kind are in flight. -/
def tally (f : Call → Bool) (w : Desk) : Nat := w.calls.countP fun p => f p.2

theorem tally_turn (f : Call → Bool) (hc : (t.id, c) ∈ w.calls) :
    (w.turn t c).tally f + (f c).toNat
      = w.tally f + ((c.step t w.session w.store).2.2.state?.any f).toNat := by
  have hbefore := (List.perm_cons_erase hc).countP_eq fun p => f p.2
  rw [List.countP_cons] at hbefore
  rw [tally, tally, calls_turn, List.countP_append, hbefore]
  cases hstate : (c.step t w.session w.store).2.2.state? with
  | none => cases hf : f c <;> simp
  | some c' => cases hf : f c <;> cases hf' : f c' <;> simp [hf'] <;> omega

/-- **The account of leaving**: who departs does so from a closed client, and alone; the rows have
the leave-taking of a closed client at most, and not yet if somebody is still about to say it; and
the link of an open client is open. -/
structure Departs (role : Role) (w : Desk) : Prop where
  plays : w.session.role = role
  inFlight : ∀ p ∈ w.calls, p.2.Voices w.session ∧ p.2.belongs role ∧ p.2.Stands w.session.link
  one : w.tally Call.departs ≤ w.session.closed.toNat
  opened : w.session.closed = false → w.session.link.closing = false
  rows : ∃ n, w.session.link.TakesLeave n ∧
    n + w.tally Call.isLeaving ≤ w.session.closed.toNat

theorem Departs.start {s : Session} {hello : Message} (hclosing : s.link.closing = false)
    (hopens : s.link.Opens [hello]) (hvalid : hello.Valid) (hhello : hello.operation ≠ .exit)
    (b : Backend) : (start s b).Departs s.role where
  plays := rfl
  inFlight _ h := absurd h List.not_mem_nil
  one := Nat.zero_le _
  opened _ := hclosing
  rows := by
    refine ⟨0, ⟨_, hopens, fun ch m hm => ?_, Nat.le_of_eq ?_⟩, Nat.zero_le _⟩
    · split at hm
      · obtain rfl := List.mem_singleton.mp hm
        exact ⟨hvalid, fun hexit => absurd hexit hhello⟩
      · exact absurd hm List.not_mem_nil
    · simp [hhello]

/-- **Whoever departs does so alone.** -/
theorem Departs.alone (h : w.Departs role) (hc : (id, c) ∈ w.calls) (hdeparts : c.departs)
    {p : CallId × Call} (hp : p ∈ w.calls.erase (id, c)) : p.2.departs = false := by
  have hbefore := (List.perm_cons_erase hc).countP_eq fun p => p.2.departs
  rw [List.countP_cons, if_pos hdeparts] at hbefore
  have hone : w.calls.countP (·.2.departs) ≤ 1 := Nat.le_trans h.one (Bool.toNat_le _)
  have hnone : (w.calls.erase (id, c)).countP (·.2.departs) = 0 := by omega
  exact eq_false_of_ne_true (List.countP_eq_zero.mp hnone p hp)

/-- **A step of a call keeps the account.** -/
theorem Departs.turn (h : w.Departs role) (hc : (t.id, c) ∈ w.calls) :
    (w.turn t c).Departs role := by
  obtain rfl := h.plays
  obtain ⟨hvoices, hbelongs, hstands⟩ :
      c.Voices w.session ∧ c.belongs w.session.role ∧ c.Stands w.session.link := h.inFlight _ hc
  have hvoiced : c.Voiced w.session (c.step t w.session w.store) :=
    Call.step_voiced t hvoices hbelongs w.store
  have hclosed (hdeparts : c.departs) : (w.turn t c).session.closed :=
    hvoiced.closed (Call.closed_of_departs hvoices hdeparts)
  refine ⟨hvoiced.keeps.role, fun p hp => ?_, ?_, fun hopen => ?_, ?_⟩
  · rw [calls_turn] at hp
    rcases List.mem_append.mp hp with hp | hp
    · obtain ⟨next, hnext, rfl⟩ := Option.map_eq_some_iff.mp (Option.mem_toList.mp hp)
      have hsame : next.belongs w.session.role = c.belongs w.session.role :=
        (Call.belongs_step t c w.session w.store).of_state? hnext
      exact ⟨hvoiced.next.of_state? hnext, hsame.trans hbelongs,
        (Call.step_stands t hstands h.opened w.store).1.of_state? hnext⟩
    · obtain ⟨hvoices', hbelongs', hstands'⟩ := h.inFlight p (List.mem_of_mem_erase hp)
      refine ⟨hvoices'.congr hvoiced.keeps hvoiced.closed, hbelongs', ?_⟩
      cases hdeparts : c.departs with
      | true => exact Call.stands_of_still (h.alone hc hdeparts hp) _
      | false => exact hstands'.steady (Call.step_steady t hdeparts w.session w.store)
  · have hflag := Call.flag_step (Call.closed_of_departs hvoices)
      (hvoiced.next.mono fun _ => Call.closed_of_departs) hvoiced.closed
      fun hc hstill => Call.step_departs t hc hstill w.store
    have htally := tally_turn Call.departs hc
    have hone := h.one
    rw [session_turn]
    omega
  · cases hdeparts : c.departs with
    | true => exact nomatch hopen.symm.trans (hclosed hdeparts)
    | false =>
      refine (Call.step_steady t hdeparts w.session w.store).closing.trans (h.opened ?_)
      exact eq_false_of_ne_true fun hc => nomatch hopen.symm.trans (hvoiced.closed hc)
  · have hleaving {s : Session} (c : Call) (hc : c.Voices s) (hl : c.isLeaving) : s.closed :=
      Call.closed_of_departs hc (Call.departs_of_isLeaving hl)
    have hflag := Call.flag_step (hleaving c hvoices) (hvoiced.next.mono hleaving) hvoiced.closed
      hvoiced.silent
    have htally := tally_turn Call.isLeaving hc
    obtain ⟨n, hrows, hn⟩ := h.rows
    rw [session_turn]
    rcases hvoiced.utters with hretains | ⟨ch, m, hadds, hvalid, hexit⟩
    · exact ⟨n, hrows.retains hretains, by omega⟩
    · refine ⟨_, hrows.adds hadds hvalid fun hop => (hexit hop).1, ?_⟩
      split
      · next hop =>
        obtain ⟨-, hown, hsilent⟩ := hexit hop
        have hnext : ((c.step t w.session w.store).2.2.state?.any Call.isLeaving).toNat = 0 := by
          cases hstate : (c.step t w.session w.store).2.2.state? with
          | none => rfl
          | some c' => exact congrArg Bool.toNat (hsilent.of_state? hstate)
        rw [hown, Bool.toNat_true] at htally
        rw [hvoiced.closed (hleaving c hvoices hown), Bool.toNat_true]
        have hbefore := Bool.toNat_le w.session.closed
        omega
      · omega

/-- What becomes of the link without a call, and calls that go away. -/
theorem Departs.spared (h : w.Departs role) {l : Link}
    (hsession : w'.session = { w.session with link := l })
    (hcalls : w'.calls.Sublist w.calls) (hsteady : w.session.link.Steady l)
    (hretains : w.session.link.Retains l) : w'.Departs role := by
  have hkeeps : w.session.Keeps w'.session := hsession ▸ (Session.Alike.link w.session l).keeps
  have hclosed : w'.session.closed = w.session.closed := hsession ▸ rfl
  have hlink : w'.session.link = l := hsession ▸ rfl
  have htally (f : Call → Bool) : w'.tally f ≤ w.tally f := hcalls.countP_le
  refine ⟨hkeeps.role.trans h.plays, fun p hp => ?_, ?_, fun hopen => ?_, ?_⟩
  · obtain ⟨hvoices, hbelongs, hstands⟩ := h.inFlight p (hcalls.subset hp)
    rw [hlink]
    exact ⟨hvoices.congr hkeeps hclosed.trans, hbelongs, hstands.steady hsteady⟩
  · rw [hclosed]
    exact Nat.le_trans (htally _) h.one
  · rw [hlink]
    exact hsteady.closing.trans (h.opened (hclosed ▸ hopen))
  · obtain ⟨n, hrows, hn⟩ := h.rows
    rw [hlink, hclosed]
    exact ⟨n, hrows.retains hretains, Nat.le_trans (Nat.add_le_add_left (htally _) n) hn⟩

theorem still_of_isNew (h : c.isNew) : c.departs = false ∧ c.isLeaving = false := by
  have hdeparts : c.departs = false := by
    unfold Call.isNew at h
    split at h
    · rfl
    · rfl
    · rfl
    · rfl
    · exact nomatch h
  exact ⟨hdeparts, eq_false_of_ne_true fun hl =>
    nomatch hdeparts.symm.trans (Call.departs_of_isLeaving hl)⟩

/-- **Nothing that happens upsets the account.** -/
theorem Departs.step (h : w.Departs role) {e : Event} (he : e.suits role) :
    (w.step e).Departs role := by
  cases e with
  | begins id c =>
    rw [Desk.step]
    split
    · next hbegins =>
      obtain ⟨hstill, hsilent⟩ := still_of_isNew hbegins.1
      have htally {f : Call → Bool} (hf : f c = false) :
          tally f { w with calls := (id, c) :: w.calls } = w.tally f := by
        simp [tally, hf]
      obtain ⟨n, hrows, hn⟩ := h.rows
      refine ⟨h.plays, List.forall_mem_cons.mpr ⟨?_, h.inFlight⟩, ?_, h.opened, n, hrows, ?_⟩
      · exact ⟨Call.voices_of_isNew hbegins.1 (h.plays.symm ▸ he), he,
          Call.stands_of_still hstill _⟩
      · exact (htally hstill).symm ▸ h.one
      · exact (htally hsilent).symm ▸ hn
    · exact h
  | turns t =>
    rw [Desk.step]
    cases hcall : w.calls.lookup t.id with
    | none => exact h
    | some c => exact h.turn (mem_of_lookup hcall)
  | drops id =>
    rw [Desk.step]
    cases hcall : w.calls.lookup id with
    | none => exact h
    | some c =>
      exact h.spared rfl List.erase_sublist (Link.steady_abandon id _) (Link.retains_abandon id _)
  | stirs x =>
    exact h.spared rfl (.refl _) (Link.steady_onLink x _) (x.retains_onLink _)

/-- **…and so it is over a whole history.** -/
theorem Departs.run (h : w.Departs role) {es : List Event} (hes : ∀ e ∈ es, e.suits role) :
    (w.run es).Departs role := by
  induction es generalizing w with
  | nil => exact h
  | cons e es ih =>
    obtain ⟨he, hes⟩ := List.forall_mem_cons.mp hes
    exact ih (h.step he) hes

/-! ## A client that has left -/

/-- The client has begun to leave, and nobody is leaving any more. -/
structure Deserted (w : Desk) : Prop where
  closed : w.session.closed
  nobody : ∀ p ∈ w.calls, p.2.departs = false

/-- **Nobody leaves a deserted client**, and its link stays as open as it is. -/
theorem Deserted.step (h : w.Deserted) (hw : w.Departs role) (e : Event) :
    (w.step e).Deserted ∧ w.session.link.Steady (w.step e).session.link := by
  cases e with
  | begins id c =>
    rw [Desk.step]
    split
    · next hbegins =>
      have hstill := (still_of_isNew hbegins.1).1
      exact ⟨⟨h.closed, List.forall_mem_cons.mpr ⟨hstill, h.nobody⟩⟩, .refl _⟩
    · exact ⟨h, .refl _⟩
  | turns t =>
    rw [Desk.step]
    cases hcall : w.calls.lookup t.id with
    | none => exact ⟨h, .refl _⟩
    | some c =>
      obtain rfl := hw.plays
      have hc := mem_of_lookup hcall
      obtain ⟨hvoices, hbelongs, -⟩ := hw.inFlight _ hc
      refine ⟨⟨(Call.step_voiced t hvoices hbelongs w.store).closed h.closed, fun p hp => ?_⟩,
        Call.step_steady t (h.nobody _ hc) w.session w.store⟩
      change p ∈ (w.turn t c).calls at hp
      rw [calls_turn] at hp
      rcases List.mem_append.mp hp with hp | hp
      · obtain ⟨next, hnext, rfl⟩ := Option.map_eq_some_iff.mp (Option.mem_toList.mp hp)
        exact (Call.step_departs t h.closed (h.nobody _ hc) w.store).of_state? hnext
      · exact h.nobody p (List.mem_of_mem_erase hp)
  | drops id =>
    rw [Desk.step]
    cases hcall : w.calls.lookup id with
    | none => exact ⟨h, .refl _⟩
    | some c =>
      exact ⟨⟨h.closed, fun p hp => h.nobody p (List.mem_of_mem_erase hp)⟩,
        Link.steady_abandon id _⟩
  | stirs x => exact ⟨⟨h.closed, h.nobody⟩, Link.steady_onLink x _⟩

theorem Deserted.run (h : w.Deserted) (hw : w.Departs role) {es : List Event}
    (hes : ∀ e ∈ es, e.suits role) :
    (w.run es).Deserted ∧ w.session.link.Steady (w.run es).session.link := by
  induction es generalizing w with
  | nil => exact ⟨h, .refl _⟩
  | cons e es ih =>
    obtain ⟨he, hes⟩ := List.forall_mem_cons.mp hes
    obtain ⟨hstep, hsteady⟩ := h.step hw e
    obtain ⟨hrun, hsteady'⟩ := ih hstep (hw.step he) hes
    exact ⟨hrun, hsteady.trans hsteady'⟩

/-- The exit that leaves has returned. -/
structure Left (w : Desk) : Prop where
  closed : w.session.closed
  shut : w.session.link.Shut
  nobody : ∀ p ∈ w.calls, p.2.departs = false

/-- **When the exit returns that leaves, the client has left.** -/
theorem Departs.left (h : w.Departs role) (hcall : w.calls.lookup t.id = some c)
    (hdeparts : c.departs) {r : Except Failure Reply}
    (hend : (c.step t w.session w.store).2.2 = .ends r) : (w.step (.turns t)).Left := by
  obtain rfl := h.plays
  have hc := mem_of_lookup hcall
  obtain ⟨hvoices, hbelongs, hstands⟩ := h.inFlight _ hc
  have hw : w.step (.turns t) = w.turn t c := by
    rw [Desk.step, hcall]
    rfl
  rw [hw]
  refine ⟨(Call.step_voiced t hvoices hbelongs w.store).closed
      (Call.closed_of_departs hvoices hdeparts),
    (Call.step_stands t hstands h.opened w.store).2 hdeparts r hend, fun p hp => ?_⟩
  rw [calls_turn, hend] at hp
  exact h.alone hc hdeparts hp

theorem Left.deserted (h : w.Left) : w.Deserted := ⟨h.closed, h.nobody⟩

/-- **Nothing that happens brings it back.** -/
theorem Left.step (h : w.Left) (hw : w.Departs role) (e : Event) : (w.step e).Left := by
  obtain ⟨hdeserted, hsteady⟩ := h.deserted.step hw e
  exact ⟨hdeserted.closed, h.shut.steady hsteady, hdeserted.nobody⟩

theorem Left.run (h : w.Left) (hw : w.Departs role) {es : List Event}
    (hes : ∀ e ∈ es, e.suits role) : (w.run es).Left := by
  obtain ⟨hdeserted, hsteady⟩ := h.deserted.run hw hes
  exact ⟨hdeserted.closed, h.shut.steady hsteady, hdeserted.nobody⟩

/-! ## Reachable clients -/

/-- **A client comes this far**: its handshake has succeeded on a new link, and whatever has
happened since to it and its calls has. -/
inductive Reached (h : Handshake) : Desk → Prop
  | starts {openStore : StoreParams → Except StoreError Unit} {id : CallId} {l : Link}
      {greeting : List Greeting.Event} {config : SessionConfig} (opened : l.closing = false)
      (lines : ∀ c, (l.inbox c).line = []) (new : ∀ c, l.outbox c = {})
      (ready : ((Greeting.start l).run h openStore id greeting).progress = .ends (.ok config))
      (b : Backend) :
      Reached h (start (h.session ((Greeting.start l).run h openStore id greeting).link config) b)
  | goes {w : Desk} {e : Event} (before : Reached h w) (suits : e.suits h.role) :
      Reached h (w.step e)

variable {h : Handshake}

theorem Reached.run (hw : Reached h w) {es : List Event} (hes : ∀ e ∈ es, e.suits h.role) :
    Reached h (w.run es) := by
  induction es generalizing w with
  | nil => exact hw
  | cons e es ih =>
    obtain ⟨he, hes⟩ := List.forall_mem_cons.mp hes
    exact ih (hw.goes he) hes

/-- **Every client that is reached keeps the account of leaving.** -/
theorem Reached.departs (hw : Reached h w) : w.Departs h.role := by
  induction hw with
  | @starts openStore id l greeting config opened lines new ready b =>
    have hgreeting : Greeting.Follows h openStore id l _ :=
      (Greeting.Follows.start lines new).run opened greeting
    obtain ⟨hopens, -⟩ := hgreeting.said.done config ready
    obtain ⟨hsteady, -⟩ := hgreeting.account.done config ready
    have hspec := Life.control_spec h.role.originator (h.intro l) _ List.mem_cons_self
    exact Departs.start (s := h.session _ config) (hsteady.closing.trans opened) hopens hspec.1
      nofun b
  | goes _ hsuits ih => exact ih.step hsuits

/-- **Closed is closed for good.**  Let a client be reached, whatever calls it has in flight at
once and whatever has happened around them, and let the exit that has found it open return, with
success or an error.  From then on, whatever else happens,

* the client is closed, its link is closed, and every channel is shut;
* of the whole frames on the control channel one at most takes leave, and of those on the other
  channels none;
* whoever knocks is answered at once by the error that the client is closed (but another exit by
  success, and a fetched message that cannot be posted back by what is wrong with it), or is a
  listener, asked in to be told so; and so is a whole series of calls.  The session and the store
  are then equal to what they were: nothing was written, read, discarded, kept, taken, stored or
  checked out. -/
theorem closed_for_good (hw : Reached h w) {phase : Exit.Phase} (hphase : phase ≠ .start)
    (hcall : w.calls.lookup t.id = some (.exit phase)) {r : Except Failure Unit}
    (hend : (Exit.step t phase w.session).2 = .ends r) {later : List Event}
    (hlater : ∀ e ∈ later, e.suits h.role) :
    let w' := (w.step (.turns t)).run later
    w'.session.closed ∧ w'.session.link.closing ∧ (∀ ch, (w'.session.link.outbox ch).shut) ∧
      w'.session.link.leaveTakings .ctrl ≤ 1 ∧
      (∀ ch, ch ≠ .ctrl → w'.session.link.leaveTakings ch = 0) ∧
      (∀ c : Call, c.Knocks → ∀ t,
        c.step t w'.session w'.store = (w'.session, w'.store, .ends c.refusal) ∨
          ∃ want, c = .intake (.listen want) .start ∧ c.step t w'.session w'.store
            = (w'.session, w'.store, .goes (.intake (.listen want) (.attending none)))) ∧
      ∀ calls : List (Turn × Call), (∀ x ∈ calls, x.2.isNew) →
        Call.series calls w'.session w'.store
          = (w'.session, w'.store, calls.map fun x => .ends x.2.refusal) := by
  intro w'
  have hdeparts : (Call.exit phase).departs := by
    cases phase with
    | start => exact absurd rfl hphase
    | saying x => rfl
    | closing c wrong => rfl
  have hdone : ∃ r', ((Call.exit phase).step t w.session w.store).2.2 = .ends r' := by
    change ∃ r', Call.lift .exit (fun _ => .done) (Exit.step t phase w.session).2 = .ends r'
    rw [hend]
    cases r <;> exact ⟨_, rfl⟩
  obtain ⟨r', hdone⟩ := hdone
  have hgone := hw.departs.step (e := .turns t) rfl
  have hleft : w'.Left := (hw.departs.left hcall hdeparts hdone).run hgone hlater
  have haccount : w'.Departs h.role := hgone.run hlater
  obtain ⟨n, hrows, hn⟩ := haccount.rows
  have hone : n ≤ 1 := by
    have hclosed := Bool.toNat_le w'.session.closed
    omega
  obtain ⟨hctrl, hothers⟩ := (hrows.mono hone).leaveTakings
  exact ⟨hleft.closed, hleft.shut.closing, hleft.shut.shut, hctrl, hothers,
    fun c hc t => Call.step_refused hleft.closed hc t w'.store,
    Call.series_refused hleft.closed w'.store⟩

/-- An application leaves while it listens: the listener hears of it, and whoever comes later is
turned away. -/
theorem closed_for_good_listened :
    let h : Handshake := { identifier := "a", role := .application, responseWindow := .ofSeconds 1 }
    let answer := Message.initResponse .success { mode := .pull }
    let greets : Greeting.Event := .turns ⟨0⟩ 0
    let greeting := [greets, greets, greets, .stirs (.writes .ctrl .flushes), greets,
      .stirs (.arrives .ctrl ((answer.encode.map Frame.wrap).toOption.getD .empty)), greets]
    let turn (id : CallId) : Event := .turns ⟨id, ⟨0⟩, 0⟩
    let es := [.begins 0 (.ofIntake (.listen false)), turn 0, turn 0, .begins 1 .ofExit, turn 1,
      turn 1, turn 1, .stirs (.writes .ctrl .flushes), turn 1, turn 1, turn 1, turn 1, turn 1,
      turn 0, turn 1]
    let t : Turn := ⟨1, ⟨0⟩, 0⟩
    let left := fun link : Link =>
      (((start (h.session link { mode := .pull }) {}).run es).step (.turns t)).run []
    let w := left ((Greeting.start {}).run h (fun _ => .ok ()) 9 greeting).link
    w.session.closed ∧ (∀ ch, (w.session.link.outbox ch).shut) ∧
      w.session.link.leaveTakings .ctrl = 1 ∧
      Call.series [(t, .ofPing none), (t, .ofHand (.send "b" "hi".toUTF8)), (t, .ofExit)]
          w.session w.store
        = (w.session, w.store, [.ends (.error (.error .closed)), .ends (.error (.error .closed)),
          .ends (.ok .done)]) := by
  intro h answer greets greeting turn es t
  dsimp only
  have hlines (c : Channel) : (({} : Link).inbox c).line = [] := by cases c <;> rfl
  have hnew (c : Channel) : ({} : Link).outbox c = {} := by cases c <;> rfl
  have hready : ((Greeting.start {}).run h (fun _ => .ok ()) 9 greeting).progress
      = .ends (.ok { mode := .pull }) := Progress.eq_ends_of_reply? (by decide +kernel)
  have hes : ∀ e ∈ es, e.suits h.role := by decide
  have hreached := (Reached.starts rfl hlines hnew hready {}).run hes
  have hcall : ((start (h.session ((Greeting.start {}).run h (fun _ => .ok ()) 9 greeting).link
      { mode := .pull }) {}).run es).calls.lookup 1
        = some (.exit (.closing (.releasing []) none)) := by decide +kernel
  have hbegun : Exit.Phase.closing (.releasing []) none ≠ .start := by decide
  have hend (s : Session) :
      (Exit.step t (.closing (.releasing []) none) s).2 = .ends (.ok ()) := rfl
  have hnone : ∀ e ∈ ([] : List Event), e.suits h.role := fun _ h => absurd h List.not_mem_nil
  obtain ⟨hclosed, -, hshut, -, -, -, hseries⟩ :=
    closed_for_good (t := t) hreached hbegun hcall (hend _) hnone
  exact ⟨hclosed, hshut, by decide +kernel, hseries _ (by decide)⟩

end Desk

end SimRelay
