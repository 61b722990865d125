import SimRelay.Proofs.Call.Overflow
import SimRelay.Proofs.Call.Wading
import SimRelay.Proofs.Call.Remnants
import SimRelay.Proofs.Call.Withstanding

/-!
# Proofs/Call/Attempts — calls one after another, and the delivery behind useless frames

A delivery lies on the channel, and before it frames that no call can use.  Calls are made one after
another, each heard out.

Where deliveries are pulled, a call goes as its pull goes (`Quest.Mirrors`), and so ends with the
delivery, or with nothing and a useless frame fewer before it (`Session.Promises.call`).  Where they
are pushed, each call takes one frame, whatever is in it (`Session.Meets.call`).  So the number of
calls that it takes is told from the frames before the delivery, by induction on the calls.
-/

namespace SimRelay

/-- Results can be told apart. -/
instance decidableEqExcept {ε α : Type} [DecidableEq ε] [DecidableEq α] : DecidableEq (Except ε α)
  | .ok a, .ok b => decidable_of_iff (a = b) ⟨congrArg Except.ok, Except.ok.inj⟩
  | .error d, .error e => decidable_of_iff (d = e) ⟨congrArg Except.error, Except.error.inj⟩
  | .ok _, .error _ => .isFalse nofun
  | .error _, .ok _ => .isFalse nofun

/-- The first step of a call. -/
theorem Episode.step_start (id : CallId) (c : Call) (s : Session) (b : Backend) (now : Instant)
    (millis : Nat) : (Episode.start id c s b).step (.turns now millis) =
      let r := c.step ⟨id, now, millis⟩ s b
      ⟨id, r.1, r.2.1, r.2.2⟩ := rfl

/-! ## Deliveries that carry their payload -/

namespace Intake

variable {i : Intake} {s : Session} {m : Message}

/-- A delivery without a key is with its caller as it came. -/
theorem settle_keyless (i : Intake) (s : Session) (hkeyless : m.payloadKey = none) :
    i.settle s m = .ends (.ok (s.role.unstored m)) := by
  unfold settle Role.unstored
  rw [hkeyless]
  cases s.role <;> rfl

/-- With any delivery, a call ends or asks the store for what is under its key. -/
theorem settle_cases (i : Intake) (s : Session) (m : Message) :
    (∃ r, i.settle s m = .ends r) ∨
      ∃ key, m.payloadKey = some key ∧ i.settle s m = .goes (.resolving m key) := by
  unfold settle
  split
  · exact .inl ⟨_, rfl⟩
  · next key _ hkey =>
    split
    · exact .inr ⟨key, hkey, rfl⟩
    · exact .inl ⟨_, rfl⟩
  · next key _ hkey =>
    split
    · exact .inr ⟨key, hkey, rfl⟩
    · exact .inl ⟨_, rfl⟩
  · exact .inl ⟨_, rfl⟩

/-- What a call has come to whose pull has come so far. -/
def pulls (i : Intake) (s : Session) (p : Progress Failure Pull.Phase (Option Message)) :
    Progress Failure Call Reply :=
  Call.lift (.intake i) .delivery
    (p.andThen .pulling (i.settlePulled s) fun e => .ends (.error e))

/-- A pull that has ended with a delivery that carries its payload. -/
theorem pulls_keyless (i : Intake) (s : Session) (hkeyless : m.payloadKey = none) :
    i.pulls s (.ends (.ok (some m))) = .ends (.ok (.delivery (s.role.unstored m))) := by
  change Call.lift _ _ (i.settle s m) = _
  rw [i.settle_keyless s hkeyless]
  rfl

/-- How a call begins where deliveries are pulled. -/
theorem begins_pulling (hfits : i.Fits s.role) (hactive : s.closed = false)
    (hmode : s.config.mode = .pull) (id : CallId) (now : Instant) (millis : Nat) (b : Backend) :
    (Episode.start id (.ofIntake i) s b).step (.turns now millis)
      = ⟨id, s, b, .goes (.intake i (.pulling .draining))⟩ := by
  rw [Episode.step_start, step_start hfits hactive, hmode]

/-- …and where they are pushed. -/
theorem begins_attending (i : Intake) (hactive : s.closed = false) (hmode : s.config.mode = .push)
    (id : CallId) (now : Instant) (millis : Nat) (b : Backend) :
    ∃ timeout, (Episode.start id (.ofIntake i) s b).step (.turns now millis)
      = ⟨id, s, b, .goes (.intake i (.attending timeout))⟩ := by
  rw [Episode.step_start]
  cases i with
  | listen want => exact ⟨none, rfl⟩
  | receive destination timeout =>
    refine ⟨timeout, ?_⟩
    simp only [Call.ofIntake, Call.step, step, hactive, hmode, Bool.false_eq_true, if_false]
    rfl
  | fetch source timeout want =>
    refine ⟨timeout, ?_⟩
    simp only [Call.ofIntake, Call.step, step, hactive, hmode, Bool.false_eq_true, if_false]
    rfl

theorem step_pulling (t : Turn) (i : Intake) (phase : Pull.Phase) (s : Session) (b : Backend) :
    (Call.intake i (.pulling phase)).step t s b =
      let r := Pull.step t (i.wanted s) (i.timeout.getD s.responseWindow) phase s
      (r.1, b, i.pulls r.1 r.2) := rfl

theorem state?_pulls {phase : Pull.Phase} {p : Progress Failure Pull.Phase (Option Message)}
    (h : p.state? = some phase) : (i.pulls s p).state? = some (.intake i (.pulling phase)) := by
  cases p with
  | waits phase' => exact congrArg (fun p => some (Call.intake i (.pulling p))) (Option.some.inj h)
  | goes phase' => exact congrArg (fun p => some (Call.intake i (.pulling p))) (Option.some.inj h)
  | ends r => cases h

end Intake

/-! ## A call that pulls -/

namespace Pull.Quest

variable {i : Intake} {q : Quest} {w : Episode} {e : Call.Event} {es : List Call.Event}

/-- **A pull leaves its client who it was.** -/
theorem step_alike (q : Quest) (e : Call.Event) : q.session.Alike (q.step e).session := by
  cases e with
  | stirs x => exact ⟨_, q.session.late, rfl⟩
  | turns now millis =>
    obtain ⟨body?, halike, -⟩ := q.turns_dealt now millis
    exact halike

theorem run_alike (q : Quest) (es : List Call.Event) : q.session.Alike (q.run es).session := by
  induction es generalizing q with
  | nil => exact ⟨q.session.link, q.session.late, rfl⟩
  | cons e es ih => exact (q.step_alike e).trans (ih (q.step e))

/-- The call that the episode is about goes as the pull does. -/
structure Mirrors (i : Intake) (q : Quest) (w : Episode) : Prop where
  id : w.id = q.id
  session : w.session = q.session
  progress : w.progress = i.pulls q.session q.progress
  wanted : i.wanted q.session = q.wanted
  timeout : i.timeout.getD q.session.responseWindow = q.timeout

/-- What the pull has handed out, if it has, carries no key. -/
def Keyless (q : Quest) : Prop := ∀ m, q.progress = .ends (.ok (some m)) → m.payloadKey = none

/-- The call of a pull that has ended has ended. -/
theorem Mirrors.ended (h : Mirrors i q w) (hkeyless : q.Keyless)
    (hended : q.progress.state? = none) : w.progress.state? = none := by
  obtain ⟨r, hr⟩ := Progress.eq_ends_of_state? hended
  rw [h.progress, hr]
  match r, hr with
  | .error e, _ => rfl
  | .ok none, _ => rfl
  | .ok (some m), hr =>
    rw [i.pulls_keyless q.session (hkeyless m hr)]
    rfl

theorem Keyless.of_ends {m : Message} (hends : q.progress = .ends (.ok (some m)))
    (hkeyless : m.payloadKey = none) : q.Keyless := by
  intro m' hm
  obtain rfl := Option.some.inj (Except.ok.inj (Progress.ends.inj (hends.symm.trans hm)))
  exact hkeyless

/-- The call gets what its pull has handed out. -/
theorem Mirrors.gets (h : Mirrors i q w) {m : Message} (hends : q.progress = .ends (.ok (some m)))
    (hkeyless : m.payloadKey = none) :
    w.progress = .ends (.ok (.delivery (q.session.role.unstored m))) := by
  rw [h.progress, hends, i.pulls_keyless q.session hkeyless]

/-- **A call goes on as its pull does.** -/
theorem Mirrors.step (h : Mirrors i q w) (hkeyless : q.Keyless) (e : Call.Event) :
    Mirrors i (q.step e) (w.step e) := by
  obtain ⟨hid, hwanted, htimeout⟩ := q.step_fixed e
  -- who the client is and what it is asked for stays as it is
  have hon (hid' : (w.step e).id = w.id) (hsession : (w.step e).session = (q.step e).session)
      (hprogress : (w.step e).progress = i.pulls (q.step e).session (q.step e).progress) :
      Mirrors i (q.step e) (w.step e) := by
    obtain ⟨link, late, halike⟩ := q.step_alike e
    refine ⟨hid'.trans (h.id.trans hid.symm), hsession, hprogress, ?_, ?_⟩
    · rw [hwanted, ← h.wanted, halike]
      exact Intake.wanted_congr rfl i
    · rw [htimeout, ← h.timeout, halike]
  cases e with
  | stirs x =>
    refine hon rfl (congrArg (fun s : Session => { s with link := x.onLink s.link }) h.session) ?_
    exact h.progress
  | turns now millis =>
    cases hstate : q.progress.state? with
    | none =>
      rw [Episode.step_turns_of_ended (h.ended hkeyless hstate), step_turns_of_ended hstate]
      exact h
    | some phase =>
      have hcall : w.progress.state? = some (.intake i (.pulling phase)) :=
        h.progress ▸ Intake.state?_pulls hstate
      have hw : w.step (.turns now millis) = _ := Episode.step_turns hcall
      have hq : q.step (.turns now millis) = _ := step_turns hstate now millis
      rw [Intake.step_pulling, h.session, h.wanted, h.timeout, h.id] at hw
      refine hon ?_ ?_ ?_
      · rw [hw]
        exact h.id.symm
      · rw [hw, hq]
      · rw [hw, hq]

/-- **…over a whole history.** -/
theorem Mirrors.run (h : Mirrors i q w) (hkeyless : (q.run es).Keyless) :
    Mirrors i (q.run es) (w.run es) := by
  induction es generalizing q w with
  | nil => exact h
  | cons e es ih =>
    have hnow : q.Keyless := fun m hm =>
      hkeyless m ((ended_run (hm ▸ rfl) (e :: es)).trans hm)
    exact ih (h.step hnow e) hkeyless

end Pull.Quest

/-! ## Calls that are heard out -/

theorem Call.arrivals_append (ch : Channel) (es es' : List Call.Event) :
    arrivals ch (es ++ es') = arrivals ch es ++ arrivals ch es' := by
  induction es with
  | nil => exact ByteArray.empty_append.symm
  | cons e es ih => rw [List.cons_append, arrivals, arrivals, ih, ByteArray.append_assoc]

/-- Rounds bring nothing. -/
theorem Call.arrivals_rounds (ch : Channel) (turns : List (Instant × Nat)) :
    arrivals ch (rounds turns) = .empty := by
  induction turns with
  | nil => rfl
  | cons turn turns ih =>
    change .empty ++ (.empty ++ arrivals ch (rounds turns)) = _
    rw [ih, ByteArray.append_empty, ByteArray.append_empty]

theorem Call.turnCount_append (es es' : List Call.Event) :
    turnCount (es ++ es') = turnCount es + turnCount es' := by
  induction es with
  | nil => exact (Nat.zero_add _).symm
  | cons e es ih =>
    cases e with
    | stirs x => exact ih
    | turns now millis =>
      change turnCount (es ++ es') + 1 = turnCount es + 1 + turnCount es'
      omega

theorem Call.turnCount_rounds : ∀ turns : List (Instant × Nat),
    turnCount (rounds turns) = turns.length
  | [] => rfl
  | _ :: turns => congrArg Nat.succ (turnCount_rounds turns)

namespace Session

/-- A call that a client is asked for, with the instant of its first step, what goes on then, and
the rounds that it is given in the end. -/
structure Attempt where
  id : CallId
  intake : Intake
  first : Instant × Nat
  events : List Call.Event
  rounds : List (Instant × Nat)

namespace Attempt

def history (a : Attempt) : List Call.Event :=
  .turns a.first.1 a.first.2 :: (a.events ++ Call.rounds a.rounds)

def call (a : Attempt) : Stock.Event := .calls a.id a.intake a.history

/-- What comes on the inbound channel while these calls are made. -/
def arrivals (attempts : List Attempt) : ByteArray :=
  Call.arrivals .recv (attempts.flatMap events)

theorem arrivals_cons (a : Attempt) (attempts : List Attempt) :
    arrivals (a :: attempts) = Call.arrivals .recv a.events ++ arrivals attempts :=
  Call.arrivals_append ..

/-- Such a delivery is asked for by a client of this role, on a channel that stays in order, and
there are so many rounds. -/
structure Pulls (s : Session) (wanted : Wanted) (rounds : Nat) (a : Attempt) : Prop where
  fits : a.intake.Fits s.role
  wants : a.intake.wanted s = wanted
  intact : ∀ e ∈ a.events, e.Intact .recv
  enough : rounds ≤ a.rounds.length

/-- The channel stays in order while the call is made, and there are two rounds. -/
structure Attends (a : Attempt) : Prop where
  intact : ∀ e ∈ a.events, e.Intact .recv
  enough : 2 ≤ a.rounds.length

theorem Pulls.alike {s s' : Session} {wanted : Wanted} {n : Nat} {a : Attempt}
    (h : a.Pulls s wanted n) : s.Alike s' → a.Pulls s' wanted n
  | ⟨_, _, hs⟩ => by
    rw [hs]
    exact ⟨h.fits, (Intake.wanted_congr rfl a.intake).trans h.wants, h.intact, h.enough⟩

end Attempt

/-- These calls are made one after another, and whenever one has written its request, the clock can
represent the deadline. -/
def TimelyAll (s : Session) (b : Backend) : List Attempt → Prop
  | [] => True
  | a :: attempts =>
    let w := Episode.start a.id (.ofIntake a.intake) s b
    w.TimelyAll a.history ∧
      (w.run a.history).session.TimelyAll (w.run a.history).store attempts

instance decidableTimelyAll (s : Session) (b : Backend) :
    (attempts : List Attempt) → Decidable (s.TimelyAll b attempts)
  | [] => .isTrue trivial
  | a :: attempts =>
    let w := Episode.start a.id (.ofIntake a.intake) s b
    @instDecidableAnd _ _ (w.decidableTimelyAll a.history)
      ((w.run a.history).session.decidableTimelyAll (w.run a.history).store attempts)

variable {s : Session} {id : CallId}

/-- A channel that is there for any call is read by none… -/
theorem line_of_ready (h : ∀ id, s.Ready .recv id) : (s.link.inbox .recv).line = [] := by
  refine List.eq_nil_iff_forall_not_mem.mpr fun other hother => ?_
  exact absurd ((h (other + 1)).alone other hother) (Nat.ne_of_lt (Nat.lt_succ_self other))

/-- …and one that is read by none is there for any. -/
theorem Ready.of_line (h : s.Ready .recv id) (hline : (s.link.inbox .recv).line = [])
    (other : CallId) : s.Ready .recv other :=
  ⟨h.active, h.isOpen, h.flows, fun _ ho => absurd (hline ▸ ho) List.not_mem_nil⟩

/-! ## Where deliveries are pulled -/

section Pulled

open Pull (Quarry Quest)

variable {role : Role} {wanted : Wanted} {d : Quarry role wanted} {n : Nat} {b : Backend}

/-- Nobody reads the inbound channel of a client that pulls.  The delivery lies there, behind no
more useless frames than this; and of those that are kept or lie before it none is wanted. -/
structure Promises (d : Quarry role wanted) (n : Nat) (s : Session) : Prop where
  plays : s.role = role
  pulls : s.config.mode = .pull
  works : (s.link.outbox .recv).Works
  ready : ∀ id, s.Ready .recv id
  lies : ∃ front, (s.link.inbox .recv).Ahead (front ++ [d.body]) .empty ∧
    (∀ m ∈ s.late ++ deliveries role.delivery front, ¬ wanted.accepts m) ∧
    front.countP (Message.useless role.delivery) ≤ n

/-- The pull of a call. -/
def Attempt.quest (wanted : Wanted) (a : Attempt) (s : Session) : Quest :=
  Quest.start a.id wanted (a.intake.timeout.getD s.responseWindow) a.first.1 s

/-- What the pull of a call comes to. -/
theorem Promises.lands (h : s.Promises d n) (hsayable : (wanted.request role.originator).Sayable)
    {a : Attempt} {rounds : Nat} (ha : a.Pulls s wanted rounds) {more : ByteArray}
    (hwhole : Frame.ending
      ((s.link.inbox .recv).pending ++ Call.arrivals .recv a.events ++ more) = .needMore)
    (hrounds : (Frame.bodies
      ((s.link.inbox .recv).pending ++ Call.arrivals .recv a.events)).length + 4 ≤ rounds) :
    let q := (a.quest wanted s).run (a.events ++ Call.rounds a.rounds)
    q.Lands d n ∧ q.Alone ∧
      (s.link.inbox .recv).Spent (Call.arrivals .recv a.events) q.inbox := by
  obtain ⟨front, hahead, hunwanted, hfew⟩ := h.lies
  have halone : (a.quest wanted s).Alone := ⟨h.ready a.id, .inr (line_of_ready h.ready)⟩
  have hwades : (a.quest wanted s).Wades d n :=
    .seeks ⟨h.plays, rfl, h.ready a.id, h.works⟩ rfl hahead hunwanted hfew
  have hrun := hwades.run hsayable halone ha.intact hwhole
  obtain ⟨halone', hspent⟩ := halone.run ha.intact
  obtain ⟨hending, -⟩ := hspent.frames more
  obtain ⟨-, hle⟩ := hspent.frames .empty
  simp only [ByteArray.append_empty] at hle
  have hlands := hrun.ends hsayable (hending.trans hwhole)
    (Nat.le_trans (Nat.add_le_add_right hle 4) (Nat.le_trans hrounds ha.enough))
  obtain ⟨halone'', hspent'⟩ := halone'.run (Quest.intact_rounds a.rounds)
  have hall := hspent.trans hspent'
  rw [← Quest.run_append, Call.arrivals_rounds, ByteArray.append_empty] at hall
  rw [← Quest.run_append] at hlands halone''
  exact ⟨hlands, halone'', hall⟩

/-- A call begins as its pull does. -/
theorem Promises.begins (h : s.Promises d n) {a : Attempt} {rounds : Nat}
    (ha : a.Pulls s wanted rounds) (b : Backend) :
    Quest.Mirrors a.intake (a.quest wanted s)
      ((Episode.start a.id (.ofIntake a.intake) s b).step (.turns a.first.1 a.first.2)) := by
  rw [Intake.begins_pulling ha.fits (h.ready a.id).active h.pulls]
  exact ⟨rfl, rfl, rfl, ha.wants, rfl⟩

/-- **A call gets the delivery, or a useless frame out of its way.** -/
theorem Promises.call (h : s.Promises d n) (hkeyless : d.message.payloadKey = none)
    (hsayable : (wanted.request role.originator).Sayable) {a : Attempt} {rounds : Nat}
    (ha : a.Pulls s wanted rounds)
    (htimely : (Episode.start a.id (.ofIntake a.intake) s b).TimelyAll a.history)
    {more : ByteArray}
    (hwhole : Frame.ending
      ((s.link.inbox .recv).pending ++ Call.arrivals .recv a.events ++ more) = .needMore)
    (hrounds : (Frame.bodies
      ((s.link.inbox .recv).pending ++ Call.arrivals .recv a.events)).length + 4 ≤ rounds) :
    let w := (Episode.start a.id (.ofIntake a.intake) s b).run a.history
    w.progress = .ends (.ok (.delivery (role.unstored d.message))) ∨
      ∃ k < n, w.progress = .ends (.ok (.delivery none)) ∧ w.session.Promises d k ∧
        s.Alike w.session ∧
        (s.link.inbox .recv).Spent (Call.arrivals .recv a.events)
          (w.session.link.inbox .recv) := by
  intro w
  obtain ⟨hlands, halone, hspent⟩ := h.lands hsayable ha hwhole hrounds
  have halike : s.Alike _ := (a.quest wanted s).run_alike (a.events ++ Call.rounds a.rounds)
  have hmirrors : ((a.quest wanted s).run (a.events ++ Call.rounds a.rounds)).Keyless →
      Quest.Mirrors a.intake _ w := (h.begins ha b).run
  have hlost : w.progress.Timely := Episode.run_timely htimely trivial
  generalize (a.quest wanted s).run (a.events ++ Call.rounds a.rounds) = q at *
  have hgets (hends : q.progress = .ends (.ok (some d.message))) :
      w.progress = .ends (.ok (.delivery (role.unstored d.message))) := by
    have hw := (hmirrors (.of_ends hends hkeyless)).gets hends hkeyless
    rwa [halike.keeps.role, h.plays] at hw
  rcases hlands with hends | ⟨others, hunwanted, hconcludes⟩
  · exact .inl (hgets hends)
  · cases hconcludes with
    | gets ended => exact .inl (hgets ended)
    | overflows ended =>
      have hw := hmirrors fun m hm => by cases ended.symm.trans hm
      rw [hw.progress, ended] at hlost
      exact hlost.elim
    | @misses front sound ended ahead books fewer =>
      have hw := hmirrors fun m hm => by cases ended.symm.trans hm
      have hline := halone.nobody (ended ▸ rfl)
      refine .inr ⟨_, fewer, ?_, ?_⟩
      · rw [hw.progress, ended]
        rfl
      · rw [hw.session]
        refine ⟨⟨sound.plays, ?_, sound.works, halone.ready.of_line hline, front, ahead, ?_,
          Nat.le_refl _⟩, halike, hspent⟩
        · rw [halike.keeps.config]
          exact h.pulls
        · rw [books]
          exact hunwanted

/-- **So does one call after another**, until one gets the delivery. -/
theorem Promises.serve (h : s.Promises d n) (hkeyless : d.message.payloadKey = none)
    (hsayable : (wanted.request role.originator).Sayable) {attempts : List Attempt} {rounds : Nat}
    (hattempts : ∀ a ∈ attempts, a.Pulls s wanted rounds) (htimely : s.TimelyAll b attempts)
    (hwhole : Frame.ending ((s.link.inbox .recv).pending ++ Attempt.arrivals attempts) = .needMore)
    (hrounds : (Frame.bodies
      ((s.link.inbox .recv).pending ++ Attempt.arrivals attempts)).length + 4 ≤ rounds)
    (hmany : n < attempts.length) :
    ∃ j ≤ n, (s.serve (attempts.map Attempt.call) b).1[j]?
        = some (some (.ok (.delivery (role.unstored d.message)))) ∧
      ∀ k < j, (s.serve (attempts.map Attempt.call) b).1[k]?
        = some (some (.ok (.delivery none))) := by
  induction attempts generalizing s n b with
  | nil => exact absurd hmany (Nat.not_lt_zero n)
  | cons a attempts ih =>
    obtain ⟨ha, hrest⟩ := List.forall_mem_cons.mp hattempts
    rw [Attempt.arrivals_cons, ← ByteArray.append_assoc] at hwhole hrounds
    have hprefix := (Frame.bodies_prefix_append
      ((s.link.inbox .recv).pending ++ Call.arrivals .recv a.events)
      (Attempt.arrivals attempts)).length_le
    obtain ⟨htimely, htimely'⟩ := htimely
    have hcall := h.call (b := b) hkeyless hsayable ha htimely hwhole (by omega)
    rw [List.map_cons, Attempt.call, serve]
    dsimp only
    generalize (Episode.start a.id (.ofIntake a.intake) s b).run a.history = w at hcall htimely' ⊢
    rcases hcall with hgets | ⟨k, hk, hnone, hpromises, halike, hspent⟩
    · refine ⟨0, Nat.zero_le n, ?_, fun k hk => absurd hk (Nat.not_lt_zero k)⟩
      rw [hgets]
      rfl
    · obtain ⟨hending, hle⟩ := hspent.frames (Attempt.arrivals attempts)
      rw [List.length_cons] at hmany
      obtain ⟨j, hj, hgets, hbefore⟩ := ih (b := w.store) hpromises
        (fun a' ha' => (hrest a' ha').alike halike) htimely' (hending.trans hwhole) (by omega) (by omega)
      refine ⟨j + 1, by omega, hgets, fun k' hk' => ?_⟩
      cases k' with
      | zero =>
        rw [hnone]
        rfl
      | succ k' => exact hbefore k' (Nat.lt_of_succ_lt_succ hk')

end Pulled

/-! ## Where deliveries are pushed -/

section Pushed

variable {s₀ : Session} {row : List ByteArray} {body : ByteArray} {b : Backend} {i : Intake}

/-- Nobody reads the inbound channel of a client that is who it was, and these are the first frames
there. -/
structure Meets (s₀ : Session) (row : List ByteArray) (s : Session) : Prop where
  alike : s₀.Alike s
  ready : ∀ id, s.Ready .recv id
  ahead : (s.link.inbox .recv).Ahead row .empty

theorem Meets.stir (h : s₀.Meets row s) {x : Stir} (hx : x.Intact .recv) :
    s₀.Meets row { s with link := x.onLink s.link } := by
  exact ⟨h.alike.trans (.link s _), fun id => Stir.ready_onLink hx (h.ready id),
    h.ahead.stays hx (h.ready 0).flows⟩

/-- The first frame is heard. -/
theorem Meets.hear (h : s₀.Meets (body :: row) s) (t : Turn) (begins : Bool)
    (deadline : Option Instant) :
    ∃ s', s.hear t .recv begins deadline
        = ((Message.ofBody? body).elim .nothing .message, s') ∧ s₀.Meets row s' := by
  obtain ⟨-, hfirst⟩ := h.ahead.first (h.ready t.id).flows
  have hbody : (s.link.inbox .recv).prospect.body? = some body :=
    hfirst.resolve_right fun h => h.2 rfl
  have hframe : (s.link.inbox .recv).prospect = .frame body := Inbox.Offer.eq_frame hbody
  obtain ⟨j, hhear, hhanded, hline⟩ := hear_due begins deadline (h.ready t.id).active
    (h.ready t.id).isOpen (h.ready t.id).alone (by rw [hframe]; nofun)
  rw [hframe] at hhear hhanded
  have hinbox : (s.link.setInbox .recv j).inbox .recv = j := by
    rw [Link.inbox_setInbox, if_pos rfl]
  refine ⟨_, hhear.trans (congrArg (·, _) ?_), h.alike.trans (.link s _), fun id => ?_, ?_⟩
  · rw [Heard.of, Message.ofBody?]
    cases Message.decode body <;> rfl
  · refine (h.ready id).of_link (Link.closing_setInbox ..) ?_ ?_
    · rw [hinbox]
      exact hhanded.ended
    · rw [hinbox]
      exact fun other ho => absurd (hline ▸ ho) List.not_mem_nil
  · change ((s.link.setInbox .recv j).inbox .recv).Ahead row .empty
    rw [hinbox]
    exact h.ahead.taken hhanded

/-- What a step comes to that takes this frame. -/
structure Takes (s₀ : Session) (i : Intake) (body : ByteArray) (row : List ByteArray)
    (r : Session × Backend × Progress Failure Call Reply) : Prop where
  meets : s₀.Meets row r.1
  ends : r.2.2.state? = none ∨ ∃ m key, r.2.2 = .goes (.intake i (.resolving m key))
  gives : ∀ m, deliveries s₀.role.delivery [body] = [m] → m.payloadKey = none →
    r.2.2 = .ends (.ok (.delivery (s₀.role.unstored m)))

/-- **A call that attends takes the first frame**, whatever is in it. -/
theorem Meets.attend (h : s₀.Meets (body :: row) s) (t : Turn) (i : Intake)
    (timeout : Option Duration) (b : Backend) :
    Takes s₀ i body row ((Call.intake i (.attending timeout)).step t s b) := by
  obtain ⟨s', hhear, hmeets⟩ := h.hear t true (timeout.map t.now.timer)
  have hrole : s'.role = s₀.role := hmeets.alike.keeps.role
  cases hspelt : Message.ofBody? body with
  | none =>
    have hstep : (Call.intake i (.attending timeout)).step t s b
        = (s', b, .ends (.ok (.delivery none))) := by
      simp only [Call.step, Intake.step, Intake.hearForwarded, hhear, hspelt]
      rfl
    rw [hstep]
    refine ⟨hmeets, .inl rfl, fun m hm => ?_⟩
    cases (Pull.deliveries_of_unspelt hspelt _).symm.trans hm
  | some m =>
    have hbrings := Pull.deliveries_of_spelt hspelt s₀.role.delivery
    have hstep : (Call.intake i (.attending timeout)).step t s b
        = (s', b, Call.lift (.intake i) .delivery
          (if m.isDelivery s₀.role.delivery then i.settle s' m else .ends (.ok none))) := by
      simp only [Call.step, Intake.step, Intake.hearForwarded, hhear, hspelt, ← hrole]
      rfl
    rw [hstep]
    by_cases hm : m.isDelivery s₀.role.delivery
    · rw [if_pos hm] at hbrings ⊢
      refine ⟨hmeets, ?_, fun m' hm' hkeyless => ?_⟩
      · rcases i.settle_cases s' m with ⟨r, hr⟩ | ⟨key, -, hasks⟩
        · refine .inl ?_
          rw [hr]
          cases r <;> rfl
        · refine .inr ⟨m, key, ?_⟩
          rw [hasks]
          rfl
      · obtain rfl := List.singleton_inj.mp (hbrings.symm.trans hm')
        rw [i.settle_keyless s' hkeyless, hrole]
        rfl
    · rw [if_neg hm] at hbrings ⊢
      exact ⟨hmeets, .inl rfl, fun m' hm' => by cases hbrings.symm.trans hm'⟩

/-- How far a call has come that takes this frame: after so many more turns it has ended. -/
inductive Heeds (s₀ : Session) (i : Intake) (body : ByteArray) (row : List ByteArray) :
    Nat → Episode → Prop
  | attends {w : Episode} {timeout : Option Duration} (meets : s₀.Meets (body :: row) w.session)
      (state : w.progress.state? = some (.intake i (.attending timeout))) : Heeds s₀ i body row 2 w
  | resolves {w : Episode} {m : Message} {key : String} (meets : s₀.Meets row w.session)
      (state : w.progress.state? = some (.intake i (.resolving m key)))
      (keyed : ∀ m', deliveries s₀.role.delivery [body] = [m'] → m'.payloadKey ≠ none) :
      Heeds s₀ i body row 1 w
  | ended {w : Episode} (meets : s₀.Meets row w.session) (ended : w.progress.state? = none)
      (gives : ∀ m, deliveries s₀.role.delivery [body] = [m] → m.payloadKey = none →
        w.progress = .ends (.ok (.delivery (s₀.role.unstored m)))) : Heeds s₀ i body row 0 w

variable {k : Nat} {w : Episode} {es : List Call.Event}

theorem Heeds.stir (h : Heeds s₀ i body row k w) {x : Stir} (hx : x.Intact .recv) :
    Heeds s₀ i body row k (w.step (.stirs x)) := by
  cases h with
  | attends meets state => exact .attends (meets.stir hx) state
  | resolves meets state keyed => exact .resolves (meets.stir hx) state keyed
  | ended meets ended gives => exact .ended (meets.stir hx) ended gives

/-- **A turn brings the call to its end** or nearer to it. -/
theorem Heeds.turn (h : Heeds s₀ i body row k w) (now : Instant) (millis : Nat) :
    ∃ k' ≤ k - 1, Heeds s₀ i body row k' (w.step (.turns now millis)) := by
  cases h with
  | @attends _ timeout meets state =>
    have htakes := meets.attend ⟨w.id, now, millis⟩ i timeout w.store
    rw [Episode.step_turns state]
    rcases htakes.ends with hnone | ⟨m, key, hasks⟩
    · exact ⟨0, Nat.zero_le _, .ended htakes.meets hnone htakes.gives⟩
    · refine ⟨1, Nat.le_refl 1, .resolves htakes.meets (congrArg Progress.state? hasks) ?_⟩
      exact fun m' hm' hkeyless => nomatch hasks.symm.trans (htakes.gives m' hm' hkeyless)
  | @resolves _ m key meets state keyed =>
    refine ⟨0, Nat.zero_le _, ?_⟩
    rw [Episode.step_turns state]
    refine .ended meets ?_ fun m' hm' hkeyless => absurd hkeyless (keyed m' hm')
    change (Call.lift (.intake i) .delivery
      (.ends (Intake.resolve m key w.session w.store).2)).state? = none
    exact Call.state?_lift_eq_none rfl
  | ended meets ended gives =>
    rw [Episode.step_turns_of_ended ended]
    exact ⟨0, Nat.le_refl 0, .ended meets ended gives⟩

/-- **…and so do the turns of a whole history.** -/
theorem Heeds.run (h : Heeds s₀ i body row k w) (hes : ∀ e ∈ es, e.Intact .recv) :
    ∃ k' ≤ k - Call.turnCount es, Heeds s₀ i body row k' (w.run es) := by
  induction es generalizing k w with
  | nil => exact ⟨k, Nat.le_refl k, h⟩
  | cons e es ih =>
    obtain ⟨he, hrest⟩ := List.forall_mem_cons.mp hes
    cases e with
    | stirs x => exact ih (h.stir he) hrest
    | turns now millis =>
      obtain ⟨k', hk', hturn⟩ := h.turn now millis
      obtain ⟨k'', hk'', hrun⟩ := ih hturn hrest
      refine ⟨k'', ?_, hrun⟩
      change k'' ≤ k - (Call.turnCount es + 1)
      omega

/-- **A call takes the first frame, and gets what is in it.** -/
theorem Meets.call (h : s₀.Meets (body :: row) s) (hpush : s₀.config.mode = .push) {a : Attempt}
    (ha : a.Attends) (b : Backend) :
    let w := (Episode.start a.id (.ofIntake a.intake) s b).run a.history
    s₀.Meets row w.session ∧ w.progress.state? = none ∧
      ∀ m, deliveries s₀.role.delivery [body] = [m] → m.payloadKey = none →
        w.progress = .ends (.ok (.delivery (s₀.role.unstored m))) := by
  intro w
  have hmode : s.config.mode = .push := h.alike.keeps.config ▸ hpush
  obtain ⟨timeout, hbegins⟩ := a.intake.begins_attending (h.ready a.id).active hmode a.id
    a.first.1 a.first.2 b
  have hintact : ∀ e ∈ a.events ++ Call.rounds a.rounds, e.Intact .recv := by
    exact List.forall_mem_append.mpr
      ⟨ha.intact, Call.forall_mem_rounds (.inr rfl) fun _ _ => trivial⟩
  have hattends : Heeds s₀ a.intake body row 2
      ((Episode.start a.id (.ofIntake a.intake) s b).step (.turns a.first.1 a.first.2)) := by
    rw [hbegins]
    exact .attends h rfl
  obtain ⟨k, hk, hrun⟩ := hattends.run hintact
  rw [Call.turnCount_append, Call.turnCount_rounds] at hk
  have henough := ha.enough
  obtain rfl : k = 0 := by omega
  change Heeds s₀ a.intake body row 0 w at hrun
  cases hrun with
  | ended meets ended gives => exact ⟨meets, ended, gives⟩

/-- **So does one call after another**, whatever is in the frames. -/
theorem Meets.serve {front : List ByteArray} (h : s₀.Meets (front ++ [body]) s)
    (hpush : s₀.config.mode = .push) {attempts : List Attempt}
    (hattempts : ∀ a ∈ attempts, a.Attends) (hmany : front.length < attempts.length) {m : Message}
    (hbrings : deliveries s₀.role.delivery [body] = [m]) (hkeyless : m.payloadKey = none) :
    (s.serve (attempts.map Attempt.call) b).1[front.length]?
        = some (some (.ok (.delivery (s₀.role.unstored m)))) ∧
      ∀ k < front.length, ∃ r, (s.serve (attempts.map Attempt.call) b).1[k]? = some (some r) := by
  induction front generalizing s attempts b with
  | nil =>
    cases attempts with
    | nil => exact absurd hmany (Nat.not_lt_zero _)
    | cons a attempts =>
      obtain ⟨-, -, hgives⟩ := h.call hpush (hattempts a List.mem_cons_self) b
      rw [List.map_cons, Attempt.call, Session.serve]
      dsimp only
      rw [hgives m hbrings hkeyless]
      exact ⟨rfl, fun k hk => absurd hk (Nat.not_lt_zero k)⟩
  | cons body' front ih =>
    cases attempts with
    | nil => exact absurd hmany (Nat.not_lt_zero _)
    | cons a attempts =>
      obtain ⟨ha, hrest⟩ := List.forall_mem_cons.mp hattempts
      have hcall := Meets.call h hpush ha b
      rw [List.map_cons, Attempt.call, Session.serve]
      dsimp only
      generalize (Episode.start a.id (.ofIntake a.intake) s b).run a.history = w at hcall ⊢
      obtain ⟨hmeets, hended, -⟩ := hcall
      obtain ⟨hgets, hbefore⟩ := ih (b := w.store) hmeets hrest (Nat.lt_of_succ_lt_succ hmany)
      refine ⟨hgets, fun k hk => ?_⟩
      cases k with
      | zero =>
        obtain ⟨r, hr⟩ := Progress.exists_result_of_state? hended
        exact ⟨r, congrArg some hr⟩
      | succ k => exact hbefore k (Nat.lt_of_succ_lt_succ hk)

end Pushed

open Pull (Quarry)

/-- **Frames cost calls, and never the session.**  Let a client be open, its inbound channel in
order and read by nobody, and its store at work.

* Let any calls but an exit be made at once, and whatever be dropped and go on around them, so long
  as the inbound channel does not end, its writer and the store do not fail, and requests fit a
  frame. The client and its link stay open; and if what comes on the inbound channel is frames,
  then whatever is in them, no ping and no call that takes a delivery fails, but a pull whose
  deadline the clock cannot represent.
* Where deliveries are pulled, let one lie on the channel that carries its payload, none that is
  kept or lies before it being wanted.  Of calls for it that are made one after another and heard
  out, the clock being able to represent the deadlines of those that write a request, those before
  some call get nothing, and that call gets the delivery; and no more of them get nothing than
  useless frames lay before it.
* Where deliveries are pushed, let one lie on the channel that carries its payload, behind frames
  of any kind.  Of calls that are made one after another and heard out, each takes one frame, and
  the one that takes the delivery gets it. -/
theorem withstands_frames {s : Session} (hready : ∀ id, s.Ready .recv id)
    (hworks : (s.link.outbox .recv).Works) {b : Backend} (hsound : b.failing = []) :
    (∀ es : List Desk.Event, (∀ e ∈ es, e.Gentle s) →
      let w := (Desk.start s b).run es
      w.session.closed = false ∧ w.session.link.closing = false ∧
        (Frame.ending w.written = .needMore →
          ∀ t c, w.calls.lookup t.id = some c → c.heeds →
            ∀ e, (c.step t w.session w.store).2.2 = .ends (.error e) →
              c.Untimely t w.session ∧ e = .deadlineOverflow)) ∧
    (s.config.mode = .pull →
      ∀ (wanted : Wanted) (d : Quarry s.role wanted) (front : List ByteArray)
        (attempts : List Attempt),
        d.message.payloadKey = none → (wanted.request s.originator).Sayable →
        (s.link.inbox .recv).Ahead (front ++ [d.body]) .empty →
        (∀ m ∈ s.late ++ deliveries s.role.delivery front, ¬ wanted.accepts m) →
        let stream := (s.link.inbox .recv).pending ++ Attempt.arrivals attempts
        Frame.ending stream = .needMore →
        (∀ a ∈ attempts, a.Pulls s wanted ((Frame.bodies stream).length + 4)) →
        s.TimelyAll b attempts →
        let useless := front.countP (Message.useless s.role.delivery)
        useless < attempts.length →
        let results := (s.serve (attempts.map Attempt.call) b).1
        ∃ j ≤ useless,
          results[j]? = some (some (.ok (.delivery (s.role.unstored d.message)))) ∧
            ∀ k < j, results[k]? = some (some (.ok (.delivery none)))) ∧
    (s.config.mode = .push →
      ∀ (m : Message) (body : ByteArray) (front : List ByteArray) (attempts : List Attempt),
        m.payloadKey = none → deliveries s.role.delivery [body] = [m] →
        (s.link.inbox .recv).Ahead (front ++ [body]) .empty →
        (∀ a ∈ attempts, a.Attends) → front.length < attempts.length →
        let results := (s.serve (attempts.map Attempt.call) b).1
        results[front.length]? = some (some (.ok (.delivery (s.role.unstored m)))) ∧
          ∀ k < front.length, ∃ r, results[k]? = some (some r)) := by
  refine ⟨fun es hes => ?_,
    fun hpull wanted d front attempts hkeyless hsayable hahead hunwanted => ?_,
    fun hpush m body front attempts hkeyless hbrings hahead hattends hmany => ?_⟩
  · intro w
    have hw : w.Withstands s := (Desk.Withstands.start (hready 0).active (hready 0).isOpen
      (hready 0).flows hworks hsound).run hes
    exact ⟨hw.active, hw.isOpen, fun hframes t c hcall hheeds e hend =>
      hw.fails_untimely hframes hcall hheeds hend⟩
  · intro stream hwhole hpulls htimely useless hmany results
    have hpromises : s.Promises d useless :=
      ⟨rfl, hpull, hworks, hready, front, hahead, hunwanted, Nat.le_refl _⟩
    exact hpromises.serve hkeyless hsayable hpulls htimely hwhole (Nat.le_refl _) hmany
  · have hmeets : s.Meets (front ++ [body]) s := ⟨⟨s.link, s.late, rfl⟩, hready, hahead⟩
    exact hmeets.serve hpush hattends hmany hbrings hkeyless

/-- Two frames that cannot be read lie before a delivery.  Of three calls for it that have no time
to wait, one gets it. -/
theorem withstands_frames_waded :
    let letter : Message :=
      { Message.bare .receive .daemon .message with metadata := some { destination := some "z" } }
    let s : Session :=
      { identifier := "z", role := .application, config := ⟨.pull, none⟩, keys := none,
        responseWindow := .ofSeconds 1,
        link := { recv := { inbox :=
          { unread := Frame.joined [⟨#[255]⟩, ⟨#[255]⟩, letter.extended {}] } } } }
    let attempt (id : CallId) : Attempt :=
      ⟨id, .receive none (some .zero), (⟨0⟩, 0), [], .replicate 7 (⟨0⟩, 0)⟩
    (∀ id, s.Ready .recv id) ∧
      ∃ j ≤ 2, (s.serve (([0, 1, 2].map attempt).map Attempt.call) {}).1[j]?
        = some (some (.ok (.delivery (some (.received letter))))) := by
  intro letter s attempt
  have hready (id : CallId) : s.Ready .recv id :=
    ⟨rfl, rfl, rfl, fun other hother => absurd hother List.not_mem_nil⟩
  have hworks : (s.link.outbox .recv).Works := ⟨rfl, rfl⟩
  let d : Quarry s.role (.addressedTo "z") :=
    ⟨letter, letter.extended {}, by decide +kernel, by decide +kernel⟩
  have hsayable : ((Wanted.addressedTo "z").request s.originator).Sayable :=
    ⟨_, rfl, by decide +kernel⟩
  have hahead : (s.link.inbox .recv).Ahead ([⟨#[255]⟩, ⟨#[255]⟩] ++ [d.body]) .empty :=
    ⟨by decide +kernel, .empty, by decide +kernel⟩
  have hcount : (Frame.bodies ((s.link.inbox .recv).pending
      ++ Attempt.arrivals ([0, 1, 2].map attempt))).length + 4 = 7 := by decide +kernel
  have hpulls : ∀ a ∈ [0, 1, 2].map attempt, a.Pulls s (.addressedTo "z")
      ((Frame.bodies ((s.link.inbox .recv).pending
        ++ Attempt.arrivals ([0, 1, 2].map attempt))).length + 4) := by
    rw [hcount]
    refine List.forall_mem_map.mpr fun id _ => ⟨⟨none, some .zero, false, rfl⟩, rfl, ?_, ?_⟩
    · exact fun e he => absurd he List.not_mem_nil
    · exact Nat.le_refl 7
  obtain ⟨-, hpulled, -⟩ := withstands_frames hready hworks (b := {}) rfl
  obtain ⟨j, hj, hgets, -⟩ := hpulled rfl (.addressedTo "z") d [⟨#[255]⟩, ⟨#[255]⟩]
    ([0, 1, 2].map attempt) rfl hsayable hahead (by decide +kernel) (by decide +kernel) hpulls
    (by decide +kernel) (by decide +kernel)
  exact ⟨hready, j, hj, hgets⟩

/-- A deadline that the clock cannot represent: a call fails when it has asked, behind a frame that
cannot be read, though the delivery that it wants is there. -/
theorem withstands_frames_overflowing :
    let letter : Message :=
      { Message.bare .receive .daemon .message with metadata := some { destination := some "z" } }
    let s : Session :=
      { identifier := "z", role := .application, config := ⟨.pull, none⟩, keys := none,
        responseWindow := .longest,
        link := { recv := { inbox := { unread := Frame.joined [⟨#[255]⟩, letter.extended {}] } } } }
    let attempt (id : CallId) : Attempt :=
      ⟨id, .receive none none, (⟨0⟩, 0), [], .replicate 7 (⟨0⟩, 0)⟩
    (∀ id, s.Ready .recv id) ∧
      (Frame.bodies (s.link.inbox .recv).pending).map Message.ofBody? = [none, some letter] ∧
      Frame.ending (s.link.inbox .recv).pending = .needMore ∧
      (s.serve ([attempt 0].map Attempt.call) {}).1 = [some (.error .deadlineOverflow)] := by
  intro letter s attempt
  refine ⟨fun id => ⟨rfl, rfl, rfl, fun other hother => absurd hother List.not_mem_nil⟩, ?_, ?_, ?_⟩
  · decide +kernel
  · decide +kernel
  · decide +kernel

end Session

end SimRelay
