import SimRelay.Proofs.Call.Overflow
import SimRelay.Proofs.Call.Questing
import SimRelay.Proofs.Session.Verdicts

/-!
# Proofs/Call/Deadlines — a pull ends by its deadline, and misses nothing before it

Until its request is written, a pull gets on whatever comes (`Quest.Underway`); then its deadline is
fixed (`Quest.Dated`).  Where the clock is exact, it never passes the deadline while the pull is in
flight (`Quest.InTime`), and a pull whose time is up takes a frame with each step that does not end
it (`Quest.ends_of_up`).  So it ends by its deadline.

What comes for it before the deadline is followed as in `Questing` (`Quest.Brought.gets`), and what
it leaves behind is settled (`Quest.Settled`).
-/

namespace SimRelay

/-- What cannot be said is not begun: the saying fails at once. -/
theorem Session.say_unsayable {s : Session} {m : Message} {stream : ByteArray} {n : Nat}
    {ch : Channel} {x : Saying} (hm : ¬ m.Sayable) (h : Speaks m stream n (s.link.outbox ch) x)
    (t : Turn) : ∃ e, (s.say t ch x).2 = .ends (.error e) := by
  have hstart {body : ByteArray} (hbody : m.encode = .ok body) :
      ∃ e, (s.write t ch (.start body)).2 = .ends (.error e) := by
    have hlong : ¬ body.size ≤ Frame.maxLength := fun hle => hm ⟨body, hbody, hle⟩
    have hframe : Frame.encode body = .error .tooLarge := if_neg hlong
    unfold write Link.write
    dsimp only
    rw [hframe]
    split
    · exact ⟨_, rfl⟩
    · exact ⟨_, rfl⟩
  cases x with
  | fresh m' =>
    obtain ⟨rfl, -⟩ := h
    rw [say]
    split
    · exact ⟨_, rfl⟩
    · split
      · exact ⟨_, rfl⟩
      · next body hbody => exact hstart hbody
  | writing w =>
    cases w with
    | start body => exact hstart h.1
    | queueing frame =>
      obtain ⟨body, hbody, hle, -⟩ := h
      exact absurd ⟨body, hbody, hle⟩ hm
    | handed number =>
      obtain ⟨body, hbody, hle, -⟩ := h
      exact absurd ⟨body, hbody, hle⟩ hm

namespace Pull

variable {wanted : Wanted} {timeout : Duration} {s : Session} {t : Turn} {phase : Phase}

/-! ## Where the deadline comes from -/

/-- Draining leads to no deadline… -/
theorem draining_leaves (t : Turn) (wanted : Wanted) (timeout : Duration) (s : Session) :
    (step t wanted timeout .draining s).2.Leaves fun phase => phase.deadline? = none := by
  rw [step]
  split
  · exact rfl
  · exact trivial
  · split
    · exact trivial
    · exact rfl

/-- …and does not end with nothing. -/
theorem draining_reply (t : Turn) (wanted : Wanted) (timeout : Duration) (s : Session) :
    (step t wanted timeout .draining s).2.reply? ≠ some none := by
  intro hreply
  rw [step] at hreply
  split at hreply
  · cases hreply
  · cases hreply
  · split at hreply
    · cases hreply
    · cases hreply

/-- While the request is being written there is no deadline; when it has been, it is fixed, if the
clock can represent it. -/
theorem asking_leaves (t : Turn) (wanted : Wanted) (timeout : Duration) (x : Session.Saying)
    (s : Session) :
    if (Phase.asking x).writes t s then
      (step t wanted timeout (.asking x) s).2 = match t.now.after? timeout with
        | some deadline => .goes (.asked deadline)
        | none => .ends (.error .deadlineOverflow)
    else (step t wanted timeout (.asking x) s).2.Leaves fun phase => phase.deadline? = none := by
  rw [step, Phase.writes]
  dsimp only
  cases (s.say t .recv x).2 with
  | waits x => exact rfl
  | goes x => exact rfl
  | ends r =>
    cases r with
    | ok u => exact rfl
    | error e => exact trivial

/-- While the answer is awaited, the deadline stays. -/
theorem hearAnswer_leaves (t : Turn) (wanted : Wanted) (begins : Bool) (deadline : Instant)
    (s : Session) :
    (hearAnswer t wanted begins deadline s).2.Leaves
      fun phase => phase.deadline? = some deadline := by
  unfold hearAnswer
  split
  · split
    · exact trivial
    · split
      · exact trivial
      · exact rfl
  · exact trivial
  · exact trivial
  · exact rfl

/-- Who awaits the answer has written the request. -/
theorem Phase.writes_of_deadline {deadline : Instant} (hphase : phase.deadline? = some deadline) :
    phase.writes t s = false := by
  cases phase with
  | asking x => cases hphase
  | _ => rfl

/-- **When the time is up**, a step takes a frame or is the last. -/
theorem hearAnswer_up {deadline : Instant} (hup : t.now.reached deadline = true)
    (wanted : Wanted) (begins : Bool) (s : Session) :
    (hearAnswer t wanted begins deadline s).2.state? = none ∨
      ∃ body, (s.link.inbox .recv).Handed (some body)
        ((hearAnswer t wanted begins deadline s).1.link.inbox .recv) := by
  obtain ⟨body?, j, hsession, hhanded, htells⟩ := s.hear_tells t .recv begins (some deadline)
  rw [Option.any_some, hup] at htells
  have hj : (s.link.inbox .recv).Handed body? ((s.link.setInbox .recv j).inbox .recv) := by
    rw [Link.inbox_setInbox, if_pos rfl]
    exact hhanded
  unfold hearAnswer
  generalize s.hear t .recv begins (some deadline) = r at hsession htells
  obtain ⟨heard, s'⟩ := r
  obtain rfl : s' = _ := hsession
  cases htells with
  | garbled unspelt => exact .inl rfl
  | late up => exact .inl rfl
  | failure e => exact .inl rfl
  | inLine early => exact absurd early (by decide)
  | @message body m spelt =>
    refine .inr ⟨body, ?_⟩
    dsimp only
    split
    · exact hj
    · split
      · exact hj
      · exact hj

namespace Quest

/-! ## The clock -/

variable {q : Quest} {e : Call.Event} {es : List Call.Event} {now deadline : Instant} {millis : Nat}

/-- A step at this instant leaves the clock exact: it stands still while the pull can go on and
while its request is being written, and it does not run past the deadline of a pull that waits. -/
def Punctual (q : Quest) (now : Instant) : Prop :=
  match q.progress with
  | .waits (.listening deadline) => q.clock.nanos ≤ now.nanos ∧ now.nanos ≤ deadline.nanos
  | .waits _ | .goes _ => now = q.clock
  | .ends _ => True

/-- The clock is exact in a whole history. -/
def Exact (q : Quest) : List Call.Event → Prop
  | [] => True
  | .stirs x :: es => (q.step (.stirs x)).Exact es
  | .turns now millis :: es => q.Punctual now ∧ (q.step (.turns now millis)).Exact es

/-- The deadline of the pull was fixed when its request was written, if the clock could represent
it. -/
structure Dated (q : Quest) : Prop where
  unwritten : ∀ phase, q.progress.state? = some phase → phase.deadline? = none → q.written = none
  fixed : ∀ phase, q.progress.state? = some phase → ∀ deadline ∈ phase.deadline?,
    ∃ asked, q.written = some asked ∧ asked.after? q.timeout = some deadline
  untimely : ∀ asked, q.written = some asked → asked.after? q.timeout = none →
    q.progress = .ends (.error .deadlineOverflow)
  /-- The pull is lost for no other reason. -/
  lost : q.progress = .ends (.error .deadlineOverflow) →
    ∃ asked, q.written = some asked ∧ asked.after? q.timeout = none

/-- The clock has not passed the deadline. -/
def InTime (q : Quest) : Prop :=
  ∀ asked, q.written = some asked → ∀ deadline, asked.after? q.timeout = some deadline →
    q.clock.nanos ≤ deadline.nanos

theorem dated_start (id : CallId) (wanted : Wanted) (timeout : Duration) (now : Instant)
    (s : Session) : (start id wanted timeout now s).Dated where
  unwritten _ _ _ := rfl
  fixed phase hphase deadline hdeadline := by
    obtain rfl := Option.some.inj hphase
    cases hdeadline
  untimely asked hasked := by cases hasked
  lost hends := by cases hends

theorem Punctual.le (h : q.Punctual now) {phase : Phase} (hstate : q.progress.state? = some phase)
    (hphase : phase.deadline? = some deadline) (hclock : q.clock.nanos ≤ deadline.nanos) :
    now.nanos ≤ deadline.nanos := by
  have hgoes (hnow : now = q.clock) : now.nanos ≤ deadline.nanos := hnow ▸ hclock
  unfold Punctual at h
  split at h
  · next deadline' heq =>
    rw [heq] at hstate
    obtain rfl := Option.some.inj hstate
    obtain rfl := Option.some.inj hphase
    exact h.2
  · exact hgoes h
  · exact hgoes h
  · next heq =>
    rw [heq] at hstate
    cases hstate

end Quest

theorem Instant.le_of_after? {a b : Instant} {d : Duration} (h : a.after? d = some b) :
    a.nanos ≤ b.nanos := by
  unfold Instant.after? at h
  split at h
  · obtain rfl := Option.some.inj h
    exact Int.le_add_of_nonneg_right (Int.natCast_nonneg _)
  · cases h

namespace Quest

variable {q : Quest} {e : Call.Event} {es : List Call.Event} {now deadline : Instant} {millis : Nat}

/-- A step that writes nothing, of a pull that has written nothing. -/
theorem Dated.of_unwritten (hwritten : q.written = none)
    (hleaves : q.progress.Leaves fun phase => phase.deadline? = none)
    (htimely : q.progress ≠ .ends (.error .deadlineOverflow)) : q.Dated where
  unwritten _ _ _ := hwritten
  fixed phase hphase deadline hdeadline := by
    rw [hleaves.of_state? hphase] at hdeadline
    cases hdeadline
  untimely asked hasked := by
    rw [hwritten] at hasked
    cases hasked
  lost hends := absurd hends htimely

/-- A step of a pull that asks. -/
theorem Dated.ask (h : q.Dated) {x : Session.Saying}
    (hstate : q.progress.state? = some (.asking x)) (now : Instant) (millis : Nat) :
    (q.step (.turns now millis)).Dated := by
  have hleaves := asking_leaves ⟨q.id, now, millis⟩ q.wanted q.timeout x q.session
  rw [step_turns hstate]
  split at hleaves
  · next hwrites =>
    rw [if_pos hwrites]
    dsimp only
    rw [hleaves]
    dsimp only
    cases hafter : now.after? q.timeout with
    | none =>
      exact ⟨fun _ h => (nomatch h), fun _ h => (nomatch h), fun _ _ _ => rfl,
        fun _ => ⟨now, rfl, hafter⟩⟩
    | some deadline =>
      refine ⟨fun phase hphase hnone => ?_, fun phase hphase deadline' hdeadline => ?_,
        fun asked hasked hnone => ?_, fun hends => by cases hends⟩
      · obtain rfl := Option.some.inj hphase
        cases hnone
      · obtain rfl := Option.some.inj hphase
        obtain rfl := Option.some.inj hdeadline
        exact ⟨now, rfl, hafter⟩
      · obtain rfl := Option.some.inj hasked
        exact absurd (hafter.symm.trans hnone) (Option.some_ne_none _)
  · next hwrites =>
    rw [if_neg hwrites]
    refine .of_unwritten (h.unwritten _ hstate rfl) hleaves fun hends => hwrites ?_
    obtain ⟨y, hy, hsaid, -⟩ := step_overflows.mp hends
    obtain rfl := Phase.asking.inj hy
    exact congrArg (·.reply?.isSome) hsaid

/-- A step of a pull that awaits its answer. -/
theorem Dated.hear (h : q.Dated) {phase : Phase} (hstate : q.progress.state? = some phase)
    (hphase : phase.deadline? = some deadline) (now : Instant) (millis : Nat) :
    (q.step (.turns now millis)).Dated := by
  obtain ⟨begins, hstep⟩ := step_awaits hphase ⟨q.id, now, millis⟩ q.timeout q.session
  obtain ⟨asked, hasked, hafter⟩ := h.fixed phase hstate deadline hphase
  have hleaves := hearAnswer_leaves ⟨q.id, now, millis⟩ q.wanted begins deadline q.session
  rw [step_turns hstate, hstep, Phase.writes_of_deadline hphase]
  refine ⟨fun phase' hphase' hnone => ?_, fun phase' hphase' deadline' hdeadline' => ?_,
    fun asked' hasked' hnone => ?_,
    fun hends => absurd hends (Progress.timely_iff.mp (hearAnswer_timely ..))⟩
  · exact absurd ((hleaves.of_state? hphase').symm.trans hnone) (Option.some_ne_none _)
  · obtain rfl := Option.some.inj ((hleaves.of_state? hphase').symm.trans hdeadline')
    exact ⟨asked, hasked, hafter⟩
  · obtain rfl := Option.some.inj (hasked.symm.trans hasked')
    exact absurd (hafter.symm.trans hnone) (Option.some_ne_none _)

theorem Dated.step (h : q.Dated) (e : Call.Event) : (q.step e).Dated := by
  cases e with
  | stirs x => exact ⟨h.unwritten, h.fixed, h.untimely, h.lost⟩
  | turns now millis =>
    cases hstate : q.progress.state? with
    | none =>
      rw [step_turns_of_ended hstate]
      exact h
    | some phase =>
      cases phase with
      | draining =>
        rw [step_turns hstate]
        refine .of_unwritten (h.unwritten _ hstate rfl) (draining_leaves ..) fun hends => ?_
        obtain ⟨x, hx, -⟩ := step_overflows.mp hends
        cases hx
      | asking x => exact h.ask hstate now millis
      | asked deadline => exact h.hear hstate rfl now millis
      | listening deadline => exact h.hear hstate rfl now millis

theorem Dated.run (h : q.Dated) (es : List Call.Event) : (q.run es).Dated := by
  induction es generalizing q with
  | nil => exact h
  | cons e es ih => exact ih (h.step e)

/-- A pull in flight that has written its request awaits the answer until the deadline. -/
theorem Dated.deadline? (h : q.Dated) {phase : Phase} (hstate : q.progress.state? = some phase)
    {asked : Instant} (hasked : q.written = some asked)
    (hafter : asked.after? q.timeout = some deadline) : phase.deadline? = some deadline := by
  cases hphase : phase.deadline? with
  | none =>
    have hunwritten := h.unwritten phase hstate hphase
    exact absurd (hasked.symm.trans hunwritten) (Option.some_ne_none asked)
  | some deadline' =>
    obtain ⟨asked', hasked', hafter'⟩ := h.fixed phase hstate deadline' hphase
    obtain rfl := Option.some.inj (hasked'.symm.trans hasked)
    exact hafter'.symm.trans hafter

/-- **Where the clock is exact, no step comes behind the deadline.** -/
theorem InTime.turn (h : q.InTime) (hdated : q.Dated) (hclock : q.Punctual now) :
    (q.step (.turns now millis)).InTime := by
  cases hstate : q.progress.state? with
  | none =>
    rw [step_turns_of_ended hstate]
    exact h
  | some phase =>
    rw [step_turns hstate]
    intro asked hasked deadline hafter
    change now.nanos ≤ deadline.nanos
    dsimp only at hasked
    split at hasked
    · obtain rfl := Option.some.inj hasked
      exact Instant.le_of_after? hafter
    · have hphase := hdated.deadline? hstate hasked hafter
      exact hclock.le hstate hphase (h asked hasked deadline hafter)

theorem InTime.run (h : q.InTime) (hdated : q.Dated) (hclock : q.Exact es) :
    (q.run es).InTime := by
  induction es generalizing q with
  | nil => exact h
  | cons e es ih =>
    have hdated' := hdated.step e
    cases e with
    | stirs x => exact ih (q := q.step (.stirs x)) h hdated' hclock
    | turns now millis => exact ih (h.turn hdated hclock.1) hdated' hclock.2

/-! ## The end -/

/-- A pull that has ended takes no step, whatever happens. -/
theorem ended_run (hended : q.progress.state? = none) (es : List Call.Event) :
    (q.run es).progress = q.progress := by
  induction es generalizing q with
  | nil => rfl
  | cons e es ih =>
    cases e with
    | stirs x => exact ih (q := q.step (.stirs x)) hended
    | turns now millis =>
      change ((q.step (.turns now millis)).run es).progress = _
      rw [step_turns_of_ended hended]
      exact ih hended

/-- The stream goes on while the channel is intact. -/
theorem flows_run (hflows : q.inbox.ended = false) (hintact : ∀ e ∈ es, e.Intact .recv) :
    (q.run es).inbox.ended = false := by
  induction es generalizing q with
  | nil => exact hflows
  | cons e es ih =>
    obtain ⟨he, hrest⟩ := List.forall_mem_cons.mp hintact
    refine ih (q := q.step e) ?_ hrest
    cases e with
    | stirs x => exact (x.inbox_onLink he hflows).2.1
    | turns now millis =>
      obtain ⟨body?, -, hhanded⟩ := q.turns_dealt now millis
      exact hhanded.ended.trans hflows

/-- A turn of a pull whose time is up takes a frame, or ends it. -/
theorem turn_of_up {phase : Phase} (hstate : q.progress.state? = some phase)
    (hphase : phase.deadline? = some deadline) (hnow : now.reached deadline = true)
    (millis : Nat) :
    let q' := q.step (.turns now millis)
    q'.progress.state? = none ∨
      (∃ body, q.inbox.Handed (some body) q'.inbox) ∧
        q'.progress.Leaves fun phase => phase.deadline? = some deadline := by
  obtain ⟨begins, hstep⟩ := step_awaits hphase ⟨q.id, now, millis⟩ q.timeout q.session
  rw [step_turns hstate, hstep]
  exact (hearAnswer_up (t := ⟨q.id, now, millis⟩) hnow q.wanted begins q.session).imp_right
    fun hhanded => ⟨hhanded, hearAnswer_leaves ..⟩

/-- **A pull whose time is up ends** when it has taken the frames that are there and that come, if
it has not before. -/
theorem ends_of_up (hflows : q.inbox.ended = false)
    (hawaits : ∀ phase, q.progress.state? = some phase → phase.deadline? = some deadline)
    (hintact : ∀ e ∈ es, e.Intact .recv)
    (hup : ∀ now millis, .turns now millis ∈ es → now.reached deadline = true)
    (hcount : (Frame.bodies (q.inbox.pending ++ Call.arrivals .recv es)).length
      < Call.turnCount es) :
    (q.run es).progress.state? = none := by
  induction es generalizing q with
  | nil => exact absurd hcount (Nat.not_lt_zero _)
  | cons e es ih =>
    obtain ⟨he, hrest⟩ := List.forall_mem_cons.mp hintact
    have hlater (now : Instant) (millis : Nat) (hmem : .turns now millis ∈ es) :
        now.reached deadline = true := hup now millis (List.mem_cons_of_mem _ hmem)
    cases e with
    | stirs x =>
      obtain ⟨hpending, hended, -⟩ := x.inbox_onLink he hflows
      refine ih (q := q.step (.stirs x)) hended hawaits hrest hlater ?_
      change (Frame.bodies (((x.onLink q.session.link).inbox .recv).pending ++ _)).length < _
      rw [hpending, ByteArray.append_assoc]
      exact hcount
    | turns now millis =>
      change ((q.step (.turns now millis)).run es).progress.state? = none
      cases hstate : q.progress.state? with
      | none =>
        rw [step_turns_of_ended hstate, ended_run hstate]
        exact hstate
      | some phase =>
        rcases turn_of_up hstate (hawaits phase hstate) (hup now millis List.mem_cons_self) millis
          with hended | ⟨⟨body, hhanded⟩, hleaves⟩
        · rw [ended_run hended]
          exact hended
        · refine ih (hhanded.ended.trans hflows) (fun phase' hphase' => hleaves.of_state? hphase')
            hrest hlater ?_
          have harrivals : Call.arrivals .recv (.turns now millis :: es)
              = Call.arrivals .recv es := ByteArray.empty_append
          rw [harrivals, (hhanded.frames (Call.arrivals .recv es)).1] at hcount
          exact Nat.lt_of_succ_lt_succ hcount

/-! ## On the way to the request -/

section Opening

variable {role : Role} {wanted : Wanted} {phase : Phase} {turns : List (Instant × Nat)}

/-- Until the request is written, this holds of the phase that the pull is in. -/
def Unasked (P : Phase → Prop) (q : Quest) : Prop :=
  ∀ phase, q.progress.state? = some phase → phase.deadline? = none → P phase

/-- The pull drains or its request is being written, unless it is past that. -/
def Underway (role : Role) (wanted : Wanted) (q : Quest) : Prop :=
  q.Unasked fun phase => q.Sound role wanted ∧
    (phase = .draining ∨ phase.Behind (wanted.request role.originator) q.outbox)

/-- So far the pull has to go at most until its request is written. -/
def Nears (n : Nat) (q : Quest) : Prop :=
  q.Unasked fun phase => (Frame.bodies q.inbox.pending).length + phase.distance ≤ n

theorem Nears.mono {m n : Nat} (h : q.Nears m) (hle : m ≤ n) : q.Nears n :=
  fun phase hstate hphase => Nat.le_trans (h phase hstate hphase) hle

theorem Underway.nears (h : q.Underway role wanted) :
    q.Nears ((Frame.bodies q.inbox.pending).length + 5) := by
  intro phase hstate hphase
  refine Nat.add_le_add_left ?_ _
  obtain ⟨-, rfl | hbehind⟩ := h phase hstate hphase
  · exact Nat.le_refl 5
  · exact Nat.le_succ_of_le hbehind.distance_le

/-- A pull that awaits its answer or has ended is past that. -/
theorem unasked_past {P : Phase → Prop}
    (h : q.progress.Leaves fun phase => phase.deadline? ≠ none) : q.Unasked P :=
  fun _ hstate hnone => absurd hnone (h.of_state? hstate)

theorem unasked_ended {P : Phase → Prop} (h : q.progress.state? = none) : q.Unasked P :=
  fun _ hstate _ => nomatch h.symm.trans hstate

theorem unasked_now {P : Phase → Prop} (hstate : q.progress.state? = some phase) (h : P phase) :
    q.Unasked P := by
  intro phase' hstate' _
  exact Option.some.inj (hstate.symm.trans hstate') ▸ h

/-- A turn of a pull that drains. -/
theorem Sound.drain (h : q.Sound role wanted) (hstate : q.progress.state? = some .draining)
    (now : Instant) (millis : Nat) :
    (q.step (.turns now millis)).Underway role wanted ∧
      (q.step (.turns now millis)).Nears ((Frame.bodies q.inbox.pending).length + 4) := by
  by_cases hfails : ∃ e, q.inbox.prospect = .failure e
  · obtain ⟨e, hprospect⟩ := hfails
    change (q.session.link.inbox .recv).prospect = _ at hprospect
    obtain ⟨j, hhear, -⟩ := h.ready.hear (t := ⟨q.id, now, millis⟩) true (some now)
    rw [hprospect] at hhear
    have hended : (q.step (.turns now millis)).progress.state? = none := by
      rw [step_turns hstate]
      dsimp only
      rw [Pull.step, hhear]
      rfl
    exact ⟨unasked_ended hended, unasked_ended hended⟩
  · have hgoes (e : LinkError) : q.inbox.prospect ≠ .failure e :=
      fun hdue => hfails ⟨e, hdue⟩
    have hreads := drained_step (t := ⟨q.id, now, millis⟩) h.ready hgoes wanted q.timeout
    obtain ⟨hsound, hhanded, hmakes⟩ := h.read now millis hstate hreads
    have hframes := (hhanded.frames .empty).1
    rw [ByteArray.append_empty, ByteArray.append_empty] at hframes
    rw [hframes, List.length_append]
    generalize q.step (.turns now millis) = q' at hsound hmakes ⊢
    generalize q.inbox.prospect.body? = body? at hmakes ⊢
    generalize hprogress : q'.progress = progress at hmakes
    generalize q'.session.late = kept at hmakes
    cases hmakes with
    | drains spelt =>
      have hnext : q'.progress.state? = some .draining := hprogress ▸ rfl
      refine ⟨unasked_now hnext ⟨hsound, .inl rfl⟩, unasked_now hnext ?_⟩
      change _ + 5 ≤ 1 + _ + 4
      omega
    | finds unspelt oldest =>
      have hended : q'.progress.state? = none := hprogress ▸ rfl
      exact ⟨unasked_ended hended, unasked_ended hended⟩
    | asks unspelt nothing =>
      have hnext : q'.progress.state?
          = some (.asking (.fresh (wanted.request q.session.originator))) := hprogress ▸ rfl
      rw [Session.originator, h.plays] at hnext
      refine ⟨unasked_now hnext ⟨hsound, .inr ?_⟩, unasked_now hnext ?_⟩
      · exact ⟨_, _, rfl, Outbox.holds_self hsound.works.tidy⟩
      · exact Nat.add_le_add_right (Nat.le_add_left _ _) 4

/-- A turn of a pull whose request is being written. -/
theorem Sound.speak (h : q.Sound role wanted) {x : Session.Saying}
    (hstate : q.progress.state? = some (.asking x))
    (hbehind : (Phase.asking x).Behind (wanted.request role.originator) q.outbox)
    (now : Instant) (millis : Nat) :
    (q.step (.turns now millis)).Underway role wanted ∧
      (q.outbox.Idle →
        (q.step (.turns now millis)).Nears
          ((Frame.bodies q.inbox.pending).length + x.distance)) := by
  obtain ⟨stream, n, hspeaks⟩ := hbehind
  by_cases hsayable : (wanted.request role.originator).Sayable
  · obtain ⟨hsound, -, hinbox, hrequested⟩ := h.ask now millis hstate hsayable hspeaks
    rw [← hinbox]
    generalize q.step (.turns now millis) = q' at hsound hrequested ⊢
    generalize hprogress : q'.progress = progress at hrequested
    cases hrequested with
    | @goesOn x' _ state speaks nearer =>
      have hnext : q'.progress.state? = some (.asking x') := hprogress ▸ state
      refine ⟨unasked_now hnext ⟨hsound, .inr speaks⟩, fun hidle => unasked_now hnext ?_⟩
      have hless := nearer hidle
      change _ + (1 + x'.distance) ≤ _
      omega
    | said timely =>
      have hpast : q'.progress.Leaves fun phase => phase.deadline? ≠ none :=
        hprogress ▸ Option.some_ne_none _
      exact ⟨unasked_past hpast, fun _ => unasked_past hpast⟩
    | overflows untimely =>
      have hended : q'.progress.state? = none := hprogress ▸ rfl
      exact ⟨unasked_ended hended, fun _ => unasked_ended hended⟩
  · obtain ⟨e, hfails⟩ := Session.say_unsayable hsayable hspeaks ⟨q.id, now, millis⟩
    have hended : (q.step (.turns now millis)).progress.state? = none := by
      rw [step_turns hstate, Pull.step]
      dsimp only
      rw [hfails]
      rfl
    exact ⟨unasked_ended hended, fun _ => unasked_ended hended⟩

/-- **Until its request is written, a pull gets on**, whatever comes, if nothing is left to
write. -/
theorem Underway.turn (h : q.Underway role wanted) (now : Instant) (millis : Nat) :
    (q.step (.turns now millis)).Underway role wanted ∧
      ∀ n, (q.Unasked fun _ => q.outbox.Idle) → q.Nears (n + 1) →
        (q.step (.turns now millis)).Nears n := by
  cases hstate : q.progress.state? with
  | none =>
    rw [step_turns_of_ended hstate]
    exact ⟨h, fun n _ _ => unasked_ended hstate⟩
  | some phase =>
    cases hphase : phase.deadline? with
    | some deadline =>
      obtain ⟨begins, hstep⟩ := step_awaits hphase ⟨q.id, now, millis⟩ q.timeout q.session
      have hpast : (q.step (.turns now millis)).progress.Leaves fun phase' =>
          phase'.deadline? ≠ none := by
        rw [step_turns hstate, hstep]
        refine Progress.Leaves.mono (fun phase' hphase' => ?_)
          (hearAnswer_leaves ⟨q.id, now, millis⟩ q.wanted begins deadline q.session)
        exact hphase' ▸ Option.some_ne_none deadline
      exact ⟨unasked_past hpast, fun n _ _ => unasked_past hpast⟩
    | none =>
      obtain ⟨hsound, hphase'⟩ := h phase hstate hphase
      rcases hphase' with rfl | hbehind
      · obtain ⟨hunderway, hnears⟩ := hsound.drain hstate now millis
        refine ⟨hunderway, fun n _ hn => hnears.mono ?_⟩
        exact Nat.le_of_succ_le_succ (hn _ hstate rfl)
      · cases phase with
        | draining => exact hbehind.elim
        | asked deadline => cases hphase
        | listening deadline => cases hphase
        | asking x =>
          obtain ⟨hunderway, hnears⟩ := hsound.speak hstate hbehind now millis
          refine ⟨hunderway, fun n hidle hn => (hnears (hidle _ hstate rfl)).mono ?_⟩
          have hle : _ + (1 + x.distance) ≤ _ := hn _ hstate rfl
          omega

theorem Underway.stir (h : q.Underway role wanted) {x : Stir} (hx : x.Intact .recv) :
    (q.step (.stirs x)).Underway role wanted := by
  intro phase hstate hphase
  obtain ⟨hsound, hdraining | hbehind⟩ := h phase hstate hphase
  · exact ⟨hsound.stir hx, .inl hdraining⟩
  · exact ⟨hsound.stir hx, .inr hbehind.stir⟩

theorem Underway.run (h : q.Underway role wanted) (hes : ∀ e ∈ es, e.Intact .recv) :
    (q.run es).Underway role wanted := by
  induction es generalizing q with
  | nil => exact h
  | cons e es ih =>
    obtain ⟨he, hrest⟩ := List.forall_mem_cons.mp hes
    cases e with
    | stirs x => exact ih (h.stir he) hrest
    | turns now millis => exact ih (h.turn now millis).1 hrest

/-- **The request is written** as soon as the pull is given as many rounds as it needs, unless it
ends before that. -/
theorem Underway.opens (h : q.Underway role wanted) (hnears : q.Nears turns.length) :
    (q.run (Call.rounds turns)).Unasked fun _ => False := by
  induction turns generalizing q with
  | nil =>
    intro phase hstate hphase
    have hle : _ + phase.distance ≤ 0 := hnears phase hstate hphase
    have hpos := phase.distance_pos
    omega
  | cons turn turns ih =>
    obtain ⟨now, millis⟩ := turn
    have hunderway := h.stir (x := .writes .recv .flushes) (.inr rfl)
    have hidle : (q.step (.stirs (.writes .recv .flushes))).Unasked fun _ =>
        (q.step (.stirs (.writes .recv .flushes))).outbox.Idle := by
      intro phase hstate hphase
      change ((q.session.link.setOutbox .recv _).outbox .recv).Idle
      rw [Link.outbox_setOutbox, if_pos rfl]
      exact Outbox.idle_flush (h phase hstate hphase).1.works.going
    obtain ⟨hnext, hnearer⟩ := hunderway.turn now millis
    refine ih hnext (hnearer _ hidle fun phase hstate hphase => ?_)
    change (Frame.bodies ((q.session.link.setOutbox .recv _).inbox .recv).pending).length + _ ≤ _
    rw [Link.inbox_setOutbox]
    exact hnears phase hstate hphase

/-- Who is past that has written the request, or has ended. -/
theorem Dated.ended_or_written (h : q.Dated) (hpast : q.Unasked fun _ => False) :
    q.progress.state? = none ∨ q.written.isSome := by
  cases hstate : q.progress.state? with
  | none => exact .inl rfl
  | some phase =>
    refine .inr ?_
    cases hphase : phase.deadline? with
    | none => exact (hpast phase hstate hphase).elim
    | some deadline =>
      obtain ⟨asked, hasked, -⟩ := h.fixed phase hstate deadline hphase
      exact Option.isSome_of_eq_some hasked

end Opening

/-! ## What a pull leaves behind -/

/-- A pull that has looked at what is kept leaves nothing there that it wants, and has not ended
with nothing before it has looked. -/
structure Settled (q : Quest) : Prop where
  onward : q.progress.Leaves (Phase.Settled q.wanted q.session.late)
  ended : q.progress = .ends (.ok none) → ∀ m ∈ q.session.late, ¬ q.wanted.accepts m

theorem Settled.step (h : q.Settled) (e : Call.Event) : (q.step e).Settled := by
  cases e with
  | stirs x => exact ⟨h.onward, h.ended⟩
  | turns now millis =>
    cases hstate : q.progress.state? with
    | none =>
      rw [step_turns_of_ended hstate]
      exact h
    | some phase =>
      have hsettled : phase.Settled q.wanted q.session.late := h.onward.of_state? hstate
      obtain ⟨⟨body?, link, kept, hsession, -, hdeals⟩, -⟩ :=
        step_dealt ⟨q.id, now, millis⟩ q.wanted q.timeout phase q.session
      have honward := (step_stepped ⟨q.id, now, millis⟩ q.timeout hsettled).settled
      rw [step_turns hstate]
      refine ⟨honward, fun hends m hm hfits => ?_⟩
      have hlooked : phase.isDraining = false := by
        cases phase with
        | draining =>
          refine absurd ?_ (draining_reply ⟨q.id, now, millis⟩ q.wanted q.timeout q.session)
          exact congrArg Progress.reply? hends
        | _ => rfl
      rw [hlooked] at hdeals
      dsimp only at hm
      rw [hsession] at hm
      have hunwanted := List.filter_eq_nil_iff.mpr (hsettled.unwanted hlooked)
      exact List.filter_eq_nil_iff.mp (hdeals.filter_kept.trans hunwanted) m hm hfits

theorem Settled.run (h : q.Settled) (es : List Call.Event) : (q.run es).Settled := by
  induction es generalizing q with
  | nil => exact h
  | cons e es ih => exact ih (h.step e)

/-! ## A pull that has nothing before it -/

section Beginning

variable {id : CallId} {wanted : Wanted} {s : Session} {d : Quarry s.role wanted}
  {before : List ByteArray} {more future : ByteArray}

/-- Where nothing is kept and nothing lies on the channel, a pull asks at once, and what is to come
lies before it. -/
theorem pursues_start (hready : s.Ready .recv id) (hworks : (s.link.outbox .recv).Works)
    (timeout : Duration) (now first : Instant) (millis : Nat) (hlate : s.late = [])
    (hempty : (s.link.inbox .recv).pending = .empty)
    (hshort : ∀ body ∈ before ++ [d.body], body.size ≤ Frame.maxLength)
    (hfuture : future = Frame.joined (before ++ [d.body]) ++ more) :
    ((start id wanted timeout now s).step (.turns first millis)).Pursues d
      (deliveries s.role.delivery before) before future
      (.asking (.fresh (wanted.request s.originator))) := by
  have hsound : (start id wanted timeout now s).Sound s.role wanted := ⟨rfl, rfl, hready, hworks⟩
  have hnothing : (s.link.inbox .recv).prospect = .nothing := by
    have hpart : Frame.split (s.link.inbox .recv).pending = .error .needMore := hempty ▸ rfl
    rw [Inbox.prospect_of_error hpart, Inbox.ending_of_flows hready.flows]
    rfl
  have hgoes (e : LinkError) : (s.link.inbox .recv).prospect ≠ .failure e := by
    rw [hnothing]
    exact (nomatch ·)
  have hreads := drained_step (t := ⟨id, first, millis⟩) hready hgoes wanted timeout
  obtain ⟨hsound', hhanded, hmakes⟩ := hsound.read first millis rfl hreads
  have hnone : (start id wanted timeout now s).inbox.prospect.body? = none :=
    congrArg Inbox.Offer.body? hnothing
  rw [hnone] at hhanded
  rw [hnone, hlate] at hmakes
  generalize (start id wanted timeout now s).step (.turns first millis) = q
    at hsound' hhanded hmakes ⊢
  generalize hprogress : q.progress = progress at hmakes
  generalize hkept : q.session.late = kept at hmakes
  cases hmakes with
  | finds unspelt oldest => cases oldest
  | asks unspelt nothing =>
    refine ⟨hsound', hprogress ▸ rfl, ⟨_, _, rfl, Outbox.holds_self hsound'.works.tidy⟩,
      ⟨hshort, more, ?_⟩, ?_⟩
    · rw [hhanded.pending_of_none, ← hfuture]
      exact (congrArg (· ++ future) hempty).trans ByteArray.empty_append
    · rw [hkept]
      rfl

/-- In this history the delivery that the pull is after comes before its deadline, behind these
frames, which bring deliveries for others. -/
structure Brought {role : Role} {wanted : Wanted} (d : Quarry role wanted)
    (before : List ByteArray) (q : Quest) (es : List Call.Event) : Prop where
  short : ∀ body ∈ before ++ [d.body], body.size ≤ Frame.maxLength
  useful : ∀ body ∈ before, ¬ Message.useless role.delivery body
  others : ∀ m ∈ deliveries role.delivery before, ¬ wanted.accepts m
  comes : ∃ more, Call.arrivals .recv es = Frame.joined (before ++ [d.body]) ++ more
  early : q.Before es

/-- A pull has ended with this delivery, and these are kept. -/
structure Gets (m : Message) (kept : List Message) (q : Quest) : Prop where
  ended : q.progress = .ends (.ok (some m))
  kept : q.session.late = kept

/-- **What comes before the deadline is not missed**, however late the pull takes its last steps, if
there can be a deadline. -/
theorem Brought.gets {q : Quest} {es es' : List Call.Event} {turns : List (Instant × Nat)}
    {phase : Phase} (h : Brought d before q es)
    (hpursues : ∀ more, Call.arrivals .recv es = Frame.joined (before ++ [d.body]) ++ more →
      q.Pursues d (deliveries s.role.delivery before) before (Call.arrivals .recv es) phase)
    (hsayable : (wanted.request s.originator).Sayable)
    (hintact : ∀ e ∈ es ++ es', e.Intact .recv)
    (hlost : (q.run (es ++ es' ++ Call.rounds turns)).progress ≠ .ends (.error .deadlineOverflow))
    (hturns : (Frame.bodies (q.run (es ++ es')).inbox.pending).length + 3 ≤ turns.length) :
    (q.run (es ++ es' ++ Call.rounds turns)).Gets d.message
      (deliveries s.role.delivery before) := by
  obtain ⟨more, hcomes⟩ := h.comes
  have hnone : before.countP (Message.useless s.role.delivery) = 0 :=
    List.countP_eq_zero.mpr fun body hbody => h.useful body hbody
  obtain ⟨hes, hes'⟩ := List.forall_mem_append.mp hintact
  have hstart := (Fares.pursues (hpursues more hcomes) (Nat.le_of_eq hnone)).more .empty
  have hcome : (q.run es).Fares d (deliveries s.role.delivery before) 0 .empty :=
    hstart.comes h.others hsayable hes h.early
  have hwhole : (q.run (es ++ es')).Fares d (deliveries s.role.delivery before) 0 .empty := by
    rw [run_append]
    exact hcome.run h.others hsayable hes'
  have hends := hwhole.ends h.others hsayable hturns
  rw [← run_append] at hends
  cases hends with
  | gets ended kept => exact ⟨ended, kept⟩
  | misses _ _ _ _ fewer => exact absurd fewer (Nat.not_lt_zero _)
  | overflows ended => exact absurd ended hlost

end Beginning

/-- **A pull ends by its deadline, and misses nothing before it.**  Let a pull begin on an open
channel in order, and let no other call read there.

* Its request is written, or it ends, as soon as it is given a round for each frame that is there
  and five more.
* Where the clock is exact, no step of the pull comes behind its deadline, which is fixed when its
  request is written; and if it is in flight when its time is up, it ends after as many more steps
  as frames are there or come, whatever is in them.
* If the clock cannot represent the deadline, it fails when its request has been written.
* If nothing was kept and nothing lay on the channel at first, the delivery that it wants comes
  before the deadline, and before it come none but deliveries for others, then it ends with that
  delivery, and the others are kept in order.  This is so if the clock can represent the deadline
  that is fixed when the request is written, and however late the pull takes its last steps.
* If it ends with nothing, nothing is kept that it wants. -/
theorem meets_deadline {s : Session} {id : CallId} (hready : s.Ready .recv id)
    (hworks : (s.link.outbox .recv).Works) (wanted : Wanted) (timeout : Duration) (now : Instant) :
    let q := start id wanted timeout now s
    (∀ es turns, (∀ e ∈ es, e.Intact .recv) →
      (Frame.bodies (q.run es).inbox.pending).length + 5 ≤ turns.length →
      let w := q.run (es ++ Call.rounds turns)
      w.progress.state? = none ∨ w.written.isSome) ∧
    (∀ es, (∀ e ∈ es, e.Intact .recv) → q.Exact es →
      ∀ asked, (q.run es).written = some asked →
        ∀ deadline, asked.after? timeout = some deadline →
          (q.run es).clock.nanos ≤ deadline.nanos ∧
          ∀ later, (∀ e ∈ later, e.Intact .recv) →
            (∀ now millis, .turns now millis ∈ later → now.reached deadline = true) →
            (Frame.bodies ((q.run es).inbox.pending ++ Call.arrivals .recv later)).length
              < Call.turnCount later →
            (q.run (es ++ later)).progress.state? = none) ∧
    (∀ es asked, (q.run es).written = some asked → asked.after? timeout = none →
      (q.run es).progress = .ends (.error .deadlineOverflow)) ∧
    (∀ (d : Quarry s.role wanted) before first millis es es' turns,
      s.late = [] → (s.link.inbox .recv).pending = .empty →
      (wanted.request s.originator).Sayable →
      Brought d before (q.step (.turns first millis)) es →
      (∀ e ∈ es ++ es', e.Intact .recv) →
      (Frame.bodies (q.run (.turns first millis :: (es ++ es'))).inbox.pending).length + 3
        ≤ turns.length →
      let w := q.run (.turns first millis :: (es ++ es' ++ Call.rounds turns))
      (∀ asked, w.written = some asked → (asked.after? timeout).isSome) →
      w.Gets d.message (deliveries s.role.delivery before)) ∧
    ∀ es, (q.run es).progress = .ends (.ok none) →
      ∀ m ∈ (q.run es).session.late, ¬ wanted.accepts m := by
  intro q
  have hdated (es : List Call.Event) : (q.run es).Dated := (dated_start ..).run es
  have htimeout (es : List Call.Event) : (q.run es).timeout = timeout := (q.run_fixed es).2
  refine ⟨fun es turns hintact hturns => ?_,
    fun es hintact hexact asked hasked deadline hdeadline => ?_,
    fun es asked hasked huntimely => ?_,
    fun d before first millis es es' turns hlate hempty hsayable hbrought hintact hturns => ?_,
    fun es hends => ?_⟩
  · intro w
    have hunderway : q.Underway s.role wanted :=
      unasked_now rfl ⟨⟨rfl, rfl, hready, hworks⟩, .inl rfl⟩
    have hopens := (hunderway.run hintact).opens ((hunderway.run hintact).nears.mono hturns)
    rw [← run_append] at hopens
    exact (hdated _).ended_or_written hopens
  · have htimely : (q.run es).InTime :=
      InTime.run (fun asked hasked => by cases hasked) (dated_start ..) hexact
    rw [← htimeout es] at hdeadline
    refine ⟨htimely asked hasked deadline hdeadline, fun later hlater hup hcount => ?_⟩
    rw [run_append]
    exact ends_of_up (flows_run hready.flows hintact)
      (fun phase hstate => (hdated es).deadline? hstate hasked hdeadline) hlater hup hcount
  · rw [← htimeout es] at huntimely
    exact (hdated es).untimely asked hasked huntimely
  · intro w htimely
    refine hbrought.gets (fun more hcomes => pursues_start hready hworks timeout now first millis
      hlate hempty hbrought.short hcomes) hsayable hintact (fun hends => ?_) hturns
    obtain ⟨asked, hasked, hnone⟩ :=
      (hdated (.turns first millis :: (es ++ es' ++ Call.rounds turns))).lost hends
    rw [htimeout] at hnone
    exact absurd hnone (Option.isSome_iff_ne_none.mp (htimely asked hasked))
  · have hstart : q.Settled := ⟨trivial, fun h => by cases h⟩
    have hsettled := hstart.run es
    intro m hm
    have hunwanted := hsettled.ended hends m hm
    rw [(q.run_fixed es).1] at hunwanted
    exact hunwanted

/-- Another's delivery comes before the one that is wanted. -/
theorem meets_deadline_answered :
    let s : Session :=
      { identifier := "z", role := .application, config := ⟨.pull, none⟩, keys := none,
        responseWindow := .ofSeconds 1, link := {} }
    let letter (destination : String) : Message :=
      { Message.bare .receive .daemon .message with
        metadata := some { destination := some destination } }
    let body (destination : String) : ByteArray := (letter destination).extended {}
    let turn : Call.Event := .turns ⟨0⟩ 0
    let q := start 0 (.addressedTo "z") (.ofSeconds 1) ⟨0⟩ s
    let es : List Call.Event := [turn, turn, .stirs (.writes .recv .flushes), turn, turn,
      .stirs (.arrives .recv (Frame.joined [body "x", body "z"]))]
    let turns : List (Instant × Nat) := .replicate 5 (⟨5000000000⟩, 0)
    s.Ready .recv 0 ∧ (s.link.outbox .recv).Works ∧
      (q.run (turn :: (es ++ [] ++ Call.rounds turns))).Gets (letter "z") [letter "x"] := by
  intro s letter body turn q es turns
  have hready : s.Ready .recv 0 := ⟨rfl, rfl, rfl, Inbox.alone_default 0⟩
  have hworks : (s.link.outbox .recv).Works := ⟨rfl, rfl⟩
  let d : Quarry s.role (.addressedTo "z") :=
    ⟨letter "z", body "z", by decide +kernel, by decide +kernel⟩
  have hbrought : Brought d [body "x"] (q.step turn) es :=
    ⟨by decide +kernel, by decide +kernel, by decide +kernel, ⟨.empty, by decide +kernel⟩,
      by decide +kernel⟩
  have hsayable : ((Wanted.addressedTo "z").request s.originator).Sayable :=
    ⟨_, rfl, by decide +kernel⟩
  have hintact : ∀ e ∈ es ++ [], e.Intact .recv := by
    simp only [es, turn, List.append_nil, List.forall_mem_cons]
    exact ⟨trivial, trivial, .inr rfl, trivial, trivial, trivial, List.forall_mem_nil _⟩
  have hothers : deliveries s.role.delivery [body "x"] = [letter "x"] := by decide +kernel
  obtain ⟨-, -, -, hgets, -⟩ := meets_deadline hready hworks (.addressedTo "z") (.ofSeconds 1) ⟨0⟩
  have hresult := hgets d [body "x"] ⟨0⟩ 0 es [] turns rfl rfl hsayable hbrought hintact
    (by decide +kernel) (by decide +kernel)
  rw [hothers] at hresult
  exact ⟨hready, hworks, hresult⟩

/-- A deadline that the clock cannot represent: the pull fails when it has asked, though what it
asked for is there. -/
theorem meets_deadline_overflowing :
    let s : Session :=
      { identifier := "z", role := .application, config := ⟨.pull, none⟩, keys := none,
        responseWindow := .ofSeconds 1, link := {} }
    let letter : Message :=
      { Message.bare .receive .daemon .message with metadata := some { destination := some "z" } }
    let turn : Call.Event := .turns ⟨0⟩ 0
    let q := start 0 (.addressedTo "z") .longest ⟨0⟩ s
    let es : List Call.Event := [turn, turn, turn, .stirs (.writes .recv .flushes),
      .stirs (.arrives .recv (Frame.wrap (letter.extended {}))), turn]
    s.late = [] ∧ (s.link.inbox .recv).pending = .empty ∧
      deliveries .receive (Frame.bodies (Call.arrivals .recv es)) = [letter] ∧
      ∀ later, (q.run (es ++ later)).progress = .ends (.error .deadlineOverflow) := by
  intro s letter turn q es
  have hasked : (q.run es).written = some ⟨0⟩ := by decide +kernel
  have huntimely : Instant.after? ⟨0⟩ (q.run es).timeout = none := by decide +kernel
  have hends : (q.run es).progress = .ends (.error .deadlineOverflow) :=
    ((dated_start ..).run es).untimely ⟨0⟩ hasked huntimely
  refine ⟨rfl, rfl, by decide +kernel, fun later => ?_⟩
  rw [run_append, ended_run (hends ▸ rfl)]
  exact hends

end Quest

end Pull

end SimRelay
