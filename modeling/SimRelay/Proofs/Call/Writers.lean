import SimRelay.Proofs.Call.Leaving
import SimRelay.Proofs.Call.Leftover
import SimRelay.Proofs.Link.Dispatch
import SimRelay.Proofs.Link.Holding

/-!
# Proofs/Call/Writers — when a client has left, its streams end

All that a step of a call does to an outbox, and to the call's hold on its writer, is one move
(`Call.step_handles`), and only calls in flight hold a writer (`Desk.Staffed`).  So once the client
has left, the holds on a writer (`Desk.hold`) never grow.  They lessen in every round in which the
writer writes all it has before those who hold it have a turn (`Desk.Round`).  After rounds enough
nobody holds the writer, and the stream has ended (`Desk.Left.ends_of_rounds`).
-/

namespace SimRelay

/-- A whole goes on where its part does, and else with what comes after it. -/
theorem Progress.andThen_cases {ε ε' σ τ α β : Type} (p : Progress ε σ α) (f : σ → τ)
    (next : α → Progress ε' τ β) (failed : ε → Progress ε' τ β) :
    (∃ s, p.state? = some s ∧ (p.andThen f next failed).state? = some (f s)) ∨
      (p.state? = none ∧ ((∃ a, p.andThen f next failed = next a) ∨
        ∃ e, p.andThen f next failed = failed e)) := by
  cases p with
  | waits s => exact .inl ⟨s, rfl, rfl⟩
  | goes s => exact .inl ⟨s, rfl, rfl⟩
  | ends r =>
    cases r with
    | ok a => exact .inr ⟨rfl, .inl ⟨a, rfl⟩⟩
    | error e => exact .inr ⟨rfl, .inr ⟨e, rfl⟩⟩

/-! ## What a call is saying -/

/-- How far the writing is, if it has begun. -/
def Session.Saying.writing? : Session.Saying → Option Link.Writing
  | .fresh _ => none
  | .writing w => some w

namespace Call

/-- What a call is saying, and on which channel. -/
def saying? : Call → Option (Channel × Session.Saying)
  | .ping _ (.asking x) => some (.ctrl, x)
  | .intake _ (.pulling (.asking x)) => some (.recv, x)
  | .hand _ (.saying x _) => some (.send, x)
  | .exit (.saying x) => some (.ctrl, x)
  | _ => none

/-- How far a call has come with writing on a channel. -/
def writing? (ch : Channel) (c : Call) : Option Link.Writing :=
  match c.saying? with
  | some (ch', x) => if ch' = ch then x.writing? else none
  | none => none

def hold (ch : Channel) (c : Call) : Nat := Link.Writing.holdOf (c.writing? ch)

/-- The call holds no writer. -/
def Mute (c : Call) : Prop := ∀ ch, c.hold ch = 0

theorem mute_of_silent {c : Call} (h : c.saying? = none) : c.Mute := by
  intro ch
  rw [hold, writing?, h]
  rfl

/-- …and neither does a call that is about to write. -/
theorem mute_of_begun {c : Call} {ch : Channel} {x : Session.Saying} (h : c.saying? = some (ch, x))
    (hx : Link.Writing.holdOf x.writing? = 0) : c.Mute := by
  intro ch'
  rw [hold, writing?, h]
  dsimp only
  split
  · exact hx
  · rfl

theorem mute_of_isNew {c : Call} (h : c.isNew) : c.Mute := by
  refine mute_of_silent ?_
  unfold isNew at h
  split at h
  · rfl
  · rfl
  · rfl
  · rfl
  · exact absurd h Bool.false_ne_true

end Call

open Outbox (Handles)

/-! ## One step -/

namespace Session

variable {s s' : Session} {ch : Channel}

/-- What a writing leaves behind is the writing that the session goes on with. -/
theorem state?_write (t : Turn) (ch : Channel) (w : Link.Writing) (s : Session) :
    (s.write t ch w).2.state?.bind Saying.writing? = (s.link.write t.id ch w).2.state? := by
  unfold write
  dsimp only
  cases (s.link.write t.id ch w).2 with
  | waits w' => rfl
  | goes w' => rfl
  | ends r => cases r <;> rfl

/-- **A step of saying** is one move of the outbox of its channel. -/
theorem say_handles (t : Turn) (ch : Channel) (x : Saying) (s : Session) :
    Handles t.id x.writing? (s.link.outbox ch) ((s.say t ch x).2.state?.bind Saying.writing?)
      ((s.say t ch x).1.link.outbox ch) := by
  have hwrite (w : Link.Writing) :
      Handles t.id (some w) (s.link.outbox ch) ((s.write t ch w).2.state?.bind Saying.writing?)
        ((s.write t ch w).1.link.outbox ch) :=
    state?_write t ch w s ▸ Link.write_handles t.id ch w s.link
  cases x with
  | writing w => exact hwrite w
  | fresh m =>
    rw [say]
    split
    · exact .rests rfl rfl
    · split
      · exact .rests rfl rfl
      · next body hbody => exact (hwrite (.start body)).of_hold rfl rfl

theorem outbox_of_hear {t : Turn} {begins : Bool} {deadline : Option Instant} {heard : Heard}
    (h : s.hear t ch begins deadline = (heard, s')) (c : Channel) :
    s'.link.outbox c = s.link.outbox c := by
  obtain ⟨-, i, hsession, -, -⟩ := s.hear_spec t ch begins deadline
  rw [h] at hsession
  obtain rfl : s' = _ := hsession
  exact Link.outbox_setInbox ..

end Session

/-! ### Calls -/

namespace Call

variable {s s' : Session} {b b' : Backend} {c : Call} {t : Turn}
  {p : Progress Failure Call Reply}

/-- A step of a call is one move of each outbox. -/
def Handles (t : Turn) (c : Call) (s : Session)
    (r : Session × Backend × Progress Failure Call Reply) : Prop :=
  ∀ ch, Outbox.Handles t.id (c.writing? ch) (s.link.outbox ch) (r.2.2.state?.bind (writing? ch))
    (r.1.link.outbox ch)

/-- What a call that leaves a mute one is writing. -/
theorem hold_of_leaves (h : p.Leaves Mute) (ch : Channel) :
    Link.Writing.holdOf (p.state?.bind (writing? ch)) = 0 := by
  cases hstate : p.state? with
  | none => rfl
  | some c' =>
    have hmute : c'.Mute := h.of_state? hstate
    exact hmute ch

/-- A step of a part of a call that writes nothing. -/
def Quiet {ε σ α : Type} (f : σ → Call) (s : Session) (r : Session × Progress ε σ α) : Prop :=
  (∀ ch, r.1.link.outbox ch = s.link.outbox ch) ∧ r.2.Leaves fun state => (f state).Mute

/-- …such as one that hears something. -/
theorem Quiet.of_hear {ε σ α : Type} {f : σ → Call} {ch : Channel} {begins : Bool}
    {deadline : Option Instant} {heard : Session.Heard}
    (h : s.hear t ch begins deadline = (heard, s')) {p : Progress ε σ α}
    (hp : p.Leaves fun state => (f state).Mute) : Quiet f s (s', p) :=
  ⟨Session.outbox_of_hear h, hp⟩

theorem Quiet.handles {σ α : Type} {f : σ → Call} {g : α → Reply}
    {r : Session × Progress Failure σ α} (h : Quiet f s r) (hc : c.Mute) :
    Handles t c s (r.1, b', lift f g r.2) := by
  intro ch
  change Outbox.Handles t.id _ _ _ (r.1.link.outbox ch)
  rw [h.1 ch]
  exact .rests (hc ch) (hold_of_leaves (leaves_lift h.2) ch)

/-- **A step that says something.**  The call goes on saying it, or says nothing any more. -/
theorem Handles.of_say {ch : Channel} {x : Session.Saying} (hc : c.saying? = some (ch, x))
    {f : Session.Saying → Call} (hf : ∀ y, (f y).saying? = some (ch, y))
    {next : Unit → Progress Failure Call Reply} (hnext : ∀ a, (next a).Leaves Mute)
    {failed : ClientError → Progress Failure Call Reply} (hfailed : ∀ e, (failed e).Leaves Mute) :
    Handles t c s ((s.say t ch x).1, b', (s.say t ch x).2.andThen f next failed) := by
  intro ch'
  have hwriting {d : Call} {y : Session.Saying} (hd : d.saying? = some (ch, y)) :
      d.writing? ch' = if ch = ch' then y.writing? else none := by
    rw [writing?, hd]
  have hsay := s.say_handles t ch x
  obtain ⟨o, ho⟩ := s.say_spec t ch x
  have hother (hch : ch ≠ ch') : (s.say t ch x).1.link.outbox ch' = s.link.outbox ch' := by
    rw [ho]
    exact (Link.outbox_setOutbox ..).trans (if_neg hch)
  change Outbox.Handles t.id _ _ (((s.say t ch x).2.andThen f next failed).state?.bind _) _
  rw [hwriting hc]
  rcases Progress.andThen_cases (s.say t ch x).2 f next failed with ⟨y, hy, hgoes⟩ | ⟨hnone, hrest⟩
  · rw [hy] at hsay
    rw [hgoes, Option.bind_some, hwriting (hf y)]
    split
    · next hch =>
      obtain rfl := hch
      exact hsay
    · next hch => exact (hother hch).symm ▸ .rests rfl rfl
  · rw [hnone] at hsay
    have hmute : ((s.say t ch x).2.andThen f next failed).Leaves Mute := by
      rcases hrest with ⟨a, heq⟩ | ⟨e, heq⟩
      · exact heq ▸ hnext a
      · exact heq ▸ hfailed e
    split
    · next hch =>
      obtain rfl := hch
      exact hsay.of_after rfl (hold_of_leaves hmute ch)
    · next hch => exact (hother hch).symm ▸ .rests rfl (hold_of_leaves hmute ch')

/-- A part of a part is a part. -/
theorem andThen_andThen {ε ε' ε'' ρ σ τ α β γ : Type} (p : Progress ε ρ α) (f : ρ → σ)
    (next : α → Progress ε' σ β) (failed : ε → Progress ε' σ β) (g : σ → τ)
    (next' : β → Progress ε'' τ γ) (failed' : ε' → Progress ε'' τ γ) :
    (p.andThen f next failed).andThen g next' failed' = p.andThen (fun state => g (f state))
      (fun a => (next a).andThen g next' failed') fun e => (failed e).andThen g next' failed' := by
  cases p with
  | waits state => rfl
  | goes state => rfl
  | ends r => cases r <;> rfl

/-! ### Pings -/

theorem hearAnswer_quiet (t : Turn) (begins : Bool) (deadline : Instant) (timeout : Option Duration)
    (s : Session) : Quiet (.ping timeout) s (Ping.hearAnswer t begins deadline s) := by
  unfold Ping.hearAnswer
  split
  · next h => exact .of_hear h trivial
  · next h => exact .of_hear h trivial
  · next h => exact .of_hear h trivial
  · next h => exact .of_hear h (mute_of_silent rfl)

theorem ping_handles (t : Turn) (timeout : Option Duration) (phase : Ping.Phase) (s : Session)
    (b : Backend) : Handles t (.ping timeout phase) s ((Call.ping timeout phase).step t s b) := by
  cases phase with
  | start =>
    have hquiet : Quiet (.ping timeout) s
        (Ping.step t (timeout.getD s.responseWindow) .start s) := by
      rw [Ping.step]
      split
      · exact ⟨fun _ => rfl, trivial⟩
      · exact ⟨fun _ => rfl, mute_of_silent rfl⟩
    exact hquiet.handles (mute_of_silent rfl)
  | clearing =>
    have hquiet : Quiet (.ping timeout) s
        (Ping.step t (timeout.getD s.responseWindow) .clearing s) := by
      rw [Ping.step]
      split
      · next h => exact .of_hear h (mute_of_silent rfl)
      · next h => exact .of_hear h trivial
      · next h => exact .of_hear h (mute_of_begun rfl rfl)
    exact hquiet.handles (mute_of_silent rfl)
  | asking x =>
    simp only [step, Ping.step, lift, andThen_andThen]
    refine .of_say rfl (fun _ => rfl) (fun _ => ?_) fun _ => ?_
    · exact mute_of_silent rfl
    · exact trivial
  | asked => exact (hearAnswer_quiet t true _ timeout s).handles (mute_of_silent rfl)
  | listening deadline =>
    exact (hearAnswer_quiet t false deadline timeout s).handles (mute_of_silent rfl)

/-! ### Intakes -/

variable {i : Intake}

/-- What is left to do with a delivery is no saying. -/
theorem settle_mute (i : Intake) (s : Session) (m : Message) :
    (i.settle s m).Leaves fun phase => (Call.intake i phase).Mute :=
  i.settle_leaves s fun _ _ => mute_of_silent rfl

theorem settlePulled_mute (i : Intake) (s : Session) :
    ∀ m? : Option Message, (i.settlePulled s m?).Leaves fun phase => (Call.intake i phase).Mute
  | some m => settle_mute i s m
  | none => trivial

/-- A part of a pull is a part of the intake. -/
theorem Quiet.pulling {r : Session × Progress Failure Pull.Phase (Option Message)}
    (h : Quiet (fun p => .intake i (.pulling p)) s r) (s'' : Session) :
    Quiet (.intake i) s (r.1, r.2.andThen Intake.Phase.pulling (i.settlePulled s'')
      fun e => .ends (.error e)) :=
  ⟨h.1, h.2.andThen (fun _ h => h) (settlePulled_mute i s'') fun _ => trivial⟩

theorem pullAnswer_quiet (t : Turn) (wanted : Wanted) (begins : Bool) (deadline : Instant)
    (i : Intake) (s : Session) :
    Quiet (fun p => .intake i (.pulling p)) s (Pull.hearAnswer t wanted begins deadline s) := by
  unfold Pull.hearAnswer
  split
  · next m s' h =>
    have hout := Session.outbox_of_hear h
    split
    · exact ⟨hout, trivial⟩
    · split
      · exact ⟨hout, trivial⟩
      · exact ⟨hout, mute_of_silent rfl⟩
  · next h => exact .of_hear h trivial
  · next h => exact .of_hear h trivial
  · next h => exact .of_hear h (mute_of_silent rfl)

theorem draining_quiet (t : Turn) (wanted : Wanted) (timeout : Duration) (i : Intake)
    (s : Session) :
    Quiet (fun p => .intake i (.pulling p)) s (Pull.step t wanted timeout .draining s) := by
  rw [Pull.step]
  split
  · next m s' h =>
    refine ⟨fun ch => ?_, mute_of_silent rfl⟩
    dsimp only
    split
    · exact Session.outbox_of_hear h ch
    · exact Session.outbox_of_hear h ch
  · next h => exact .of_hear h trivial
  · next heard s' hmessage hfailure h =>
    have hout := Session.outbox_of_hear h
    split
    · next htake =>
      obtain ⟨-, -, -, -, -, rfl⟩ := Session.takeLate_eq_some htake
      exact ⟨hout, trivial⟩
    · exact ⟨hout, mute_of_begun rfl rfl⟩

theorem pulling_handles (t : Turn) (i : Intake) (p : Pull.Phase) (s : Session) (b : Backend) :
    Handles t (.intake i (.pulling p)) s ((Call.intake i (.pulling p)).step t s b) := by
  cases p with
  | draining =>
    have hquiet := draining_quiet t (i.wanted s) (i.timeout.getD s.responseWindow) i s
    exact (hquiet.pulling _).handles (mute_of_silent rfl)
  | asking x =>
    simp only [step, Intake.step, Pull.step, lift, andThen_andThen]
    refine .of_say rfl (fun _ => rfl) (fun _ => ?_) fun _ => ?_
    · split
      · exact mute_of_silent rfl
      · exact trivial
    · exact trivial
  | asked deadline =>
    exact ((pullAnswer_quiet t (i.wanted s) true deadline i s).pulling _).handles
      (mute_of_silent rfl)
  | listening deadline =>
    exact ((pullAnswer_quiet t (i.wanted s) false deadline i s).pulling _).handles
      (mute_of_silent rfl)

theorem hearForwarded_quiet (t : Turn) (i : Intake) (begins : Bool) (deadline : Option Instant)
    (s : Session) : Quiet (.intake i) s (i.hearForwarded t begins deadline s) := by
  unfold Intake.hearForwarded
  split
  · next h =>
    refine .of_hear h ?_
    split
    · exact settle_mute i _ _
    · exact trivial
  · next h => exact .of_hear h trivial
  · next h => exact .of_hear h trivial
  · next h => exact .of_hear h (mute_of_silent rfl)

theorem intake_handles (t : Turn) (i : Intake) (phase : Intake.Phase) (s : Session) (b : Backend) :
    Handles t (.intake i phase) s ((Call.intake i phase).step t s b) := by
  cases phase with
  | start =>
    have hquiet : Quiet (.intake i) s
        ((i.step t .start s b).1, (i.step t .start s b).2.2) := by
      have hgoes {phase : Intake.Phase} (hphase : (Call.intake i phase).saying? = none) :
          Quiet (.intake i) s
            (s, (.goes phase : Progress Failure Intake.Phase (Option Delivery))) :=
        ⟨fun _ => rfl, mute_of_silent hphase⟩
      unfold Intake.step
      dsimp only
      split
      · exact hgoes rfl
      · split
        · exact ⟨fun _ => rfl, trivial⟩
        · split
          · exact hgoes rfl
          · exact hgoes rfl
    exact hquiet.handles (mute_of_silent rfl)
  | pulling p => exact pulling_handles t i p s b
  | attending timeout => exact (hearForwarded_quiet t i true _ s).handles (mute_of_silent rfl)
  | waiting deadline =>
    exact (hearForwarded_quiet t i false deadline s).handles (mute_of_silent rfl)
  | resolving m key =>
    have hquiet : Quiet (.intake i) s (s, (.ends (Intake.resolve m key s b).2 :
        Progress Failure Intake.Phase (Option Delivery))) := ⟨fun _ => rfl, trivial⟩
    exact hquiet.handles (mute_of_silent rfl)

/-! ### Hand-overs and exits -/

/-- Before it says anything, a hand-over goes to the store at most. -/
theorem hand_quiet (t : Turn) (x : Hand) (phase : Hand.Phase) (hphase : phase.isSaying = false)
    (s : Session) (b : Backend) :
    Quiet (.hand x) s ((x.step t phase s b).1, (x.step t phase s b).2.2) := by
  have hspeaks (m : Message) (stored : Option String) : (Call.hand x (Hand.speak m stored)).Mute :=
    mute_of_begun rfl rfl
  unfold Hand.step
  split
  · exact ⟨fun _ => rfl, trivial⟩
  · cases phase with
    | start =>
      dsimp only
      split
      · exact ⟨fun _ => rfl, trivial⟩
      · split
        · next hnext =>
          obtain ⟨source, -, heq⟩ := Option.map_eq_some_iff.mp hnext
          obtain ⟨-, rfl⟩ := Prod.mk.inj heq
          exact ⟨fun _ => rfl, mute_of_silent rfl⟩
        · exact ⟨fun _ => rfl, mute_of_silent rfl⟩
        · exact ⟨fun _ => rfl, hspeaks _ _⟩
    | storing key =>
      dsimp only
      split
      · split
        · exact ⟨fun _ => rfl, hspeaks _ _⟩
        · exact ⟨fun _ => rfl, trivial⟩
      · exact ⟨fun _ => rfl, hspeaks _ _⟩
    | releasing key => exact ⟨fun _ => rfl, hspeaks _ _⟩
    | saying y stored => exact absurd hphase Bool.true_eq_false.mp

theorem hand_handles (t : Turn) (x : Hand) {phase : Hand.Phase} (h : phase.Says x s) (b : Backend) :
    Handles t (.hand x phase) s ((Call.hand x phase).step t s b) := by
  cases phase with
  | saying y stored =>
    obtain ⟨m, ⟨p, -, hparcel, -, -⟩, -⟩ := h
    simp only [step, Hand.step, hparcel, lift, andThen_andThen]
    refine .of_say rfl (fun _ => rfl) (fun _ => ?_) fun _ => ?_
    · exact trivial
    · exact trivial
  | start => exact (hand_quiet t x .start rfl s b).handles (mute_of_silent rfl)
  | storing key => exact (hand_quiet t x (.storing key) rfl s b).handles (mute_of_silent rfl)
  | releasing key => exact (hand_quiet t x (.releasing key) rfl s b).handles (mute_of_silent rfl)

theorem exit_handles (t : Turn) (phase : Exit.Phase) (s : Session) (b : Backend) :
    Handles t (.exit phase) s ((Call.exit phase).step t s b) := by
  cases phase with
  | start =>
    have hquiet : Quiet .exit s (Exit.step t .start s) := by
      rw [Exit.step]
      split
      · exact ⟨fun _ => rfl, trivial⟩
      · dsimp only
        split
        · exact ⟨fun _ => rfl, mute_of_silent rfl⟩
        · exact ⟨fun _ => rfl, mute_of_begun rfl rfl⟩
    exact hquiet.handles (mute_of_silent rfl)
  | saying x =>
    simp only [step, Exit.step, lift, andThen_andThen]
    refine .of_say rfl (fun _ => rfl) (fun _ => ?_) fun _ => ?_
    · exact mute_of_silent rfl
    · exact mute_of_silent rfl
  | closing c wrong =>
    intro ch
    have hafter : ((Call.exit (.closing c wrong)).step t s b).2.2.Leaves Mute := by
      refine leaves_lift ?_
      exact (Progress.leaves_true _).andThen (fun _ _ => mute_of_silent rfl) (fun _ => trivial)
        fun e => e.elim
    have hhold := hold_of_leaves hafter ch
    change Outbox.Handles t.id _ _ _ ((s.link.close t.id c).1.outbox ch)
    rcases Link.outbox_close_cases t.id c ch s.link with heq | heq
    · exact heq ▸ .rests rfl hhold
    · exact heq ▸ .shuts rfl hhold

/-- **A step of a call is one move of each outbox.** -/
theorem step_handles (t : Turn) (h : c.Voices s) (b : Backend) : Handles t c s (c.step t s b) := by
  cases c with
  | ping timeout phase => exact ping_handles t timeout phase s b
  | intake i phase => exact intake_handles t i phase s b
  | hand x phase => exact hand_handles t x h b
  | exit phase => exact exit_handles t phase s b

end Call

/-! ### Handshakes -/

namespace Handshake

/-- How far the introduction is with being written. -/
def Phase.writing? (ch : Channel) : Phase → Option Link.Writing
  | .introducing w => if ch = .ctrl then some w else none
  | _ => none

theorem hold_of_leaves {ch : Channel} {p : Progress InitFault Phase SessionConfig}
    (h : p.Leaves (·.writing? ch = none)) :
    Link.Writing.holdOf (p.state?.bind (Phase.writing? ch)) = 0 := by
  cases hstate : p.state? with
  | none => rfl
  | some next =>
    rw [Option.bind_some, h.of_state? hstate]
    rfl

variable {t : Turn} {h : Handshake} {l : Link} {ch : Channel}

theorem hear_handles (deadline : Instant) :
    Handles t.id none (l.outbox ch) ((h.hear t deadline l).2.state?.bind (Phase.writing? ch))
      ((h.hear t deadline l).1.outbox ch) := by
  obtain ⟨i, hlink, -⟩ := Link.read_spec t.id (t.now.reached deadline) .ctrl l
  have hmove {reading : Link.Reading} {l' : Link}
      (heq : l.read t.id (t.now.reached deadline) .ctrl = (reading, l'))
      {p : Progress InitFault Phase SessionConfig} (hp : p.Leaves (·.writing? ch = none)) :
      Handles t.id none (l.outbox ch) (p.state?.bind (Phase.writing? ch)) (l'.outbox ch) := by
    rw [heq] at hlink
    obtain rfl : l' = _ := hlink
    exact (Link.outbox_setInbox .ctrl ch i l).symm ▸ .rests rfl (hold_of_leaves hp)
  unfold hear
  split
  · next body l' heq =>
    refine hmove heq ?_
    unfold settle
    split
    · exact rfl
    · split
      · exact rfl
      · exact trivial
  · next heq => exact hmove heq rfl
  · next heq => exact hmove heq rfl
  · next heq => exact hmove heq rfl

theorem introducing_handles (w : Link.Writing)
    (openStore : StoreParams → Except StoreError Unit) :
    Handles t.id (Phase.writing? ch (.introducing w)) (l.outbox ch)
      ((h.step t openStore (.introducing w) l).2.state?.bind (Phase.writing? ch))
      ((h.step t openStore (.introducing w) l).1.outbox ch) := by
  have hwrite := l.write_handles t.id .ctrl w
  obtain ⟨o, ho⟩ := Link.write_spec t.id .ctrl w l
  have hother (hch : ¬ ch = .ctrl) : (l.write t.id .ctrl w).1.outbox ch = l.outbox ch := by
    rw [ho]
    exact (Link.outbox_setOutbox ..).trans (if_neg (Ne.symm hch))
  rw [step]
  dsimp only
  rcases Progress.andThen_cases (l.write t.id .ctrl w).2 Phase.introducing
      (fun _ => (.goes .introduced : Progress InitFault Phase SessionConfig))
      (fun e => fail (.sending e)) with ⟨w', hw', hgoes⟩ | ⟨hnone, hrest⟩
  · rw [hgoes, Option.bind_some, Phase.writing?, Phase.writing?]
    split
    · next hch =>
      obtain rfl := hch
      exact hw' ▸ hwrite
    · next hch => exact (hother hch).symm ▸ .rests rfl rfl
  · have hhold : Link.Writing.holdOf (((l.write t.id .ctrl w).2.andThen Phase.introducing
        (fun _ => (.goes .introduced : Progress InitFault Phase SessionConfig))
        (fun e => fail (.sending e))).state?.bind (Phase.writing? ch)) = 0 := by
      rcases hrest with ⟨_, heq⟩ | ⟨_, heq⟩
      · rw [heq]
        rfl
      · rw [heq]
        rfl
    rw [Phase.writing?]
    split
    · next hch =>
      obtain rfl := hch
      exact (hnone ▸ hwrite).of_after rfl hhold
    · next hch => exact (hother hch).symm ▸ .rests rfl hhold

/-- **A step of a handshake is one move of each outbox.** -/
theorem step_handles (t : Turn) (openStore : StoreParams → Except StoreError Unit) (h : Handshake)
    (phase : Phase) (l : Link) (ch : Channel) :
    Handles t.id (phase.writing? ch) (l.outbox ch)
      ((h.step t openStore phase l).2.state?.bind (Phase.writing? ch))
      ((h.step t openStore phase l).1.outbox ch) := by
  cases phase with
  | start =>
    rw [step]
    split
    · exact .rests rfl rfl
    · refine .rests rfl ?_
      change Link.Writing.holdOf (if ch = .ctrl then _ else none) = 0
      split
      · rfl
      · rfl
  | introducing w => exact introducing_handles w openStore
  | introduced => exact hear_handles _
  | listening deadline => exact hear_handles deadline
  | opening config store =>
    rw [step]
    split
    · exact .rests rfl rfl
    · exact .rests rfl rfl
  | closing c fault =>
    have hquiet : (h.step t openStore (.closing c fault) l).2.Leaves (·.writing? ch = none) :=
      (Progress.leaves_true _).andThen (fun _ _ => rfl) (fun _ => trivial) fun e => e.elim
    have hhold := hold_of_leaves hquiet
    change Handles t.id _ _ _ ((l.close t.id c).1.outbox ch)
    rcases Link.outbox_close_cases t.id c ch l with heq | heq
    · exact heq ▸ .rests rfl hhold
    · exact heq ▸ .shuts rfl hhold

end Handshake

namespace Greeting

variable {h : Handshake} {openStore : StoreParams → Except StoreError Unit} {id : CallId}
  {w : Greeting}

/-- Nobody holds a writer but the handshake, while it introduces itself. -/
structure Tended (id : CallId) (w : Greeting) : Prop where
  held : ∀ ch, ∀ other ∈ (w.link.outbox ch).senders, other = id ∧
    0 < Link.Writing.holdOf (w.progress.state?.bind (Handshake.Phase.writing? ch))
  ends : ∀ ch, (w.link.outbox ch).Lasts

theorem Tended.start {l : Link} (hnew : ∀ c, l.outbox c = {}) : (start l).Tended id := by
  refine ⟨fun ch other hother => ?_, fun ch hended => ?_⟩
  · change other ∈ (l.outbox ch).senders at hother
    rw [hnew ch] at hother
    exact absurd hother List.not_mem_nil
  · change (l.outbox ch).ended at hended
    rw [hnew ch] at hended
    exact absurd hended Bool.false_ne_true

theorem Tended.step (hw : w.Tended id) (e : Event) : (w.step h openStore id e).Tended id := by
  cases e with
  | turns now millis =>
    rw [Greeting.step]
    cases hphase : w.progress.state? with
    | none => exact hw
    | some phase =>
      have hhandles := h.step_handles ⟨id, now, millis⟩ openStore phase w.link
      refine ⟨fun ch other hother => ?_, fun ch => (hhandles ch).lasts (hw.ends ch)⟩
      rcases (hhandles ch).senders hother with hown | ⟨hmem, hnone⟩
      · exact hown
      · obtain ⟨hid, hhold⟩ := hw.held ch other hmem
        rw [hphase] at hhold
        exact absurd (hnone hid).1 (Nat.ne_of_gt hhold)
  | stirs x =>
    refine ⟨fun ch other hother => hw.held ch other ?_, fun ch => ?_⟩
    · exact x.senders_onLink ch w.link ▸ hother
    · exact x.outbox_stays (fun a _ ho => ho.act a) (hw.ends ch)

theorem Tended.run (hw : w.Tended id) (es : List Event) : (w.run h openStore id es).Tended id := by
  induction es generalizing w with
  | nil => exact hw
  | cons e es ih => exact ih (hw.step e)

end Greeting

/-! ## Many calls -/

namespace Desk

variable {w : Desk} {id : CallId} {c : Call} {role : Role} {t : Turn} {ch : Channel}
  {h : Handshake}

/-- **Only calls in flight hold a writer**, what they have handed over has a number that the outbox
has given, and no stream ends whose channel is not shut. -/
structure Staffed (w : Desk) : Prop where
  held : ∀ ch, ∀ id ∈ (w.session.link.outbox ch).senders, ∃ c, (id, c) ∈ w.calls ∧ 0 < c.hold ch
  handed : ∀ p ∈ w.calls, ∀ ch, Outbox.Numbers (p.2.writing? ch) (w.session.link.outbox ch)
  ends : ∀ ch, (w.session.link.outbox ch).Lasts

theorem outbox_drop (id : CallId) (c : Call) (ch : Channel) (w : Desk) :
    (w.drop id c).session.link.outbox ch = (w.session.link.outbox ch).leave id := by
  cases ch <;> rfl

/-- A call that goes away lets go of what it holds. -/
theorem Staffed.drop (hw : w.Staffed) (id : CallId) (c : Call) : (w.drop id c).Staffed := by
  refine ⟨fun ch other hother => ?_, fun p hp ch => ?_, fun ch => ?_⟩
  · rw [outbox_drop] at hother
    obtain ⟨hmem, hne⟩ := List.mem_filter.mp hother
    obtain ⟨c', hc', hhold⟩ := hw.held ch other hmem
    refine ⟨c', (List.mem_erase_of_ne fun heq => ?_).mpr hc', hhold⟩
    exact bne_iff_ne.mp hne (Prod.mk.inj heq).1
  · rw [outbox_drop]
    exact hw.handed p (List.mem_of_mem_erase hp) ch
  · rw [outbox_drop]
    exact hw.ends ch

/-- What goes on around leaves the writers to those who hold them. -/
theorem Staffed.stirs (hw : w.Staffed) (x : Stir) : (w.step (.stirs x)).Staffed := by
  refine ⟨fun ch other hother => hw.held ch other ?_, fun p hp ch => ?_, fun ch => ?_⟩
  · exact x.senders_onLink ch w.session.link ▸ hother
  · exact x.outbox_stays (fun a _ ho => ho.act a) (hw.handed p hp ch)
  · exact x.outbox_stays (fun a _ ho => ho.act a) (hw.ends ch)

/-- **A step of a call.** -/
theorem Staffed.turn (hw : w.Staffed) (hc : (t.id, c) ∈ w.calls) (hvoices : c.Voices w.session) :
    (w.turn t c).Staffed := by
  have hhandles := Call.step_handles t hvoices w.store
  refine ⟨fun ch other hother => ?_, fun p hp ch => ?_, fun ch => (hhandles ch).lasts (hw.ends ch)⟩
  · rw [calls_turn]
    rcases (hhandles ch).senders hother with ⟨rfl, hhold⟩ | ⟨hmem, hnone⟩
    · cases hstate : (c.step t w.session w.store).2.2.state? with
      | none =>
        rw [hstate] at hhold
        exact absurd hhold (Nat.lt_irrefl 0)
      | some next =>
        rw [hstate] at hhold
        exact ⟨next, List.mem_append_left _ (List.mem_singleton.mpr rfl), hhold⟩
    · obtain ⟨c', hc', hhold⟩ := hw.held ch other hmem
      refine ⟨c', List.mem_append_right _ ((List.mem_erase_of_ne ?_).mpr hc'), hhold⟩
      rintro heq
      obtain ⟨rfl, rfl⟩ := Prod.mk.inj heq
      exact absurd (hnone rfl).1 (Nat.ne_of_gt hhold)
  · rw [calls_turn] at hp
    rcases List.mem_append.mp hp with hp | hp
    · obtain ⟨next, hnext, rfl⟩ := Option.map_eq_some_iff.mp (Option.mem_toList.mp hp)
      have hnumbers := (hhandles ch).numbers (hw.handed _ hc ch)
      rw [hnext] at hnumbers
      exact hnumbers
    · obtain ⟨hstopped, -, -⟩ := (hhandles ch).writer
      intro number hnumber hgoing
      have hlt := hw.handed p (List.mem_of_mem_erase hp) ch number hnumber (hstopped ▸ hgoing)
      exact Nat.lt_of_lt_of_le hlt (hhandles ch).accepted_le

/-- **Nothing that happens leaves a writer to nobody.** -/
theorem Staffed.step (hw : w.Staffed) (hd : w.Departs role) (e : Event) : (w.step e).Staffed := by
  cases e with
  | begins id c =>
    rw [Desk.step]
    split
    · next hbegins =>
      refine ⟨fun ch other hother => ?_, List.forall_mem_cons.mpr ⟨fun ch => ?_, hw.handed⟩,
        hw.ends⟩
      · obtain ⟨c', hc', hhold⟩ := hw.held ch other hother
        exact ⟨c', List.mem_cons_of_mem _ hc', hhold⟩
      · exact Outbox.numbers_of_hold (Call.mute_of_isNew hbegins.1 ch)
    · exact hw
  | turns t =>
    rw [Desk.step]
    cases hcall : w.calls.lookup t.id with
    | none => exact hw
    | some c =>
      have hc := mem_of_lookup hcall
      exact hw.turn hc (hd.inFlight _ hc).1
  | drops id =>
    rw [Desk.step]
    cases hcall : w.calls.lookup id with
    | none => exact hw
    | some c => exact hw.drop id c
  | stirs x => exact hw.stirs x

/-- **At every client that is reached only calls in flight hold a writer.** -/
theorem Reached.staffed (hw : Reached h w) : w.Staffed := by
  induction hw with
  | @starts openStore id l greeting config opened lines new ready b =>
    have htended : Greeting.Tended id ((Greeting.start l).run h openStore id greeting) :=
      (Greeting.Tended.start new).run greeting
    refine ⟨fun ch other hother => ?_, fun p hp => absurd hp List.not_mem_nil, htended.ends⟩
    obtain ⟨-, hhold⟩ := htended.held ch other hother
    rw [ready] at hhold
    exact absurd hhold (Nat.lt_irrefl 0)
  | goes hbefore _ ih => exact ih.step hbefore.departs _

/-! ## Letting go -/

/-- The calls in flight have different numbers. -/
theorem Reached.vigil (hw : Reached h w) : w.Vigil := by
  induction hw with
  | starts => exact .start _ _
  | goes _ _ ih => exact ih.step _

theorem Vigil.lookup (hw : w.Vigil) (hc : (id, c) ∈ w.calls) : w.calls.lookup id = some c := by
  obtain ⟨before, after, hcalls⟩ := List.append_of_mem hc
  have hdistinct := hw.distinct
  rw [hcalls, List.map_append, List.map_cons] at hdistinct
  refine List.lookup_eq_some_iff.mpr ⟨before, after, hcalls, fun p hp => bne_iff_ne.mpr ?_⟩
  rintro rfl
  exact (List.nodup_append.mp hdistinct).2.2 _ (List.mem_map_of_mem hp) _ List.mem_cons_self rfl

/-- How many more turns these calls together hold the writer of a channel for. -/
def holdAmong (ch : Channel) (calls : List (CallId × Call)) : Nat :=
  calls.foldr (fun p held => p.2.hold ch + held) 0

/-- …and all calls in flight. -/
def hold (ch : Channel) (w : Desk) : Nat := holdAmong ch w.calls

theorem holdAmong_perm (ch : Channel) {calls calls' : List (CallId × Call)}
    (h : calls.Perm calls') : holdAmong ch calls = holdAmong ch calls' :=
  h.foldr_eq' (fun p _ q _ held => Nat.add_left_comm (q.2.hold ch) (p.2.hold ch) held) 0

theorem hold_erase (ch : Channel) (hc : (id, c) ∈ w.calls) :
    w.hold ch = c.hold ch + holdAmong ch (w.calls.erase (id, c)) :=
  holdAmong_perm ch (List.perm_cons_erase hc)

theorem hold_turn (ch : Channel) (hc : (t.id, c) ∈ w.calls) :
    (w.turn t c).hold ch + c.hold ch = w.hold ch + Link.Writing.holdOf
      ((c.step t w.session w.store).2.2.state?.bind (Call.writing? ch)) := by
  rw [hold_erase ch hc, hold, calls_turn]
  cases (c.step t w.session w.store).2.2.state? with
  | none =>
    change holdAmong ch (w.calls.erase (t.id, c)) + c.hold ch = _ + 0
    omega
  | some next =>
    change next.hold ch + holdAmong ch (w.calls.erase (t.id, c)) + c.hold ch = _ + next.hold ch
    omega

/-- Somebody holds the writer, if it is held. -/
theorem exists_holder (hpos : 0 < w.hold ch) : ∃ p ∈ w.calls, 0 < p.2.hold ch := by
  have hzero : ∀ calls : List (CallId × Call), (∀ p ∈ calls, ¬ 0 < p.2.hold ch) →
      holdAmong ch calls = 0 := by
    intro calls hnone
    induction calls with
    | nil => rfl
    | cons p calls ih =>
      obtain ⟨hp, hrest⟩ := List.forall_mem_cons.mp hnone
      exact Nat.add_eq_zero_iff.mpr ⟨Nat.eq_zero_of_not_pos hp, ih hrest⟩
  by_contra hnone
  exact absurd (hzero w.calls fun p hp h => hnone ⟨p, hp, h⟩) (Nat.ne_of_gt hpos)

/-- Where nobody holds the writer, nobody is sending. -/
theorem Staffed.senders (hw : w.Staffed) (hnone : w.hold ch = 0) :
    (w.session.link.outbox ch).senders = [] := by
  refine List.eq_nil_iff_forall_not_mem.mpr fun id hid => ?_
  obtain ⟨c, hc, hhold⟩ := hw.held ch id hid
  have hall := hold_erase ch hc
  omega

theorem Left.hold_turn_le (hleft : w.Left) (hw : Reached h w) (hc : (t.id, c) ∈ w.calls) :
    (w.turn t c).hold ch ≤ w.hold ch := by
  have hvoices : c.Voices w.session := (hw.departs.inFlight _ hc).1
  have hle := (Call.step_handles t hvoices w.store ch).hold_le (hleft.shut.shut ch)
  have hturn := hold_turn ch hc
  change _ ≤ c.hold ch at hle
  omega

/-- **Nobody takes hold of a writer when the client has left.** -/
theorem Left.hold_step_le (hleft : w.Left) (hw : Reached h w) (e : Event) :
    (w.step e).hold ch ≤ w.hold ch := by
  cases e with
  | begins id c =>
    rw [Desk.step]
    split
    · next hbegins =>
      have hmute := Call.mute_of_isNew hbegins.1 ch
      change c.hold ch + w.hold ch ≤ _
      omega
    · exact Nat.le_refl _
  | turns t =>
    rw [Desk.step]
    cases hcall : w.calls.lookup t.id with
    | none => exact Nat.le_refl _
    | some c => exact hleft.hold_turn_le hw (mem_of_lookup hcall)
  | drops id =>
    rw [Desk.step]
    cases hcall : w.calls.lookup id with
    | none => exact Nat.le_refl _
    | some c =>
      rw [hold_erase ch (mem_of_lookup hcall)]
      exact Nat.le_add_left _ _
  | stirs x => exact Nat.le_refl _

theorem Left.hold_run_le (hleft : w.Left) (hw : Reached h w) {es : List Event}
    (hes : ∀ e ∈ es, e.suits h.role) : (w.run es).hold ch ≤ w.hold ch := by
  induction es generalizing w with
  | nil => exact Nat.le_refl _
  | cons e es ih =>
    obtain ⟨he, hes⟩ := List.forall_mem_cons.mp hes
    exact Nat.le_trans (ih (hleft.step hw.departs e) (hw.goes he) hes) (hleft.hold_step_le hw e)

/-- **What a history leaves of a writer**: one that goes on at its end went on before, and a stream
that has ended stays so. -/
theorem Reached.writer_step (hw : Reached h w) (ch : Channel) (e : Event) :
    (((w.step e).session.link.outbox ch).stopped = none →
        (w.session.link.outbox ch).stopped = none) ∧
      ((w.session.link.outbox ch).ended → ((w.step e).session.link.outbox ch).ended) := by
  cases e with
  | begins id c =>
    rw [Desk.step]
    split <;> exact ⟨fun h => h, fun h => h⟩
  | turns t =>
    rw [Desk.step]
    cases hcall : w.calls.lookup t.id with
    | none => exact ⟨fun h => h, fun h => h⟩
    | some c =>
      have hvoices := (hw.departs.inFlight _ (mem_of_lookup hcall)).1
      obtain ⟨hstopped, hended, -⟩ := (Call.step_handles t hvoices w.store ch).writer
      exact ⟨hstopped.symm.trans, hended.trans⟩
  | drops id =>
    rw [Desk.step]
    cases hcall : w.calls.lookup id with
    | none => exact ⟨fun h => h, fun h => h⟩
    | some c =>
      have hout := outbox_drop id c ch w
      exact ⟨(congrArg Outbox.stopped hout).symm.trans, (congrArg Outbox.ended hout).trans⟩
  | stirs x =>
    change (((x.onLink w.session.link).outbox ch).stopped = none → _) ∧
      (_ → ((x.onLink w.session.link).outbox ch).ended)
    rcases x.outbox_onLink_cases ch w.session.link with hsame | ⟨a, -, hact⟩
    · rw [hsame]
      exact ⟨fun h => h, fun h => h⟩
    · rw [hact]
      exact ⟨fun h => (Outbox.going_of_act a h).1, fun h => Outbox.ended_of_act h a⟩

theorem Reached.writer_run (hw : Reached h w) {es : List Event}
    (hes : ∀ e ∈ es, e.suits h.role) :
    (((w.run es).session.link.outbox ch).stopped = none →
        (w.session.link.outbox ch).stopped = none) ∧
      ((w.session.link.outbox ch).ended → ((w.run es).session.link.outbox ch).ended) := by
  induction es generalizing w with
  | nil => exact ⟨fun h => h, fun h => h⟩
  | cons e es ih =>
    obtain ⟨he, hes⟩ := List.forall_mem_cons.mp hes
    obtain ⟨hgoing, hended⟩ := hw.writer_step ch e
    obtain ⟨hgoing', hended'⟩ := ih (hw.goes he) hes
    exact ⟨fun h => hgoing (hgoing' h), fun h => hended' (hended h)⟩

/-! ## Rounds -/

theorem run_append (w : Desk) (es es' : List Event) : w.run (es ++ es') = (w.run es).run es' :=
  List.foldl_append

/-- The event is the turn of this call, or drops it. -/
def Event.heeds (id : CallId) : Event → Bool
  | .turns t => t.id = id
  | .drops id' => id' = id
  | _ => false

/-- **A round on a channel**: at some time the writer writes all it has, and whoever holds the
writer then has a turn before the round is over, or is dropped. -/
def Round (ch : Channel) (w : Desk) (es : List Event) : Prop :=
  ∃ before after, es = before ++ .stirs (.writes ch .flushes) :: after ∧
    ∀ p ∈ (w.run before).calls, 0 < p.2.hold ch → ∃ e ∈ after, e.heeds p.1

section

variable (hleft : w.Left) (hw : Reached h w) (hidle : (w.session.link.outbox ch).Idle)
  (hcall : w.calls.lookup id = some c) (hhold : 0 < c.hold ch)

include hcall hhold in
/-- Who holds the writer is not the one who does not. -/
theorem ne_of_holder {id' : CallId} {c' : Call} (hcall' : w.calls.lookup id' = some c')
    (hnone : c'.hold ch = 0) : id ≠ id' := by
  rintro rfl
  obtain rfl := Option.some.inj (hcall.symm.trans hcall')
  exact absurd hnone (Nat.ne_of_gt hhold)

include hidle hcall hhold in
/-- A call that is dropped lets go of the writer, or it held nothing. -/
theorem drop_lessens {id' : CallId} {c' : Call} (hcall' : w.calls.lookup id' = some c') :
    (w.drop id' c').hold ch < w.hold ch ∨ (id ≠ id' ∧
      ((w.drop id' c').session.link.outbox ch).Idle ∧
      (w.drop id' c').calls.lookup id = some c) := by
  have hall : w.hold ch = c'.hold ch + (w.drop id' c').hold ch :=
    hold_erase ch (mem_of_lookup hcall')
  rcases Nat.eq_zero_or_pos (c'.hold ch) with hnone | hpos
  · have hne := ne_of_holder hcall hhold hcall' hnone
    refine .inr ⟨hne, ?_, (lookup_erase_of_ne hne c' w.calls).trans hcall⟩
    rw [outbox_drop]
    exact ⟨hidle.queue, hidle.hand⟩
  · exact .inl (by omega)

include hleft hw hidle hcall hhold

/-- **Where the writer has nothing left, a turn** brings the call that takes it nearer to letting
go, or it is that of a call that holds nothing. -/
theorem Left.turn_lessens {c' : Call} (hcall' : w.calls.lookup t.id = some c') :
    (w.turn t c').hold ch < w.hold ch ∨ (id ≠ t.id ∧
      ((w.turn t c').session.link.outbox ch).Idle ∧
      (w.turn t c').calls.lookup id = some c) := by
  have hc' := mem_of_lookup hcall'
  have hvoices : c'.Voices w.session := (hw.departs.inFlight _ hc').1
  have hshut := hleft.shut.shut ch
  have hnumbers := hw.staffed.handed _ hc' ch
  have hhandles := Call.step_handles t hvoices w.store ch
  rcases Nat.eq_zero_or_pos (c'.hold ch) with hnone | hpos
  · have hne := ne_of_holder hcall hhold hcall' hnone
    have hsame := Nat.le_antisymm (hhandles.hold_le hshut)
      (Nat.le_trans (Nat.le_of_eq hnone) (Nat.zero_le _))
    exact .inr ⟨hne, hhandles.idle hshut hidle hsame hnumbers,
      (lookup_turn_of_ne hne c' w).trans hcall⟩
  · have hlt := hhandles.hold_lt hshut hidle hnumbers hpos
    have hturn := hold_turn ch hc'
    change _ < c'.hold ch at hlt
    exact .inl (by omega)

/-- **…and so does any event**, if it does not leave everything as it was. -/
theorem Left.step_lessens (hgoing : (w.session.link.outbox ch).stopped = none) (e : Event) :
    (w.step e).hold ch < w.hold ch ∨ (e.heeds id = false ∧
      ((w.step e).session.link.outbox ch).Idle ∧ (w.step e).calls.lookup id = some c) := by
  -- a number under which nothing is in flight is not that of the call
  have hother {id' : CallId} (hnone : w.calls.lookup id' = none) : id' ≠ id := by
    rintro rfl
    exact absurd (hcall.symm.trans hnone) (Option.some_ne_none c)
  cases e with
  | begins id' c' =>
    rw [Desk.step]
    split
    · next hbegins =>
      refine .inr ⟨rfl, hidle, ?_⟩
      rw [List.lookup_cons, beq_false_of_ne (hother hbegins.2).symm]
      exact hcall
    · exact .inr ⟨rfl, hidle, hcall⟩
  | turns t =>
    rw [Desk.step]
    cases hcall' : w.calls.lookup t.id with
    | none => exact .inr ⟨decide_eq_false (hother hcall'), hidle, hcall⟩
    | some c' =>
      rcases hleft.turn_lessens hw hidle hcall hhold hcall' with hless | ⟨hne, hrest⟩
      · exact .inl hless
      · exact .inr ⟨decide_eq_false (Ne.symm hne), hrest⟩
  | drops id' =>
    rw [Desk.step]
    cases hcall' : w.calls.lookup id' with
    | none => exact .inr ⟨decide_eq_false (hother hcall'), hidle, hcall⟩
    | some c' =>
      rcases drop_lessens hidle hcall hhold hcall' with hless | ⟨hne, hrest⟩
      · exact .inl hless
      · exact .inr ⟨decide_eq_false (Ne.symm hne), hrest⟩
  | stirs x =>
    refine .inr ⟨rfl, ?_, hcall⟩
    change ((x.onLink w.session.link).outbox ch).Idle
    rcases x.outbox_onLink_cases ch w.session.link with hsame | ⟨a, -, hact⟩
    · exact hsame ▸ hidle
    · exact hact ▸ hidle.act hgoing a

end

/-- **When the writer has written all it has and whoever holds it has had a turn**, fewer turns are
left. -/
theorem Left.run_lessens (hleft : w.Left) (hw : Reached h w)
    (hidle : (w.session.link.outbox ch).Idle) (hcall : w.calls.lookup id = some c)
    (hhold : 0 < c.hold ch) {es : List Event} (hes : ∀ e ∈ es, e.suits h.role)
    (hheeds : ∃ e ∈ es, e.heeds id)
    (hgoing : ((w.run es).session.link.outbox ch).stopped = none) :
    (w.run es).hold ch < w.hold ch := by
  induction es generalizing w with
  | nil =>
    obtain ⟨e, he, -⟩ := hheeds
    exact absurd he List.not_mem_nil
  | cons e es ih =>
    have hbefore := (hw.writer_run hes).1 hgoing
    obtain ⟨he, hes⟩ := List.forall_mem_cons.mp hes
    have hleft' := hleft.step hw.departs e
    have hw' := hw.goes he
    have hle : (w.run (e :: es)).hold ch ≤ (w.step e).hold ch := hleft'.hold_run_le hw' hes
    rcases hleft.step_lessens hw hidle hcall hhold hbefore e with hlt | ⟨hnot, hidle', hcall'⟩
    · exact Nat.lt_of_le_of_lt hle hlt
    · have hrest : ∃ e ∈ es, e.heeds id := by
        obtain ⟨e', he', hheeds'⟩ := hheeds
        rcases List.mem_cons.mp he' with rfl | he'
        · exact absurd (hnot.symm.trans hheeds') Bool.false_ne_true
        · exact ⟨e', he', hheeds'⟩
      exact Nat.lt_of_lt_of_le (ih hleft' hw' hidle' hcall' hes hrest hgoing)
        (hleft.hold_step_le hw e)

/-- **A round takes a turn off the holds on the writer, or the stream ends in it.** -/
theorem Left.round (hleft : w.Left) (hw : Reached h w) {es : List Event}
    (hes : ∀ e ∈ es, e.suits h.role) (hround : w.Round ch es)
    (hgoing : ((w.run es).session.link.outbox ch).stopped = none) :
    (w.run es).hold ch < w.hold ch ∨ ((w.run es).session.link.outbox ch).ended := by
  obtain ⟨before, after, rfl, hturns⟩ := hround
  obtain ⟨hbefore, hafter⟩ := List.forall_mem_append.mp hes
  obtain ⟨hflush, hafter⟩ := List.forall_mem_cons.mp hafter
  have hrun : w.run (before ++ .stirs (.writes ch .flushes) :: after)
      = ((w.run before).step (.stirs (.writes ch .flushes))).run after := run_append ..
  rw [hrun] at hgoing ⊢
  have hle : (w.run before).hold ch ≤ w.hold ch := hleft.hold_run_le hw hbefore
  have hleft' := hleft.run hw.departs hbefore
  have hw' := hw.run hbefore
  generalize w.run before = w' at hgoing hturns hle hleft' hw' ⊢
  have hleft'' := hleft'.step hw'.departs (.stirs (.writes ch .flushes))
  have hw'' := hw'.goes hflush
  have hout : (w'.step (.stirs (.writes ch .flushes))).session.link.outbox ch
      = (w'.session.link.outbox ch).flush := (Link.outbox_setOutbox ..).trans (if_pos rfl)
  have hgoing' : (w'.session.link.outbox ch).stopped = none :=
    (hw'.writer_step ch _).1 ((hw''.writer_run hafter).1 hgoing)
  rcases Nat.eq_zero_or_pos (w'.hold ch) with hnone | hpos
  · refine .inr ((hw''.writer_run hafter).2 ?_)
    rw [hout]
    exact Outbox.ended_flush (hleft'.shut.shut ch) (hw'.staffed.senders hnone) hgoing'
  · obtain ⟨p, hp, hhold⟩ := exists_holder hpos
    have hidle := hout ▸ Outbox.idle_flush hgoing'
    have hcall := hw'.vigil.lookup hp
    have hlt := hleft''.run_lessens hw'' hidle hcall hhold hafter (hturns p hp hhold) hgoing
    exact .inl (Nat.lt_of_lt_of_le hlt hle)

end Desk

end SimRelay
