import SimRelay.Proofs.Call.Writers
import SimRelay.Proofs.Session.Verdicts

/-!
# Proofs/Call/Lines — who stands in a reader's line

Between two steps a call stands in the line of the channel that it waits for, and in no other: that
is all that a step of a call or of a handshake does to the lines (`Link.Queues`).  Nobody stands in
line once a handshake has ended (`Greeting.Follows.line_eq_nil`).  So of a client that is reached,
whoever stands in a line is in flight and waits there (`Reached.lined`).
-/

namespace SimRelay

namespace Inbox

variable {id other : CallId}

theorem not_mem_line_leave (id : CallId) (i : Inbox) : id ∉ (i.leave id).line :=
  fun h => bne_iff_ne.mp (List.mem_filter.mp h).2 rfl

theorem mem_line_leave_iff (hne : other ≠ id) (i : Inbox) :
    other ∈ (i.leave id).line ↔ other ∈ i.line :=
  ⟨mem_line_leave, fun h => List.mem_filter.mpr ⟨h, bne_iff_ne.mpr hne⟩⟩

theorem mem_line_join_iff (hne : other ≠ id) (i : Inbox) :
    other ∈ (i.join id).line ↔ other ∈ i.line := by
  refine ⟨fun h => (mem_line_join h).resolve_right hne, fun h => ?_⟩
  unfold join
  split
  · exact h
  · exact List.mem_append_left _ h

end Inbox

/-! ## A step and the lines -/

namespace Link

variable {l l' : Link} {id : CallId} {ch : Channel} {place : Option Channel}

/-- The call stands in no line, or in that of this channel. -/
def InPlace (id : CallId) (place : Option Channel) (l : Link) : Prop :=
  ∀ c, id ∈ (l.inbox c).line → place = some c

theorem InPlace.weaken (h : l.InPlace id none) (place : Option Channel) : l.InPlace id place :=
  fun c hmem => nomatch h c hmem

/-- **All that a step of a call can do to the lines.**  The others stand where they stood; the call
stands in no line, or in that of the channel that it is left waiting for. -/
structure Queues (id : CallId) (place : Option Channel) (l l' : Link) : Prop where
  own : l'.InPlace id place
  others : ∀ c other, other ≠ id → (other ∈ (l'.inbox c).line ↔ other ∈ (l.inbox c).line)

namespace Queues

theorem weaken (h : Queues id none l l') (place : Option Channel) : Queues id place l l' :=
  ⟨h.own.weaken place, h.others⟩

/-- A step that leaves the lines alone, of a call that stands in none. -/
theorem of_line (h : l.InPlace id none) (hline : ∀ c, (l'.inbox c).line = (l.inbox c).line) :
    Queues id place l l' where
  own c hmem := nomatch h c (hline c ▸ hmem)
  others c _ _ := by rw [hline c]

/-- A step that changes one line at most. -/
theorem of_setInbox (h : l.InPlace id (some ch)) {i : Inbox} (hown : id ∈ i.line → place = some ch)
    (hothers : ∀ other, other ≠ id → (other ∈ i.line ↔ other ∈ (l.inbox ch).line)) :
    Queues id place l (l.setInbox ch i) := by
  refine ⟨fun c hmem => ?_, fun c other hne => ?_⟩
  · rw [inbox_setInbox] at hmem
    split at hmem
    · next heq => exact heq ▸ hown hmem
    · next hne => exact absurd (Option.some.inj (h c hmem)) hne
  · rw [inbox_setInbox]
    split
    · next heq => exact heq ▸ hothers other hne
    · exact Iff.rfl

/-- The call leaves a line in which nothing else has changed. -/
theorem of_leave (h : l.InPlace id (some ch)) {i : Inbox}
    (hothers : ∀ other, other ≠ id → (other ∈ i.line ↔ other ∈ (l.inbox ch).line)) :
    Queues id none l (l.setInbox ch (i.leave id)) :=
  of_setInbox h (fun hmem => absurd hmem (Inbox.not_mem_line_leave id i)) fun other hne =>
    (Inbox.mem_line_leave_iff hne i).trans (hothers other hne)

/-- What a part does to the lines, the whole of which it is a step does. -/
theorem andThen {ε ε' σ τ α β : Type} {p : Progress ε σ α} {line : σ → Option Channel}
    {line' : τ → Option Channel} {f : σ → τ} {next : α → Progress ε' τ β}
    {failed : ε → Progress ε' τ β} (h : Queues id (p.state?.bind line) l l')
    (hline : ∀ s, line' (f s) = line s) :
    Queues id ((p.andThen f next failed).state?.bind line') l l' := by
  cases p with
  | waits s | goes s =>
    change Queues id (line' (f s)) l l'
    rw [hline]
    exact h
  | ends r => exact Queues.weaken h _

end Queues

/-- The channel in whose line an attempt at reading leaves the call. -/
def Reading.line? (ch : Channel) : Reading → Option Channel
  | .frame _ => none
  | .failure _ => none
  | .timedOut => none
  | .inLine => some ch

/-- **An attempt at reading** leaves the call in line only if it tells it to wait. -/
theorem queues_read (expired : Bool) (h : l.InPlace id (some ch)) :
    Queues id ((l.read id expired ch).1.line? ch) l (l.read id expired ch).2 := by
  have hjoin (other : CallId) (hne : other ≠ id) := Inbox.mem_line_join_iff hne (l.inbox ch)
  have htake := Inbox.line_take ((l.inbox ch).join id) ▸ hjoin
  unfold read
  split
  · exact .of_leave h fun _ _ => Iff.rfl
  · dsimp only
    split
    · split
      · next heq =>
        rw [heq] at htake
        exact .of_leave h htake
      · next heq =>
        rw [heq] at htake
        exact .of_leave h htake
      · next heq =>
        rw [heq] at htake
        cases expired with
        | true => exact .of_leave h htake
        | false => exact .of_setInbox h (fun _ => rfl) htake
    · cases expired with
      | true => exact .of_leave h hjoin
      | false => exact .of_setInbox h (fun _ => rfl) hjoin

/-- The channel for whose line the closing waits. -/
def Closing.line? : Closing → Option Channel
  | .start => none
  | .releasing chs => chs.head?

/-- **A step of closing** leaves the call in line only if others stand before it. -/
theorem queues_close {c : Closing} (h : l.InPlace id c.line?) :
    Queues id ((l.close id c).2.state?.bind Closing.line?) l (l.close id c).1 := by
  cases c with
  | start =>
    unfold close
    dsimp only
    split
    · exact .of_line h fun _ => rfl
    · exact .of_line h fun c => by cases c <;> rfl
  | releasing chs =>
    cases chs with
    | nil => exact .of_line h fun _ => rfl
    | cons ch rest =>
      have hshut (o : Outbox) : (l.setOutbox ch o).InPlace id (some ch) := fun c hmem =>
        h c (inbox_setOutbox ch c o l ▸ hmem)
      have hsame (o : Outbox) {place : Option Channel} {l' : Link}
          (hqueues : Queues id place (l.setOutbox ch o) l') : Queues id place l l' :=
        ⟨hqueues.own, fun c other hne => inbox_setOutbox ch c o l ▸ hqueues.others c other hne⟩
      have hjoin (o : Outbox) (other : CallId) (hne : other ≠ id) :=
        Inbox.mem_line_join_iff hne ((l.setOutbox ch o).inbox ch)
      dsimp only [close]
      split
      · exact (hsame _ (.of_leave (hshut _) (hjoin _))).weaken _
      · exact hsame _ (.of_setInbox (hshut _) (fun _ => rfl) (hjoin _))

/-- The lines know nothing of writing. -/
theorem queues_write (c : Channel) (x : Writing) (h : l.InPlace id none) :
    Queues id place l (l.write id c x).1 := by
  obtain ⟨o, ho⟩ := write_spec id c x l
  rw [ho]
  exact .of_line h fun c' => by rw [inbox_setOutbox]

end Link

namespace Session

variable {s : Session}

/-- The channel in whose line an attempt at hearing leaves the call. -/
def Heard.line? (ch : Channel) : Heard → Option Channel
  | .message _ => none
  | .nothing => none
  | .failure _ => none
  | .inLine => some ch

theorem queues_hear {t : Turn} (ch : Channel) (begins : Bool) (deadline : Option Instant)
    (h : s.link.InPlace t.id (if begins then none else some ch)) :
    Link.Queues t.id ((s.hear t ch begins deadline).1.line? ch) s.link
      (s.hear t ch begins deadline).2.link := by
  have hplace : s.link.InPlace t.id (some ch) := by
    cases begins with
    | true => exact h.weaken _
    | false => exact h
  have hread := Link.queues_read (deadline.any fun d => t.now.reached d) hplace
  unfold hear
  split
  · next hclosed =>
    rw [hclosed.1] at h
    exact .of_line h fun _ => rfl
  · dsimp only
    generalize s.link.read t.id (deadline.any fun d => t.now.reached d) ch = r at hread
    obtain ⟨reading, link⟩ := r
    cases reading with
    | frame body =>
      dsimp only
      split
      · exact hread
      · exact hread
    | failure e => exact hread
    | timedOut => exact hread
    | inLine => exact hread

/-- **An attempt that does not wait** leaves the call in no line. -/
theorem queues_drain {t : Turn} (ch : Channel) (h : s.link.InPlace t.id none) :
    Link.Queues t.id none s.link (s.hear t ch true (some t.now)).2.link := by
  obtain ⟨body?, i, -, -, htells⟩ := s.hear_tells t ch true (some t.now)
  have hqueues := queues_hear ch true (some t.now) h
  generalize s.hear t ch true (some t.now) = r at htells hqueues
  obtain ⟨heard, s'⟩ := r
  cases htells with
  | message spelt => exact hqueues
  | garbled unspelt => exact hqueues
  | late up => exact hqueues
  | failure e => exact hqueues
  | inLine early => exact absurd (t.any_now.symm.trans early) Bool.true_eq_false.mp

theorem queues_say {place : Option Channel} {t : Turn} (ch : Channel) (x : Saying)
    (h : s.link.InPlace t.id none) : Link.Queues t.id place s.link (s.say t ch x).1.link := by
  obtain ⟨o, hsession⟩ := s.say_spec t ch x
  rw [hsession]
  exact .of_line h fun c => by rw [Link.inbox_setOutbox]

end Session

open Link (InPlace Queues)
open Session (queues_hear queues_drain queues_say)

/-! ## The calls -/

variable {s : Session} {t : Turn}

namespace Ping

/-- The channel in whose line the ping stands, if it stands in one. -/
def Phase.line? : Phase → Option Channel
  | .listening _ => some .ctrl
  | _ => none

theorem queues_hearAnswer (begins : Bool) (deadline : Instant)
    (h : s.link.InPlace t.id (if begins then none else some .ctrl)) :
    Queues t.id ((hearAnswer t begins deadline s).2.state?.bind Phase.line?) s.link
      (hearAnswer t begins deadline s).1.link := by
  have hqueues := queues_hear .ctrl begins (some deadline) h
  unfold hearAnswer
  generalize s.hear t .ctrl begins (some deadline) = r at hqueues
  obtain ⟨heard, s'⟩ := r
  cases heard with
  | message m => exact hqueues
  | nothing => exact hqueues
  | failure e => exact hqueues
  | inLine => exact hqueues

theorem queues_step (timeout : Duration) {phase : Phase} (h : s.link.InPlace t.id phase.line?) :
    Queues t.id ((step t timeout phase s).2.state?.bind Phase.line?) s.link
      (step t timeout phase s).1.link := by
  cases phase with
  | start =>
    rw [step]
    split
    · exact .of_line h fun _ => rfl
    · exact .of_line h fun _ => rfl
  | clearing =>
    have hqueues := queues_drain .ctrl h
    rw [step]
    generalize s.hear t .ctrl true (some t.now) = r at hqueues
    obtain ⟨heard, s'⟩ := r
    cases heard with
    | message m => exact hqueues
    | failure e => exact hqueues
    | nothing => exact hqueues
    | inLine => exact hqueues
  | asking x => exact .andThen (queues_say .ctrl x h) fun _ => rfl
  | asked => exact queues_hearAnswer true _ h
  | listening deadline => exact queues_hearAnswer false deadline h

end Ping

namespace Pull

/-- The channel in whose line the pull stands, if it stands in one. -/
def Phase.line? : Phase → Option Channel
  | .listening _ => some .recv
  | _ => none

theorem queues_hearAnswer (wanted : Wanted) (begins : Bool) (deadline : Instant)
    (h : s.link.InPlace t.id (if begins then none else some .recv)) :
    Queues t.id ((hearAnswer t wanted begins deadline s).2.state?.bind Phase.line?) s.link
      (hearAnswer t wanted begins deadline s).1.link := by
  have hqueues := queues_hear .recv begins (some deadline) h
  unfold hearAnswer
  generalize s.hear t .recv begins (some deadline) = r at hqueues
  obtain ⟨heard, s'⟩ := r
  cases heard with
  | message m =>
    dsimp only
    split
    · exact hqueues
    · split
      · exact hqueues
      · exact hqueues
  | nothing => exact hqueues
  | failure e => exact hqueues
  | inLine => exact hqueues

theorem queues_step (wanted : Wanted) (timeout : Duration) {phase : Phase}
    (h : s.link.InPlace t.id phase.line?) :
    Queues t.id ((step t wanted timeout phase s).2.state?.bind Phase.line?) s.link
      (step t wanted timeout phase s).1.link := by
  cases phase with
  | draining =>
    have hqueues := queues_drain .recv h
    rw [step]
    generalize s.hear t .recv true (some t.now) = r at hqueues
    obtain ⟨heard, s'⟩ := r
    cases heard with
    | message m =>
      dsimp only
      split
      · exact hqueues
      · exact hqueues
    | failure e => exact hqueues
    | nothing | inLine =>
      dsimp only
      split
      · next htake =>
        obtain ⟨-, -, -, -, -, rfl⟩ := Session.takeLate_eq_some htake
        exact hqueues
      · exact hqueues
  | asking x => exact .andThen (queues_say .recv x h) fun _ => rfl
  | asked deadline => exact queues_hearAnswer wanted true deadline h
  | listening deadline => exact queues_hearAnswer wanted false deadline h

end Pull

namespace Intake

/-- The channel in whose line the intake stands, if it stands in one. -/
def Phase.line? : Phase → Option Channel
  | .pulling phase => phase.line?
  | .waiting _ => some .recv
  | _ => none

theorem queues_hearForwarded (i : Intake) (begins : Bool) (deadline : Option Instant)
    (h : s.link.InPlace t.id (if begins then none else some .recv)) :
    Queues t.id ((hearForwarded t i begins deadline s).2.state?.bind Phase.line?) s.link
      (hearForwarded t i begins deadline s).1.link := by
  have hqueues := queues_hear .recv begins deadline h
  unfold hearForwarded
  generalize s.hear t .recv begins deadline = r at hqueues
  obtain ⟨heard, s'⟩ := r
  cases heard with
  | message m => exact hqueues.weaken _
  | nothing => exact hqueues
  | failure e => exact hqueues
  | inLine => exact hqueues

theorem queues_step (i : Intake) {phase : Phase} (h : s.link.InPlace t.id phase.line?)
    (b : Backend) :
    Queues t.id ((i.step t phase s b).2.2.state?.bind Phase.line?) s.link
      (i.step t phase s b).1.link := by
  cases phase with
  | start =>
    have hsame {place : Option Channel} : Queues t.id place s.link s.link :=
      .of_line h fun _ => rfl
    cases i with
    | listen wantPayload => exact hsame
    | receive destination timeout =>
      dsimp only [step]
      split
      · exact hsame
      · split <;> exact hsame
    | fetch source timeout wantPayload =>
      dsimp only [step]
      split
      · exact hsame
      · split <;> exact hsame
  | pulling phase =>
    exact .andThen (Pull.queues_step (i.wanted s) (i.timeout.getD s.responseWindow) h) fun _ => rfl
  | attending timeout => exact queues_hearForwarded i true _ h
  | waiting deadline => exact queues_hearForwarded i false deadline h
  | resolving m key => exact .of_line h fun _ => rfl

end Intake

namespace Hand

/-- **A hand-over stands in no line.** -/
theorem queues_step (x : Hand) (phase : Phase) (h : s.link.InPlace t.id none) (b : Backend)
    (place : Option Channel) : Queues t.id place s.link (x.step t phase s b).1.link := by
  have hsame : Queues t.id place s.link s.link := .of_line h fun _ => rfl
  unfold step
  split
  · exact hsame
  · split
    · split
      · exact hsame
      · split
        · next hkey =>
          obtain ⟨source, -, heq⟩ := Option.map_eq_some_iff.mp hkey
          obtain ⟨-, rfl⟩ := Prod.mk.inj heq
          exact hsame
        · exact hsame
        · exact hsame
    · split
      · split <;> exact hsame
      · exact hsame
    · exact hsame
    · exact queues_say .send _ h

end Hand

namespace Exit

/-- The channel in whose line the exit stands, if it stands in one. -/
def Phase.line? : Phase → Option Channel
  | .closing c _ => c.line?
  | _ => none

theorem queues_step {phase : Phase} (h : s.link.InPlace t.id phase.line?) :
    Queues t.id ((step t phase s).2.state?.bind Phase.line?) s.link
      (step t phase s).1.link := by
  cases phase with
  | start =>
    rw [step]
    split
    · exact .of_line h fun _ => rfl
    · dsimp only
      split
      · exact .of_line h fun _ => rfl
      · exact .of_line h fun _ => rfl
  | saying x => exact .andThen (queues_say .ctrl x h) fun _ => rfl
  | closing c wrong => exact .andThen (Link.queues_close h) fun _ => rfl

end Exit

/-- The channel in whose line a call stands between two steps, if it stands in one. -/
def Call.line? : Call → Option Channel
  | .ping _ phase => phase.line?
  | .intake _ phase => phase.line?
  | .hand _ _ => none
  | .exit phase => phase.line?

/-- **A step of a call** leaves it in the line of the channel that it waits for, and in no other. -/
theorem Call.queues_step {c : Call} (h : s.link.InPlace t.id c.line?) (b : Backend) :
    Queues t.id ((c.step t s b).2.2.state?.bind line?) s.link (c.step t s b).1.link := by
  cases c with
  | ping timeout phase =>
    exact .andThen (Ping.queues_step (timeout.getD s.responseWindow) h) fun _ => rfl
  | intake i phase => exact .andThen (i.queues_step h b) fun _ => rfl
  | hand x phase => exact x.queues_step phase h b _
  | exit phase => exact .andThen (Exit.queues_step h) fun _ => rfl

/-! ## The handshake -/

namespace Handshake

/-- The channel in whose line the handshake stands, if it stands in one. -/
def Phase.line? : Phase → Option Channel
  | .listening _ => some .ctrl
  | .closing c _ => c.line?
  | _ => none

variable {h : Handshake} {l : Link}

theorem queues_hear (deadline : Instant) (hl : l.InPlace t.id (some .ctrl)) :
    Queues t.id ((h.hear t deadline l).2.state?.bind Phase.line?) l (h.hear t deadline l).1 := by
  have hqueues := Link.queues_read (t.now.reached deadline) hl
  unfold hear
  generalize l.read t.id (t.now.reached deadline) .ctrl = r at hqueues
  obtain ⟨reading, l'⟩ := r
  cases reading with
  | frame body => exact hqueues.weaken _
  | failure e => exact hqueues
  | timedOut => exact hqueues
  | inLine => exact hqueues

theorem queues_step (openStore : StoreParams → Except StoreError Unit) {phase : Phase}
    (hl : l.InPlace t.id phase.line?) :
    Queues t.id ((h.step t openStore phase l).2.state?.bind Phase.line?) l
      (h.step t openStore phase l).1 := by
  cases phase with
  | start =>
    rw [step]
    split
    · exact .of_line hl fun _ => rfl
    · exact .of_line hl fun _ => rfl
  | introducing x => exact .andThen (Link.queues_write .ctrl x hl) fun _ => rfl
  | introduced => exact queues_hear _ (hl.weaken _)
  | listening deadline => exact queues_hear deadline hl
  | opening config store =>
    rw [step]
    split
    · exact .of_line hl fun _ => rfl
    · exact .of_line hl fun _ => rfl
  | closing c fault => exact .andThen (Link.queues_close hl) fun _ => rfl

end Handshake

namespace Greeting

variable {h : Handshake} {openStore : StoreParams → Except StoreError Unit} {id : CallId}
  {w : Greeting}

/-- The handshake stands in the line of the channel that it waits for, and in no other. -/
def InPlace (id : CallId) (w : Greeting) : Prop :=
  w.link.InPlace id (w.progress.state?.bind Handshake.Phase.line?)

theorem InPlace.step (hw : w.InPlace id) (e : Event) : (w.step h openStore id e).InPlace id := by
  cases e with
  | turns now millis =>
    rw [Greeting.step]
    cases hphase : w.progress.state? with
    | none => exact hw
    | some phase =>
      rw [InPlace, hphase] at hw
      exact (Handshake.queues_step (t := ⟨id, now, millis⟩) openStore hw).own
  | stirs x => exact fun c hmem => hw c (Link.line_onLink x c w.link ▸ hmem)

theorem InPlace.run (hw : w.InPlace id) (es : List Event) :
    (w.run h openStore id es).InPlace id := by
  induction es generalizing w with
  | nil => exact hw
  | cons e es ih => exact ih (hw.step e)

/-- **Nobody stands in line once a handshake has ended.** -/
theorem Follows.line_eq_nil {l₀ : Link} (hw : w.Follows h openStore id l₀) (hplace : w.InPlace id)
    (hended : w.progress.state? = none) (c : Channel) : (w.link.inbox c).line = [] := by
  rw [InPlace, hended] at hplace
  refine List.eq_nil_iff_forall_not_mem.mpr fun other hmem => ?_
  obtain rfl := hw.account.solo c other hmem
  exact nomatch hplace c hmem

end Greeting

/-! ## Calls at once -/

namespace Desk

variable {w : Desk} {id : CallId} {c : Call} {ch : Channel} {h : Handshake}

/-- **Whoever stands in line is in flight and waits there.** -/
def Lined (w : Desk) : Prop :=
  ∀ ch, ∀ id ∈ (w.session.link.inbox ch).line,
    ∃ c, w.calls.lookup id = some c ∧ c.line? = some ch

/-- A call in flight stands in no other line than that of the channel that it waits for. -/
theorem Lined.inPlace (hw : w.Lined) (hcall : w.calls.lookup id = some c) :
    w.session.link.InPlace id c.line? := by
  intro ch hmem
  obtain ⟨c', hcall', hline⟩ := hw ch id hmem
  obtain rfl := Option.some.inj (hcall.symm.trans hcall')
  exact hline

/-- **Whoever stands in a line after an event** stood there before and did not have the turn, or had
it and was told to wait. -/
theorem Lined.mem_line_step (hw : w.Lined) {e : Event}
    (hmem : id ∈ ((w.step e).session.link.inbox ch).line) :
    (e.heeds id = false ∧ id ∈ (w.session.link.inbox ch).line ∧
        (w.step e).calls.lookup id = w.calls.lookup id) ∨
      ∃ t c next, e = .turns t ∧ t.id = id ∧ w.calls.lookup id = some c ∧
        (c.step t w.session w.store).2.2.state? = some next ∧ next.line? = some ch := by
  -- a number under which nothing is in flight stands in no line
  have hother {id' : CallId} (hnone : w.calls.lookup id' = none)
      (hmem : id ∈ (w.session.link.inbox ch).line) : id ≠ id' := by
    rintro rfl
    obtain ⟨c, hcall, -⟩ := hw ch _ hmem
    exact absurd (hcall.symm.trans hnone) (Option.some_ne_none c)
  cases e with
  | begins id' c =>
    rw [Desk.step] at hmem ⊢
    split at hmem
    · next hbegins =>
      rw [if_pos hbegins]
      refine .inl ⟨rfl, hmem, ?_⟩
      rw [List.lookup_cons, beq_false_of_ne (hother hbegins.2 hmem)]
    · next hnot =>
      rw [if_neg hnot]
      exact .inl ⟨rfl, hmem, rfl⟩
  | turns t =>
    rw [Desk.step] at hmem ⊢
    cases hcall : w.calls.lookup t.id with
    | none =>
      rw [hcall] at hmem
      exact .inl ⟨decide_eq_false (hother hcall hmem).symm, hmem, rfl⟩
    | some c =>
      rw [hcall] at hmem
      have hqueues := Call.queues_step (hw.inPlace hcall) w.store
      by_cases heq : id = t.id
      · subst heq
        obtain ⟨next, hnext, hline⟩ := Option.bind_eq_some_iff.mp (hqueues.own ch hmem)
        exact .inr ⟨t, c, next, rfl, rfl, hcall, hnext, hline⟩
      · exact .inl ⟨decide_eq_false (Ne.symm heq), (hqueues.others ch id heq).mp hmem,
          lookup_turn_of_ne heq c w⟩
  | drops id' =>
    rw [Desk.step] at hmem ⊢
    cases hcall : w.calls.lookup id' with
    | none =>
      rw [hcall] at hmem
      exact .inl ⟨decide_eq_false (hother hcall hmem).symm, hmem, rfl⟩
    | some c =>
      rw [hcall] at hmem
      have hmem : id ∈ ((w.session.link.abandon id').inbox ch).line := hmem
      rw [Link.inbox_abandon] at hmem
      have hne : id ≠ id' := by
        rintro rfl
        exact Inbox.not_mem_line_leave _ _ hmem
      exact .inl ⟨decide_eq_false hne.symm, Inbox.mem_line_leave hmem,
        lookup_erase_of_ne hne c w.calls⟩
  | stirs x => exact .inl ⟨rfl, Link.line_onLink x ch _ ▸ hmem, rfl⟩

theorem Lined.step (hw : w.Lined) (hvigil : w.Vigil) (e : Event) : (w.step e).Lined := by
  intro ch id hmem
  obtain ⟨-, hmem, hlookup⟩ | ⟨t, c, next, rfl, rfl, hcall, hnext, hline⟩ := hw.mem_line_step hmem
  · exact hlookup ▸ hw ch id hmem
  · rw [Desk.step, hcall]
    exact ⟨next, (hvigil.lookup_turn t (mem_of_lookup hcall)).trans hnext, hline⟩

theorem Reached.lined (hw : Reached h w) : w.Lined := by
  induction hw with
  | @starts openStore id l greeting config opened lines new ready b =>
    have hfollows : Greeting.Follows h openStore id l _ :=
      (Greeting.Follows.start lines new).run opened greeting
    have hplace : (Greeting.start l).InPlace id := fun c hmem =>
      absurd (lines c ▸ hmem) List.not_mem_nil
    intro ch other hmem
    have hline := hfollows.line_eq_nil (hplace.run greeting) (by rw [ready]; rfl) ch
    exact absurd (hline ▸ hmem) List.not_mem_nil
  | goes hbefore hsuits ih => exact ih.step hbefore.vigil _

end Desk

end SimRelay
