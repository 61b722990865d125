import SimRelay.Proofs.Call.Deadlines

/-!
# Proofs/Call/Wading — a pull among frames that bring nothing

A delivery may lie on the channel behind frames that no call can use.  A pull that comes upon one
of them while it drains stops there, looks at what is kept, and asks; one that comes upon one while
it awaits its answer ends with nothing.  Either way the frame is gone, and what lies behind it is
nearer by one.  So a pull ends with the delivery that it is after, or with nothing and fewer
useless frames before that delivery (`Quest.Lands`), as soon as it is given a round for each frame
and four more (`Quest.Wades.ends`).
-/

namespace SimRelay

/-! ## What a pull leaves of the stream -/

namespace Inbox

variable {i j k : Inbox} {came came' : ByteArray}

/-- Of what was pending and of these bytes that came, whole frames have been taken. -/
structure Spent (came : ByteArray) (i j : Inbox) : Prop where
  ended : j.ended = i.ended
  stream : ∃ row, (∀ body ∈ row, body.size ≤ Frame.maxLength) ∧
    i.pending ++ came = Frame.joined row ++ j.pending

theorem Spent.refl (i : Inbox) : i.Spent .empty i :=
  ⟨rfl, [], fun _ h => absurd h List.not_mem_nil,
    ByteArray.append_empty.trans ByteArray.empty_append.symm⟩

theorem Spent.trans (h : i.Spent came j) (h' : j.Spent came' k) : i.Spent (came ++ came') k := by
  obtain ⟨row, hshort, hstream⟩ := h.stream
  obtain ⟨row', hshort', hstream'⟩ := h'.stream
  refine ⟨h'.ended.trans h.ended, row ++ row', List.forall_mem_append.mpr ⟨hshort, hshort'⟩, ?_⟩
  rw [← ByteArray.append_assoc, hstream, ByteArray.append_assoc, hstream', Frame.joined_append,
    ByteArray.append_assoc]

/-- A frame that is handed out is taken. -/
theorem Handed.spent {body? : Option ByteArray} (h : i.Handed body? j) : i.Spent .empty j :=
  ⟨h.ended, body?.toList, fun body hbody => h.short body (Option.mem_toList.mp hbody),
    ByteArray.append_empty.trans h.pending⟩

/-- **What is left is the rest of the frames**, however much more is to come. -/
theorem Spent.frames (h : i.Spent came j) (more : ByteArray) :
    Frame.ending (j.pending ++ more) = Frame.ending (i.pending ++ came ++ more) ∧
      (Frame.bodies (j.pending ++ more)).length
        ≤ (Frame.bodies (i.pending ++ came ++ more)).length := by
  obtain ⟨row, hshort, hstream⟩ := h.stream
  obtain ⟨hbodies, hending⟩ := Frame.bodies_joined_append (j.pending ++ more) row hshort
  rw [hstream, ByteArray.append_assoc, hbodies, hending, List.length_append]
  exact ⟨rfl, Nat.le_add_left _ _⟩

end Inbox

/-- **Whoever hears alone** leaves the line unless it waits. -/
theorem Session.Ready.hear_line {s : Session} {t : Turn} (h : s.Ready .recv t.id) (begins : Bool)
    (deadline : Option Instant) :
    ∃ heard s', s.hear t .recv begins deadline = (heard, s') ∧
      (∀ late, Ready .recv t.id { s' with late }) ∧
      (heard = .inLine ∧ (deadline.any fun d => t.now.reached d) = false ∨
        (s'.link.inbox .recv).line = []) := by
  by_cases hdue : (s.link.inbox .recv).prospect = .nothing
  · obtain ⟨j, hhear, -, hready, hline⟩ := h.hear begins deadline
    rw [hdue] at hhear
    refine ⟨_, _, hhear, fun late => ⟨hready.active, hready.isOpen, hready.flows, hready.alone⟩, ?_⟩
    cases hup : deadline.any fun d => t.now.reached d with
    | false => exact .inl ⟨rfl, rfl⟩
    | true =>
      refine .inr ?_
      rw [Link.inbox_setInbox, if_pos rfl]
      exact hline hup
  · obtain ⟨j, hhear, hhanded, hline⟩ := hear_due begins deadline h.active h.isOpen h.alone hdue
    have halone : j.Alone t.id := fun other ho => absurd (hline ▸ ho) List.not_mem_nil
    refine ⟨_, _, hhear, fun late => h.setInbox (hhanded.ended.trans h.flows) halone late, .inr ?_⟩
    rw [Link.inbox_setInbox, if_pos rfl]
    exact hline

namespace Pull

open Session (Ready)

variable {s : Session} {t : Turn} {wanted : Wanted} {timeout : Duration} {phase : Phase}

/-- What holds of the session and the progress that a step leaves: nobody reads the inbound channel
but the pull, which stands in line only while it waits. -/
structure Orderly (t : Turn) (r : Session × Progress Failure Phase (Option Message)) : Prop where
  ready : r.1.Ready .recv t.id
  line : (∃ deadline, r.2 = .waits (.listening deadline)) ∨ (r.1.link.inbox .recv).line = []

theorem hearAnswer_orderly (hready : s.Ready .recv t.id) (wanted : Wanted) (begins : Bool)
    (deadline : Instant) : Orderly t (hearAnswer t wanted begins deadline s) := by
  obtain ⟨heard, s', hhear, hready', hline⟩ := hready.hear_line begins (some deadline)
  rw [hearAnswer, hhear]
  have hleft (hleaves : heard ≠ .inLine) : (s'.link.inbox .recv).line = [] :=
    hline.resolve_left fun h => hleaves h.1
  cases heard with
  | inLine => exact ⟨hready' s'.late, .inl ⟨deadline, rfl⟩⟩
  | nothing => exact ⟨hready' s'.late, .inr (hleft fun h => by cases h)⟩
  | failure e => exact ⟨hready' s'.late, .inr (hleft fun h => by cases h)⟩
  | message m =>
    have hgone := hleft fun h => by cases h
    dsimp only
    split
    · exact ⟨hready' s'.late, .inr hgone⟩
    · split
      · exact ⟨hready' s'.late, .inr hgone⟩
      · exact ⟨hready' _, .inr hgone⟩

/-- **A step of a pull that reads alone.** -/
theorem step_orderly (hready : s.Ready .recv t.id)
    (hline : (∃ deadline, phase = .listening deadline) ∨ (s.link.inbox .recv).line = [])
    (wanted : Wanted) (timeout : Duration) : Orderly t (step t wanted timeout phase s) := by
  cases phase with
  | asked deadline => exact hearAnswer_orderly hready wanted true deadline
  | listening deadline => exact hearAnswer_orderly hready wanted false deadline
  | draining =>
    obtain ⟨heard, s', hhear, hready', hline'⟩ := hready.hear_line true (some t.now)
    rw [Turn.any_now] at hline'
    have hleft : (s'.link.inbox .recv).line = [] := hline'.resolve_left fun h => by cases h.2
    rw [step, hhear]
    cases heard with
    | message m =>
      dsimp only
      split
      · exact ⟨hready' _, .inr hleft⟩
      · exact ⟨hready' s'.late, .inr hleft⟩
    | failure e => exact ⟨hready' s'.late, .inr hleft⟩
    | nothing | inLine =>
      dsimp only [Session.takeLate]
      cases s'.late.find? wanted.accepts with
      | none => exact ⟨hready' s'.late, .inr hleft⟩
      | some m => exact ⟨hready' _, .inr hleft⟩
  | asking x =>
    obtain ⟨o, hsession⟩ := s.say_spec t .recv x
    have hleft : (s.link.inbox .recv).line = [] := by
      obtain ⟨deadline, hlistens⟩ | hleft := hline
      · cases hlistens
      · exact hleft
    refine ⟨?_, .inr ?_⟩
    · rw [step]
      dsimp only
      rw [hsession]
      refine hready.of_link (Link.closing_setOutbox ..) ?_ ?_
      · rw [Link.inbox_setOutbox]
      · rw [Link.inbox_setOutbox]
        exact hready.alone
    · rw [step]
      dsimp only
      rw [hsession]
      exact (congrArg Inbox.line (Link.inbox_setOutbox ..)).trans hleft

/-- The delivery that a pull is after can be read. -/
theorem Quarry.spelt {role : Role} {wanted : Wanted} (d : Quarry role wanted) :
    (Message.ofBody? d.body).isSome := by
  cases hspelt : Message.ofBody? d.body with
  | some m => rfl
  | none =>
    have hnone := deliveries_of_unspelt hspelt role.delivery
    exact nomatch d.brings.symm.trans hnone

namespace Quest

variable {q : Quest} {e : Call.Event} {es : List Call.Event}

/-- Nobody reads the inbound channel but the pull, which stands in line only while it waits. -/
structure Alone (q : Quest) : Prop where
  ready : q.session.Ready .recv q.id
  line : (∃ deadline, q.progress.state? = some (.listening deadline)) ∨ q.inbox.line = []

/-- **Whatever happens on an intact channel**, the pull goes on alone, and takes whole frames. -/
theorem Alone.step (h : q.Alone) (he : e.Intact .recv) :
    (q.step e).Alone ∧ q.inbox.Spent (e.bytes .recv) (q.step e).inbox := by
  cases e with
  | stirs x =>
    obtain ⟨hpending, hended, hline⟩ := x.inbox_onLink he h.ready.flows
    refine ⟨⟨Stir.ready_onLink he h.ready, h.line.imp_right hline.trans⟩,
      hended.trans h.ready.flows.symm, [], fun _ h => absurd h List.not_mem_nil, ?_⟩
    exact hpending.symm.trans ByteArray.empty_append.symm
  | turns now millis =>
    change _ ∧ q.inbox.Spent .empty _
    cases hstate : q.progress.state? with
    | none =>
      rw [step_turns_of_ended hstate]
      exact ⟨h, .refl _⟩
    | some phase =>
      have hline : (∃ deadline, phase = .listening deadline) ∨ q.inbox.line = [] := by
        refine h.line.imp_left fun ⟨deadline, hlistens⟩ => ⟨deadline, ?_⟩
        exact Option.some.inj (hstate.symm.trans hlistens)
      have horderly := step_orderly (t := ⟨q.id, now, millis⟩) h.ready hline q.wanted q.timeout
      obtain ⟨body?, -, hhanded⟩ := q.turns_dealt now millis
      refine ⟨?_, hhanded.spent⟩
      rw [step_turns hstate]
      refine ⟨horderly.ready, horderly.line.imp_left ?_⟩
      rintro ⟨deadline, hwaits⟩
      exact ⟨deadline, congrArg Progress.state? hwaits⟩

theorem Alone.run (h : q.Alone) (hes : ∀ e ∈ es, e.Intact .recv) :
    (q.run es).Alone ∧ q.inbox.Spent (Call.arrivals .recv es) (q.run es).inbox := by
  induction es generalizing q with
  | nil => exact ⟨h, .refl _⟩
  | cons e es ih =>
    obtain ⟨he, hrest⟩ := List.forall_mem_cons.mp hes
    obtain ⟨hstep, hspent⟩ := h.step he
    obtain ⟨hrun, hspent'⟩ := ih hstep hrest
    exact ⟨hrun, hspent.trans hspent'⟩

/-- Behind a pull that has ended nobody stands in line. -/
theorem Alone.nobody (h : q.Alone) (hended : q.progress.state? = none) : q.inbox.line = [] :=
  h.line.resolve_left fun ⟨_, hlistens⟩ => nomatch hended.symm.trans hlistens

/-! ## Among useless frames -/

variable {role : Role} {wanted : Wanted} {d : Quarry role wanted} {n : Nat}

/-- A pull has ended: with what it was after; with nothing, and with fewer useless frames than this
before it; or because its deadline cannot be represented. -/
def Lands (d : Quarry role wanted) (n : Nat) (q : Quest) : Prop :=
  q.progress = .ends (.ok (some d.message)) ∨
    ∃ others, (∀ m ∈ others, ¬ wanted.accepts m) ∧ q.Concludes d others n .empty

/-- How a pull fares whose delivery lies on the channel, behind no more useless frames than this. -/
inductive Wades (d : Quarry role wanted) (n : Nat) (q : Quest) : Prop
  /-- It drains, and has not come to the delivery. -/
  | seeks {front : List ByteArray} (sound : q.Sound role wanted)
      (drains : q.progress.state? = some .draining)
      (ahead : q.inbox.Ahead (front ++ [d.body]) .empty)
      (unwanted : ∀ m ∈ q.session.late ++ deliveries role.delivery front, ¬ wanted.accepts m)
      (few : front.countP (Message.useless role.delivery) ≤ n)
  /-- It drains, and the delivery is kept. -/
  | holds (sound : q.Sound role wanted) (drains : q.progress.state? = some .draining)
      (oldest : q.session.late.find? wanted.accepts = some d.message)
  /-- It has come upon a useless frame and looked in vain. -/
  | fares {others : List Message} {k : Nat} (unwanted : ∀ m ∈ others, ¬ wanted.accepts m)
      (fares : q.Fares d others k .empty) (fewer : k < n)
  | gets (ended : q.progress = .ends (.ok (some d.message)))

/-- **A turn of a pull that drains** where no failure is due. -/
theorem Sound.drained (h : q.Sound role wanted) (hdrains : q.progress.state? = some .draining)
    (hgoes : ∀ e, q.inbox.prospect ≠ .failure e) (now : Instant) (millis : Nat) :
    let q' := q.step (.turns now millis)
    q'.Sound role wanted ∧ q.inbox.Handed q.inbox.prospect.body? q'.inbox ∧
      Drained wanted (wanted.request role.originator) role q.session.late
        q.inbox.prospect.body? q'.progress q'.session.late := by
  have hreads := drained_step (t := ⟨q.id, now, millis⟩) h.ready hgoes wanted q.timeout
  rw [Session.originator, h.plays] at hreads
  exact h.read now millis hdrains hreads

/-- **…which has not come to the delivery**: it gets nearer to it, comes to it, or has looked in
vain at a frame that is useless. -/
theorem Sound.seek (h : q.Sound role wanted) (hdrains : q.progress.state? = some .draining)
    {front : List ByteArray} (hahead : q.inbox.Ahead (front ++ [d.body]) .empty)
    (hunwanted : ∀ m ∈ q.session.late ++ deliveries role.delivery front, ¬ wanted.accepts m)
    (hfew : front.countP (Message.useless role.delivery) ≤ n) (now : Instant) (millis : Nat) :
    (q.step (.turns now millis)).Wades d n := by
  obtain ⟨hkept, hcoming⟩ := List.forall_mem_append.mp hunwanted
  cases front with
  | nil =>
    obtain ⟨hgoes, hfirst⟩ := hahead.first h.ready.flows
    have hbody : q.inbox.prospect.body? = some d.body := hfirst.resolve_right fun h => h.2 rfl
    obtain ⟨hsound, -, hmakes⟩ := h.drained hdrains hgoes now millis
    rw [hbody] at hmakes
    generalize q.step (.turns now millis) = q' at hsound hmakes ⊢
    generalize hprogress : q'.progress = progress at hmakes
    generalize hlate : q'.session.late = kept at hmakes
    cases hmakes with
    | drains spelt =>
      refine .holds hsound (hprogress ▸ rfl) ?_
      rw [hlate, d.brings, List.find?_append, List.find?_eq_none.mpr hkept]
      simp [d.fits]
    | finds unspelt oldest => exact absurd unspelt (Option.isSome_iff_ne_none.mp d.spelt)
    | asks unspelt nothing => exact absurd unspelt (Option.isSome_iff_ne_none.mp d.spelt)
  | cons body front =>
    obtain ⟨hgoes, hfirst⟩ := hahead.first h.ready.flows
    have hbody : q.inbox.prospect.body? = some body := hfirst.resolve_right fun h => h.2 rfl
    obtain ⟨hsound, hhanded, hmakes⟩ := h.drained hdrains hgoes now millis
    rw [hbody] at hmakes hhanded
    generalize q.step (.turns now millis) = q' at hsound hhanded hmakes ⊢
    have hahead' : q'.inbox.Ahead (front ++ [d.body]) .empty := hahead.taken hhanded
    rw [deliveries_cons] at hunwanted hcoming
    generalize hprogress : q'.progress = progress at hmakes
    generalize hlate : q'.session.late = kept at hmakes
    cases hmakes with
    | drains spelt =>
      refine .seeks hsound (hprogress ▸ rfl) hahead' ?_ ?_
      · rw [hlate, List.append_assoc]
        exact hunwanted
      · exact Nat.le_trans (List.sublist_cons_self body front).countP_le hfew
    | @finds _ m unspelt oldest =>
      exact absurd (List.find?_some oldest) (hkept m (List.mem_of_find?_eq_some oldest))
    | asks unspelt nothing =>
      have hnone : deliveries role.delivery [body] = [] := deliveries_of_unspelt unspelt _
      have huseless : Message.useless role.delivery body := List.isEmpty_iff.mpr hnone
      rw [hnone, List.nil_append] at hunwanted
      refine .fares hunwanted (.pursues ⟨hsound, congrArg Progress.state? hprogress, ?_, hahead',
        hlate ▸ rfl⟩ (Nat.le_refl _)) ?_
      · exact ⟨_, _, rfl, Outbox.holds_self hsound.works.tidy⟩
      · rw [List.countP_cons_of_pos huseless] at hfew
        exact hfew

/-- **…which has kept the delivery**: it finds it when it has drained. -/
theorem Sound.hold (h : q.Sound role wanted) (hdrains : q.progress.state? = some .draining)
    (holdest : q.session.late.find? wanted.accepts = some d.message)
    (hgoes : ∀ e, q.inbox.prospect ≠ .failure e) (now : Instant) (millis : Nat) :
    (q.step (.turns now millis)).Wades d n := by
  obtain ⟨hsound, -, hmakes⟩ := h.drained hdrains hgoes now millis
  generalize q.step (.turns now millis) = q' at hsound hmakes ⊢
  generalize q.inbox.prospect.body? = body? at hmakes
  generalize hprogress : q'.progress = progress at hmakes
  generalize hlate : q'.session.late = kept at hmakes
  cases hmakes with
  | drains spelt =>
    refine .holds hsound (hprogress ▸ rfl) ?_
    rw [hlate, List.find?_append, holdest]
    rfl
  | finds unspelt oldest =>
    obtain rfl := Option.some.inj (holdest.symm.trans oldest)
    exact .gets hprogress
  | asks unspelt nothing =>
    exact absurd (List.find?_some holdest) (nothing _ (List.mem_of_find?_eq_some holdest))

/-- A pull that drains on has taken a frame. -/
theorem Sound.drains_on (h : q.Sound role wanted) (hdrains : q.progress.state? = some .draining)
    (hgoes : ∀ e, q.inbox.prospect ≠ .failure e) {now : Instant} {millis : Nat}
    (hnext : (q.step (.turns now millis)).progress.state? = some .draining) :
    (Frame.bodies (q.step (.turns now millis)).inbox.pending).length
      < (Frame.bodies q.inbox.pending).length := by
  obtain ⟨-, hhanded, hmakes⟩ := h.drained hdrains hgoes now millis
  have hframes := (hhanded.frames .empty).1
  rw [ByteArray.append_empty, ByteArray.append_empty] at hframes
  rw [hframes, List.length_append]
  generalize q.step (.turns now millis) = q' at hmakes hnext ⊢
  generalize q.inbox.prospect.body? = body? at hmakes ⊢
  generalize hprogress : q'.progress = progress at hmakes hnext
  generalize q'.session.late = kept at hmakes
  cases hmakes with
  | drains spelt => exact Nat.lt_add_of_pos_left Nat.one_pos
  | finds unspelt oldest => cases hnext
  | asks unspelt nothing => cases hnext

section Wading

variable (hsayable : (wanted.request role.originator).Sayable)
include hsayable

/-- **Whatever happens, a pull wades on**, where the stream is one of frames. -/
theorem Wades.step (h : q.Wades d n) (he : e.Intact .recv) {more : ByteArray}
    (hwhole : Frame.ending (q.inbox.pending ++ more) = .needMore) : (q.step e).Wades d n := by
  have hintact : ∀ e' ∈ [e], e'.Intact .recv := List.forall_mem_singleton.mpr he
  cases e with
  | stirs x =>
    cases h with
    | seeks sound drains ahead unwanted few =>
      exact .seeks (sound.stir he) drains (ahead.stays he sound.ready.flows) unwanted few
    | holds sound drains oldest => exact .holds (sound.stir he) drains oldest
    | fares unwanted fares fewer =>
      exact .fares unwanted (fares.run unwanted hsayable hintact) fewer
    | gets ended => exact .gets ended
  | turns now millis =>
    cases h with
    | seeks sound drains ahead unwanted few => exact sound.seek drains ahead unwanted few now millis
    | holds sound drains oldest =>
      exact sound.hold drains oldest (Inbox.whole_prospect sound.ready.flows hwhole) now millis
    | fares unwanted fares fewer =>
      exact .fares unwanted (fares.run unwanted hsayable hintact) fewer
    | gets ended =>
      rw [step_turns_of_ended (ended ▸ rfl)]
      exact .gets ended

/-- **…over a whole history.** -/
theorem Wades.run (h : q.Wades d n) (halone : q.Alone) (hes : ∀ e ∈ es, e.Intact .recv)
    {more : ByteArray}
    (hwhole : Frame.ending (q.inbox.pending ++ Call.arrivals .recv es ++ more) = .needMore) :
    (q.run es).Wades d n := by
  induction es generalizing q with
  | nil => exact h
  | cons e es ih =>
    obtain ⟨he, hrest⟩ := List.forall_mem_cons.mp hes
    obtain ⟨halone', hspent⟩ := halone.step he
    change Frame.ending (q.inbox.pending ++ (e.bytes .recv ++ Call.arrivals .recv es) ++ more)
      = .needMore at hwhole
    have hstep : (q.step e).Wades d n :=
      h.step hsayable he ((congrArg Frame.ending ByteArray.append_assoc.symm).trans hwhole)
    refine ih hstep halone' hrest ?_
    rw [ByteArray.append_assoc, (hspent.frames _).1, ← hwhole]
    simp only [ByteArray.append_assoc]

/-- A pull that fares on lands when it is given as many rounds as it needs. -/
theorem Fares.lands {others : List Message} {k : Nat} (h : q.Fares d others k .empty)
    (hunwanted : ∀ m ∈ others, ¬ wanted.accepts m) (hfewer : k < n) {turns : List (Instant × Nat)}
    (hturns : (Frame.bodies q.inbox.pending).length + 3 ≤ turns.length) :
    (q.run (Call.rounds turns)).Lands d n :=
  .inr ⟨others, hunwanted, (h.ends hunwanted hsayable hturns).mono (Nat.le_of_lt hfewer)⟩

omit hsayable in
theorem lands_of_ended (h : q.progress = .ends (.ok (some d.message))) (es : List Call.Event) :
    (q.run es).Lands d n :=
  .inl ((ended_run (h ▸ rfl) es).trans h)

omit hsayable in
/-- What the writer does leaves the inbound channel as it is. -/
theorem inbox_flush (q : Quest) :
    (q.step (.stirs (.writes .recv .flushes))).inbox = q.inbox := by
  change (q.session.link.setOutbox .recv _).inbox .recv = _
  exact Link.inbox_setOutbox ..

/-- **A round of a pull that drains** takes a frame, and it drains on; or it has looked. -/
theorem Wades.round (h : q.Wades d n) (hsound : q.Sound role wanted)
    (hdrains : q.progress.state? = some .draining) {more : ByteArray}
    (hwhole : Frame.ending (q.inbox.pending ++ more) = .needMore) (now : Instant) (millis : Nat) :
    let q' := q.run [.stirs (.writes .recv .flushes), .turns now millis]
    q'.Wades d n ∧ Frame.ending (q'.inbox.pending ++ more) = .needMore ∧
      (Frame.bodies q'.inbox.pending).length ≤ (Frame.bodies q.inbox.pending).length ∧
      (q'.progress.state? = some .draining →
        (Frame.bodies q'.inbox.pending).length < (Frame.bodies q.inbox.pending).length) := by
  have hflush : Call.Event.Intact .recv (.stirs (.writes .recv .flushes)) := .inr rfl
  have hsound' := hsound.stir (x := .writes .recv .flushes) hflush
  have hwades := h.step hsayable hflush hwhole
  have hsteps : q.run [.stirs (.writes .recv .flushes), .turns now millis]
      = (q.step (.stirs (.writes .recv .flushes))).step (.turns now millis) := rfl
  rw [hsteps, ← q.inbox_flush]
  rw [← q.inbox_flush] at hwhole
  have hgoes := Inbox.whole_prospect hsound'.ready.flows hwhole
  obtain ⟨-, hhanded, -⟩ := hsound'.drained hdrains hgoes now millis
  obtain ⟨hending, -⟩ := hhanded.spent.frames more
  obtain ⟨-, hle⟩ := hhanded.spent.frames .empty
  simp only [ByteArray.append_empty] at hending hle
  exact ⟨hwades.step (e := .turns now millis) hsayable trivial hwhole, hending.trans hwhole, hle,
    hsound'.drains_on hdrains hgoes⟩

/-- **A pull lands** when it is given a round for each frame that is there and four more. -/
theorem Wades.ends (h : q.Wades d n) {more : ByteArray}
    (hwhole : Frame.ending (q.inbox.pending ++ more) = .needMore) {turns : List (Instant × Nat)}
    (hturns : (Frame.bodies q.inbox.pending).length + 4 ≤ turns.length) :
    (q.run (Call.rounds turns)).Lands d n := by
  induction turns generalizing q with
  | nil => exact absurd hturns (by simp)
  | cons turn turns ih =>
    obtain ⟨now, millis⟩ := turn
    have hdrains (hsound : q.Sound role wanted) (hdrains : q.progress.state? = some .draining) :
        (q.run (Call.rounds ((now, millis) :: turns))).Lands d n := by
      have hround := h.round hsayable hsound hdrains hwhole now millis
      rw [List.length_cons] at hturns
      change ((q.run [.stirs (.writes .recv .flushes), .turns now millis]).run
        (Call.rounds turns)).Lands d n
      generalize q.run [.stirs (.writes .recv .flushes), .turns now millis] = q' at hround ⊢
      obtain ⟨hnext, hwhole', hle, hless⟩ := hround
      cases hnext with
      | seeks sound drains ahead unwanted few =>
        have hdrained := hless drains
        exact ih (.seeks sound drains ahead unwanted few) hwhole' (by omega)
      | holds sound drains oldest =>
        have hdrained := hless drains
        exact ih (.holds sound drains oldest) hwhole' (by omega)
      | fares unwanted fares fewer => exact fares.lands hsayable unwanted fewer (by omega)
      | gets ended => exact lands_of_ended ended _
    cases h with
    | seeks sound drains => exact hdrains sound drains
    | holds sound drains => exact hdrains sound drains
    | fares unwanted fares fewer =>
      exact fares.lands hsayable unwanted fewer (Nat.le_of_succ_le hturns)
    | gets ended => exact lands_of_ended ended _

end Wading

end Quest

end Pull

end SimRelay
