import SimRelay.Proofs.Call.Arriving

/-!
# Proofs/Call/Serving — a call in flight is served by the delivery that comes to it

In a history in which nothing comes in but one delivery, a call is followed byte by byte
(`Intake.Follows`).  If it is in flight when the delivery is whole, it is served: it ends with the
delivery whenever it ends (`Intake.Served.run`), and it ends within five turns if the writer keeps
up (`Intake.Served.ends`).
-/

namespace SimRelay

namespace Intake

open Session (Ready Speaks Spoken)

variable {i : Intake} {s : Session} {d : Shipment} {came : ByteArray} {phase : Phase}

/-! ## Until the delivery is whole -/

/-- What may go on around a call to which a delivery is to come: the channel stays in order, and
others leave the entry of its key. -/
structure Allows (stored : Option String) (e : Call.Event) : Prop where
  intact : e.Intact .recv
  spares : ∀ key, stored = some key → e.Spares key

theorem Allows.turns {stored : Option String} (now : Instant) (millis : Nat) :
    Allows stored (.turns now millis) :=
  ⟨trivial, fun _ _ => trivial⟩

/-- A call that began in this session is in flight, and so much of the delivery has come, or it has
ended. -/
structure Follows (i : Intake) (s : Session) (d : Shipment) (came : ByteArray) (w : Episode) :
    Prop where
  alike : s.Alike w.session
  ready : w.session.Ready .recv w.id
  works : (w.session.link.outbox .recv).Works
  lies : w.progress.state? ≠ none ∨ s.role = .simulator → d.Lies w.store
  call : ∀ c, w.progress.state? = some c →
    ∃ phase, c = .intake i phase ∧ phase.At i d came w.session

variable {w : Episode} {e : Call.Event} {es : List Call.Event}

/-- What goes on around a call brings some of what is missing. -/
theorem Phase.At.stir (hat : phase.At i d came s) {x : Stir} (hx : x.Intact .recv)
    (hended : (s.link.inbox .recv).ended = false)
    (hrest : came = Frame.wrap d.body → x.bytes .recv = .empty) :
    phase.At i d (came ++ x.bytes .recv) { s with link := x.onLink s.link } := by
  obtain ⟨hpending, -, -⟩ := Stir.inbox_onLink hx hended
  have hwaits (hw : Waits came s) :
      Waits (came ++ x.bytes .recv) { s with link := x.onLink s.link } :=
    ⟨hw.1, hw.2 ▸ hpending⟩
  have hwhole (hcame : came = Frame.wrap d.body) :
      came ++ x.bytes .recv = Frame.wrap d.body := by
    rw [hrest hcame, ByteArray.append_empty, hcame]
  have hwanted : i.wanted { s with link := x.onLink s.link } = i.wanted s := wanted_congr rfl i
  cases phase with
  | start => exact hwaits hat
  | attending timeout => exact hwaits hat
  | waiting deadline => exact hwaits hat
  | resolving m key => exact ⟨hwhole hat.1, hat.2⟩
  | pulling p =>
    cases p with
    | draining =>
      obtain ⟨hmode, hw | ⟨hcame, hlate, hempty⟩⟩ := hat
      · exact ⟨hmode, .inl (hwaits hw)⟩
      · refine ⟨hmode, .inr ⟨hwhole hcame, hlate, ?_⟩⟩
        rw [hpending, hempty, hrest hcame, ByteArray.append_empty]
    | asking y =>
      obtain ⟨hmode, hw, stream, n, htells⟩ := hat
      exact ⟨hmode, hwaits hw, stream, n, hwanted ▸ Stir.outbox_stays
        (P := fun o => Speaks _ stream n o y) (fun a _ ho => ho.act a) htells⟩
    | asked deadline =>
      obtain ⟨hmode, hw, stream, n, htells⟩ := hat
      exact ⟨hmode, hwaits hw, stream, n, hwanted ▸ Stir.outbox_stays
        (P := Spoken _ stream n) (fun a _ ho => ho.act a) htells⟩
    | listening deadline =>
      obtain ⟨hmode, hw, stream, n, htells⟩ := hat
      exact ⟨hmode, hwaits hw, stream, n, hwanted ▸ Stir.outbox_stays
        (P := Spoken _ stream n) (fun a _ ho => ho.act a) htells⟩

/-- What a step of a call that is followed comes to. -/
theorem Follows.stepped (h : Follows i s d came w) (hexpects : i.Expects s d) {rest : ByteArray}
    (hcame : came ++ rest = Frame.wrap d.body) {now : Instant} {millis : Nat}
    (htimely : w.Timely (.turns now millis))
    (hcall : w.progress.state? = some (.intake i phase)) :
    Stepped i d came ⟨w.id, now, millis⟩ phase w.session
      (i.step ⟨w.id, now, millis⟩ phase w.session w.store) := by
  have hmissing (hpart : came ≠ Frame.wrap d.body) : Frame.split came = .error .needMore := by
    refine Frame.split_of_append_eq_wrap hexpects.short hcame fun hrest => hpart ?_
    rw [← hcame, hrest, ByteArray.append_empty]
  have hlies : d.Lies w.store := h.lies (.inl fun hnone => nomatch hnone.symm.trans hcall)
  obtain ⟨phase', hphase', hat⟩ := h.call _ hcall
  obtain ⟨-, rfl⟩ := Call.intake.inj hphase'
  exact step_stepped (hexpects.alike h.alike) h.ready h.works hlies hmissing (htimely _ hcall) hat

/-- **Whatever happens, the delivery is followed.** -/
theorem Follows.step (h : Follows i s d came w) (hexpects : i.Expects s d) (rest : ByteArray)
    (hcame : came ++ e.bytes .recv ++ rest = Frame.wrap d.body) (he : Allows d.stored e)
    (htimely : w.Timely e) : Follows i s d (came ++ e.bytes .recv) (w.step e) := by
  cases e with
  | stirs x =>
    have halike : s.Alike { w.session with link := x.onLink w.session.link } :=
      h.alike.trans ⟨_, _, rfl⟩
    have hrest (hwhole : came = Frame.wrap d.body) : x.bytes .recv = .empty := by
      have hsize := congrArg ByteArray.size hcame
      rw [ByteArray.size_append, ByteArray.size_append, hwhole] at hsize
      change (Frame.wrap d.body).size + (x.bytes .recv).size + rest.size = _ at hsize
      exact ByteArray.size_eq_zero_iff.mp (by omega)
    refine ⟨halike, Stir.ready_onLink he.intact h.ready, Stir.works_onLink he.intact h.works,
      fun hgoes => (h.lies hgoes).agrees fun key hkey => ?_, fun c hc => ?_⟩
    · exact Stir.Spares.onStore (he.spares key hkey) w.store
    · obtain ⟨phase, rfl, hat⟩ := h.call c hc
      exact ⟨phase, rfl, hat.stir he.intact h.ready.flows hrest⟩
  | turns now millis =>
    change came ++ .empty ++ rest = _ at hcame
    change Follows i s d (came ++ .empty) _
    rw [ByteArray.append_empty] at hcame ⊢
    cases hc : w.progress.state? with
    | none =>
      rw [Episode.step_turns_of_ended hc]
      exact h
    | some c =>
      obtain ⟨phase, rfl, -⟩ := h.call c hc
      have hstep := h.stepped hexpects hcame htimely hc
      have hrole : w.session.role = s.role := by
        obtain ⟨link, late, hsession⟩ := h.alike
        rw [hsession]
      rw [Episode.step_turns hc]
      refine ⟨h.alike.trans hstep.alike, hstep.ready, hstep.works, fun hgoes => ?_,
        fun c' hc' => ?_⟩
      · refine hstep.lies (hgoes.imp (fun hgoes hnone => hgoes ?_) fun hrole' => hrole.trans hrole')
        exact Call.state?_lift_eq_none hnone
      · obtain ⟨phase', hphase', rfl⟩ := Call.of_state?_lift hc'
        exact ⟨phase', rfl, hstep.further.of_state? hphase'⟩

/-- **…over a whole history** in which no more comes than the delivery. -/
theorem Follows.run (h : Follows i s d came w) (hexpects : i.Expects s d) (rest : ByteArray)
    (hcame : came ++ Call.arrivals .recv es ++ rest = Frame.wrap d.body)
    (hes : ∀ e ∈ es, Allows d.stored e) (htimely : w.TimelyAll es) :
    Follows i s d (came ++ Call.arrivals .recv es) (w.run es) := by
  induction es generalizing w came with
  | nil => exact ByteArray.append_empty.symm ▸ h
  | cons e es ih =>
    change came ++ (e.bytes .recv ++ Call.arrivals .recv es) ++ rest = _ at hcame
    change Follows i s d (came ++ (e.bytes .recv ++ Call.arrivals .recv es)) ((w.step e).run es)
    rw [← ByteArray.append_assoc] at hcame ⊢
    have hstep := h.step hexpects (Call.arrivals .recv es ++ rest)
      (by rw [← ByteArray.append_assoc]; exact hcame) (hes e List.mem_cons_self) htimely.1
    exact ih hstep hcame (fun e' he' => hes e' (List.mem_cons_of_mem e he')) htimely.2

/-- The delivery has come whole while the call was in flight: if the call has ended since, then with
the delivery. -/
structure Served (i : Intake) (s : Session) (d : Shipment) (w : Episode) : Prop where
  follows : Follows i s d (Frame.wrap d.body) w
  brought : ∀ result, w.progress.result? = some result →
    result = .ok (.delivery (some (i.brought s.role d)))

/-- **…and if it ends later, then with the delivery all the same**, if nothing else comes. -/
theorem Served.step (h : Served i s d w) (hexpects : i.Expects s d) (he : Allows d.stored e)
    (htimely : w.Timely e) (hquiet : e.bytes .recv = .empty) : Served i s d (w.step e) := by
  have hfollows := h.follows.step hexpects .empty
    (by rw [hquiet, ByteArray.append_empty, ByteArray.append_empty]) he htimely
  rw [hquiet, ByteArray.append_empty] at hfollows
  refine ⟨hfollows, fun result hresult => ?_⟩
  cases e with
  | stirs x => exact h.brought result hresult
  | turns now millis =>
    cases hc : w.progress.state? with
    | none =>
      rw [Episode.step_turns_of_ended hc] at hresult
      exact h.brought result hresult
    | some c =>
      obtain ⟨phase, rfl, -⟩ := h.follows.call c hc
      have hstep := h.follows.stepped hexpects ByteArray.append_empty htimely hc
      have hrole : w.session.role = s.role := by
        obtain ⟨link, late, hsession⟩ := h.follows.alike
        rw [hsession]
      rw [Episode.step_turns hc] at hresult
      change (Call.lift _ _ _).result? = _ at hresult
      rw [Call.result?_lift] at hresult
      obtain ⟨r, hr, rfl⟩ := Option.map_eq_some_iff.mp hresult
      rw [hstep.brings rfl r hr, hrole]
      rfl

theorem Served.run (h : Served i s d w) (hexpects : i.Expects s d)
    (hes : ∀ e ∈ es, Allows d.stored e ∧ e.bytes .recv = .empty) (htimely : w.TimelyAll es) :
    Served i s d (w.run es) := by
  induction es generalizing w with
  | nil => exact h
  | cons e es ih =>
    obtain ⟨⟨he, hquiet⟩, hrest⟩ := List.forall_mem_cons.mp hes
    exact ih (h.step hexpects he htimely.1 hquiet) hrest htimely.2

theorem Phase.distance_pos (late : List Message) (phase : Phase) : 0 < phase.distance late := by
  unfold distance
  split
  · decide
  · split <;> decide
  · omega
  · decide
  · decide
  · decide
  · decide

theorem Phase.distance_le (late : List Message) (phase : Phase) : phase.distance late ≤ 5 := by
  unfold distance
  split
  · decide
  · split <;> decide
  · next x =>
    have hle := x.distance_le
    omega
  · decide
  · decide
  · decide
  · decide

/-! ## Coming to an end -/

end Intake

/-- Turns of a call, before each of which all is written that it has handed over. -/
def Call.rounds (turns : List (Instant × Nat)) : List Event :=
  turns.flatMap fun turn => [.stirs (.writes .recv .flushes), .turns turn.1 turn.2]

theorem Call.forall_mem_rounds {P : Event → Prop} {turns : List (Instant × Nat)}
    (hflush : P (.stirs (.writes .recv .flushes)))
    (hturns : ∀ turn ∈ turns, P (.turns turn.1 turn.2)) :
    ∀ e ∈ rounds turns, P e := by
  intro e he
  obtain ⟨turn, hturn, he⟩ := List.mem_flatMap.mp he
  rcases List.mem_cons.mp he with rfl | he
  · exact hflush
  · rw [List.mem_singleton.mp he]
    exact hturns turn hturn

namespace Intake

variable {i : Intake} {s : Session} {d : Shipment} {w : Episode}

/-- A turn brings a call nearer to its end, if it has nothing left to write. -/
theorem Served.nearer (h : Served i s d w) (hexpects : i.Expects s d)
    (hidle : (w.session.link.outbox .recv).Idle) {now : Instant} {millis : Nat}
    (htimely : w.Timely (.turns now millis)) {phase phase' : Phase}
    (hcall : w.progress.state? = some (.intake i phase))
    (hnext : (w.step (.turns now millis)).progress.state? = some (.intake i phase')) :
    phase'.distance (w.step (.turns now millis)).session.late < phase.distance w.session.late := by
  have hstep := h.follows.stepped hexpects ByteArray.append_empty htimely hcall
  rw [Episode.step_turns hcall] at hnext ⊢
  obtain ⟨phase'', hphase, heq⟩ := Call.of_state?_lift hnext
  obtain ⟨-, rfl⟩ := Call.intake.inj heq
  exact (hstep.nearer rfl hidle).of_state? hphase

/-- The writer can be done with all that there is. -/
theorem Served.flush (h : Served i s d w) (hexpects : i.Expects s d) :
    let w' := w.step (.stirs (.writes .recv .flushes))
    Served i s d w' ∧ (w'.session.link.outbox .recv).Idle := by
  refine ⟨h.step hexpects ⟨.inr rfl, fun _ _ => trivial⟩ trivial rfl, ?_⟩
  change ((w.session.link.setOutbox .recv _).outbox .recv).Idle
  rw [Link.outbox_setOutbox, if_pos rfl]
  exact Outbox.idle_flush h.follows.works.going

/-- **A call to which the delivery has come ends with it** as soon as it is given as many turns as
it needs. -/
theorem Served.ends (h : Served i s d w) (hexpects : i.Expects s d) {turns : List (Instant × Nat)}
    (htimely : w.TimelyAll (Call.rounds turns))
    (hnear : ∀ phase, w.progress.state? = some (.intake i phase) →
      phase.distance w.session.late ≤ turns.length) :
    (w.run (Call.rounds turns)).progress.result?
      = some (.ok (.delivery (some (i.brought s.role d)))) := by
  induction turns generalizing w with
  | nil =>
    have hended : w.progress.state? = none := by
      cases hc : w.progress.state? with
      | none => rfl
      | some c =>
        obtain ⟨phase, rfl, -⟩ := h.follows.call c hc
        exact absurd (hnear phase hc) (Nat.not_le.mpr (phase.distance_pos _))
    obtain ⟨result, hresult⟩ := Progress.exists_result_of_state? hended
    exact hresult.trans (congrArg some (h.brought result hresult))
  | cons turn turns ih =>
    obtain ⟨now, millis⟩ := turn
    obtain ⟨-, hturn, hturns⟩ := htimely
    obtain ⟨hserved, hidle⟩ := h.flush hexpects
    -- what the writer does changes neither the phase of the call nor what is kept
    have hnear' (phase : Phase)
        (hc : (w.step (.stirs (.writes .recv .flushes))).progress.state? = some (.intake i phase)) :
        phase.distance (w.step (.stirs (.writes .recv .flushes))).session.late
          ≤ turns.length + 1 := hnear phase hc
    generalize hw' : w.step (.stirs (.writes .recv .flushes)) = w' at hserved hidle hnear' hturn hturns
    change ((w.step _).run (.turns now millis :: Call.rounds turns)).progress.result? = _
    rw [hw']
    refine ih (hserved.step hexpects (.turns now millis) hturn rfl) hturns ?_
    intro phase' hphase'
    cases hc : w'.progress.state? with
    | none =>
      rw [Episode.step_turns_of_ended hc] at hphase'
      exact absurd (hphase'.symm.trans hc) (Option.some_ne_none _)
    | some c =>
      obtain ⟨phase, rfl, -⟩ := hserved.follows.call c hc
      have hlt := hserved.nearer hexpects hidle hturn hc hphase'
      exact Nat.le_of_lt_succ (Nat.lt_of_lt_of_le hlt (hnear' phase hc))

end Intake

end SimRelay
