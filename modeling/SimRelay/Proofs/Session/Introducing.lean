import SimRelay.Connect.Handshake
import SimRelay.Proofs.Call.Episode
import SimRelay.Proofs.Link.Carrying

/-!
# Proofs/Session/Introducing — a handshake says one thing

A handshake introduces the client and says nothing else, on any channel.  It comes to a session
only when the introduction is on the wire; where it fails, the introduction has been handed over or
it has not (`Handshake.step_said`).
-/

namespace SimRelay

/-! ## What does not change about a link -/

namespace Handshake

variable {h : Handshake} {l : Link}

@[simp] theorem intro_setInbox (h : Handshake) (c : Channel) (i : Inbox) (l : Link) :
    h.intro (l.setInbox c i) = h.intro l := by
  cases c <;> rfl

@[simp] theorem intro_setOutbox (h : Handshake) (c : Channel) (o : Outbox) (l : Link) :
    h.intro (l.setOutbox c o) = h.intro l := by
  cases c <;> rfl

theorem intro_onLink (h : Handshake) (x : Stir) (l : Link) : h.intro (x.onLink l) = h.intro l := by
  cases x with
  | arrives c bytes => exact intro_setInbox ..
  | ends c => exact intro_setInbox ..
  | breaks c text => exact intro_setInbox ..
  | fills c n => exact intro_setInbox ..
  | writes c a => exact intro_setOutbox ..
  | shares f => rfl

end Handshake

theorem Stir.retains_onLink (x : Stir) (l : Link) : l.Retains (x.onLink l) where
  carries hc := Stir.outbox_stays (fun a _ ho => ho.act a) hc
  begins hc := Stir.outbox_stays (fun a _ ho => ho.act a) hc

/-! ## Rows of a handshake -/

/-- Nothing is carried but this row, on the control channel. -/
def Link.Opens (row : List Message) (l : Link) : Prop :=
  ∀ c, (l.outbox c).Carries (if c = .ctrl then row else [])

namespace Link.Opens

variable {row : List Message} {l l' : Link} {m : Message}

theorem of_new (h : ∀ c, l.outbox c = {}) : l.Opens [] := by
  intro c
  rw [h c, ite_self]
  exact .new

theorem retains (h : l.Opens row) (hl : l.Retains l') : l'.Opens row := fun c => hl.carries (h c)

theorem adds (h : l.Opens row) (hl : l.Adds .ctrl m l') : l'.Opens (row ++ [m]) := by
  intro c
  have hcarries := hl.carries (h c)
  by_cases hc : c = .ctrl
  · simpa only [if_pos hc] using hcarries
  · simpa only [if_neg hc] using hcarries

/-- **When a frame has been written, the one message of the row is on the wire.** -/
theorem begins (h : l.Opens [m]) (hwritten : 0 < (l.outbox .ctrl).written) :
    (l.outbox .ctrl).Begins (Frame.wrap m.spelled) := by
  have hwire := (h .ctrl).holds.wire hwritten
  exact ⟨.empty, hwire⟩

end Link.Opens

namespace Handshake

variable {h : Handshake} {l l' : Link} {m : Message} {t : Turn}

/-- How far the introduction is. -/
def Phase.Says (h : Handshake) (m : Message) (l : Link) : Phase → Prop
  | .start => m = .init h.role.originator (h.intro l) ∧ l.Opens []
  | .introducing w => w.Due m ∧ l.Opens (if w.pends then [] else [m])
  | .introduced | .listening _ | .opening _ _ =>
      l.Opens [m] ∧ (l.outbox .ctrl).Begins (Frame.wrap m.spelled)
  | .closing _ _ => l.Opens [] ∨ l.Opens [m]

/-- What holds of the link and the progress that a step of a handshake leaves behind. -/
structure Said (h : Handshake) (m : Message)
    (r : Link × Progress InitFault Phase SessionConfig) : Prop where
  next : r.2.Leaves (Phase.Says h m r.1)
  /-- A session begins when the client has introduced itself. -/
  done : ∀ config, r.2 = .ends (.ok config) →
    r.1.Opens [m] ∧ (r.1.outbox .ctrl).Begins (Frame.wrap m.spelled)
  failed : ∀ fault, r.2 = .ends (.error fault) → r.1.Opens [] ∨ r.1.Opens [m]

/-- A step that does not end the handshake. -/
theorem Said.of_next {phase : Phase} (hphase : phase.Says h m l) : Said h m (l, .goes phase) :=
  ⟨hphase, nofun, nofun⟩

/-- What has been said stays said. -/
theorem Phase.Says.retains {phase : Phase} (hphase : phase.Says h m l) (hl : l.Retains l')
    (hintro : h.intro l' = h.intro l) : phase.Says h m l' := by
  cases phase with
  | start => exact ⟨hintro ▸ hphase.1, hphase.2.retains hl⟩
  | introducing w => exact ⟨hphase.1, hphase.2.retains hl⟩
  | introduced => exact ⟨hphase.1.retains hl, hl.begins hphase.2⟩
  | listening deadline => exact ⟨hphase.1.retains hl, hl.begins hphase.2⟩
  | opening config store => exact ⟨hphase.1.retains hl, hl.begins hphase.2⟩
  | closing c fault => exact hphase.imp (·.retains hl) (·.retains hl)

/-- In every phase, the introduction has been handed over or it has not. -/
theorem Phase.Says.opens {phase : Phase} (hphase : phase.Says h m l) :
    l.Opens [] ∨ l.Opens [m] := by
  cases phase with
  | start => exact .inl hphase.2
  | introducing w =>
    obtain ⟨-, hopens⟩ := hphase
    split at hopens
    · exact .inl hopens
    · exact .inr hopens
  | introduced => exact .inr hphase.1
  | listening deadline => exact .inr hphase.1
  | opening config store => exact .inr hphase.1
  | closing c fault => exact hphase

section Step

variable (hopens : l.Opens [m]) (hbegins : (l.outbox .ctrl).Begins (Frame.wrap m.spelled))
include hopens hbegins

/-- What follows an answer. -/
theorem settle_said (body : ByteArray) : Said h m (l, h.settle body) := by
  unfold settle
  split
  · exact .of_next (.inr hopens)
  · split
    · exact .of_next ⟨hopens, hbegins⟩
    · exact ⟨trivial, fun _ _ => ⟨hopens, hbegins⟩, nofun⟩

theorem hear_said (deadline : Instant) : Said h m (h.hear t deadline l) := by
  have hretains := l.retains_read t.id (t.now.reached deadline) .ctrl
  unfold hear
  split
  · next heq =>
    rw [heq] at hretains
    exact settle_said (hopens.retains hretains) (hretains.begins hbegins) _
  · next heq =>
    rw [heq] at hretains
    exact .of_next (.inr (hopens.retains hretains))
  · next heq =>
    rw [heq] at hretains
    exact .of_next (.inr (hopens.retains hretains))
  · next heq =>
    rw [heq] at hretains
    exact ⟨⟨hopens.retains hretains, hretains.begins hbegins⟩, nofun, nofun⟩

end Step

/-- A step of sending the introduction. -/
theorem introducing_said {w : Link.Writing} (hdue : w.Due m)
    (hopens : l.Opens (if w.pends then [] else [m]))
    (openStore : StoreParams → Except StoreError Unit) :
    Said h m (h.step t openStore (.introducing w) l) := by
  obtain ⟨hadds, hdue'⟩ := l.write_adds t.id .ctrl hdue
  have hok (h : (l.write t.id .ctrl w).2 = .ends (.ok ())) :
      w.pends = false ∧ 0 < ((l.write t.id .ctrl w).1.outbox .ctrl).written := Link.write_ok h
  rw [step]
  dsimp only
  generalize l.write t.id .ctrl w = r at hadds hdue' hok
  obtain ⟨l', progress⟩ := r
  dsimp only at hadds hdue' hok ⊢
  have hopens' : l'.Opens [] ∨ l'.Opens [m] := by
    rcases hadds with ⟨hretains, -⟩ | ⟨hpends, hadds, -⟩
    · have hkept := hopens.retains hretains
      split at hkept
      · exact .inl hkept
      · exact .inr hkept
    · rw [if_pos hpends] at hopens
      exact .inr (hopens.adds hadds)
  -- where the sending goes on, the row is told by how far it is
  have hnext : progress.Leaves fun w' => w'.Due m ∧ l'.Opens (if w'.pends then [] else [m]) := by
    rcases hadds with ⟨hretains, hsame⟩ | ⟨hpends, hadds, hhanded⟩
    · exact hdue'.and (hsame.mono fun w' hw' => hw' ▸ hopens.retains hretains)
    · rw [if_pos hpends] at hopens
      refine hdue'.and (hhanded.mono fun w' hw' => ?_)
      rw [hw']
      exact hopens.adds hadds
  cases progress with
  | waits w' => exact ⟨hnext, nofun, nofun⟩
  | goes w' => exact .of_next hnext
  | ends result =>
    cases result with
    | error e => exact .of_next hopens'
    | ok _ =>
      obtain ⟨hhanded, hwritten⟩ := hok rfl
      rcases hadds with ⟨hretains, -⟩ | ⟨hpends, -, -⟩
      · rw [hhanded] at hopens
        have hkept : l'.Opens [m] := hopens.retains hretains
        exact .of_next ⟨hkept, hkept.begins hwritten⟩
      · exact nomatch hpends.symm.trans hhanded

/-- **A step of a handshake.** -/
theorem step_said (openStore : StoreParams → Except StoreError Unit) {phase : Phase}
    (hphase : phase.Says h m l) : Said h m (h.step t openStore phase l) := by
  cases phase with
  | start =>
    obtain ⟨rfl, hopens⟩ := hphase
    rw [step]
    split
    · exact .of_next (.inl hopens)
    · next hbody => exact .of_next ⟨hbody, hopens⟩
  | introducing w => exact introducing_said hphase.1 hphase.2 openStore
  | introduced => exact hear_said hphase.1 hphase.2 _
  | listening deadline => exact hear_said hphase.1 hphase.2 _
  | opening config store =>
    rw [step]
    split
    · exact ⟨trivial, fun _ _ => hphase, nofun⟩
    · exact .of_next (.inr hphase.1)
  | closing c fault =>
    have hretains := l.retains_close t.id c
    have hopens : (l.close t.id c).1.Opens [] ∨ (l.close t.id c).1.Opens [m] :=
      hphase.imp (·.retains hretains) (·.retains hretains)
    rw [step]
    dsimp only
    generalize l.close t.id c = r at hopens
    obtain ⟨l', progress⟩ := r
    cases progress with
    | waits c' => exact ⟨hopens, nofun, nofun⟩
    | goes c' => exact .of_next hopens
    | ends result =>
      cases result with
      | ok _ => exact ⟨trivial, nofun, fun _ _ => hopens⟩
      | error e => exact nomatch e

end Handshake

end SimRelay
