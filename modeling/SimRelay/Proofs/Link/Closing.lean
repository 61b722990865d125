import SimRelay.Proofs.Call.Episode
import SimRelay.Proofs.Link.Relaying

/-!
# Proofs/Link/Closing — a link that is being closed comes to be shut

A link is closed once: whoever begins to close it shuts its channels one after the other
(`Closing.Stands`), and where nobody else stands in line none of this waits (`close_alone`).  At the
end the link is shut (`Link.Shut`).

Nothing else closes a link or opens it again: reading, writing, going away and what goes on around
it leave it as open as it was (`Link.Steady`).
-/

namespace SimRelay

namespace Link

variable {l l' l'' : Link} {id : CallId} {ch : Channel}

/-! ## As open as it was -/

/-- No channel is shut or closed in between, or opened again. -/
structure Steady (l l' : Link) : Prop where
  closing : l'.closing = l.closing
  shut : ∀ c, (l'.outbox c).shut = (l.outbox c).shut

theorem Steady.refl (l : Link) : l.Steady l := ⟨rfl, fun _ => rfl⟩

theorem Steady.trans (h : l.Steady l') (h' : l'.Steady l'') : l.Steady l'' :=
  ⟨h'.closing.trans h.closing, fun c => (h'.shut c).trans (h.shut c)⟩

theorem steady_setInbox (c : Channel) (i : Inbox) (l : Link) : l.Steady (l.setInbox c i) :=
  ⟨closing_setInbox .., fun _ => by rw [outbox_setInbox]⟩

theorem steady_setOutbox {o : Outbox} (h : o.shut = (l.outbox ch).shut) :
    l.Steady (l.setOutbox ch o) := by
  refine ⟨closing_setOutbox .., fun c => ?_⟩
  rw [outbox_setOutbox]
  split
  · next heq => exact heq ▸ h
  · rfl

theorem steady_write (id : CallId) (ch : Channel) (w : Writing) (l : Link) :
    l.Steady (l.write id ch w).1 := by
  unfold write
  cases w with
  | start body =>
    dsimp only
    split
    · exact .refl l
    · split
      · exact .refl l
      · split
        · exact .refl l
        · exact steady_setOutbox (Outbox.shut_enter ..)
  | queueing frame =>
    dsimp only
    split
    · exact steady_setOutbox rfl
    · split
      · next hoffer => exact steady_setOutbox (Outbox.shut_offer hoffer)
      · exact .refl l
  | handed number =>
    dsimp only
    split
    · exact steady_setOutbox rfl
    · exact steady_setOutbox rfl
    · exact .refl l

theorem steady_abandon (id : CallId) (l : Link) : l.Steady (l.abandon id) :=
  ⟨rfl, fun c => by cases c <;> rfl⟩

theorem steady_onLink (x : Stir) (l : Link) : l.Steady (x.onLink l) := by
  refine ⟨Stir.closing_onLink l x, fun c => ?_⟩
  rcases x.outbox_onLink_cases c l with hsame | ⟨a, -, hact⟩
  · rw [hsame]
  · rw [hact]
    exact (Outbox.act_eq a _).2

/-! ## Closing -/

/-- The link is closed, and all its channels are shut for sending. -/
structure Shut (l : Link) : Prop where
  closing : l.closing
  shut : ∀ c, (l.outbox c).shut

theorem Shut.steady (h : l.Shut) (hl : l.Steady l') : l'.Shut :=
  ⟨hl.closing.trans h.closing, fun c => (hl.shut c).trans (h.shut c)⟩

/-- How far the closing has come on the link: what is no longer to be released is shut. -/
def Closing.Stands (l : Link) : Closing → Prop
  | .start => l.closing = false
  | .releasing chs => l.closing ∧ ∀ c, c ∈ chs ∨ (l.outbox c).shut

theorem Closing.Stands.steady {c : Closing} (h : c.Stands l) (hl : l.Steady l') : c.Stands l' := by
  cases c with
  | start => exact hl.closing.trans h
  | releasing chs =>
    exact ⟨hl.closing.trans h.1, fun c => (h.2 c).imp_right (hl.shut c).trans⟩

theorem close_start (hopen : l.closing = false) (id : CallId) :
    l.close id .start = ({ l with closing := true }, .goes (.releasing Channel.all)) := by
  unfold close
  simp [hopen]

/-- Releasing a channel shuts it, whether or not its reader has left. -/
theorem shut_releasing (h : l.closing) {rest : List Channel}
    (hshut : ∀ c, c ∈ ch :: rest ∨ (l.outbox c).shut) (i : Inbox) :
    (Closing.releasing rest).Stands
      ((l.setOutbox ch { l.outbox ch with shut := true }).setInbox ch i) := by
  refine ⟨?_, fun c => ?_⟩
  · rw [closing_setInbox, closing_setOutbox]
    exact h
  · rw [outbox_setInbox, outbox_setOutbox]
    split
    · exact .inr rfl
    · next hne =>
      exact (hshut c).imp_left fun hc => (List.mem_cons.mp hc).resolve_left (Ne.symm hne)

/-- **A step of closing** shuts a channel, or is the last. -/
theorem close_stands {c : Closing} (h : c.Stands l) (id : CallId) :
    (l.close id c).2.Leaves (Closing.Stands (l.close id c).1) ∧
      ∀ r, (l.close id c).2 = .ends r → (l.close id c).1.Shut := by
  cases c with
  | start =>
    rw [close_start h]
    refine ⟨⟨rfl, fun c => .inl ?_⟩, nofun⟩
    cases c <;> decide
  | releasing chs =>
    obtain ⟨hclosing, hshut⟩ := h
    cases chs with
    | nil =>
      exact ⟨trivial, fun _ _ =>
        ⟨hclosing, fun c => (hshut c).resolve_left List.not_mem_nil⟩⟩
    | cons ch rest =>
      dsimp only [close]
      split
      · exact ⟨shut_releasing hclosing hshut _, nofun⟩
      · obtain ⟨hclosing', hshut'⟩ := shut_releasing hclosing hshut
          (((l.setOutbox ch { l.outbox ch with shut := true }).inbox ch).join id)
        exact ⟨⟨hclosing', fun c => (hshut' c).imp_left (List.mem_cons_of_mem ch)⟩,
          nofun⟩

/-- How many steps a closing takes that never waits. -/
def Closing.distance : Closing → Nat
  | .start => Channel.all.length + 2
  | .releasing chs => chs.length + 1

/-- Nobody else stands in line, on any channel. -/
def Solo (id : CallId) (l : Link) : Prop := ∀ c, (l.inbox c).Alone id

theorem Solo.setInbox (h : l.Solo id) {c : Channel} {i : Inbox} (hi : i.Alone id) :
    (l.setInbox c i).Solo id := by
  intro c'
  rw [inbox_setInbox]
  split
  · exact hi
  · exact h c'

theorem Solo.setOutbox (h : l.Solo id) (c : Channel) (o : Outbox) : (l.setOutbox c o).Solo id := by
  intro c'
  rw [inbox_setOutbox]
  exact h c'

theorem Solo.write (h : l.Solo id) (c : Channel) (w : Writing) : (l.write id c w).1.Solo id := by
  obtain ⟨o, ho⟩ := write_spec id c w l
  rw [ho]
  exact h.setOutbox c o

/-- Nobody gets in line by what goes on around. -/
theorem line_onLink (x : Stir) (c : Channel) (l : Link) :
    ((x.onLink l).inbox c).line = (l.inbox c).line := by
  have hset {c' : Channel} {i : Inbox} (hi : i.line = (l.inbox c').line) :
      ((l.setInbox c' i).inbox c).line = (l.inbox c).line := by
    rw [inbox_setInbox]
    split
    · next heq => exact heq ▸ hi
    · rfl
  cases x with
  | arrives c' bytes =>
    refine hset ?_
    unfold Inbox.arrive
    split <;> rfl
  | ends c' => exact hset rfl
  | breaks c' text => exact hset (Inbox.line_breakOff text _)
  | fills c' n => exact hset rfl
  | writes c' a => exact congrArg Inbox.line (inbox_setOutbox ..)
  | shares f => rfl

theorem Solo.onLink (h : l.Solo id) (x : Stir) : (x.onLink l).Solo id := by
  intro c
  rw [Inbox.Alone, line_onLink]
  exact h c

/-- **Where nobody else stands in line, closing does not wait.** -/
theorem close_alone (h : l.Solo id) (c : Closing) :
    (l.close id c).1.Solo id ∧
      ((∃ r, (l.close id c).2 = .ends r) ∨
        ∃ c', (l.close id c).2 = .goes c' ∧ c'.distance < c.distance) := by
  cases c with
  | start =>
    unfold close
    dsimp only
    split
    · exact ⟨h, .inl ⟨_, rfl⟩⟩
    · have hsame : Solo id { l with closing := true } := fun c => h c
      exact ⟨hsame, .inr ⟨_, rfl, Nat.lt_succ_self _⟩⟩
  | releasing chs =>
    cases chs with
    | nil => exact ⟨h, .inl ⟨_, rfl⟩⟩
    | cons ch rest =>
      have hshut := h.setOutbox ch { l.outbox ch with shut := true }
      have hfirst :
          (((l.setOutbox ch { l.outbox ch with shut := true }).inbox ch).join id).line.head?
            = some id := Inbox.firstInLine_of_alone (hshut ch)
      dsimp only [close]
      rw [if_pos hfirst]
      refine ⟨hshut.setInbox fun other ho => ?_, .inr ⟨_, rfl, Nat.lt_succ_self _⟩⟩
      exact absurd ((hshut ch).join.line_leave ▸ ho) List.not_mem_nil

end Link

end SimRelay
