import SimRelay.Proofs.Link.Reading
import SimRelay.Session.Basic

/-!
# Proofs/Session/Hearing — what hearing and saying leave alone

An attempt at hearing takes at most one frame out of one inbox, and what is heard is what that frame
spells (`hear_spec`).  A step of saying touches one outbox (`say_spec`).  Neither touches the
deliveries that are kept; those change only when one is kept or taken (`takeLate_eq_some`).
-/

namespace SimRelay

/-- The message that a body spells, if it spells one. -/
def Message.ofBody? (body : ByteArray) : Option Message := (decode body).toOption

namespace Session

variable {s : Session} {wanted : Message → Bool}

/-- The message that was heard, if one was. -/
def Heard.message? : Heard → Option Message
  | .message m => some m
  | .nothing => none
  | .failure _ => none
  | .inLine => none

/-- **An attempt at hearing takes a frame out of the inbox, or nothing**; what is heard is the
message that the frame spells, and the rest of the session is as it was. -/
theorem hear_spec (t : Turn) (ch : Channel) (begins : Bool) (deadline : Option Instant)
    (s : Session) :
    ∃ body? i, (s.hear t ch begins deadline).2 = { s with link := s.link.setInbox ch i } ∧
      (s.link.inbox ch).Handed body? i ∧
      (s.hear t ch begins deadline).1.message? = body?.bind Message.ofBody? := by
  unfold hear
  split
  · exact ⟨none, s.link.inbox ch, by rw [Link.setInbox_inbox],
      Inbox.handed_none rfl rfl, rfl⟩
  · obtain ⟨i, hlink, hhanded, -⟩ :=
      Link.read_spec t.id (deadline.any fun d => t.now.reached d) ch s.link
    dsimp only
    rw [hlink]
    split
    · next body heq =>
      rw [heq] at hhanded
      refine ⟨some body, i, ?_, hhanded, ?_⟩
      · split <;> rfl
      · split
        · next m hm => exact (congrArg Except.toOption hm).symm
        · next e he => exact (congrArg Except.toOption he).symm
    · next e heq =>
      rw [heq] at hhanded
      exact ⟨none, i, rfl, hhanded, rfl⟩
    · next heq =>
      rw [heq] at hhanded
      exact ⟨none, i, rfl, hhanded, rfl⟩
    · next heq =>
      rw [heq] at hhanded
      exact ⟨none, i, rfl, hhanded, rfl⟩

theorem exists_link_of_hear {t : Turn} {ch : Channel} {begins : Bool} {deadline : Option Instant}
    {heard : Heard} {s' : Session} (h : s.hear t ch begins deadline = (heard, s')) :
    ∃ link, s' = { s with link } := by
  obtain ⟨-, i, hsession, -, -⟩ := s.hear_spec t ch begins deadline
  rw [h] at hsession
  exact ⟨_, hsession⟩

/-- **A step of saying changes the outbox of its channel at most.** -/
theorem say_spec (t : Turn) (ch : Channel) (x : Saying) (s : Session) :
    ∃ o, (s.say t ch x).1 = { s with link := s.link.setOutbox ch o } := by
  have hsame : ∃ o, s = { s with link := s.link.setOutbox ch o } :=
    ⟨s.link.outbox ch, by rw [Link.setOutbox_outbox]⟩
  have hwrite (w : Link.Writing) :
      ∃ o, (s.write t ch w).1 = { s with link := s.link.setOutbox ch o } := by
    obtain ⟨o, ho⟩ := Link.write_spec t.id ch w s.link
    exact ⟨o, by rw [← ho]; rfl⟩
  unfold say
  cases x with
  | fresh m =>
    dsimp only
    split
    · exact hsame
    · split
      · exact hsame
      · exact hwrite _
  | writing w => exact hwrite w

/-! ## Kept deliveries -/

/-- **The delivery that is taken is the oldest that is wanted**, and the others stay as they are. -/
theorem takeLate_eq_some {m : Message} {s' : Session} (h : s.takeLate wanted = some (m, s')) :
    ∃ before after, s.late = before ++ m :: after ∧ wanted m ∧
      (∀ x ∈ before, ¬ wanted x) ∧ s' = { s with late := before ++ after } := by
  obtain ⟨found, hfind, heq⟩ := Option.map_eq_some_iff.mp h
  obtain ⟨rfl, rfl⟩ := Prod.mk.inj heq
  obtain ⟨hwanted, before, after, hlate, hbefore⟩ := List.find?_eq_some_iff_append.mp hfind
  have hnone (x : Message) (hx : x ∈ before) : ¬ wanted x := by simpa using hbefore x hx
  refine ⟨before, after, hlate, hwanted, hnone, ?_⟩
  rw [hlate, List.eraseP_append_right _ hnone, List.eraseP_cons_of_pos hwanted]

theorem takeLate_eq_none (h : s.takeLate wanted = none) : ∀ m ∈ s.late, ¬ wanted m :=
  List.find?_eq_none.mp (Option.map_eq_none_iff.mp h)

end Session

end SimRelay
