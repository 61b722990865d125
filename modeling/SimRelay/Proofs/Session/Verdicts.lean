import SimRelay.Proofs.Session.Undisturbed

/-!
# Proofs/Session/Verdicts — what a call is told, whoever else reads

Where other calls read the same channel, a call may have to stand in line, and nothing can be said
beforehand of the frame that it will get.  What it is told still says what has happened
(`Session.hear_tells`): a message was a frame; nothing was a frame that cannot be read, or the time
is up; and a call fails only on a client that leaves or a channel that is broken
(`Heard.Tells.failure`).
-/

namespace SimRelay

namespace Link

/-- What a reading says is so: the time is up or not, and what it fails with is there. -/
def Reading.Holds (expired : Bool) (broken : LinkError → Prop) : Reading → Prop
  | .frame _ => True
  | .failure e => broken e
  | .timedOut => expired = true
  | .inLine => expired = false

/-- **What a call reads is so, whoever else reads**: a reading fails only on a link that closes or
where a failure is due. -/
theorem read_holds (id : CallId) (expired : Bool) (ch : Channel) (l : Link) :
    (l.read id expired ch).1.Holds expired
      fun e => l.closing = true ∨ (l.inbox ch).prospect = .failure e := by
  have hoffer : ((l.inbox ch).join id).take.1 = (l.inbox ch).prospect := by
    rw [(Inbox.take_spec _).1, Inbox.prospect, Inbox.prospect, Inbox.pending_join,
      Inbox.ending_join]
  unfold read
  split
  · next hclosing => exact .inl hclosing
  · dsimp only
    split
    · split
      · exact trivial
      · next heq =>
        rw [heq] at hoffer
        exact .inr hoffer.symm
      · cases expired
        · exact rfl
        · exact rfl
    · cases expired
      · exact rfl
      · exact rfl

end Link

namespace Session

/-- What a call is told of the frame that its attempt has taken, if it has taken one. -/
inductive Heard.Tells (expired : Bool) : Option ByteArray → Heard → Prop
  | message {body : ByteArray} {m : Message} (spelt : Message.ofBody? body = some m) :
      Tells expired (some body) (.message m)
  /-- The frame cannot be read. -/
  | garbled {body : ByteArray} (unspelt : Message.ofBody? body = none) :
      Tells expired (some body) .nothing
  /-- The time is up. -/
  | late (up : expired = true) : Tells expired none .nothing
  | failure (e : ClientError) : Tells expired none (.failure e)
  | inLine (early : expired = false) : Tells expired none .inLine

variable {s : Session}

/-- **Whoever else reads, what a call is told says what has happened.** -/
theorem hear_tells (t : Turn) (ch : Channel) (begins : Bool) (deadline : Option Instant)
    (s : Session) :
    ∃ body? i, (s.hear t ch begins deadline).2 = { s with link := s.link.setInbox ch i } ∧
      (s.link.inbox ch).Handed body? i ∧
      (s.hear t ch begins deadline).1.Tells (deadline.any fun d => t.now.reached d) body? := by
  unfold hear
  split
  · exact ⟨none, s.link.inbox ch, by rw [Link.setInbox_inbox], Inbox.handed_none rfl rfl,
      .failure _⟩
  · obtain ⟨i, hlink, hhanded, -⟩ :=
      Link.read_spec t.id (deadline.any fun d => t.now.reached d) ch s.link
    have hholds := Link.read_holds t.id (deadline.any fun d => t.now.reached d) ch s.link
    dsimp only
    rw [hlink]
    split
    · next body heq =>
      rw [heq] at hhanded
      refine ⟨some body, i, ?_, hhanded, ?_⟩
      · split <;> rfl
      · split
        · next m hm => exact .message (congrArg Except.toOption hm)
        · next e he => exact .garbled (congrArg Except.toOption he)
    · next e heq =>
      rw [heq] at hhanded
      exact ⟨none, i, rfl, hhanded, .failure _⟩
    · next heq =>
      rw [heq] at hhanded hholds
      exact ⟨none, i, rfl, hhanded, .late hholds⟩
    · next heq =>
      rw [heq] at hhanded hholds
      exact ⟨none, i, rfl, hhanded, .inLine hholds⟩

/-- **A call fails only on a client that leaves or a channel that is broken.** -/
theorem failure_of_hear {t : Turn} {ch : Channel} {begins : Bool} {deadline : Option Instant}
    {e : ClientError} {s' : Session} (h : s.hear t ch begins deadline = (.failure e, s')) :
    s.closed = true ∨ s.link.closing = true ∨ ∃ e', (s.link.inbox ch).prospect = .failure e' := by
  unfold hear at h
  split at h
  · next hclosed => exact .inl hclosed.2
  · have hholds := Link.read_holds t.id (deadline.any fun d => t.now.reached d) ch s.link
    dsimp only at h
    split at h
    · split at h <;> cases h
    · next e' heq =>
      rw [heq] at hholds
      exact .inr (hholds.imp_right fun hprospect => ⟨e', hprospect⟩)
    · cases h
    · cases h

end Session

end SimRelay
