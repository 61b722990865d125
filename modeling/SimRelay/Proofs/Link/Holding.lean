import SimRelay.Proofs.Call.Episode
import SimRelay.Proofs.Link.Relaying

/-!
# Proofs/Link/Holding — whoever holds a writer lets go of it

A call that writes holds the writer of its channel from the time its frame waits for room until the
frame has been written (`Link.Writing.hold`).  All that a step of a call can do to an outbox, and to
the call's hold on it, is one of seven moves (`Outbox.Handles`).

Nobody takes hold of a channel that is shut (`Handles.hold_le`), and where the writer has nothing
left a turn brings the call that takes it nearer to letting go (`Handles.hold_lt`).  When nobody
holds the writer and all has been written, the stream ends (`Outbox.ended_flush`).
-/

namespace SimRelay

namespace Link.Writing

/-- How many more turns a call holds the writer of its channel for, where the writer gets on. -/
def hold : Writing → Nat
  | .start _ => 0
  | .queueing _ => 2
  | .handed _ => 1

/-- …and a call that may not be writing at all. -/
def holdOf (w : Option Writing) : Nat := w.elim 0 hold

end Link.Writing

/-! ## One outbox -/

namespace Outbox

open Link (Writing)
open Link.Writing (holdOf)

variable {id other : CallId} {w w' : Option Writing} {o o' : Outbox}

/-- **All that a step of a call can do to an outbox**, and to the call's hold on it. -/
inductive Handles (id : CallId) : Option Writing → Outbox → Option Writing → Outbox → Prop
  | rests {w w' : Option Writing} {o : Outbox} (before : holdOf w = 0) (after : holdOf w' = 0) :
      Handles id w o w' o
  | shuts {w w' : Option Writing} {o : Outbox} (before : holdOf w = 0) (after : holdOf w' = 0) :
      Handles id w o w' { o with shut := true }
  | enters {w : Option Writing} {o : Outbox} {frame : ByteArray} (before : holdOf w = 0)
      (unshut : o.shut = false) : Handles id w o (some (.queueing frame)) (o.enter id)
  | queues {o : Outbox} {frame : ByteArray} (full : o.offer frame = none) :
      Handles id (some (.queueing frame)) o (some (.queueing frame)) o
  | offers {o o' : Outbox} {frame : ByteArray} {number : Nat}
      (offer : o.offer frame = some (number, o')) :
      Handles id (some (.queueing frame)) o (some (.handed number)) o'
  | awaits {o : Outbox} {number : Nat} (fate : o.fate number = .underWay) :
      Handles id (some (.handed number)) o (some (.handed number)) o
  | leaves {w w' : Option Writing} {o : Outbox} (before : 0 < holdOf w) (after : holdOf w' = 0) :
      Handles id w o w' (o.leave id)

/-- The number of a frame that was handed over is one that the outbox has given, if its writer has
not stopped. -/
def Numbers (w : Option Writing) (o : Outbox) : Prop :=
  ∀ number, w = some (.handed number) → o.stopped = none → number < o.accepted

theorem numbers_of_hold (h : holdOf w = 0) : Numbers w o := by
  rintro number rfl
  exact absurd h Nat.one_ne_zero

namespace Handles

/-- Whatever a call does, the writer goes on as it did. -/
theorem writer (h : Handles id w o w' o') :
    o'.stopped = o.stopped ∧ o'.ended = o.ended ∧ (o.shut → o'.shut) := by
  cases h with
  | rests | queues | awaits | leaves => exact ⟨rfl, rfl, fun h => h⟩
  | shuts => exact ⟨rfl, rfl, fun _ => rfl⟩
  | enters before unshut =>
    obtain ⟨senders, heq, -⟩ := enter_eq id o
    exact heq ▸ ⟨rfl, rfl, fun h => h⟩
  | offers offer =>
    obtain ⟨-, rfl⟩ := offer_eq offer
    exact ⟨rfl, rfl, fun h => h⟩

/-- Of a call that holds nothing it is all one how far it has come. -/
theorem of_hold (h : Handles id w o w' o') (hw : holdOf w = 0) {v : Option Writing}
    (hv : holdOf v = 0) : Handles id v o w' o' := by
  cases h with
  | rests _ after => exact .rests hv after
  | shuts _ after => exact .shuts hv after
  | enters _ unshut => exact .enters hv unshut
  | queues | offers => exact absurd hw (Nat.succ_ne_zero 1)
  | awaits => exact absurd hw Nat.one_ne_zero
  | leaves before _ => exact absurd hw (Nat.ne_of_gt before)

theorem of_after (h : Handles id w o w' o') (hw' : holdOf w' = 0) {v : Option Writing}
    (hv : holdOf v = 0) : Handles id w o v o' := by
  cases h with
  | rests before _ => exact .rests before hv
  | shuts before _ => exact .shuts before hv
  | enters | queues => exact absurd hw' (Nat.succ_ne_zero 1)
  | offers | awaits => exact absurd hw' Nat.one_ne_zero
  | leaves before _ => exact .leaves before hv

/-- **Who is sending holds the writer**: it is the call that took the step, or another one that was
sending. -/
theorem senders (h : Handles id w o w' o') (hmem : other ∈ o'.senders) :
    (other = id ∧ 0 < holdOf w') ∨
      (other ∈ o.senders ∧ (other = id → holdOf w = 0 ∧ holdOf w' = 0)) := by
  cases h with
  | rests before after => exact .inr ⟨hmem, fun _ => ⟨before, after⟩⟩
  | shuts before after => exact .inr ⟨hmem, fun _ => ⟨before, after⟩⟩
  | enters before unshut =>
    by_cases heq : other = id
    · exact .inl ⟨heq, Nat.two_pos⟩
    · unfold enter at hmem
      split at hmem
      · exact .inr ⟨hmem, fun h => absurd h heq⟩
      · refine .inr ⟨?_, fun h => absurd h heq⟩
        exact (List.mem_append.mp hmem).resolve_right fun h => heq (List.mem_singleton.mp h)
  | queues full =>
    by_cases heq : other = id
    · exact .inl ⟨heq, Nat.two_pos⟩
    · exact .inr ⟨hmem, fun h => absurd h heq⟩
  | offers offer =>
    obtain ⟨-, rfl⟩ := offer_eq offer
    by_cases heq : other = id
    · exact .inl ⟨heq, Nat.one_pos⟩
    · exact .inr ⟨hmem, fun h => absurd h heq⟩
  | awaits fate =>
    by_cases heq : other = id
    · exact .inl ⟨heq, Nat.one_pos⟩
    · exact .inr ⟨hmem, fun h => absurd h heq⟩
  | leaves before after =>
    obtain ⟨hmem, hne⟩ := List.mem_filter.mp hmem
    exact .inr ⟨hmem, fun heq => absurd heq (bne_iff_ne.mp hne)⟩

/-- No number that was given is taken back. -/
theorem accepted_le (h : Handles id w o w' o') : o.accepted ≤ o'.accepted := by
  cases h with
  | rests | shuts | queues | awaits | leaves => exact Nat.le_refl _
  | enters before unshut =>
    obtain ⟨senders, heq, -⟩ := enter_eq id o
    exact heq ▸ Nat.le_refl _
  | offers offer =>
    obtain ⟨-, rfl⟩ := offer_eq offer
    simp [accepted]

theorem numbers (h : Handles id w o w' o') (hw : Numbers w o) : Numbers w' o' := by
  cases h with
  | rests _ after | shuts _ after | leaves _ after => exact numbers_of_hold after
  | enters | queues =>
    rintro number heq
    cases Option.some.inj heq
  | offers offer =>
    obtain ⟨hnumber, rfl⟩ := offer_eq offer
    rintro number heq -
    cases Option.some.inj heq
    rw [hnumber]
    simp [accepted]
  | awaits fate => exact hw

/-- **Nobody takes hold of a channel that is shut.** -/
theorem hold_le (h : Handles id w o w' o') (hshut : o.shut) : holdOf w' ≤ holdOf w := by
  cases h with
  | rests _ after | shuts _ after | leaves _ after => exact after ▸ Nat.zero_le _
  | enters _ unshut => exact absurd (hshut.symm.trans unshut) Bool.true_eq_false.mp
  | queues | awaits => exact Nat.le_refl _
  | offers => exact Nat.le_succ 1

/-- **Where the writer has nothing left, a turn brings a call nearer to letting go.** -/
theorem hold_lt (h : Handles id w o w' o') (hshut : o.shut) (hidle : o.Idle) (hw : Numbers w o)
    (hold : 0 < holdOf w) : holdOf w' < holdOf w := by
  cases h with
  | rests before _ | shuts before _ => exact absurd before (Nat.ne_of_gt hold)
  | enters _ unshut => exact absurd (hshut.symm.trans unshut) Bool.true_eq_false.mp
  | queues full =>
    -- there is room in an empty queue
    unfold offer at full
    rw [hidle.queue, if_pos (by decide)] at full
    exact absurd full (Option.some_ne_none _)
  | offers => exact Nat.one_lt_two
  | awaits fate =>
    -- the frame is among those that have been written
    obtain ⟨hgoing, hle⟩ := le_of_fate fate
    have hlt := hw _ rfl hgoing
    rw [accepted, hidle.queue, hidle.hand] at hlt
    exact absurd hlt (Nat.not_lt.mpr hle)
  | leaves _ after => exact after ▸ hold

/-- …and a call that has no hold leaves the writer with nothing. -/
theorem idle (h : Handles id w o w' o') (hshut : o.shut) (hidle : o.Idle)
    (hsame : holdOf w' = holdOf w) (hw : Numbers w o) : o'.Idle := by
  rcases Nat.eq_zero_or_pos (holdOf w) with hnone | hold
  · cases h with
    | rests | shuts => exact ⟨hidle.queue, hidle.hand⟩
    | enters _ unshut => exact absurd (hshut.symm.trans unshut) Bool.true_eq_false.mp
    | queues | offers => exact absurd hnone (Nat.succ_ne_zero 1)
    | awaits => exact absurd hnone Nat.one_ne_zero
    | leaves before _ => exact absurd hnone (Nat.ne_of_gt before)
  · exact absurd hsame (Nat.ne_of_lt (h.hold_lt hshut hidle hw hold))

end Handles

/-! ### What the writer does -/

/-- A writer that goes on after an act went on before it, with as many frames. -/
theorem going_of_act (a : Act) (hgoing : (o.act a).stopped = none) :
    o.stopped = none ∧ (o.act a).accepted = o.accepted := by
  have hstopped : o.stopped = none := by
    refine Decidable.byContradiction fun hstopped => absurd hgoing ?_
    have hfinish {o : Outbox} (h : o.stopped ≠ none) : o.finish.stopped ≠ none := by
      unfold finish
      split <;> exact h
    have hpush (n : Nat) : (o.push n).stopped ≠ none := (stream_push n o).2.2 ▸ hstopped
    cases a with
    | picks => exact (stream_pick o).2.2 ▸ hstopped
    | pushes n => exact hpush n
    | fails text =>
      change (o.fail text).stopped ≠ none
      unfold fail
      split
      · exact hstopped
      · exact Option.some_ne_none text
    | finishes => exact hfinish hstopped
    | flushes =>
      change o.flush.stopped ≠ none
      unfold flush
      refine hfinish ?_
      cases o.inHand with
      | none =>
        dsimp only
        split <;> exact hstopped
      | some frame =>
        dsimp only
        split <;> exact hpush _
  refine ⟨hstopped, ?_⟩
  by_cases ha : a.works
  · exact (stream_act ha hstopped).2.1
  · obtain ⟨text, rfl⟩ : ∃ text, a = .fails text := by
      cases a with
      | fails text => exact ⟨text, rfl⟩
      | picks | pushes | finishes | flushes => exact absurd rfl ha
    change (o.fail text).stopped = none at hgoing
    change (o.fail text).accepted = o.accepted
    unfold fail at hgoing ⊢
    split at hgoing
    · rfl
    · exact absurd hgoing (Option.some_ne_none text)

theorem Numbers.act (h : Numbers w o) (a : Act) : Numbers w (o.act a) := by
  intro number hw hgoing
  obtain ⟨hbefore, haccepted⟩ := going_of_act a hgoing
  exact haccepted ▸ h number hw hbefore

/-- The stream has not ended, or the channel is shut. -/
def Lasts (o : Outbox) : Prop := o.ended → o.shut

theorem Lasts.act (h : o.Lasts) (a : Act) : (o.act a).Lasts := by
  intro hended
  cases hbefore : o.ended with
  | false => exact (ended_act a hbefore hended).shut
  | true => exact (act_eq a o).2.trans (h hbefore)

theorem Handles.lasts (h : Handles id w o w' o') (ho : o.Lasts) : o'.Lasts := by
  obtain ⟨-, hended, hshut⟩ := h.writer
  exact fun hafter => hshut (ho (hended ▸ hafter))

theorem Idle.act (h : o.Idle) (hgoing : o.stopped = none) (a : Act) : (o.act a).Idle := by
  have hfinish : o.finish.Idle := by
    unfold finish
    split <;> exact ⟨h.queue, h.hand⟩
  cases a with
  | picks =>
    change o.pick.Idle
    unfold pick
    rw [h.hand, hgoing, h.queue]
    exact h
  | pushes n =>
    change (o.push n).Idle
    unfold push
    rw [h.hand]
    exact h
  | fails text =>
    change (o.fail text).Idle
    unfold fail
    rw [h.hand]
    exact h
  | finishes => exact hfinish
  | flushes => exact idle_flush hgoing

/-- A stream that has ended stays so. -/
theorem ended_of_act (h : o.ended) (a : Act) : (o.act a).ended := by
  have hfinish {o : Outbox} (h : o.ended) : o.finish.ended := by
    unfold finish
    split
    · rfl
    · exact h
  have hpush (n : Nat) : (o.push n).ended := by
    unfold push
    split
    · exact h
    · split <;> exact h
  cases a with
  | picks =>
    change o.pick.ended
    unfold pick
    split <;> exact h
  | pushes n => exact hpush n
  | fails text =>
    change (o.fail text).ended
    unfold fail
    split <;> exact h
  | finishes => exact hfinish h
  | flushes =>
    change o.flush.ended
    unfold flush
    refine hfinish ?_
    cases o.inHand with
    | none =>
      dsimp only
      split <;> exact h
    | some frame =>
      dsimp only
      split <;> exact hpush _

/-- **The stream ends** when nobody holds the writer of a channel that is shut and all has been
written. -/
theorem ended_flush (hshut : o.shut) (hsenders : o.senders = []) (hgoing : o.stopped = none) :
    o.flush.ended := by
  rw [flush_eq hgoing]
  unfold finish
  rw [if_pos ⟨hshut, hsenders, rfl, rfl, hgoing⟩]

end Outbox

/-- What goes on around a link takes no hold of a writer, and lets go of none. -/
theorem Stir.senders_onLink (x : Stir) (ch : Channel) (l : Link) :
    ((x.onLink l).outbox ch).senders = (l.outbox ch).senders := by
  rcases x.outbox_onLink_cases ch l with hsame | ⟨a, -, hact⟩
  · rw [hsame]
  · rw [hact]
    exact (Outbox.act_eq a _).1

/-- **A step of writing** is one move, unless the writing does not begin at all. -/
theorem Link.write_handles (id : CallId) (ch : Channel) (w : Link.Writing) (l : Link) :
    Outbox.Handles id (some w) (l.outbox ch) (l.write id ch w).2.state?
      ((l.write id ch w).1.outbox ch) := by
  have hset (o : Outbox) : (l.setOutbox ch o).outbox ch = o := by
    rw [outbox_setOutbox, if_pos rfl]
  unfold write
  cases w with
  | start body =>
    dsimp only
    split
    · exact .rests rfl rfl
    · split
      · exact .rests rfl rfl
      · split
        · exact .rests rfl rfl
        · next hunshut =>
          rw [hset]
          exact .enters rfl (eq_false_of_ne_true hunshut)
  | queueing frame =>
    dsimp only
    split
    · rw [hset]
      exact .leaves Nat.two_pos rfl
    · split
      · next hoffer =>
        rw [hset]
        exact .offers hoffer
      · next hfull => exact .queues hfull
  | handed number =>
    dsimp only
    split
    · rw [hset]
      exact .leaves Nat.one_pos rfl
    · rw [hset]
      exact .leaves Nat.one_pos rfl
    · next hfate => exact .awaits hfate

end SimRelay
