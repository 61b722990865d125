import SimRelay.Proofs.Link.Outcome
import SimRelay.Proofs.Session.Hearing

/-!
# Proofs/Link/Writing — a message that was said is on the wire

The bytes on the wire, what is left of the frame in hand and the frames in the queue are one stream
(`Outbox.stream`).  The writer takes frames in hand and puts bytes on the wire at its own pace, and
none of this changes the stream or the number of its frames (`Outbox.Holds.act`); a call adds its
frame at the end and learns its number.  When the frame of the last number has been written, the
wire is the whole stream.

So a saying that succeeds has put its message on the wire behind everything that was handed over
before, and nothing else (`Session.say_speaks`).
-/

namespace SimRelay

/-! ## The writer -/

namespace Outbox

/-- What the writer of an outbox may do next. -/
inductive Act
  | picks
  | pushes (n : Nat)
  | fails (text : String)
  | finishes
  /-- It writes all there is, to a peer that takes every byte at once. -/
  | flushes
  deriving DecidableEq

def act (a : Act) (o : Outbox) : Outbox :=
  match a with
  | .picks => o.pick
  | .pushes n => o.push n
  | .fails text => o.fail text
  | .finishes => o.finish
  | .flushes => o.flush

/-- The act is not a failure. -/
def Act.works : Act → Bool
  | .fails _ => false
  | _ => true

/-- The bytes that are on the wire and those that are to follow. -/
def stream (o : Outbox) : ByteArray :=
  o.queue.foldl (· ++ ·) (o.wire ++ o.inHand.getD .empty)

/-- An outbox to which `n` frames have been handed over, and whose stream is then this, unless its
writer has stopped. -/
structure Holds (stream : ByteArray) (n : Nat) (o : Outbox) : Prop where
  whole : o.stopped = none → o.stream = stream ∧ o.accepted = n
  halted : o.stopped ≠ none → o.inHand = none
  wire : n ≤ o.written → o.wire = stream

variable {o : Outbox} {stream : ByteArray} {n : Nat}

/-- When as many frames have been written as were handed over, the stream is on the wire. -/
theorem wire_of_written (h : o.accepted ≤ o.written) : o.wire = o.stream := by
  unfold accepted at h
  have hqueue : o.queue = [] := List.length_eq_zero_iff.mp (by omega)
  have hhand : o.inHand = none := by
    cases hin : o.inHand with
    | none => rfl
    | some frame =>
      rw [hin] at h
      change o.written + 1 + o.queue.length ≤ o.written at h
      omega
  simp [Outbox.stream, hqueue, hhand]

/-- What keeps the stream and the number of its frames. -/
theorem Holds.of_whole (hstopped : o.stopped = none) (hstream : o.stream = stream)
    (haccepted : o.accepted = n) : o.Holds stream n where
  whole _ := ⟨hstream, haccepted⟩
  halted h := absurd hstopped h
  wire h := by
    subst hstream haccepted
    exact wire_of_written h

/-- A writer that has stopped has no frame in hand. -/
def Tidy (o : Outbox) : Prop := o.stopped ≠ none → o.inHand = none

theorem holds_self (h : o.Tidy) : o.Holds o.stream o.accepted :=
  ⟨fun _ => ⟨rfl, rfl⟩, h, wire_of_written⟩

theorem stream_pick (o : Outbox) :
    o.pick.stream = o.stream ∧ o.pick.accepted = o.accepted ∧ o.pick.stopped = o.stopped := by
  unfold pick
  split
  · next hhand hstopped hqueue =>
    simp [Outbox.stream, accepted, hhand, hqueue]
    omega
  · exact ⟨rfl, rfl, rfl⟩

theorem stream_push (n : Nat) (o : Outbox) :
    (o.push n).stream = o.stream ∧ (o.push n).accepted = o.accepted ∧
      (o.push n).stopped = o.stopped := by
  unfold push
  split
  · exact ⟨rfl, rfl, rfl⟩
  · next frame hhand =>
    split
    · simp [Outbox.stream, accepted, hhand]
    · refine ⟨?_, by simp [accepted, hhand], rfl⟩
      simp only [Outbox.stream, hhand, Option.getD_some]
      rw [ByteArray.append_assoc, ByteArray.extract_append_extract, Nat.zero_min,
        ByteArray.extract_zero_max_size]

theorem stream_finish (o : Outbox) :
    o.finish.stream = o.stream ∧ o.finish.accepted = o.accepted ∧
      o.finish.stopped = o.stopped := by
  unfold finish
  split <;> exact ⟨rfl, rfl, rfl⟩

/-- Everything there is, is written at once. -/
theorem flush_eq (hstopped : o.stopped = none) :
    o.flush = { o with
      wire := o.stream, inHand := none, written := o.accepted, queue := [] }.finish := by
  unfold flush
  cases hhand : o.inHand with
  | none => simp [hstopped, Outbox.stream, accepted, hhand]
  | some frame => simp [push, hstopped, Outbox.stream, accepted, hhand]

theorem stream_flush (hstopped : o.stopped = none) :
    o.flush.stream = o.stream ∧ o.flush.accepted = o.accepted ∧ o.flush.stopped = none := by
  have hfinish := stream_finish { o with
    wire := o.stream, inHand := none, written := o.accepted, queue := [] }
  rw [flush_eq hstopped, hfinish.1, hfinish.2.1, hfinish.2.2]
  refine ⟨?_, rfl, hstopped⟩
  change o.stream ++ .empty = o.stream
  exact ByteArray.append_empty

/-- **A writer at work changes neither the stream nor the number of its frames.** -/
theorem stream_act {a : Act} (ha : a.works) (hstopped : o.stopped = none) :
    (o.act a).stream = o.stream ∧ (o.act a).accepted = o.accepted ∧
      (o.act a).stopped = none := by
  cases a with
  | picks => exact hstopped ▸ stream_pick o
  | pushes n => exact hstopped ▸ stream_push n o
  | fails text => exact nomatch ha
  | finishes => exact hstopped ▸ stream_finish o
  | flushes => exact stream_flush hstopped

/-- A writer that has stopped puts nothing more on the wire. -/
theorem act_of_halted (a : Act) {text : String} (hstopped : o.stopped = some text)
    (hhand : o.inHand = none) :
    (o.act a).wire = o.wire ∧ (o.act a).written = o.written ∧
      (o.act a).stopped = o.stopped ∧ (o.act a).inHand = none := by
  have hfinish : o.finish.wire = o.wire ∧ o.finish.written = o.written ∧
      o.finish.stopped = o.stopped ∧ o.finish.inHand = none := by
    unfold finish
    split <;> exact ⟨rfl, rfl, rfl, hhand⟩
  cases a with
  | picks => simp [act, pick, hhand, hstopped]
  | pushes n => simp [act, push, hhand]
  | fails text => simp [act, fail, hhand]
  | finishes => exact hfinish
  | flushes =>
    have hflush : o.flush = o.finish := by
      unfold flush
      simp only [hhand, hstopped]
    rw [Outbox.act, hflush]
    exact hfinish

/-- What has been written stays written. -/
theorem written_act (h : o.Holds stream n) (a : Act) : o.written ≤ (o.act a).written := by
  cases hstopped : o.stopped with
  | some text =>
    obtain ⟨-, hwritten, -, -⟩ := act_of_halted a hstopped (h.halted (hstopped ▸ nofun))
    exact Nat.le_of_eq hwritten.symm
  | none =>
    have hfinish (o : Outbox) : o.finish.written = o.written := by
      unfold finish
      split <;> rfl
    cases a with
    | picks =>
      change o.written ≤ o.pick.written
      unfold pick
      split <;> exact Nat.le_refl _
    | pushes n =>
      change o.written ≤ (o.push n).written
      unfold push
      split
      · exact Nat.le_refl _
      · split
        · exact Nat.le_succ _
        · exact Nat.le_refl _
    | fails text =>
      change o.written ≤ (o.fail text).written
      unfold fail
      split <;> exact Nat.le_refl _
    | finishes => exact Nat.le_of_eq (hfinish o).symm
    | flushes =>
      change o.written ≤ o.flush.written
      rw [flush_eq hstopped, hfinish]
      change o.written ≤ o.written + _ + _
      omega

/-- **Whatever the writer does, the stream is what it was**, or the writer has stopped short of
it. -/
theorem Holds.act (h : o.Holds stream n) (a : Act) : (o.act a).Holds stream n := by
  cases hstopped : o.stopped with
  | some text =>
    obtain ⟨hwire, hwritten, hstop, hhand⟩ :=
      act_of_halted a hstopped (h.halted (hstopped ▸ nofun))
    refine ⟨fun hnone => ?_, fun _ => hhand, fun hn => ?_⟩
    · exact nomatch hnone.symm.trans (hstop.trans hstopped)
    · exact hwire.trans (h.wire (hwritten ▸ hn))
  | none =>
    obtain ⟨hstream, haccepted⟩ := h.whole hstopped
    by_cases ha : a.works
    · obtain ⟨hstream', haccepted', hstop⟩ := stream_act ha hstopped
      exact .of_whole hstop (hstream'.trans hstream) (haccepted'.trans haccepted)
    · obtain ⟨text, rfl⟩ : ∃ text, a = .fails text := by
        cases a with
        | fails text => exact ⟨text, rfl⟩
        | _ => exact absurd rfl ha
      change (o.fail text).Holds stream n
      unfold fail
      split
      · exact h
      · next frame hhand =>
        refine ⟨nofun, fun _ => rfl, fun hn => ?_⟩
        -- the frame that is lost was handed over and is not written
        change n ≤ o.written at hn
        unfold accepted at haccepted
        rw [hhand] at haccepted
        change o.written + 1 + o.queue.length = n at haccepted
        omega

/-- The writer has not stopped, and calls may send. -/
structure Works (o : Outbox) : Prop where
  going : o.stopped = none
  unshut : o.shut = false

theorem Works.act (h : o.Works) {a : Act} (ha : a.works) : (o.act a).Works where
  going := (stream_act ha h.going).2.2
  unshut := by
    have hfinish (o : Outbox) : o.finish.shut = o.shut := by
      unfold finish
      split <;> rfl
    cases a with
    | picks =>
      change o.pick.shut = false
      unfold pick
      split <;> exact h.unshut
    | pushes n =>
      change (o.push n).shut = false
      unfold push
      split
      · exact h.unshut
      · split <;> exact h.unshut
    | fails text => exact nomatch ha
    | finishes => exact (hfinish o).trans h.unshut
    | flushes =>
      change o.flush.shut = false
      rw [flush_eq h.going, hfinish]
      exact h.unshut

/-- Whoever has its turn is among the senders, and all else is as it was. -/
theorem enter_eq (id : CallId) (o : Outbox) :
    ∃ senders, o.enter id = { o with senders } ∧ id ∈ senders ∧
      ∀ other ∈ o.senders, other ∈ senders := by
  unfold enter
  split
  · next hmem => exact ⟨o.senders, rfl, hmem, fun _ h => h⟩
  · exact ⟨_, rfl, List.mem_append_right _ List.mem_cons_self,
      fun _ h => List.mem_append_left _ h⟩

/-- A frame that is handed over has the next number and goes behind the queue, and all else is as
it was. -/
theorem offer_eq {frame : ByteArray} {number : Nat} {o' : Outbox}
    (hoffer : o.offer frame = some (number, o')) :
    number = o.accepted ∧ o' = { o with queue := o.queue ++ [frame] } := by
  unfold offer at hoffer
  split at hoffer
  · obtain ⟨rfl, rfl⟩ := Prod.mk.inj (Option.some.inj hoffer)
    exact ⟨rfl, rfl⟩
  · exact absurd hoffer.symm (Option.some_ne_none _)

theorem Works.enter (h : o.Works) (id : CallId) : (o.enter id).Works := by
  obtain ⟨senders, heq, -⟩ := enter_eq id o
  rw [heq]
  exact ⟨h.going, h.unshut⟩

theorem Works.leave (h : o.Works) (id : CallId) : (o.leave id).Works := ⟨h.going, h.unshut⟩

theorem Works.offer (h : o.Works) {frame : ByteArray} {number : Nat} {o' : Outbox}
    (hoffer : o.offer frame = some (number, o')) : o'.Works := by
  obtain ⟨-, rfl⟩ := offer_eq hoffer
  exact ⟨h.going, h.unshut⟩

/-- A writer at work loses no frame. -/
theorem Works.fate (h : o.Works) (number : Nat) :
    o.fate number = .written ∨ o.fate number = .underWay := by
  unfold Outbox.fate
  rw [h.going]
  split
  · exact .inl rfl
  · exact .inr rfl

theorem Works.tidy (h : o.Works) : o.Tidy := fun hstopped => absurd h.going hstopped

/-- Everything that was handed over has been written. -/
structure Idle (o : Outbox) : Prop where
  queue : o.queue = []
  hand : o.inHand = none

/-- A writer that has not stopped has done all there is to do when it has written all there is. -/
theorem idle_flush (hgoing : o.stopped = none) : o.flush.Idle := by
  have hfinish {o : Outbox} (ho : o.Idle) : o.finish.Idle := by
    unfold finish
    split
    · exact ⟨ho.queue, ho.hand⟩
    · exact ho
  rw [flush_eq hgoing]
  exact hfinish ⟨rfl, rfl⟩

/-- Who is sending makes no difference. -/
theorem Holds.of_senders (h : o.Holds stream n) (senders : List CallId) :
    Holds stream n { o with senders } :=
  ⟨h.whole, h.halted, h.wire⟩

theorem Holds.enter (h : o.Holds stream n) (id : CallId) : (o.enter id).Holds stream n := by
  obtain ⟨senders, heq, -⟩ := enter_eq id o
  rw [heq]
  exact h.of_senders senders

theorem Holds.leave (h : o.Holds stream n) (id : CallId) : (o.leave id).Holds stream n :=
  h.of_senders _

/-- **A frame that is handed over** is the last of the stream, and has the next number. -/
theorem Holds.offer (h : o.Holds stream n) (hstopped : o.stopped = none) {frame : ByteArray}
    {number : Nat} {o' : Outbox} (hoffer : o.offer frame = some (number, o')) :
    number = n ∧ o'.stopped = none ∧ o'.Holds (stream ++ frame) (n + 1) := by
  obtain ⟨hstream, haccepted⟩ := h.whole hstopped
  obtain ⟨rfl, rfl⟩ := offer_eq hoffer
  refine ⟨haccepted, hstopped, .of_whole hstopped ?_ ?_⟩
  · rw [← hstream]
    simp [Outbox.stream]
  · rw [← haccepted]
    simp [accepted]
    omega

theorem lt_of_fate (hfate : o.fate n = .written) : n < o.written := by
  unfold fate at hfate
  split at hfate
  · assumption
  · split at hfate
    · exact nomatch hfate
    · split at hfate <;> exact nomatch hfate

/-- A frame that is on its way has not been written, and the writer goes on. -/
theorem le_of_fate (hfate : o.fate n = .underWay) : o.stopped = none ∧ o.written ≤ n := by
  unfold fate at hfate
  split at hfate
  · exact nomatch hfate
  · next hle =>
    split at hfate
    · next hstopped => exact ⟨hstopped, Nat.le_of_not_lt hle⟩
    · split at hfate <;> exact nomatch hfate

end Outbox

/-! ## Saying -/

theorem Frame.le_of_encode {body frame : ByteArray} (h : encode body = .ok frame) :
    body.size ≤ maxLength := by
  unfold encode at h
  split at h
  · assumption
  · exact nomatch h

@[simp] theorem Link.outbox_setOutbox (c ch : Channel) (o : Outbox) (l : Link) :
    (l.setOutbox c o).outbox ch = if c = ch then o else l.outbox ch := by
  cases c <;> cases ch <;> rfl

@[simp] theorem Link.outbox_setInbox (c ch : Channel) (i : Inbox) (l : Link) :
    (l.setInbox c i).outbox ch = l.outbox ch := by
  cases c <;> cases ch <;> rfl

/-- The message has bytes, and they fit a frame. -/
def Message.Sayable (m : Message) : Prop :=
  ∃ body, m.encode = .ok body ∧ body.size ≤ Frame.maxLength

namespace Session

open Link (Writing)

variable {s : Session} {m : Message} {stream body : ByteArray} {n : Nat}

/-- How far a message is: not yet handed over, and the stream is what it was; or handed over, and
it is the last of the stream. -/
def Speaks (m : Message) (stream : ByteArray) (n : Nat) (o : Outbox) : Saying → Prop
  | .fresh m' => m' = m ∧ o.Holds stream n
  | .writing (.start body) => m.encode = .ok body ∧ o.Holds stream n
  | .writing (.queueing frame) => ∃ body, m.encode = .ok body ∧ body.size ≤ Frame.maxLength ∧
      frame = Frame.wrap body ∧ o.Holds stream n
  | .writing (.handed number) => ∃ body, m.encode = .ok body ∧ body.size ≤ Frame.maxLength ∧
      number = n ∧ o.Holds (stream ++ Frame.wrap body) (n + 1)

/-- The message was the last to be handed over, behind this stream, and has been written. -/
def Spoken (m : Message) (stream : ByteArray) (n : Nat) (o : Outbox) : Prop :=
  ∃ body, m.encode = .ok body ∧ body.size ≤ Frame.maxLength ∧ n < o.written ∧
    o.Holds (stream ++ Frame.wrap body) (n + 1)

/-- **It is on the wire**, and nothing else is that was not there before. -/
theorem Spoken.wire {o : Outbox} (h : Spoken m stream n o) :
    ∃ body, m.encode = .ok body ∧ body.size ≤ Frame.maxLength ∧
      o.wire = stream ++ Frame.wrap body := by
  obtain ⟨body, hbody, hsize, hwritten, h⟩ := h
  exact ⟨body, hbody, hsize, h.wire hwritten⟩

theorem Spoken.act {o : Outbox} (h : Spoken m stream n o) (a : Outbox.Act) :
    Spoken m stream n (o.act a) := by
  obtain ⟨body, hbody, hsize, hwritten, h⟩ := h
  exact ⟨body, hbody, hsize, Nat.lt_of_lt_of_le hwritten (Outbox.written_act h a), h.act a⟩

/-- What the writer does keeps the message where it is, or moves it forward. -/
theorem Speaks.act {o : Outbox} (a : Outbox.Act) :
    ∀ {x : Saying}, Speaks m stream n o x → Speaks m stream n (o.act a) x
  | .fresh _, ⟨hm, h⟩ => ⟨hm, h.act a⟩
  | .writing (.start _), ⟨hbody, h⟩ => ⟨hbody, h.act a⟩
  | .writing (.queueing _), ⟨body, hbody, hsize, hframe, h⟩ =>
      ⟨body, hbody, hsize, hframe, h.act a⟩
  | .writing (.handed _), ⟨body, hbody, hsize, hnumber, h⟩ =>
      ⟨body, hbody, hsize, hnumber, h.act a⟩

/-- A step of writing. -/
theorem write_speaks (t : Turn) (ch : Channel) {w : Writing}
    (h : Speaks m stream n (s.link.outbox ch) (.writing w)) :
    (s.write t ch w).2.Leaves (Speaks m stream n ((s.write t ch w).1.link.outbox ch)) ∧
      ((s.write t ch w).2 = .ends (.ok ()) →
        Spoken m stream n ((s.write t ch w).1.link.outbox ch)) := by
  unfold write Link.write
  cases w with
  | start body =>
    obtain ⟨hbody, h⟩ := h
    dsimp only
    split
    · exact ⟨trivial, nofun⟩
    · split
      · exact ⟨trivial, nofun⟩
      · next frame hframe =>
        have hsize : body.size ≤ Frame.maxLength := Frame.le_of_encode hframe
        rw [Frame.encode_eq_wrap hsize] at hframe
        split
        · exact ⟨trivial, nofun⟩
        · refine ⟨⟨body, hbody, hsize, (Except.ok.inj hframe).symm, ?_⟩, nofun⟩
          rw [Link.outbox_setOutbox, if_pos rfl]
          exact h.enter t.id
  | queueing frame =>
    obtain ⟨body, hbody, hsize, hframe, h⟩ := h
    dsimp only
    split
    · exact ⟨trivial, nofun⟩
    · next hstopped =>
      have hstopped : (s.link.outbox ch).stopped = none := Option.not_isSome_iff_eq_none.mp hstopped
      split
      · next number o hoffer =>
        obtain ⟨hnumber, -, ho⟩ := h.offer hstopped hoffer
        refine ⟨⟨body, hbody, hsize, hnumber, ?_⟩, nofun⟩
        rw [Link.outbox_setOutbox, if_pos rfl, ← hframe]
        exact ho
      · exact ⟨⟨body, hbody, hsize, hframe, h⟩, nofun⟩
  | handed number =>
    obtain ⟨body, hbody, hsize, rfl, h⟩ := h
    dsimp only
    split
    · next hfate =>
      refine ⟨trivial, fun _ => ⟨body, hbody, hsize, ?_, ?_⟩⟩
      · rw [Link.outbox_setOutbox, if_pos rfl]
        exact Outbox.lt_of_fate hfate
      · rw [Link.outbox_setOutbox, if_pos rfl]
        exact h.leave t.id
    · exact ⟨trivial, nofun⟩
    · exact ⟨⟨body, hbody, hsize, rfl, h⟩, nofun⟩

/-- **A step of saying** keeps the account of the message, and when it succeeds the message is on
the wire. -/
theorem say_speaks (t : Turn) (ch : Channel) {x : Saying}
    (h : Speaks m stream n (s.link.outbox ch) x) :
    (s.say t ch x).2.Leaves (Speaks m stream n ((s.say t ch x).1.link.outbox ch)) ∧
      ((s.say t ch x).2 = .ends (.ok ()) →
        Spoken m stream n ((s.say t ch x).1.link.outbox ch)) := by
  cases x with
  | fresh m' =>
    obtain ⟨rfl, h⟩ := h
    rw [say]
    split
    · exact ⟨trivial, nofun⟩
    · split
      · exact ⟨trivial, nofun⟩
      · next hbody => exact write_speaks t ch ⟨hbody, h⟩
  | writing w => exact write_speaks t ch h

/-- **Where the writer is at work, saying does not fail.** -/
theorem say_works (t : Turn) (ch : Channel) {x : Saying} (hm : m.Sayable)
    (hactive : s.closed = false) (hopen : s.link.closing = false)
    (hworks : (s.link.outbox ch).Works) (h : Speaks m stream n (s.link.outbox ch) x) :
    ((s.say t ch x).1.link.outbox ch).Works ∧
      ∀ r, (s.say t ch x).2 = .ends r → r = .ok () := by
  have hstart {body : ByteArray} (hbody : m.encode = .ok body) :
      ((s.write t ch (.start body)).1.link.outbox ch).Works ∧
        ∀ r, (s.write t ch (.start body)).2 = .ends r → r = .ok () := by
    obtain ⟨body', hbody', hsize⟩ := hm
    obtain rfl := Except.ok.inj (hbody.symm.trans hbody')
    simp only [write, Link.write, hopen, Frame.encode_eq_wrap hsize, hworks.unshut,
      Bool.false_eq_true, if_false, Link.outbox_setOutbox, if_true]
    exact ⟨hworks.enter t.id, nofun⟩
  cases x with
  | fresh m' =>
    obtain ⟨rfl, h⟩ := h
    obtain ⟨body, hbody, -⟩ := hm
    rw [say, if_neg (by simp [hactive]), hbody]
    exact hstart hbody
  | writing w =>
    cases w with
    | start body => exact hstart h.1
    | queueing frame =>
      simp only [say, write, Link.write, hworks.going, Option.isSome_none, Bool.false_eq_true,
        if_false]
      split
      · next number o hoffer =>
        rw [Link.outbox_setOutbox, if_pos rfl]
        exact ⟨hworks.offer hoffer, nofun⟩
      · exact ⟨hworks, nofun⟩
    | handed number =>
      simp only [say, write, Link.write]
      rcases hworks.fate number with hfate | hfate
      · rw [hfate, Link.outbox_setOutbox, if_pos rfl]
        exact ⟨hworks.leave t.id, fun r hr => (Progress.ends.inj hr).symm⟩
      · rw [hfate]
        exact ⟨hworks, nofun⟩

/-- How many steps a saying takes at most, where each frame is written as soon as it is handed
over. -/
def Saying.distance : Saying → Nat
  | .writing (.handed _) => 1
  | .writing (.queueing _) => 2
  | _ => 3

theorem Saying.distance_pos (x : Saying) : 0 < x.distance := by
  unfold distance
  split <;> decide

theorem Saying.distance_le (x : Saying) : x.distance ≤ 3 := by
  unfold distance
  split <;> decide

/-- **Where everything has been written, saying gets on.** -/
theorem say_nearer (t : Turn) (ch : Channel) {x : Saying} (hworks : (s.link.outbox ch).Works)
    (hidle : (s.link.outbox ch).Idle) (h : Speaks m stream n (s.link.outbox ch) x) :
    (s.say t ch x).2.Leaves fun x' => x'.distance < x.distance := by
  have hstart (body : ByteArray) :
      (s.write t ch (.start body)).2.Leaves fun x' => x'.distance < 3 := by
    unfold write Link.write
    dsimp only
    split
    · exact trivial
    · split
      · exact trivial
      · split
        · exact trivial
        · exact Nat.lt_succ_self 2
  cases x with
  | fresh m' =>
    rw [say]
    split
    · exact trivial
    · split
      · exact trivial
      · exact hstart _
  | writing w =>
    cases w with
    | start body => exact hstart body
    | queueing frame =>
      -- there is room in an empty queue
      have hroom : (s.link.outbox ch).queue.length < Outbox.capacity := by
        rw [hidle.queue]
        decide
      simp only [say, write, Link.write, hworks.going, Option.isSome_none, Bool.false_eq_true,
        if_false, Outbox.offer, if_pos hroom]
      exact Nat.lt_succ_self 1
    | handed number =>
      obtain ⟨body, -, -, rfl, hholds⟩ := h
      -- the frame is among those that have been written
      have hwritten : number < (s.link.outbox ch).written := by
        obtain ⟨-, haccepted⟩ := hholds.whole hworks.going
        simp only [Outbox.accepted, hidle.queue, hidle.hand, Option.isSome_none,
          Bool.false_eq_true, if_false, List.length_nil] at haccepted
        omega
      simp only [say, write, Link.write, Outbox.fate, if_pos hwritten]
      exact trivial

end Session

end SimRelay
