import SimRelay.Proofs.Link.Carrying

/-!
# Proofs/Link/Relaying — a writer writes its frames whole and in order

The frames that were handed to an outbox are those of a row of bodies.  Their writer is between two
of them, amid one, or was halted amid one (`Outbox.Relays`), and so it is after whatever it does
(`Relays.act`); what is handed over is the last of the row (`Relays.offer`).  So the wire is the
frames of the first bodies, whole, and a part of the next one, which stays a part only where the
writer has stopped (`Relays.front`, `Relays.whole`).

A writer that has something in hand keeps it or puts a byte on the wire (`grows_or_keeps`), so a
writer that goes on gets through the row.
-/

namespace SimRelay.Outbox

variable {o : Outbox} {row done : List ByteArray} {body part : ByteArray}

/-- The frames of these bodies have been written whole, and behind them this part of the next. -/
structure Wrote (done : List ByteArray) (part : ByteArray) (o : Outbox) : Prop where
  written : o.written = done.length
  wire : o.wire = Frame.joined done ++ part

/-- **Where the writer is in the row of bodies that were handed over.** -/
inductive Relays (row : List ByteArray) (o : Outbox) : Prop
  /-- Between two frames. -/
  | between (done rest : List ByteArray) (hrow : row = done ++ rest) (hwrote : o.Wrote done .empty)
      (hhand : o.inHand = none) (hqueue : o.queue = rest.map Frame.wrap)
      (hgoing : o.stopped = none)
  /-- Amid a frame, of which at least a byte is left. -/
  | amid (done rest : List ByteArray) (body part left : ByteArray)
      (hrow : row = done ++ body :: rest) (hwrote : o.Wrote done part)
      (hcut : part ++ left = Frame.wrap body) (hleft : 0 < left.size)
      (hhand : o.inHand = some left) (hqueue : o.queue = rest.map Frame.wrap)
      (hgoing : o.stopped = none)
  /-- Halted amid a frame. -/
  | halted (done rest : List ByteArray) (body part left : ByteArray) (text : String)
      (hrow : row = done ++ body :: rest) (hwrote : o.Wrote done part)
      (hcut : part ++ left = Frame.wrap body) (hhand : o.inHand = none) (hqueue : o.queue = [])
      (hhalted : o.stopped = some text)

theorem relays_new : Relays [] {} :=
  .between [] [] rfl ⟨rfl, ByteArray.append_empty.symm⟩ rfl rfl rfl

theorem size_wrap_pos (body : ByteArray) : 0 < (Frame.wrap body).size := by
  rw [Frame.size_wrap]
  exact Nat.lt_of_lt_of_le (by decide) (Nat.le_add_right _ _)

theorem joined_concat (done : List ByteArray) (body : ByteArray) :
    Frame.joined (done ++ [body]) = Frame.joined done ++ Frame.wrap body := by
  rw [Frame.joined_append]
  exact congrArg (Frame.joined done ++ ·) ByteArray.append_empty

theorem foldl_wrap (rest : List ByteArray) (start : ByteArray) :
    (rest.map Frame.wrap).foldl (· ++ ·) start = start ++ Frame.joined rest := by
  induction rest generalizing start with
  | nil => exact ByteArray.append_empty.symm
  | cons body rest ih => exact (ih _).trans ByteArray.append_assoc

/-- One more frame is whole. -/
theorem Wrote.concat (h : o.Wrote done part) {o' : Outbox} {left : ByteArray}
    (hcut : part ++ left = Frame.wrap body) (hwire : o'.wire = o.wire ++ left)
    (hwritten : o'.written = o.written + 1) : o'.Wrote (done ++ [body]) .empty where
  written := by rw [hwritten, h.written, List.length_append, List.length_singleton]
  wire := by
    rw [hwire, h.wire, ByteArray.append_assoc, hcut, joined_concat, ByteArray.append_empty]

namespace Relays

/-- What neither the writer nor the queue has part in makes no difference. -/
theorem of_eq (h : o.Relays row) {o' : Outbox} (hqueue : o'.queue = o.queue)
    (hhand : o'.inHand = o.inHand) (hwritten : o'.written = o.written) (hwire : o'.wire = o.wire)
    (hstopped : o'.stopped = o.stopped) : o'.Relays row := by
  have hwrote {done : List ByteArray} {part : ByteArray} (h : o.Wrote done part) :
      o'.Wrote done part := ⟨hwritten.trans h.written, hwire.trans h.wire⟩
  cases h with
  | between done rest hrow hw hh hq hg =>
    exact .between done rest hrow (hwrote hw) (hhand.trans hh) (hqueue.trans hq)
      (hstopped.trans hg)
  | amid done rest body part left hrow hw hcut hleft hh hq hg =>
    exact .amid done rest body part left hrow (hwrote hw) hcut hleft (hhand.trans hh)
      (hqueue.trans hq) (hstopped.trans hg)
  | halted done rest body part left text hrow hw hcut hh hq hs =>
    exact .halted done rest body part left text hrow (hwrote hw) hcut (hhand.trans hh)
      (hqueue.trans hq) (hstopped.trans hs)

/-! ## What it says -/

/-- **The wire is the frames that have been written, whole, and a part of the next; with what is
missing it is the whole row.** -/
theorem front (h : o.Relays row) :
    o.written ≤ row.length ∧
      ∃ part rest, o.wire = Frame.joined (row.take o.written) ++ part ∧
        o.wire ++ rest = Frame.joined row := by
  cases h with
  | between done rest hrow hw _ _ _ =>
    rw [hw.written, hrow, List.take_left, List.length_append]
    refine ⟨Nat.le_add_right _ _, .empty, Frame.joined rest, hw.wire, ?_⟩
    rw [hw.wire, Frame.joined_append, ByteArray.append_empty]
  | amid done rest body part left hrow hw hcut _ _ _ _
  | halted done rest body part left _ hrow hw hcut _ _ _ =>
    rw [hw.written, hrow, List.take_left, List.length_append]
    refine ⟨Nat.le_add_right _ _, part, left ++ Frame.joined rest, hw.wire, ?_⟩
    rw [hw.wire, Frame.joined_append, Frame.joined, ← hcut]
    simp only [ByteArray.append_assoc]

/-- **Unless the writer has stopped, all of the row is on the wire, in hand or in the queue.** -/
theorem whole (h : o.Relays row) (hgoing : o.stopped = none) :
    o.stream = Frame.joined row ∧ o.accepted = row.length := by
  cases h with
  | between done rest hrow hw hhand hqueue _ =>
    rw [stream, accepted, hqueue, foldl_wrap, hhand, hw.wire, hw.written, hrow,
      Frame.joined_append]
    simp [ByteArray.append_empty]
  | amid done rest body part left hrow hw hcut _ hhand hqueue _ =>
    rw [stream, accepted, hqueue, foldl_wrap, hhand, hw.wire, hw.written, hrow,
      Frame.joined_append, Frame.joined, ← hcut]
    simp [ByteArray.append_assoc, Nat.add_comm, Nat.add_left_comm]
  | halted _ _ _ _ _ text _ _ _ _ _ hhalted =>
    exact absurd (hhalted.symm.trans hgoing) (Option.some_ne_none text)

/-- A writer that has stopped has nothing to write. -/
theorem tidy (h : o.Relays row) : o.Tidy := fun hstopped => by
  cases h with
  | between _ _ _ _ _ _ hgoing => exact absurd hgoing hstopped
  | amid _ _ _ _ _ _ _ _ _ _ _ hgoing => exact absurd hgoing hstopped
  | halted _ _ _ _ _ _ _ _ _ hhand _ _ => exact hhand

/-- What has been written whole is counted. -/
theorem holds (h : o.Relays row) : o.Holds (Frame.joined row) row.length where
  whole := h.whole
  halted := h.tidy
  wire hall := by
    cases hstopped : o.stopped with
    | none =>
      obtain ⟨hstream, haccepted⟩ := h.whole hstopped
      exact hstream ▸ wire_of_written (haccepted ▸ hall)
    | some text =>
      cases h with
      | between _ _ _ _ _ _ hgoing | amid _ _ _ _ _ _ _ _ _ _ _ hgoing =>
        exact absurd (hstopped.symm.trans hgoing) (Option.some_ne_none text)
      | halted done rest _ _ _ _ hrow hw _ _ _ _ =>
        rw [hrow, hw.written, List.length_append, List.length_cons] at hall
        omega

/-- **Where everything is on the wire, the writer has nothing left.** -/
theorem rests (h : o.Relays row) (hgoing : o.stopped = none)
    (hall : (Frame.joined row).size ≤ o.wire.size) : o.queue = [] ∧ o.inHand = none := by
  cases h with
  | between done rest hrow hw hhand hqueue _ =>
    refine ⟨?_, hhand⟩
    cases rest with
    | nil => exact hqueue
    | cons body rest =>
      rw [hrow, hw.wire, ByteArray.append_empty, Frame.joined_append, Frame.joined] at hall
      simp only [ByteArray.size_append] at hall
      have hpos := size_wrap_pos body
      omega
  | amid done rest body part left hrow hw hcut hleft _ _ _ =>
    rw [hrow, hw.wire, Frame.joined_append, Frame.joined, ← hcut] at hall
    simp only [ByteArray.size_append] at hall
    omega
  | halted _ _ _ _ _ text _ _ _ _ _ hhalted =>
    exact absurd (hhalted.symm.trans hgoing) (Option.some_ne_none text)

/-! ## What the writer does -/

theorem pick (h : o.Relays row) : o.pick.Relays row := by
  unfold Outbox.pick
  split
  · next frame queue hhand hgoing hqueue =>
    cases h with
    | between done rest hrow hw _ hrest _ =>
      cases rest with
      | nil => exact absurd (hqueue.symm.trans hrest) (List.cons_ne_nil _ _)
      | cons body rest =>
        obtain ⟨rfl, rfl⟩ := List.cons.inj (hqueue.symm.trans hrest)
        exact .amid done rest body .empty _ hrow ⟨hw.written, hw.wire⟩ ByteArray.empty_append
          (size_wrap_pos body) rfl rfl hgoing
    | amid _ _ _ _ left _ _ _ _ hsome _ _ =>
      exact absurd (hsome.symm.trans hhand) (Option.some_ne_none left)
    | halted _ _ _ _ _ text _ _ _ _ _ hhalted =>
      exact absurd (hhalted.symm.trans hgoing) (Option.some_ne_none text)
  · exact h

/-- **The part that is on the wire grows, or becomes the whole frame.** -/
theorem push (n : Nat) (h : o.Relays row) : (o.push n).Relays row := by
  unfold Outbox.push
  split
  · exact h
  · next frame hsome =>
    cases h with
    | between _ _ _ _ hhand _ _ | halted _ _ _ _ _ _ _ _ _ hhand _ _ =>
      exact absurd (hsome.symm.trans hhand) (Option.some_ne_none frame)
    | amid done rest body part left hrow hw hcut hleft hhand hqueue hgoing =>
      obtain rfl := Option.some.inj (hhand.symm.trans hsome)
      split
      · refine .between (done ++ [body]) rest ?_ (hw.concat hcut rfl rfl) rfl hqueue hgoing
        rw [hrow, List.append_assoc, List.singleton_append]
      · next hlt =>
        refine .amid done rest body (part ++ left.extract 0 n) _ hrow
          ⟨hw.written, ?_⟩ ?_ ?_ rfl hqueue hgoing
        · exact (congrArg (· ++ _) hw.wire).trans ByteArray.append_assoc
        · rw [ByteArray.append_assoc, ByteArray.extract_append_extract, Nat.zero_min,
            Nat.max_eq_right (by omega), ByteArray.extract_zero_size, hcut]
        · rw [ByteArray.size_extract]
          omega

theorem fail (text : String) (h : o.Relays row) : (o.fail text).Relays row := by
  unfold Outbox.fail
  split
  · exact h
  · next frame hsome =>
    cases h with
    | between _ _ _ _ hhand _ _ | halted _ _ _ _ _ _ _ _ _ hhand _ _ =>
      exact absurd (hsome.symm.trans hhand) (Option.some_ne_none frame)
    | amid done rest body part left hrow hw hcut _ _ _ _ =>
      exact .halted done rest body part left text hrow ⟨hw.written, hw.wire⟩ hcut rfl rfl rfl

theorem finish (h : o.Relays row) : o.finish.Relays row := by
  unfold Outbox.finish
  split
  · exact h.of_eq rfl rfl rfl rfl rfl
  · exact h

theorem flush (h : o.Relays row) : o.flush.Relays row := by
  cases hstopped : o.stopped with
  | none =>
    obtain ⟨hstream, haccepted⟩ := h.whole hstopped
    rw [flush_eq hstopped]
    refine finish (.between row [] (List.append_nil row).symm ⟨haccepted, ?_⟩ rfl rfl hstopped)
    exact hstream.trans ByteArray.append_empty.symm
  | some text =>
    have hhand : o.inHand = none := h.tidy (hstopped ▸ Option.some_ne_none text)
    have hflush : o.flush = o.finish := by
      unfold Outbox.flush
      simp only [hhand, hstopped]
    exact hflush ▸ h.finish

/-- **Whatever the writer does, it is somewhere in the row.** -/
theorem act (h : o.Relays row) (a : Act) : (o.act a).Relays row := by
  cases a with
  | picks => exact h.pick
  | pushes n => exact h.push n
  | fails text => exact h.fail text
  | finishes => exact h.finish
  | flushes => exact h.flush

/-- A writer with something in hand has at least a byte to put on the wire. -/
theorem pos_of_inHand (h : o.Relays row) {left : ByteArray} (hsome : o.inHand = some left) :
    0 < left.size := by
  cases h with
  | between _ _ _ _ hhand _ _ | halted _ _ _ _ _ _ _ _ _ hhand _ _ =>
    exact absurd (hsome.symm.trans hhand) (Option.some_ne_none left)
  | amid _ _ _ _ _ _ _ _ hleft hhand _ _ =>
    exact Option.some.inj (hhand.symm.trans hsome) ▸ hleft

/-! ## What calls do -/

theorem enter (h : o.Relays row) (id : CallId) : (o.enter id).Relays row := by
  obtain ⟨senders, heq, -⟩ := enter_eq id o
  rw [heq]
  exact h.of_eq rfl rfl rfl rfl rfl

theorem leave (h : o.Relays row) (id : CallId) : (o.leave id).Relays row :=
  h.of_eq rfl rfl rfl rfl rfl

theorem shut (h : o.Relays row) : Relays row { o with shut := true } :=
  h.of_eq rfl rfl rfl rfl rfl

/-- **A frame that is handed over is the last of the row**, and its number is its place. -/
theorem offer (h : o.Relays row) (hgoing : o.stopped = none) {number : Nat} {o' : Outbox}
    (hoffer : o.offer (Frame.wrap body) = some (number, o')) :
    number = row.length ∧ o'.Relays (row ++ [body]) := by
  obtain ⟨rfl, rfl⟩ := offer_eq hoffer
  refine ⟨(h.whole hgoing).2, ?_⟩
  cases h with
  | between done rest hrow hw hhand hqueue _ =>
    refine .between done (rest ++ [body]) ?_ ⟨hw.written, hw.wire⟩ hhand ?_ hgoing
    · rw [hrow, List.append_assoc]
    · rw [List.map_append]
      exact congrArg (· ++ [Frame.wrap body]) hqueue
  | amid done rest first part left hrow hw hcut hleft hhand hqueue _ =>
    refine .amid done (rest ++ [body]) first part left ?_ ⟨hw.written, hw.wire⟩ hcut hleft hhand
      ?_ hgoing
    · rw [hrow, List.append_assoc, List.cons_append]
    · rw [List.map_append]
      exact congrArg (· ++ [Frame.wrap body]) hqueue
  | halted _ _ _ _ _ text _ _ _ _ _ hhalted =>
    exact absurd (hhalted.symm.trans hgoing) (Option.some_ne_none text)

end Relays

/-- The writer leaves alone who is sending, and whether anybody may begin to. -/
theorem act_eq (a : Act) (o : Outbox) :
    (o.act a).senders = o.senders ∧ (o.act a).shut = o.shut := by
  have hfinish (o : Outbox) : o.finish.senders = o.senders ∧ o.finish.shut = o.shut := by
    unfold finish
    split <;> exact ⟨rfl, rfl⟩
  have hpush (n : Nat) : (o.push n).senders = o.senders ∧ (o.push n).shut = o.shut := by
    unfold push
    split
    · exact ⟨rfl, rfl⟩
    · split <;> exact ⟨rfl, rfl⟩
  cases a with
  | picks =>
    change o.pick.senders = _ ∧ o.pick.shut = _
    unfold pick
    split <;> exact ⟨rfl, rfl⟩
  | pushes n => exact hpush n
  | fails text =>
    change (o.fail text).senders = _ ∧ (o.fail text).shut = _
    unfold fail
    split <;> exact ⟨rfl, rfl⟩
  | finishes => exact hfinish o
  | flushes =>
    have hrest : ∀ o' : Outbox, o'.senders = o.senders ∧ o'.shut = o.shut →
        o'.finish.senders = o.senders ∧ o'.finish.shut = o.shut := fun o' h =>
      ⟨(hfinish o').1.trans h.1, (hfinish o').2.trans h.2⟩
    change o.flush.senders = _ ∧ o.flush.shut = _
    unfold flush
    refine hrest _ ?_
    cases o.inHand with
    | none =>
      dsimp only
      split <;> exact ⟨rfl, rfl⟩
    | some frame =>
      dsimp only
      split
      · exact hpush _
      · exact hpush _

theorem shut_enter (id : CallId) (o : Outbox) : (o.enter id).shut = o.shut := by
  obtain ⟨senders, heq, -⟩ := enter_eq id o
  rw [heq]

theorem shut_offer {frame : ByteArray} {number : Nat} {o' : Outbox}
    (h : o.offer frame = some (number, o')) : o'.shut = o.shut := by
  obtain ⟨-, rfl⟩ := offer_eq h
  rfl

/-! ## Getting on -/

/-- After all has been written that could be, the writer has stopped or has nothing left. -/
theorem idle_of_flush (h : o.Tidy) (hgoing : o.flush.stopped = none) : o.flush.Idle := by
  cases hstopped : o.stopped with
  | none => exact idle_flush hstopped
  | some text =>
    have hsame := (act_of_halted .flushes hstopped (h (hstopped ▸ Option.some_ne_none text))).2.2.1
    exact absurd (hstopped.symm.trans (hsame.symm.trans hgoing)) (Option.some_ne_none text)

theorem size_wire_act (a : Act) (o : Outbox) : o.wire.size ≤ (o.act a).wire.size := by
  obtain ⟨rest, hrest⟩ := o.begins_act a
  rw [hrest, ByteArray.size_append]
  exact Nat.le_add_right _ _

/-- Pushing puts a byte on the wire, if there is one in hand. -/
theorem push_grows {left : ByteArray} (hhand : o.inHand = some left) (hleft : 0 < left.size)
    (n : Nat) : o.wire.size < (o.push (n + 1)).wire.size := by
  unfold push
  rw [hhand]
  dsimp only
  split
  · rw [ByteArray.size_append]
    omega
  · rw [ByteArray.size_append, ByteArray.size_extract]
    omega

/-- What the wire has in common with a longer row of frames is all of them, if it is long enough. -/
theorem Begins.of_append {front missing more : ByteArray}
    (h : o.wire ++ missing = front ++ more) (hle : front.size ≤ o.wire.size) : o.Begins front := by
  have hfront : o.wire.extract 0 front.size = front := by
    have hcut := congrArg (ByteArray.extract · 0 front.size) h
    simp only [ByteArray.extract_append_eq_left rfl, ByteArray.extract_append,
      Nat.sub_eq_zero_of_le hle, Nat.zero_sub, ByteArray.extract_same,
      ByteArray.append_empty] at hcut
    exact hcut
  refine ⟨o.wire.extract front.size o.wire.size, ?_⟩
  calc o.wire = o.wire.extract 0 o.wire.size := ByteArray.extract_zero_size.symm
    _ = o.wire.extract 0 front.size ++ o.wire.extract front.size o.wire.size := by
      rw [ByteArray.extract_append_extract, Nat.zero_min, Nat.max_eq_right hle]
    _ = front ++ o.wire.extract front.size o.wire.size := by rw [hfront]

/-- **A writer at work keeps what it has in hand until it puts some of it on the wire.** -/
theorem grows_or_keeps {left : ByteArray} (hhand : o.inHand = some left) (hleft : 0 < left.size)
    (hgoing : o.stopped = none) {a : Act} (ha : a.works) :
    o.wire.size < (o.act a).wire.size ∨ (o.act a).inHand = some left := by
  cases a with
  | picks =>
    right
    change o.pick.inHand = _
    unfold pick
    split
    · next hnone _ _ => exact absurd (hhand.symm.trans hnone) (Option.some_ne_none left)
    · exact hhand
  | pushes n =>
    cases n with
    | zero =>
      right
      change (o.push 0).inHand = _
      unfold push
      rw [hhand]
      dsimp only
      rw [if_neg (Nat.not_le_of_gt hleft), ByteArray.extract_zero_size]
    | succ n => exact .inl (push_grows hhand hleft n)
  | fails text => exact absurd ha Bool.false_ne_true
  | finishes =>
    right
    change o.finish.inHand = _
    unfold finish
    split
    · exact hhand
    · exact hhand
  | flushes =>
    left
    change _ < o.flush.wire.size
    rw [flush_eq hgoing, wire_finish, stream, hhand]
    obtain ⟨rest, hrest⟩ := exists_rest_foldl o.queue (o.wire ++ left)
    have hsize := congrArg ByteArray.size hrest
    rw [ByteArray.size_append, ByteArray.size_append] at hsize
    change _ < (o.queue.foldl (· ++ ·) (o.wire ++ left)).size
    omega

/-- **A writer that picks has something in hand, or has written all there is.** -/
theorem pick_has (hgoing : o.stopped = none) :
    (∃ left, o.pick.inHand = some left) ∨ o.pick.wire = o.pick.stream := by
  cases hhand : o.inHand with
  | some left =>
    refine .inl ⟨left, ?_⟩
    unfold pick
    rw [hhand]
    exact hhand
  | none =>
    cases hqueue : o.queue with
    | nil =>
      right
      have hpick : o.pick = o := by
        unfold pick
        rw [hhand, hgoing, hqueue]
      rw [hpick, stream, hhand, hqueue]
      exact ByteArray.append_empty.symm
    | cons frame rest =>
      refine .inl ⟨frame, ?_⟩
      unfold pick
      rw [hhand, hgoing, hqueue]

/-! ## The end of the stream -/

/-- A stream that has ended: the channel is shut, nobody is sending, and nothing is left. -/
structure Done (o : Outbox) : Prop where
  shut : o.shut
  senders : o.senders = []
  queue : o.queue = []
  hand : o.inHand = none
  going : o.stopped = none

/-- The end of the stream is marked only where nothing can come any more. -/
def Ends (o : Outbox) : Prop := o.ended → o.Done

theorem Ends.finish (h : o.Ends) : o.finish.Ends := by
  unfold Outbox.finish
  split
  · next hdone =>
    obtain ⟨hshut, hsenders, hqueue, hhand, hgoing⟩ := hdone
    exact fun _ => ⟨hshut, hsenders, hqueue, hhand, hgoing⟩
  · exact h

/-- No other act marks it. -/
theorem ended_act (a : Act) (hopen : o.ended = false) : (o.act a).Ends := by
  have hends {o' : Outbox} (h : o'.ended = o.ended) : o'.Ends :=
    fun hended => absurd (hended.symm.trans (h.trans hopen)) Bool.true_eq_false.mp
  have hpush (n : Nat) : (o.push n).ended = o.ended := by
    unfold push
    split
    · rfl
    · split <;> rfl
  cases a with
  | picks =>
    refine hends ?_
    change o.pick.ended = _
    unfold pick
    split <;> rfl
  | pushes n => exact hends (hpush n)
  | fails text =>
    refine hends ?_
    change (o.fail text).ended = _
    unfold fail
    split <;> rfl
  | finishes => exact (hends rfl).finish
  | flushes =>
    change o.flush.Ends
    unfold flush
    refine Ends.finish (hends ?_)
    cases o.inHand with
    | none =>
      dsimp only
      split <;> rfl
    | some frame =>
      dsimp only
      split
      · exact hpush _
      · exact hpush _

/-- After the end there is nothing for the writer to do, but to mark it. -/
theorem Done.act_eq (h : o.Done) (a : Act) : o.act a = o ∨ o.act a = o.finish := by
  cases a with
  | picks =>
    left
    change o.pick = o
    unfold pick
    rw [h.hand, h.going, h.queue]
  | pushes n =>
    left
    change o.push n = o
    unfold push
    rw [h.hand]
  | fails text =>
    left
    change o.fail text = o
    unfold fail
    rw [h.hand]
  | finishes => exact .inr rfl
  | flushes =>
    right
    have hstream : o.stream = o.wire := by
      rw [stream, h.hand, h.queue]
      exact ByteArray.append_empty
    have haccepted : o.accepted = o.written := by
      rw [accepted, h.hand, h.queue]
      rfl
    change o.flush = o.finish
    rw [flush_eq h.going, hstream, haccepted, ← h.hand, ← h.queue]

theorem Done.act (h : o.Done) (a : Act) : (o.act a).Done ∧ (o.act a).wire = o.wire := by
  rcases h.act_eq a with heq | heq
  · rw [heq]
    exact ⟨h, rfl⟩
  · rw [heq]
    unfold finish
    split
    · exact ⟨⟨h.shut, h.senders, h.queue, h.hand, h.going⟩, rfl⟩
    · exact ⟨h, rfl⟩

theorem Ends.act (h : o.Ends) (a : Act) : (o.act a).Ends := by
  cases hended : o.ended with
  | false => exact ended_act a hended
  | true => exact fun _ => ((h hended).act a).1

end SimRelay.Outbox
