import SimRelay.Proofs.Link.Writing
import SimRelay.Proofs.Wire.Letters

/-!
# Proofs/Link/Carrying — the messages that a channel carries out

The frames that were ever handed to an outbox are those of a row of messages, and the wire, as far
as it goes, is the beginning of these frames (`Outbox.Carries`).  So every whole frame on the wire
decodes to a message of the row, in its place (`Carries.decode`), whether the writer is at work, has
stopped in the middle of a frame or has not begun.

What goes on around a link keeps the rows (`Link.Retains`); a step of saying keeps them too, or puts
its message at the end of one, once (`Link.write_adds`).
-/

namespace SimRelay

/-! ## Rows -/

namespace Message

variable {m : Message} {body : ByteArray}

/-- The bytes of a message, if it has any. -/
def spelled (m : Message) : ByteArray := m.encode.toOption.getD .empty

theorem spelled_of_encode (h : m.encode = .ok body) : m.spelled = body := by
  rw [spelled, h]
  rfl

theorem Sayable.spelled (h : m.Sayable) :
    m.encode = .ok m.spelled ∧ m.spelled.size ≤ Frame.maxLength := by
  obtain ⟨body, hbody, hsize⟩ := h
  rw [spelled_of_encode hbody]
  exact ⟨hbody, hsize⟩

end Message

namespace Outbox

variable {o : Outbox} {row : List Message} {front : ByteArray} {m : Message}

/-- The frames of a row of messages, one behind the other. -/
def frames (row : List Message) : ByteArray := Frame.joined (row.map Message.spelled)

theorem frames_append (row : List Message) (m : Message) :
    frames (row ++ [m]) = frames row ++ Frame.wrap m.spelled := by
  rw [frames, List.map_append, Frame.joined_append]
  exact congrArg (frames row ++ ·) ByteArray.append_empty

/-- What was ever handed over are the frames of these messages.  As far as the wire goes, it is
their beginning. -/
structure Carries (row : List Message) (o : Outbox) : Prop where
  sayable : ∀ m ∈ row, m.Sayable
  holds : o.Holds (frames row) row.length
  front : ∃ rest, o.wire ++ rest = frames row

/-- The wire begins so. -/
def Begins (front : ByteArray) (o : Outbox) : Prop := ∃ rest, o.wire = front ++ rest

theorem exists_rest_foldl : ∀ (queue : List ByteArray) (start : ByteArray),
    ∃ rest, start ++ rest = queue.foldl (· ++ ·) start
  | [], _ => ⟨.empty, ByteArray.append_empty⟩
  | frame :: queue, start => by
      obtain ⟨rest, hrest⟩ := exists_rest_foldl queue (start ++ frame)
      exact ⟨frame ++ rest, ByteArray.append_assoc.symm.trans hrest⟩

/-- The wire is the beginning of the stream. -/
theorem exists_rest_stream (o : Outbox) : ∃ rest, o.wire ++ rest = o.stream := by
  obtain ⟨rest, hrest⟩ := exists_rest_foldl o.queue (o.wire ++ o.inHand.getD .empty)
  exact ⟨o.inHand.getD .empty ++ rest, ByteArray.append_assoc.symm.trans hrest⟩

theorem Carries.of_going (hsayable : ∀ m ∈ row, m.Sayable)
    (hholds : o.Holds (frames row) row.length) (hgoing : o.stopped = none) : o.Carries row where
  sayable := hsayable
  holds := hholds
  front := by
    obtain ⟨rest, hrest⟩ := o.exists_rest_stream
    exact ⟨rest, hrest.trans (hholds.whole hgoing).1⟩

/-- Nothing was handed over to an outbox that is new. -/
theorem Carries.new : Carries [] {} :=
  .of_going (fun _ h => absurd h List.not_mem_nil) (.of_whole rfl rfl rfl) rfl

/-! ### What the wire has, it keeps -/

theorem Begins.of_wire (h : o.Begins front) {o' : Outbox} (hwire : o'.wire = o.wire) :
    o'.Begins front := by
  obtain ⟨rest, hrest⟩ := h
  exact ⟨rest, hwire.trans hrest⟩

theorem Begins.trans (h : o.Begins front) {o' : Outbox} (h' : o'.Begins o.wire) :
    o'.Begins front := by
  obtain ⟨rest, hrest⟩ := h
  obtain ⟨more, hmore⟩ := h'
  exact ⟨rest ++ more, by rw [hmore, hrest, ByteArray.append_assoc]⟩

theorem begins_refl (o : Outbox) : o.Begins o.wire := ⟨.empty, ByteArray.append_empty.symm⟩

theorem wire_pick (o : Outbox) : o.pick.wire = o.wire := by
  unfold pick
  split <;> rfl

theorem wire_fail (text : String) (o : Outbox) : (o.fail text).wire = o.wire := by
  unfold fail
  split <;> rfl

theorem wire_finish (o : Outbox) : o.finish.wire = o.wire := by
  unfold finish
  split <;> rfl

theorem begins_push (n : Nat) (o : Outbox) : (o.push n).Begins o.wire := by
  unfold push
  split
  · exact o.begins_refl
  · split
    · exact ⟨_, rfl⟩
    · exact ⟨_, rfl⟩

/-- The frame in hand goes first, and then the queue. -/
theorem begins_flush (o : Outbox) : o.flush.Begins o.wire := by
  have hqueue {o' : Outbox} (h : o'.Begins o.wire) :
      Begins o.wire { o' with wire := o'.queue.foldl (· ++ ·) o'.wire } := by
    obtain ⟨rest, hrest⟩ := exists_rest_foldl o'.queue o'.wire
    exact h.trans ⟨rest, hrest.symm⟩
  unfold flush
  refine Begins.of_wire ?_ (wire_finish _)
  cases hhand : o.inHand with
  | none =>
    dsimp only
    split
    · exact o.begins_refl
    · exact hqueue o.begins_refl
  | some frame =>
    dsimp only
    split
    · exact begins_push ..
    · exact hqueue (begins_push ..)

theorem begins_act (a : Act) (o : Outbox) : (o.act a).Begins o.wire := by
  cases a with
  | picks => exact o.begins_refl.of_wire o.wire_pick
  | pushes n => exact o.begins_push n
  | fails text => exact o.begins_refl.of_wire (o.wire_fail text)
  | finishes => exact o.begins_refl.of_wire o.wire_finish
  | flushes => exact o.begins_flush

theorem Begins.act (h : o.Begins front) (a : Act) : (o.act a).Begins front :=
  h.trans (o.begins_act a)

/-- **Whatever the writer does, the row is what it was.** -/
theorem Carries.act (h : o.Carries row) (a : Act) : (o.act a).Carries row := by
  have hholds := h.holds.act a
  cases hafter : (o.act a).stopped with
  | none => exact .of_going h.sayable hholds hafter
  | some text =>
    -- a writer that has stopped puts nothing more on the wire
    have hwire : (o.act a).wire = o.wire := by
      cases hbefore : o.stopped with
      | some text => exact (act_of_halted a hbefore (h.holds.halted (by rw [hbefore]; nofun))).1
      | none =>
        cases a with
        | fails text => exact o.wire_fail text
        | _ => exact nomatch hafter.symm.trans (stream_act rfl hbefore).2.2
    obtain ⟨rest, hrest⟩ := h.front
    exact ⟨h.sayable, hholds, rest, by rw [hwire, hrest]⟩

theorem wire_enter (id : CallId) (o : Outbox) : (o.enter id).wire = o.wire := by
  obtain ⟨senders, heq, -⟩ := enter_eq id o
  rw [heq]

theorem wire_offer {frame : ByteArray} {number : Nat} {o' : Outbox}
    (h : o.offer frame = some (number, o')) : o'.wire = o.wire := by
  obtain ⟨-, rfl⟩ := offer_eq h
  rfl

theorem Carries.enter (h : o.Carries row) (id : CallId) : (o.enter id).Carries row := by
  refine ⟨h.sayable, h.holds.enter id, ?_⟩
  rw [wire_enter]
  exact h.front

theorem Carries.leave (h : o.Carries row) (id : CallId) : (o.leave id).Carries row :=
  ⟨h.sayable, h.holds.leave id, h.front⟩

/-- Whether calls may begin to send makes no difference. -/
theorem Carries.shut (h : o.Carries row) : Carries row { o with shut := true } :=
  ⟨h.sayable, ⟨h.holds.whole, h.holds.halted, h.holds.wire⟩, h.front⟩

/-- **A message that is handed over is the last of the row.** -/
theorem Carries.offer (h : o.Carries row) (hm : m.Sayable) (hgoing : o.stopped = none)
    {number : Nat} {o' : Outbox} (hoffer : o.offer (Frame.wrap m.spelled) = some (number, o')) :
    o'.Carries (row ++ [m]) := by
  obtain ⟨-, hgoing', hholds⟩ := h.holds.offer hgoing hoffer
  rw [← frames_append] at hholds
  refine .of_going (List.forall_mem_append.mpr ⟨h.sayable, fun m' hm' => ?_⟩) ?_ hgoing'
  · exact List.mem_singleton.mp hm' ▸ hm
  · rw [List.length_append]
    exact hholds

/-- **The whole frames on the wire decode to the first messages of the row**, if all of them are
valid. -/
theorem Carries.decode (h : o.Carries row) (hvalid : ∀ m ∈ row, m.Valid) :
    (Frame.bodies o.wire).map Message.decode
      = (row.take (Frame.bodies o.wire).length).map .ok := by
  obtain ⟨rest, hrest⟩ := h.front
  have hshort : ∀ body ∈ row.map Message.spelled, body.size ≤ Frame.maxLength := by
    intro body hbody
    obtain ⟨m, hm, rfl⟩ := List.mem_map.mp hbody
    exact (h.sayable m hm).spelled.2
  have hall : Frame.bodies (frames row) = row.map Message.spelled := by
    have hjoined := (Frame.bodies_joined_append .empty _ hshort).1
    have hnone : Frame.split .empty = .error .needMore := rfl
    have hempty : Frame.bodies .empty = [] := (Frame.bodies_of_error hnone).1
    rwa [ByteArray.append_empty, hempty, List.append_nil] at hjoined
  have hfirst := Frame.bodies_prefix_append o.wire rest
  rw [hrest, hall, List.prefix_iff_eq_take, ← List.map_take] at hfirst
  generalize (Frame.bodies o.wire).length = n at hfirst ⊢
  rw [hfirst, List.map_map]
  refine List.map_congr_left fun m hm => ?_
  have hmem := List.mem_of_mem_take hm
  exact Message.decode_of_encode (h.sayable m hmem).spelled.1 (hvalid m hmem)

/-- **A message whose frame is in front of the wire is the first to be decoded.** -/
theorem Begins.decode (h : o.Begins (Frame.wrap m.spelled)) (hm : m.Sayable) (hvalid : m.Valid) :
    (Frame.bodies o.wire).head?.map Message.decode = some (.ok m) := by
  obtain ⟨rest, hrest⟩ := h
  obtain ⟨hencode, hsize⟩ := hm.spelled
  rw [hrest, (Frame.bodies_wrap_append hsize rest).1, List.head?_cons, Option.map_some,
    Message.decode_of_encode hencode hvalid]

end Outbox

/-! ## Links -/

namespace Link

variable {l l' l'' : Link} {ch : Channel} {m : Message}

/-- Every channel carries what it carried, and its wire begins as it did. -/
structure Retains (l l' : Link) : Prop where
  carries : ∀ {c row}, (l.outbox c).Carries row → (l'.outbox c).Carries row
  begins : ∀ {c front}, (l.outbox c).Begins front → (l'.outbox c).Begins front

/-- …and so it does but for this channel, which carries this message as well. -/
structure Adds (ch : Channel) (m : Message) (l l' : Link) : Prop where
  carries : ∀ {c row}, (l.outbox c).Carries row →
    (l'.outbox c).Carries (if c = ch then row ++ [m] else row)
  begins : ∀ {c front}, (l.outbox c).Begins front → (l'.outbox c).Begins front

theorem Retains.of_outbox (h : ∀ c, l'.outbox c = l.outbox c) : l.Retains l' where
  carries {c _} hc := (h c).symm ▸ hc
  begins {c _} hc := (h c).symm ▸ hc

theorem Retains.refl (l : Link) : l.Retains l := .of_outbox fun _ => rfl

theorem Retains.trans (h : l.Retains l') (h' : l'.Retains l'') : l.Retains l'' where
  carries hc := h'.carries (h.carries hc)
  begins hc := h'.begins (h.begins hc)

theorem begins_setOutbox {o : Outbox} (hwire : o.wire = (l.outbox ch).wire) {c : Channel}
    {front : ByteArray} (h : (l.outbox c).Begins front) :
    ((l.setOutbox ch o).outbox c).Begins front := by
  rw [outbox_setOutbox]
  split
  · next heq => exact h.of_wire (heq ▸ hwire)
  · exact h

/-- A change of one outbox. -/
theorem Retains.setOutbox {o : Outbox}
    (hcarries : ∀ {row}, (l.outbox ch).Carries row → o.Carries row)
    (hwire : o.wire = (l.outbox ch).wire) : l.Retains (l.setOutbox ch o) := by
  refine ⟨fun {c row} hc => ?_, begins_setOutbox hwire⟩
  rw [outbox_setOutbox]
  split
  · next heq => exact hcarries (heq ▸ hc)
  · exact hc

/-- **What is offered on a channel is the last of that row**, and no other row has it. -/
theorem Adds.offer (hm : m.Sayable) (hgoing : (l.outbox ch).stopped = none) {number : Nat}
    {o : Outbox} (hoffer : (l.outbox ch).offer (Frame.wrap m.spelled) = some (number, o)) :
    l.Adds ch m (l.setOutbox ch o) := by
  refine ⟨fun {c row} hc => ?_, begins_setOutbox (Outbox.wire_offer hoffer)⟩
  rw [outbox_setOutbox]
  by_cases heq : ch = c
  · subst heq
    rw [if_pos rfl, if_pos rfl]
    exact hc.offer hm hgoing hoffer
  · rw [if_neg heq, if_neg (Ne.symm heq)]
    exact hc

theorem retains_setInbox (c : Channel) (i : Inbox) (l : Link) : l.Retains (l.setInbox c i) :=
  .of_outbox fun _ => outbox_setInbox ..

theorem retains_abandon (id : CallId) (l : Link) : l.Retains (l.abandon id) := by
  refine ⟨fun {c row} hc => ?_, fun {c front} hc => ?_⟩
  · rw [outbox_abandon]
    exact hc.leave id
  · rw [outbox_abandon]
    exact hc

theorem retains_read (id : CallId) (expired : Bool) (ch : Channel) (l : Link) :
    l.Retains (l.read id expired ch).2 := by
  obtain ⟨i, hlink, -, -⟩ := read_spec id expired ch l
  rw [hlink]
  exact retains_setInbox ch i l

theorem retains_close (id : CallId) (c : Closing) (l : Link) : l.Retains (l.close id c).1 := by
  unfold close
  split
  · split
    · exact .refl l
    · exact .of_outbox fun c => by cases c <;> rfl
  · exact .refl l
  · next first rest =>
    have hshut : l.Retains (l.setOutbox first { l.outbox first with shut := true }) :=
      .setOutbox (fun h => h.shut) rfl
    dsimp only
    split
    · exact hshut.trans (retains_setInbox ..)
    · exact hshut.trans (retains_setInbox ..)

namespace Writing

/-- What is being sent is this message. -/
def Due (m : Message) : Writing → Prop
  | .start body => m.encode = .ok body
  | .queueing frame => m.Sayable ∧ frame = Frame.wrap m.spelled
  | .handed _ => True

/-- The message has not been handed over. -/
def pends : Writing → Bool
  | .handed _ => false
  | _ => true

end Writing

/-- **A step of sending** hands the message over, once, or leaves every row as it was. -/
theorem write_adds (id : CallId) (ch : Channel) {w : Writing} (hdue : w.Due m) (l : Link) :
    (l.Retains (l.write id ch w).1 ∧ (l.write id ch w).2.Leaves (·.pends = w.pends) ∨
        w.pends ∧ l.Adds ch m (l.write id ch w).1 ∧
          (l.write id ch w).2.Leaves (·.pends = false)) ∧
      (l.write id ch w).2.Leaves (Writing.Due m) := by
  have hleave : l.Retains (l.setOutbox ch ((l.outbox ch).leave id)) :=
    .setOutbox (fun h => h.leave id) rfl
  unfold write
  cases w with
  | start body =>
    dsimp only
    split
    · exact ⟨.inl ⟨.refl l, trivial⟩, trivial⟩
    · split
      · exact ⟨.inl ⟨.refl l, trivial⟩, trivial⟩
      · next frame hframe =>
        split
        · exact ⟨.inl ⟨.refl l, trivial⟩, trivial⟩
        · have hsize : body.size ≤ Frame.maxLength := Frame.le_of_encode hframe
          rw [Frame.encode_eq_wrap hsize] at hframe
          have henter : l.Retains (l.setOutbox ch ((l.outbox ch).enter id)) :=
            .setOutbox (fun h => h.enter id) (Outbox.wire_enter id _)
          refine ⟨.inl ⟨henter, rfl⟩, ⟨body, hdue, hsize⟩, ?_⟩
          rw [Message.spelled_of_encode hdue]
          exact (Except.ok.inj hframe).symm
  | queueing frame =>
    obtain ⟨hm, rfl⟩ := hdue
    dsimp only
    split
    · exact ⟨.inl ⟨hleave, trivial⟩, trivial⟩
    · next hstopped =>
      have hgoing : (l.outbox ch).stopped = none := Option.not_isSome_iff_eq_none.mp hstopped
      split
      · next number o hoffer =>
        exact ⟨.inr ⟨rfl, .offer hm hgoing hoffer, rfl⟩, trivial⟩
      · exact ⟨.inl ⟨.refl l, rfl⟩, ⟨hm, rfl⟩⟩
  | handed number =>
    dsimp only
    split
    · exact ⟨.inl ⟨hleave, trivial⟩, trivial⟩
    · exact ⟨.inl ⟨hleave, trivial⟩, trivial⟩
    · exact ⟨.inl ⟨.refl l, rfl⟩, trivial⟩

/-- A message whose sending has succeeded was handed over, and a frame has been written. -/
theorem write_ok {id : CallId} {w : Writing} (h : (l.write id ch w).2 = .ends (.ok ())) :
    w.pends = false ∧ 0 < ((l.write id ch w).1.outbox ch).written := by
  unfold write at h ⊢
  cases w with
  | start body =>
    dsimp only at h
    split at h
    · exact nomatch h
    · split at h
      · exact nomatch h
      · split at h <;> exact nomatch h
  | queueing frame =>
    dsimp only at h
    split at h
    · exact nomatch h
    · split at h <;> exact nomatch h
  | handed number =>
    dsimp only at h ⊢
    split at h
    · next hfate =>
      have hlt := Outbox.lt_of_fate hfate
      rw [outbox_setOutbox, if_pos rfl]
      exact ⟨rfl, Nat.lt_of_le_of_lt (Nat.zero_le _) hlt⟩
    · exact nomatch h
    · exact nomatch h

end Link

namespace Session

variable {s : Session} {m : Message}

namespace Saying

/-- What is being said is this message. -/
def Due (m : Message) : Saying → Prop
  | .fresh m' => m' = m
  | .writing w => w.Due m

/-- The message has not been handed over. -/
def pends : Saying → Bool
  | .fresh _ => true
  | .writing w => w.pends

end Saying

/-- **A step of saying** hands the message over, once, or leaves every row as it was. -/
theorem say_adds (t : Turn) (ch : Channel) {x : Saying} (hdue : x.Due m) (s : Session) :
    (s.link.Retains (s.say t ch x).1.link ∧ (s.say t ch x).2.Leaves (·.pends = x.pends) ∨
        x.pends ∧ s.link.Adds ch m (s.say t ch x).1.link ∧
          (s.say t ch x).2.Leaves (·.pends = false)) ∧
      (s.say t ch x).2.Leaves (Saying.Due m) := by
  have hwrite {w : Link.Writing} (hw : w.Due m) :
      (s.link.Retains (s.write t ch w).1.link ∧
          (s.write t ch w).2.Leaves (·.pends = w.pends) ∨
        w.pends ∧ s.link.Adds ch m (s.write t ch w).1.link ∧
          (s.write t ch w).2.Leaves (·.pends = false)) ∧
        (s.write t ch w).2.Leaves (Saying.Due m) := by
    obtain ⟨hadds, hleaves⟩ := s.link.write_adds t.id ch hw
    have hpart {P : Saying → Prop}
        (h : (s.link.write t.id ch w).2.Leaves fun w' => P (.writing w')) :
        (s.write t ch w).2.Leaves P :=
      h.andThen (fun _ h => h) (fun _ => trivial) fun _ => trivial
    refine ⟨?_, hpart hleaves⟩
    exact hadds.imp (And.imp_right fun h => hpart h)
      (And.imp_right (And.imp_right fun h => hpart h))
  cases x with
  | fresh m' =>
    obtain rfl : m' = m := hdue
    rw [say]
    split
    · exact ⟨.inl ⟨.refl _, trivial⟩, trivial⟩
    · split
      · exact ⟨.inl ⟨.refl _, trivial⟩, trivial⟩
      · next hbody =>
        have hdue : (Link.Writing.start _).Due m' := hbody
        exact hwrite hdue
  | writing w => exact hwrite hdue

end Session

end SimRelay
