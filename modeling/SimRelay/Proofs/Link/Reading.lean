import SimRelay.Link.Basic
import SimRelay.Proofs.Wire.Frames

/-!
# Proofs/Link/Reading — what one attempt at reading brings

`Inbox.take` looks at the buffer first and at the unread bytes only if it must.  What it offers
nevertheless depends on the two together: it is the front of the row of frames that the pending
bytes hold, and the pending bytes lose exactly that frame (`take_spec`).

`Link.read` adds the line to this.  A call whose turn it is hears what is due (`read_of_first`);
whoever calls, the inbox loses what is handed out and nothing else (`read_spec`).
-/

namespace SimRelay

/-! ## Taking -/

namespace Inbox

variable {i : Inbox}

/-- What is due to the first in line while these bodies are left, followed by this fault, in a
stream that is over in this way if it is. -/
def Offer.due (left : List ByteArray) (fault : Frame.Fault) (ending : Option StreamEnd) : Offer :=
  match left, fault with
  | body :: _, _ => .frame body
  | [], .tooLarge n => .failure (.decode (.tooLarge n))
  | [], .needMore => .short ending

/-- The frame that is handed out with an offer, if one is. -/
def Offer.body? : Offer → Option ByteArray
  | .frame body => some body
  | .failure _ => none
  | .nothing => none

/-- A frame that is due is the first of those that are left. -/
theorem Offer.body?_due (left : List ByteArray) (fault : Frame.Fault) (ending : Option StreamEnd) :
    (Offer.due left fault ending).body? = left.head? := by
  cases left with
  | cons body rest => rfl
  | nil =>
    cases fault with
    | tooLarge n => rfl
    | needMore => cases ending <;> rfl

/-- A frame is due where one would be handed out. -/
theorem Offer.eq_frame {o : Offer} {body : ByteArray} (h : o.body? = some body) :
    o = .frame body := by
  cases o with
  | frame body' => exact congrArg frame (Option.some.inj h)
  | failure e => cases h
  | nothing => cases h

/-- What the pending bytes have for the first in line. -/
def prospect (i : Inbox) : Offer :=
  .due (Frame.bodies i.pending) (Frame.ending i.pending) i.ending

/-- An inbox after one attempt at reading: it has lost the frame that was handed out, if one was,
and is otherwise what it was, up to the line and how much of the pending bytes is in the buffer. -/
structure Handed (body? : Option ByteArray) (i j : Inbox) : Prop where
  pending : i.pending = Frame.joined body?.toList ++ j.pending
  short : ∀ body ∈ body?, body.size ≤ Frame.maxLength
  ending : j.ending = i.ending

theorem Handed.ended {body? : Option ByteArray} {j : Inbox} (h : Handed body? i j) :
    j.ended = i.ended :=
  congrArg Option.isSome h.ending

/-- A stream that goes on is not over in any way. -/
theorem ending_of_flows (h : i.ended = false) : i.ending = none :=
  Option.not_isSome_iff_eq_none.mp (Bool.eq_false_iff.mp h)

/-- **What is handed out joins what has been taken of a stream.** -/
theorem Handed.stream {body? : Option ByteArray} {j : Inbox} (h : Handed body? i j)
    {stream : ByteArray} {taken : List ByteArray}
    (hstream : stream = Frame.joined taken ++ i.pending)
    (hshort : ∀ body ∈ taken, body.size ≤ Frame.maxLength) :
    stream = Frame.joined (taken ++ body?.toList) ++ j.pending ∧
      ∀ body ∈ taken ++ body?.toList, body.size ≤ Frame.maxLength := by
  refine ⟨?_, List.forall_mem_append.mpr
    ⟨hshort, fun body hbody => h.short body (Option.mem_toList.mp hbody)⟩⟩
  rw [hstream, h.pending, Frame.joined_append, ByteArray.append_assoc]

theorem prospect_of_split {body : ByteArray} {n : Nat}
    (h : Frame.split i.pending = .ok (body, n)) : i.prospect = .frame body := by
  obtain ⟨hbody, -, hpending⟩ := Frame.wrap_of_split h
  rw [prospect, hpending, (Frame.bodies_wrap_append hbody _).1]
  rfl

theorem prospect_of_error {fault : Frame.Fault} (h : Frame.split i.pending = .error fault) :
    i.prospect = .due [] fault i.ending := by
  obtain ⟨hbodies, hending⟩ := Frame.bodies_of_error h
  rw [prospect, hbodies, hending]

/-- **Where the stream is one of frames**, no failure is due. -/
theorem whole_prospect (hflows : i.ended = false) {more : ByteArray}
    (hwhole : Frame.ending (i.pending ++ more) = .needMore) (e : LinkError) :
    i.prospect ≠ .failure e := by
  rw [prospect, ending_of_flows hflows]
  cases hending : Frame.ending i.pending with
  | needMore => cases Frame.bodies i.pending <;> nofun
  | tooLarge n =>
    exact nomatch hwhole.symm.trans (Frame.ending_append_of_tooLarge hending more).2

/-- Cutting a frame out of the buffer takes it off the pending bytes. -/
theorem handed_of_cut {body : ByteArray} {n : Nat} (h : Frame.split i.buffer = .ok (body, n)) :
    Handed body i { i with buffer := i.buffer.extract n i.buffer.size } := by
  obtain ⟨hbody, -, hbuffer⟩ := Frame.wrap_of_split h
  refine ⟨?_, fun _ hb => Option.mem_some.mp hb ▸ hbody, rfl⟩
  change i.buffer ++ i.unread = Frame.wrap body ++ .empty ++ (_ ++ i.unread)
  rw [ByteArray.append_empty, ← ByteArray.append_assoc, ← hbuffer]

/-- An inbox from which nothing is handed out. -/
theorem handed_none {j : Inbox} (hpending : j.pending = i.pending) (hover : j.ending = i.ending) :
    Handed none i j := by
  refine ⟨?_, (fun _ hb => nomatch hb), hover⟩
  rw [hpending]
  exact ByteArray.empty_append.symm

theorem pending_fill (i : Inbox) : i.fill.pending = i.pending := ByteArray.append_empty

theorem pending_arrive (bytes : ByteArray) (i : Inbox) :
    (i.arrive bytes).pending = if i.ended then i.pending else i.pending ++ bytes := by
  unfold arrive
  split
  · rfl
  · exact ByteArray.append_assoc.symm

/-- **What is taken is what the pending bytes have**, wherever the buffer ends. -/
theorem take_spec (i : Inbox) :
    i.take.1 = i.prospect ∧ Handed i.take.1.body? i i.take.2 := by
  cases hbuffer : Frame.split i.buffer with
  | ok p =>
    obtain ⟨body, n⟩ := p
    have htake : i.take = (.frame body, { i with buffer := i.buffer.extract n i.buffer.size }) := by
      simp only [take, cut, hbuffer]
    rw [htake]
    exact ⟨(prospect_of_split (Frame.split_append_of_ok hbuffer i.unread)).symm,
      handed_of_cut hbuffer⟩
  | error fault =>
    cases fault with
    | tooLarge n =>
      have htake : i.take = (.failure (.decode (.tooLarge n)), i) := by
        simp only [take, cut, hbuffer]
      rw [htake]
      exact ⟨(prospect_of_error (Frame.split_append_of_tooLarge hbuffer i.unread)).symm,
        handed_none rfl rfl⟩
    | needMore =>
      -- only now are the unread bytes looked at, and the filled buffer is all there is
      cases hpending : Frame.split i.pending with
      | ok p =>
        obtain ⟨body, n⟩ := p
        have hfill : Frame.split i.fill.buffer = .ok (body, n) := hpending
        have htake : i.take = (.frame body,
            { i.fill with buffer := i.fill.buffer.extract n i.fill.buffer.size }) := by
          simp only [take, cut, hbuffer, hfill]
        have hcut := handed_of_cut hfill
        rw [htake]
        exact ⟨(prospect_of_split hpending).symm,
          pending_fill i ▸ hcut.pending, hcut.short, hcut.ending⟩
      | error fault =>
        have hfill : Frame.split i.fill.buffer = .error fault := hpending
        cases fault with
        | tooLarge n =>
          have htake : i.take = (.failure (.decode (.tooLarge n)), i.fill) := by
            simp only [take, cut, hbuffer, hfill]
          rw [htake]
          exact ⟨(prospect_of_error hpending).symm,
            handed_none (pending_fill i) rfl⟩
        | needMore =>
          have htake : i.take = (.short i.ending, i.fill) := by
            simp only [take, cut, hbuffer, hfill]
            rfl
          rw [htake, prospect_of_error hpending]
          have hnone : (Offer.short i.ending).body? = none := by
            cases i.ending <;> rfl
          exact ⟨rfl, hnone ▸ handed_none (pending_fill i) rfl⟩

theorem line_cut (i : Inbox) : i.cut.2.line = i.line := by
  unfold cut
  split <;> rfl

theorem line_take (i : Inbox) : i.take.2.line = i.line := by
  have hcut := line_cut i
  unfold take
  split
  · next j heq =>
    rw [heq] at hcut
    have hfill := line_cut j.fill
    split
    · next k heq' =>
      rw [heq'] at hfill
      exact hfill.trans hcut
    · exact hfill.trans hcut
  · exact hcut

/-! ## The line -/

/-- It is this call's turn, or will be as soon as it asks. -/
def FirstInLine (id : CallId) (i : Inbox) : Prop := (i.join id).line.head? = some id

instance (id : CallId) (i : Inbox) : Decidable (i.FirstInLine id) :=
  inferInstanceAs (Decidable (_ = _))

/-- A call finds its turn where no other call stands in line. -/
theorem firstInLine_of_alone {id : CallId} (h : ∀ other ∈ i.line, other = id) :
    i.FirstInLine id := by
  unfold FirstInLine join
  split
  · next hmem =>
    obtain ⟨first, rest, hline⟩ := List.exists_cons_of_ne_nil (List.ne_nil_of_mem hmem)
    have hfirst : first = id := h first (by simp [hline])
    rw [hline, hfirst]
    rfl
  · next hmem =>
    have hline : i.line = [] :=
      List.eq_nil_iff_forall_not_mem.mpr fun other ho => hmem (h other ho ▸ ho)
    rw [hline]
    rfl

theorem pending_join (id : CallId) (i : Inbox) : (i.join id).pending = i.pending := by
  unfold join
  split <;> rfl

theorem ending_join (id : CallId) (i : Inbox) : (i.join id).ending = i.ending := by
  unfold join
  split <;> rfl

theorem handed_join (id : CallId) (i : Inbox) : i.Handed none (i.join id) :=
  handed_none (pending_join id i) (ending_join id i)

theorem Handed.of_join {id : CallId} {body? : Option ByteArray} {j : Inbox}
    (h : Handed body? (i.join id) j) : Handed body? i j :=
  ⟨(pending_join id i).symm.trans h.pending, h.short, h.ending.trans (ending_join id i)⟩

theorem Handed.leave {body? : Option ByteArray} {j : Inbox} (h : Handed body? i j)
    (id : CallId) : Handed body? i (j.leave id) :=
  ⟨h.pending, h.short, h.ending⟩

theorem mem_line_join {id other : CallId} (h : other ∈ (i.join id).line) :
    other ∈ i.line ∨ other = id := by
  unfold join at h
  split at h
  · exact Or.inl h
  · simpa using h

theorem mem_line_leave {id other : CallId} (h : other ∈ (i.leave id).line) : other ∈ i.line :=
  (List.mem_filter.mp h).1

end Inbox

/-! ## Reading -/

namespace Link

variable {l : Link} {ch : Channel}

@[simp] theorem inbox_setInbox (c ch : Channel) (i : Inbox) (l : Link) :
    (l.setInbox c i).inbox ch = if c = ch then i else l.inbox ch := by
  cases c <;> cases ch <;> rfl

@[simp] theorem closing_setInbox (c : Channel) (i : Inbox) (l : Link) :
    (l.setInbox c i).closing = l.closing := by
  cases c <;> rfl

@[simp] theorem inbox_setOutbox (c ch : Channel) (o : Outbox) (l : Link) :
    (l.setOutbox c o).inbox ch = l.inbox ch := by
  cases c <;> cases ch <;> rfl

@[simp] theorem closing_setOutbox (c : Channel) (o : Outbox) (l : Link) :
    (l.setOutbox c o).closing = l.closing := by
  cases c <;> rfl

@[simp] theorem inbox_abandon (id : CallId) (ch : Channel) (l : Link) :
    (l.abandon id).inbox ch = (l.inbox ch).leave id := by
  cases ch <;> rfl

@[simp] theorem outbox_abandon (id : CallId) (ch : Channel) (l : Link) :
    (l.abandon id).outbox ch = (l.outbox ch).leave id := by
  cases ch <;> rfl

theorem setInbox_inbox (c : Channel) (l : Link) : l.setInbox c (l.inbox c) = l := by
  cases c <;> rfl

theorem setOutbox_outbox (c : Channel) (l : Link) : l.setOutbox c (l.outbox c) = l := by
  cases c <;> rfl

/-- **A step of sending changes the sending half of its channel at most.** -/
theorem write_spec (id : CallId) (c : Channel) (x : Writing) (l : Link) :
    ∃ o, (l.write id c x).1 = l.setOutbox c o := by
  have hsame : ∃ o, l = l.setOutbox c o := ⟨_, (setOutbox_outbox c l).symm⟩
  unfold write
  cases x with
  | start body =>
    dsimp only
    split
    · exact hsame
    · split
      · exact hsame
      · split
        · exact hsame
        · exact ⟨_, rfl⟩
  | queueing frame =>
    dsimp only
    split
    · exact ⟨_, rfl⟩
    · split
      · exact ⟨_, rfl⟩
      · exact hsame
  | handed number =>
    dsimp only
    split
    · exact ⟨_, rfl⟩
    · exact ⟨_, rfl⟩
    · exact hsame

/-- What a call whose turn it is hears: the offer, or that it has to wait. -/
def Reading.of (expired : Bool) : Inbox.Offer → Reading
  | .frame body => .frame body
  | .failure e => .failure e
  | .nothing => if expired then .timedOut else .inLine

/-- The frame that an attempt brought, if it brought one. -/
def Reading.body? : Reading → Option ByteArray
  | .frame body => some body
  | .failure _ => none
  | .timedOut => none
  | .inLine => none

/-- **A call whose turn it is hears what is due**, whether or not its time is up. -/
theorem read_of_first {id : CallId} (hopen : l.closing = false)
    (hfirst : (l.inbox ch).FirstInLine id) (expired : Bool) :
    (l.read id expired ch).1 = .of expired (l.inbox ch).prospect := by
  have hoffer : ((l.inbox ch).join id).take.1 = (l.inbox ch).prospect := by
    rw [(Inbox.take_spec _).1, Inbox.prospect, Inbox.prospect, Inbox.pending_join,
      Inbox.ending_join]
  have hhead : ((l.inbox ch).join id).line.head? = some id := hfirst
  rw [← hoffer]
  unfold read
  simp only [hopen, hhead, if_true, Bool.false_eq_true, if_false]
  split
  · next htake => rw [htake]; rfl
  · next htake => rw [htake]; rfl
  · next htake =>
    rw [htake]
    cases expired <;> rfl

/-- **Whoever reads, the inbox loses what is handed out and nothing else.** -/
theorem read_spec (id : CallId) (expired : Bool) (ch : Channel) (l : Link) :
    ∃ i, (l.read id expired ch).2 = l.setInbox ch i ∧
      (l.inbox ch).Handed (l.read id expired ch).1.body? i ∧
      ∀ other ∈ i.line, other ∈ (l.inbox ch).line ∨ other = id := by
  -- the call has got its answer, or its time is up: it leaves the line
  have hleaves {body? : Option ByteArray} {j : Inbox} (hj : (l.inbox ch).Handed body? j)
      (hline : ∀ other ∈ j.line, other ∈ (l.inbox ch).line ∨ other = id) :
      ∃ i, l.setInbox ch (j.leave id) = l.setInbox ch i ∧ (l.inbox ch).Handed body? i ∧
        ∀ other ∈ i.line, other ∈ (l.inbox ch).line ∨ other = id :=
    ⟨_, rfl, hj.leave id, fun other ho => hline other (Inbox.mem_line_leave ho)⟩
  have hjoin := Inbox.handed_join id (l.inbox ch)
  have hjoined (other : CallId) (ho : other ∈ ((l.inbox ch).join id).line) :
      other ∈ (l.inbox ch).line ∨ other = id := Inbox.mem_line_join ho
  obtain ⟨-, htake⟩ := Inbox.take_spec ((l.inbox ch).join id)
  have htaken := Inbox.line_take ((l.inbox ch).join id) ▸ hjoined
  unfold read
  split
  · exact hleaves (Inbox.handed_none rfl rfl) fun other ho => Or.inl ho
  · dsimp only
    split
    · split
      · next heq =>
        rw [heq] at htake htaken
        exact hleaves htake.of_join htaken
      · next heq =>
        rw [heq] at htake htaken
        exact hleaves htake.of_join htaken
      · next heq =>
        rw [heq] at htake htaken
        cases expired
        · exact ⟨_, rfl, htake.of_join, htaken⟩
        · exact hleaves htake.of_join htaken
    · cases expired
      · exact ⟨_, rfl, hjoin, hjoined⟩
      · exact hleaves hjoin hjoined

end Link

end SimRelay
