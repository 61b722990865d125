import SimRelay.Proofs.Link.Reading

/-!
# Proofs/Link/Reassembly — a stream comes out as its frames

Bytes come in chunks of any size at any time, calls ask, wait, run out of time and go away in any
order, and the reader may have taken in any part of what is there to read.  None of it matters:
what the calls on a channel have been handed, framed again, and what is pending are the stream
(`Watch.Conserves`).  So the bodies come out in order, one for each call whose turn it is, until the
stream is short of a frame; then it is the end of the stream or an excessive length that every call
hears of, for ever.  Where the stream breaks off, reading fails until it is found to have ended.
-/

namespace SimRelay

/-- Reads up to `n` of the unread bytes. -/
def Inbox.fillSome (n : Nat) (i : Inbox) : Inbox :=
  { i with
    buffer := i.buffer ++ i.unread.extract 0 n
    unread := i.unread.extract n i.unread.size }

theorem Inbox.pending_breakOff (text : String) (i : Inbox) :
    (i.breakOff text).pending = i.pending := by
  unfold breakOff
  split <;> rfl

theorem Inbox.line_breakOff (text : String) (i : Inbox) : (i.breakOff text).line = i.line := by
  unfold breakOff
  split <;> rfl

theorem Inbox.pending_fillSome (n : Nat) (i : Inbox) : (i.fillSome n).pending = i.pending := by
  change i.buffer ++ i.unread.extract 0 n ++ i.unread.extract n i.unread.size
    = i.buffer ++ i.unread
  rw [ByteArray.append_assoc, ByteArray.extract_append_extract, Nat.zero_min,
    ByteArray.extract_zero_max_size]

namespace Link

/-- What can happen to an open link.  A call is known by its id; it asks once or many times, and on
any attempt its time may be up. -/
inductive Event
  /-- The peer writes. -/
  | arrives (ch : Channel) (bytes : ByteArray)
  /-- The peer ends its stream. -/
  | ends (ch : Channel)
  /-- The stream breaks off. -/
  | breaks (ch : Channel) (text : String)
  /-- The reader takes in some of what there is to read. -/
  | fills (ch : Channel) (n : Nat)
  /-- A call attempts to read a frame. -/
  | asks (ch : Channel) (id : CallId) (expired : Bool)
  /-- A call is dropped. -/
  | drops (id : CallId)
  /-- A call gets on with sending. -/
  | sends (ch : Channel) (id : CallId) (w : Writing)
  deriving DecidableEq

/-- The call that is reading, or that was. -/
def Event.reader? : Event → Option CallId
  | .asks _ id _ => some id
  | .drops id => some id
  | _ => none

/-- A link, and what has gone through one of its channels. -/
structure Watch where
  link : Link
  /-- The stream that the peer has written. -/
  written : ByteArray
  /-- The bodies that calls have been handed. -/
  returned : List ByteArray := []

namespace Watch

/-- What is on its way when the watch begins belongs to the stream. -/
def start (ch : Channel) (l : Link) : Watch := { link := l, written := (l.inbox ch).pending }

def step (ch : Channel) (w : Watch) : Event → Watch
  | .arrives c bytes =>
    { w with
      link := w.link.setInbox c ((w.link.inbox c).arrive bytes)
      written := if c = ch ∧ ¬ (w.link.inbox ch).ended then w.written ++ bytes else w.written }
  | .ends c => { w with link := w.link.setInbox c (w.link.inbox c).finish }
  | .breaks c text => { w with link := w.link.setInbox c ((w.link.inbox c).breakOff text) }
  | .fills c n => { w with link := w.link.setInbox c ((w.link.inbox c).fillSome n) }
  | .asks c id expired =>
    { w with
      link := (w.link.read id expired c).2
      returned := w.returned ++
        if c = ch then (w.link.read id expired c).1.body?.toList else [] }
  | .drops id => { w with link := w.link.abandon id }
  | .sends c id x => { w with link := (w.link.write id c x).1 }

/-- A whole history. -/
def run (ch : Channel) (w : Watch) (es : List Event) : Watch := es.foldl (step ch) w

variable {ch : Channel} {w : Watch}

/-! ## The stream is conserved -/

/-- What was handed out, framed again, and what is pending are the stream. -/
structure Conserves (ch : Channel) (w : Watch) : Prop where
  isOpen : w.link.closing = false
  stream : w.written = Frame.joined w.returned ++ (w.link.inbox ch).pending
  short : ∀ body ∈ w.returned, body.size ≤ Frame.maxLength

theorem Conserves.start {l : Link} (hopen : l.closing = false) : (start ch l).Conserves ch :=
  ⟨hopen, ByteArray.empty_append.symm, fun _ h => nomatch h⟩

/-- A change that leaves the pending bytes of the channel alone. -/
theorem Conserves.of_pending {l : Link} (h : w.Conserves ch) (hopen : l.closing = false)
    (hpending : (l.inbox ch).pending = (w.link.inbox ch).pending) :
    Conserves ch { w with link := l } :=
  ⟨hopen, by rw [hpending]; exact h.stream, h.short⟩

/-- **No event loses or invents a byte.** -/
theorem Conserves.step (h : w.Conserves ch) (e : Event) : (w.step ch e).Conserves ch := by
  cases e with
  | arrives c bytes =>
    refine ⟨(closing_setInbox ..).trans h.isOpen, ?_, h.short⟩
    change (if c = ch ∧ ¬ (w.link.inbox ch).ended then w.written ++ bytes else w.written)
      = Frame.joined w.returned ++ ((w.link.setInbox c _).inbox ch).pending
    rw [inbox_setInbox]
    by_cases hc : c = ch
    · subst hc
      rw [if_pos rfl, Inbox.pending_arrive]
      cases (w.link.inbox c).ended
      · simp [h.stream, ByteArray.append_assoc]
      · simp [h.stream]
    · simp [hc, h.stream]
  | ends c =>
    refine h.of_pending ((closing_setInbox ..).trans h.isOpen) ?_
    rw [inbox_setInbox]
    split
    · next hc => subst hc; rfl
    · rfl
  | breaks c text =>
    refine h.of_pending ((closing_setInbox ..).trans h.isOpen) ?_
    rw [inbox_setInbox]
    split
    · next hc => subst hc; exact Inbox.pending_breakOff text _
    · rfl
  | fills c n =>
    refine h.of_pending ((closing_setInbox ..).trans h.isOpen) ?_
    rw [inbox_setInbox]
    split
    · next hc => subst hc; exact Inbox.pending_fillSome n _
    · rfl
  | asks c id expired =>
    obtain ⟨i, hlink, hhanded, -⟩ := read_spec id expired c w.link
    have hopen : (w.link.read id expired c).2.closing = false := by
      rw [hlink, closing_setInbox]
      exact h.isOpen
    by_cases hc : c = ch
    · subst hc
      obtain ⟨hstream, hshort⟩ := hhanded.stream h.stream h.short
      refine ⟨hopen, ?_, ?_⟩
      · simp only [Watch.step, if_true, hlink, inbox_setInbox]
        exact hstream
      · simp only [Watch.step, if_true]
        exact hshort
    · have hsame : (w.link.read id expired c).2.inbox ch = w.link.inbox ch := by
        rw [hlink, inbox_setInbox, if_neg hc]
      simp only [Watch.step, if_neg hc, List.append_nil]
      exact h.of_pending hopen (by rw [hsame])
  | drops id =>
    refine h.of_pending ?_ ?_
    · exact h.isOpen
    · rw [inbox_abandon]
      rfl
  | sends c id x =>
    obtain ⟨o, hlink⟩ := write_spec id c x w.link
    refine h.of_pending ?_ ?_
    · rw [hlink, closing_setOutbox]
      exact h.isOpen
    · rw [hlink, inbox_setOutbox]

/-- **…and so it is over a whole history.** -/
theorem Conserves.run (h : w.Conserves ch) (es : List Event) : (w.run ch es).Conserves ch := by
  induction es generalizing w with
  | nil => exact h
  | cons e es ih => exact ih (h.step e)

/-- The bodies of the stream are those handed out and then those pending. -/
theorem Conserves.bodies_written (h : w.Conserves ch) :
    Frame.bodies w.written = w.returned ++ Frame.bodies (w.link.inbox ch).pending ∧
      Frame.ending w.written = Frame.ending (w.link.inbox ch).pending := by
  rw [h.stream]
  exact Frame.bodies_joined_append _ _ h.short

/-- **What a call whose turn it is hears can be told from the stream alone**, and from how many
bodies have been handed out. -/
theorem Conserves.read (h : w.Conserves ch) {id : CallId}
    (hfirst : (w.link.inbox ch).FirstInLine id) (expired : Bool) :
    (w.link.read id expired ch).1 = .of expired
      (.due ((Frame.bodies w.written).drop w.returned.length) (Frame.ending w.written)
        (w.link.inbox ch).ending) := by
  obtain ⟨hbodies, hending⟩ := h.bodies_written
  rw [read_of_first h.isOpen hfirst, Inbox.prospect, hbodies, hending, List.drop_left]

/-! ## The end of a stream is final -/

/-- A stream that is over stays over, and one that has ended in order has ended for good. -/
def Outlasts (o o' : Option StreamEnd) : Prop :=
  ∀ e, o = some e → ∃ e', o' = some e' ∧ (e = .finished → e' = .finished)

theorem Outlasts.refl (o : Option StreamEnd) : Outlasts o o := fun e h => ⟨e, h, id⟩

theorem Outlasts.trans {o o' o'' : Option StreamEnd} (h : Outlasts o o') (h' : Outlasts o' o'') :
    Outlasts o o'' := fun e he => by
  obtain ⟨e', he', hfinished⟩ := h e he
  obtain ⟨e'', he'', hfinished'⟩ := h' e' he'
  exact ⟨e'', he'', hfinished' ∘ hfinished⟩

theorem outlasts_breakOff (text : String) (i : Inbox) :
    Outlasts i.ending (i.breakOff text).ending := by
  unfold Inbox.breakOff
  split
  · exact .refl _
  · next hgoes => exact fun e he => ⟨_, rfl, fun hfinished => absurd (hfinished ▸ he) hgoes⟩

/-- What is written and what is handed out only grow; behind the end of the stream nothing more is
written. -/
structure Extends (ch : Channel) (w w' : Watch) : Prop where
  written : ∃ more, w'.written = w.written ++ more
  returned : w.returned <+: w'.returned
  ending : Outlasts (w.link.inbox ch).ending (w'.link.inbox ch).ending
  final : (w.link.inbox ch).ended → w'.written = w.written

theorem Extends.refl (ch : Channel) (w : Watch) : w.Extends ch w :=
  ⟨⟨.empty, ByteArray.append_empty.symm⟩, List.prefix_rfl, .refl _, fun _ => rfl⟩

/-- An end that outlasts another is one. -/
theorem Outlasts.ended {i j : Inbox} (h : Outlasts i.ending j.ending) (hend : i.ended) :
    j.ended := by
  obtain ⟨e, he⟩ := Option.isSome_iff_exists.mp hend
  obtain ⟨e', he', -⟩ := h e he
  exact Option.isSome_iff_exists.mpr ⟨e', he'⟩

theorem Extends.trans {w' w'' : Watch} (h : w.Extends ch w') (h' : w'.Extends ch w'') :
    w.Extends ch w'' := by
  obtain ⟨more, hmore⟩ := h.written
  obtain ⟨more', hmore'⟩ := h'.written
  refine ⟨⟨more ++ more', ?_⟩, h.returned.trans h'.returned, h.ending.trans h'.ending,
    fun hend => ?_⟩
  · rw [hmore', hmore, ByteArray.append_assoc]
  · exact (h'.final (h.ending.ended hend)).trans (h.final hend)

/-- A change of the link that does not undo the end of the stream. -/
theorem Extends.of_ending {l : Link} (h : Outlasts (w.link.inbox ch).ending (l.inbox ch).ending) :
    w.Extends ch { w with link := l } :=
  ⟨⟨.empty, ByteArray.append_empty.symm⟩, List.prefix_rfl, h, fun _ => rfl⟩

/-- A change of one inbox does not undo the end of another. -/
theorem outlasts_setInbox {l : Link} {c : Channel} {i : Inbox}
    (h : Outlasts (l.inbox c).ending i.ending) :
    Outlasts (l.inbox ch).ending ((l.setInbox c i).inbox ch).ending := by
  rw [inbox_setInbox]
  split
  · next hc => exact hc ▸ h
  · exact .refl _

theorem extends_step (w : Watch) (e : Event) : w.Extends ch (w.step ch e) := by
  cases e with
  | arrives c bytes =>
    have harrive : Outlasts (w.link.inbox c).ending ((w.link.inbox c).arrive bytes).ending := by
      unfold Inbox.arrive
      split <;> exact .refl _
    refine ⟨?_, List.prefix_rfl, outlasts_setInbox harrive, fun hend => if_neg fun hc => hc.2 hend⟩
    simp only [Watch.step]
    split
    · exact ⟨bytes, rfl⟩
    · exact ⟨.empty, ByteArray.append_empty.symm⟩
  | ends c => exact .of_ending (outlasts_setInbox fun e _ => ⟨.finished, rfl, fun _ => rfl⟩)
  | breaks c text => exact .of_ending (outlasts_setInbox (outlasts_breakOff text _))
  | fills c n => exact .of_ending (outlasts_setInbox (.refl _))
  | asks c id expired =>
    obtain ⟨i, hlink, hhanded, -⟩ := read_spec id expired c w.link
    refine ⟨⟨.empty, ByteArray.append_empty.symm⟩, ⟨_, rfl⟩, ?_, fun _ => rfl⟩
    change Outlasts _ ((w.link.read id expired c).2.inbox ch).ending
    rw [hlink]
    exact outlasts_setInbox (hhanded.ending ▸ .refl _)
  | drops id =>
    refine .of_ending ?_
    rw [inbox_abandon]
    exact .refl _
  | sends c id x =>
    obtain ⟨o, hlink⟩ := write_spec id c x w.link
    refine .of_ending ?_
    rw [hlink, inbox_setOutbox]
    exact .refl _

theorem extends_run (w : Watch) (es : List Event) : w.Extends ch (w.run ch es) := by
  induction es generalizing w with
  | nil => exact .refl ch w
  | cons e es ih => exact (extends_step w e).trans (ih _)

/-- Nothing more can come: the stream is over in this way, or the peer has announced too long a
frame. -/
def Final (ch : Channel) (e : StreamEnd) (w : Watch) : Prop :=
  (w.link.inbox ch).ending = some e ∨ ∃ n, Frame.ending w.written = .tooLarge n

/-- What a call hears when there is no frame left and none can come. -/
def lastWord : Frame.Fault → StreamEnd → LinkError
  | .tooLarge n, _ => .decode (.tooLarge n)
  | .needMore, e => e.error

theorem Final.extends {w' : Watch} {e : StreamEnd} (hfinal : w.Final ch e) (h : w.Extends ch w') :
    (∃ e', (e = .finished → e' = .finished) ∧ w'.Final ch e') ∧
      Frame.bodies w'.written = Frame.bodies w.written ∧
      Frame.ending w'.written = Frame.ending w.written := by
  rcases hfinal with hend | ⟨n, hn⟩
  · obtain ⟨e', he', hfinished⟩ := h.ending e hend
    rw [h.final (Option.isSome_iff_exists.mpr ⟨e, hend⟩)]
    exact ⟨⟨e', hfinished, Or.inl he'⟩, rfl, rfl⟩
  · obtain ⟨more, hmore⟩ := h.written
    obtain ⟨hbodies, hending⟩ := Frame.ending_append_of_tooLarge hn more
    rw [hmore, hn]
    exact ⟨⟨e, id, Or.inr ⟨n, hmore ▸ hending⟩⟩, hbodies, hending⟩

/-- **Once the last body is out and none can come, every call hears why**, and no body comes out
any more. -/
theorem Conserves.read_final {w' : Watch} {e : StreamEnd} (h : w'.Conserves ch)
    (hfinal : w.Final ch e) (hall : w.returned = Frame.bodies w.written)
    (hext : w.Extends ch w') :
    ∃ e', (e = .finished → e' = .finished) ∧ w'.returned = w.returned ∧
      ∀ id expired, (w'.link.inbox ch).FirstInLine id →
        (w'.link.read id expired ch).1 = .failure (lastWord (Frame.ending w.written) e') := by
  obtain ⟨⟨e', hlasts, hfinal'⟩, hbodies, hending⟩ := hfinal.extends hext
  obtain ⟨hwritten, -⟩ := h.bodies_written
  have hreturned : w'.returned = w.returned := by
    obtain ⟨extra, hextra⟩ := hext.returned
    rw [hbodies, ← hall, ← hextra, List.append_assoc] at hwritten
    obtain ⟨hnil, -⟩ := List.append_eq_nil_iff.mp (List.self_eq_append_right.mp hwritten)
    rw [← hextra, hnil, List.append_nil]
  refine ⟨e', hlasts, hreturned, fun id expired hfirst => ?_⟩
  rw [h.read hfirst, hbodies, hreturned, hall, List.drop_length, hending]
  rcases hfinal' with hend | ⟨n, hn⟩
  · rw [hend]
    cases Frame.ending w.written <;> rfl
  · rw [← hending, hn]
    rfl

/-! ## Whose turn it is -/

/-- Only a call that reads gets into a line. -/
theorem mem_line_step {e : Event} {other : CallId}
    (h : other ∈ ((w.step ch e).link.inbox ch).line) :
    other ∈ (w.link.inbox ch).line ∨ e.reader? = some other := by
  -- every event but a reading replaces the inbox of one channel by one with the same line
  have hkept {l : Link} {c : Channel} {i : Inbox} (hline : i.line = (l.inbox c).line)
      (hmem : other ∈ ((l.setInbox c i).inbox ch).line) : other ∈ (l.inbox ch).line := by
    rw [inbox_setInbox] at hmem
    split at hmem
    · next hc => exact hc ▸ hline ▸ hmem
    · exact hmem
  cases e with
  | arrives c bytes =>
    refine Or.inl (hkept ?_ h)
    unfold Inbox.arrive
    split <;> rfl
  | ends c =>
    refine Or.inl (hkept ?_ h)
    rfl
  | breaks c text => exact Or.inl (hkept (Inbox.line_breakOff text _) h)
  | fills c n =>
    refine Or.inl (hkept ?_ h)
    rfl
  | asks c id expired =>
    obtain ⟨i, hlink, -, hline⟩ := read_spec id expired c w.link
    change other ∈ ((w.link.read id expired c).2.inbox ch).line at h
    rw [hlink, inbox_setInbox] at h
    split at h
    · next hc =>
      subst hc
      exact (hline other h).imp_right fun heq => congrArg some heq.symm
    · exact Or.inl h
  | drops id =>
    change other ∈ ((w.link.abandon id).inbox ch).line at h
    rw [inbox_abandon] at h
    exact Or.inl (Inbox.mem_line_leave h)
  | sends c id x =>
    obtain ⟨o, hlink⟩ := write_spec id c x w.link
    change other ∈ ((w.link.write id c x).1.inbox ch).line at h
    rw [hlink, inbox_setOutbox] at h
    exact Or.inl h

/-- **Calls that come one after another never stand in each other's way.** -/
theorem alone_run {id : CallId} {es : List Event}
    (hes : ∀ e ∈ es, e.reader? = none ∨ e.reader? = some id)
    (h : ∀ other ∈ (w.link.inbox ch).line, other = id) :
    ∀ other ∈ ((w.run ch es).link.inbox ch).line, other = id := by
  induction es generalizing w with
  | nil => exact h
  | cons e es ih =>
    obtain ⟨he, hes⟩ := List.forall_mem_cons.mp hes
    refine ih hes fun other ho => ?_
    rcases mem_line_step ho with hmem | hreader
    · exact h other hmem
    · rcases he with hnone | hsome
      · exact nomatch hnone.symm.trans hreader
      · exact (Option.some.inj (hsome.symm.trans hreader)).symm

/-! ## Reassembly -/

/-- **A stream comes out as its frames, whatever its chunks and whatever the calls.**  At any moment
of any history, the bodies handed out, framed again, the buffer and the unread bytes are the
stream.  The bodies are the first of the whole stream, in order, whatever is still to come.  A call
whose turn it is, and where calls come one after another that is any call, hears what the stream
has next, even if its time is up.  When all bodies are out and the stream is over, or the peer has
announced too long a frame, every later call hears of that, and of an end in order for good. -/
theorem reassembly (ch : Channel) {l : Link} (hopen : l.closing = false) (es : List Event) :
    let w := (start ch l).run ch es
    (w.written = Frame.joined w.returned ++ (w.link.inbox ch).buffer ++ (w.link.inbox ch).unread) ∧
    (∀ body ∈ w.returned, Frame.encode body = .ok (Frame.wrap body)) ∧
    (∀ more, w.returned <+: Frame.bodies (w.written ++ more)) ∧
    (∀ id expired, (w.link.inbox ch).FirstInLine id →
      (w.link.read id expired ch).1 = .of expired
        (.due ((Frame.bodies w.written).drop w.returned.length) (Frame.ending w.written)
          (w.link.inbox ch).ending)) ∧
    (∀ id, (l.inbox ch).line = [] → (∀ e ∈ es, e.reader? = none ∨ e.reader? = some id) →
      (w.link.inbox ch).FirstInLine id) ∧
    (∀ e, w.Final ch e → w.returned = Frame.bodies w.written → ∀ more : List Event,
      ∃ e', (e = .finished → e' = .finished) ∧ (w.run ch more).returned = w.returned ∧
      ∀ id expired, ((w.run ch more).link.inbox ch).FirstInLine id →
        ((w.run ch more).link.read id expired ch).1
          = .failure (lastWord (Frame.ending w.written) e')) := by
  intro w
  have hw : w.Conserves ch := (Conserves.start hopen).run es
  refine ⟨?_, fun body hb => Frame.encode_eq_wrap (hw.short body hb), fun more => ?_,
    fun id expired hfirst => hw.read hfirst expired, fun id hline hes => ?_,
    fun e hfinal hall more => (hw.run more).read_final hfinal hall (extends_run w more)⟩
  · rw [ByteArray.append_assoc]
    exact hw.stream
  · have hprefix : w.returned <+: Frame.bodies w.written := ⟨_, hw.bodies_written.1.symm⟩
    exact hprefix.trans (Frame.bodies_prefix_append w.written more)
  · refine Inbox.firstInLine_of_alone (alone_run hes fun other ho => ?_)
    rw [show ((start ch l).link.inbox ch).line = [] from hline] at ho
    exact nomatch ho

/-- A frame of two bytes, cut inside its length, before a length of four gigabytes: a call runs out
of time, the next is dropped in mid-frame, the third gets the body, and from then on calls fail. -/
theorem reassembly_cut :
    let es := [Event.arrives .recv ⟨#[2, 0, 0]⟩, .asks .recv 0 true, .arrives .recv ⟨#[0, 7]⟩,
      .asks .recv 1 false, .drops 1, .arrives .recv ⟨#[8, 255, 255, 255, 255]⟩,
      .fills .recv 2, .asks .recv 2 false]
    ({} : Link).closing = false ∧ ((start .recv {}).run .recv es).returned = [⟨#[7, 8]⟩] ∧
      (((start .recv {}).run .recv es).link.read 3 false .recv).1
        = .failure (.decode (.tooLarge 4294967295)) := by
  intro es
  have hreturned : ((start .recv {}).run .recv es).returned = [⟨#[7, 8]⟩] := by decide
  have hfirst : (((start .recv {}).run .recv es).link.inbox .recv).FirstInLine 3 := by decide
  have hwritten : ((start .recv {}).run .recv es).written
      = Frame.joined [⟨#[7, 8]⟩] ++ ⟨#[255, 255, 255, 255]⟩ := by decide
  have hrest : Frame.split ⟨#[255, 255, 255, 255]⟩ = .error (.tooLarge 4294967295) := by rfl
  obtain ⟨-, -, -, hread, -⟩ := reassembly .recv (l := {}) rfl es
  obtain ⟨hbodies, hending⟩ := Frame.bodies_joined_append ⟨#[255, 255, 255, 255]⟩
    [⟨#[7, 8]⟩] (by decide)
  obtain ⟨hnone, hlast⟩ := Frame.bodies_of_error hrest
  rw [← hwritten, hnone] at hbodies
  rw [← hwritten, hlast] at hending
  refine ⟨rfl, hreturned, ?_⟩
  rw [hread 3 false hfirst, hbodies, hending, hreturned]
  rfl

end Watch

end Link

end SimRelay
