import SimRelay.Proofs.Call.Episode
import SimRelay.Proofs.Link.Relaying

/-!
# Proofs/Link/Dispatch — sends that may be dropped put whole frames on the wire, in order

A `Dispatch` is a link with any number of sends, each of them in flight, over or dropped.  A send is
told in finer steps than `Link.write` (`Link.dispatch`): it may be dropped, and anything else may
happen, also while it waits for the lock of its channel.  Beside the sends, the link is closed and
read, and writers get on or fail.

All that one event does to an outbox and the row of what was handed to it is one of six moves
(`Outbox.Moves`), and the accounts of the row (`Outbox.Sound`) and of each send (`Send.Stands`) are
kept by each of them.
-/

namespace SimRelay

namespace Link

/-- How far a send is. -/
inductive Sending
  | begun (body : ByteArray)
  /-- The frame is there; the call waits for the lock of its channel. -/
  | admitted (frame : ByteArray)
  | writing (w : Writing)

/-- One step of a send, between two places where it may be dropped. -/
def dispatch (id : CallId) (ch : Channel) (x : Sending) (l : Link) :
    Link × Progress LinkError Sending Unit :=
  match x with
  | .begun body =>
    if l.closing then (l, .ends (.error .closed))
    else match Frame.encode body with
      | .error e => (l, .ends (.error (.encode e)))
      | .ok frame => (l, .goes (.admitted frame))
  | .admitted frame =>
    if (l.outbox ch).shut then (l, .ends (.error .closed))
    else (l.setOutbox ch ((l.outbox ch).enter id), .goes (.writing (.queueing frame)))
  | .writing w => ((l.write id ch w).1, (l.write id ch w).2.within .writing)

/-- **A step of writing that starts is two steps of a send** with nothing in between. -/
theorem write_start_eq_dispatch (id : CallId) (ch : Channel) (body : ByteArray) (l : Link) :
    ((l.write id ch (.start body)).1, (l.write id ch (.start body)).2.within .writing)
      = match l.dispatch id ch (.begun body) with
        | (l, .goes x) => l.dispatch id ch x
        | ended => ended := by
  unfold write
  dsimp only [dispatch]
  split
  · rfl
  · cases Frame.encode body with
    | error e => rfl
    | ok frame =>
      dsimp only [dispatch]
      split
      · rfl
      · rfl

/-- Closing shuts an outbox, or leaves it as it was. -/
theorem outbox_close_cases (id : CallId) (c : Closing) (ch : Channel) (l : Link) :
    (l.close id c).1.outbox ch = l.outbox ch ∨
      (l.close id c).1.outbox ch = { l.outbox ch with shut := true } := by
  unfold close
  split
  · split
    · exact .inl rfl
    · exact .inl (by cases ch <;> rfl)
  · exact .inl rfl
  · next first rest =>
    have hshut (i : Inbox) :
        ((l.setOutbox first { l.outbox first with shut := true }).setInbox first i).outbox ch
            = l.outbox ch ∨
          ((l.setOutbox first { l.outbox first with shut := true }).setInbox first i).outbox ch
            = { l.outbox ch with shut := true } := by
      rw [outbox_setInbox, outbox_setOutbox]
      split
      · next heq => exact .inr (heq ▸ rfl)
      · exact .inl rfl
    dsimp only
    split
    · exact hshut _
    · exact hshut _

end Link

/-! ## One outbox -/

namespace Outbox

variable {o o' : Outbox} {row row' : List (CallId × ByteArray)} {actor : Option CallId}

/-- **All that can happen to an outbox and the row of what was handed to it**, when this call takes
a step or no call does. -/
inductive Moves (actor : Option CallId) (row : List (CallId × ByteArray)) (o : Outbox) :
    List (CallId × ByteArray) → Outbox → Prop
  | stays : Moves actor row o row o
  | acts (a : Act) : Moves actor row o row (o.act a)
  | shuts : Moves actor row o row { o with shut := true }
  | enters (id : CallId) (hactor : actor = some id) (hopen : o.shut = false) :
      Moves actor row o row (o.enter id)
  | leaves (id : CallId) (hactor : actor = some id) : Moves actor row o row (o.leave id)
  | offers (id : CallId) (body : ByteArray) (number : Nat) (o' : Outbox)
      (hactor : actor = some id) (hsends : id ∈ o.senders) (hgoing : o.stopped = none)
      (hnew : id ∉ row.map Prod.fst) (hsize : body.size ≤ Frame.maxLength)
      (hoffer : o.offer (Frame.wrap body) = some (number, o')) :
      Moves actor row o (row ++ [(id, body)]) o'

/-- The account of a row: its frames are relayed, no call is in it twice, and the stream ends where
nothing more can come. -/
structure Sound (row : List (CallId × ByteArray)) (o : Outbox) : Prop where
  relays : o.Relays (row.map Prod.snd)
  once : (row.map Prod.fst).Nodup
  short : ∀ p ∈ row, p.2.size ≤ Frame.maxLength
  ends : o.Ends

theorem sound_new : Sound [] {} :=
  ⟨relays_new, .nil, fun _ h => absurd h List.not_mem_nil, fun h => absurd h Bool.false_ne_true⟩

/-- A frame is lost with the writer's error, or because the channel is closed. -/
theorem error_of_fate {number : Nat} {e : LinkError} (hfate : o.fate number = .lost e) :
    (∃ text, e = .io text) ∨ e = .closed := by
  unfold fate at hfate
  split at hfate
  · cases hfate
  · split at hfate
    · cases hfate
    · split at hfate
      · exact .inl ⟨_, (Fate.lost.inj hfate).symm⟩
      · exact .inr (Fate.lost.inj hfate).symm

/-- **Each move keeps the account.** -/
theorem Sound.moves (h : o.Sound row) (hmove : Moves actor row o row' o') : o'.Sound row' := by
  cases hmove with
  | stays => exact h
  | acts a => exact ⟨h.relays.act a, h.once, h.short, h.ends.act a⟩
  | shuts =>
    refine ⟨h.relays.shut, h.once, h.short, fun hended => ?_⟩
    obtain ⟨-, hsenders, hqueue, hhand, hgoing⟩ := h.ends hended
    exact ⟨rfl, hsenders, hqueue, hhand, hgoing⟩
  | enters id _ hopen =>
    refine ⟨h.relays.enter id, h.once, h.short, ?_⟩
    obtain ⟨senders, heq, -⟩ := enter_eq id o
    rw [heq]
    exact fun hended => absurd ((h.ends hended).shut.symm.trans hopen) Bool.true_eq_false.mp
  | leaves id _ =>
    refine ⟨h.relays.leave id, h.once, h.short, fun hended => ?_⟩
    obtain ⟨hshut, hsenders, hqueue, hhand, hgoing⟩ := h.ends hended
    refine ⟨hshut, ?_, hqueue, hhand, hgoing⟩
    change o.senders.filter _ = []
    rw [hsenders]
    rfl
  | offers id body number o' _ hsends hgoing hnew hsize hoffer =>
    obtain ⟨-, hrelays⟩ := h.relays.offer hgoing hoffer
    refine ⟨by rwa [List.map_append], ?_, ?_, fun hended => ?_⟩
    · rw [List.map_append]
      refine List.nodup_append.mpr ⟨h.once, List.pairwise_singleton .., ?_⟩
      rintro other hmem _ hid rfl
      obtain rfl := List.mem_singleton.mp hid
      exact hnew hmem
    · exact List.forall_mem_append.mpr
        ⟨h.short, fun p hp => List.mem_singleton.mp hp ▸ hsize⟩
    · -- a stream that has ended has no sender
      obtain ⟨-, rfl⟩ := offer_eq hoffer
      exact absurd ((h.ends hended).senders ▸ hsends) List.not_mem_nil

namespace Moves

/-- The row grows at its end. -/
theorem row_grows (h : Moves actor row o row' o') : ∃ more, row' = row ++ more := by
  cases h with
  | offers id body _ _ _ _ _ _ _ _ => exact ⟨[(id, body)], rfl⟩
  | stays | acts | shuts | enters | leaves => exact ⟨[], (List.append_nil row).symm⟩

/-- …and with the frames of the acting call only. -/
theorem row_of_other (h : Moves actor row o row' o') {other : CallId}
    (hother : actor ≠ some other) (hnew : other ∉ row.map Prod.fst) :
    other ∉ row'.map Prod.fst := by
  cases h with
  | offers id body _ _ hactor _ _ _ _ _ =>
    rw [List.map_append]
    refine fun hmem => (List.mem_append.mp hmem).elim hnew fun hid => hother ?_
    exact hactor.trans (congrArg some (List.mem_singleton.mp hid).symm)
  | stays | acts | shuts | enters | leaves => exact hnew

/-- Nobody but the acting call goes away. -/
theorem senders_of_other (h : Moves actor row o row' o') {other : CallId}
    (hother : actor ≠ some other) (hmem : other ∈ o.senders) : other ∈ o'.senders := by
  cases h with
  | stays | shuts => exact hmem
  | acts a => exact (act_eq a o).1.symm ▸ hmem
  | enters id _ _ =>
    obtain ⟨senders, heq, -, hkeeps⟩ := enter_eq id o
    exact heq ▸ hkeeps other hmem
  | leaves id hactor =>
    refine List.mem_filter.mpr ⟨hmem, bne_iff_ne.mpr fun heq => hother ?_⟩
    exact hactor.trans (congrArg some heq.symm)
  | offers id body _ _ _ _ _ _ _ hoffer =>
    obtain ⟨-, rfl⟩ := offer_eq hoffer
    exact hmem

/-- What has been written stays written. -/
theorem written_le (h : Moves actor row o row' o') (hs : o.Sound row) :
    o.written ≤ o'.written := by
  cases h with
  | stays | shuts | leaves => exact Nat.le_refl _
  | acts a => exact written_act hs.relays.holds a
  | enters id _ _ =>
    obtain ⟨senders, heq, -⟩ := enter_eq id o
    exact heq ▸ Nat.le_refl _
  | offers _ _ _ _ _ _ _ _ _ hoffer =>
    obtain ⟨-, rfl⟩ := offer_eq hoffer
    exact Nat.le_refl _

/-- The wire is never shortened. -/
theorem wire_le (h : Moves actor row o row' o') : o.wire.size ≤ o'.wire.size := by
  cases h with
  | stays | shuts | leaves => exact Nat.le_refl _
  | acts a => exact size_wire_act a o
  | enters id _ _ => exact Nat.le_of_eq (congrArg ByteArray.size (wire_enter id o).symm)
  | offers _ _ _ _ _ _ _ _ _ hoffer =>
    exact Nat.le_of_eq (congrArg ByteArray.size (wire_offer hoffer).symm)

/-- **After a write error nothing more is written**, and nothing more is handed over. -/
theorem halted (h : Moves actor row o row' o') (hs : o.Sound row) {text : String}
    (hstopped : o.stopped = some text) :
    o'.stopped = some text ∧ o'.wire = o.wire ∧ row' = row := by
  cases h with
  | stays | shuts | leaves => exact ⟨hstopped, rfl, rfl⟩
  | acts a =>
    have hhand := hs.relays.tidy (hstopped ▸ Option.some_ne_none text)
    obtain ⟨hwire, -, hsame, -⟩ := act_of_halted a hstopped hhand
    exact ⟨hsame.trans hstopped, hwire, rfl⟩
  | enters id _ _ =>
    obtain ⟨senders, heq, -⟩ := enter_eq id o
    exact heq ▸ ⟨hstopped, rfl, rfl⟩
  | offers _ _ _ _ _ _ hgoing _ _ _ =>
    exact absurd (hstopped.symm.trans hgoing) (Option.some_ne_none text)

theorem going (h : Moves actor row o row' o') (hs : o.Sound row) (hgoing : o'.stopped = none) :
    o.stopped = none := by
  cases hstopped : o.stopped with
  | none => rfl
  | some text =>
    exact absurd ((h.halted hs hstopped).1.symm.trans hgoing) (Option.some_ne_none text)

/-- **Where the channel is shut and nobody is sending**, nobody begins to. -/
theorem of_shut (h : Moves actor row o row' o') (hshut : o.shut) (hsenders : o.senders = []) :
    o'.shut ∧ o'.senders = [] ∧ row' = row := by
  cases h with
  | stays | shuts => exact ⟨by first | exact hshut | rfl, hsenders, rfl⟩
  | acts a =>
    obtain ⟨hsame, hsame'⟩ := act_eq a o
    exact ⟨hsame' ▸ hshut, hsame.trans hsenders, rfl⟩
  | enters id _ hopen => exact absurd (hshut.symm.trans hopen) Bool.true_eq_false.mp
  | leaves id _ =>
    refine ⟨hshut, ?_, rfl⟩
    change o.senders.filter _ = []
    rw [hsenders]
    rfl
  | offers _ _ _ _ _ hsends _ _ _ _ => exact absurd (hsenders ▸ hsends) List.not_mem_nil

/-- **After the end of the stream nothing more is written.** -/
theorem done (h : Moves actor row o row' o') (hdone : o.Done) :
    o'.Done ∧ o'.wire = o.wire := by
  obtain ⟨hshut, hsenders, -⟩ := h.of_shut hdone.shut hdone.senders
  cases h with
  | stays => exact ⟨hdone, rfl⟩
  | acts a => exact hdone.act a
  | shuts | leaves => exact ⟨⟨hshut, hsenders, hdone.queue, hdone.hand, hdone.going⟩, rfl⟩
  | enters _ _ hopen => exact absurd (hdone.shut.symm.trans hopen) Bool.true_eq_false.mp
  | offers _ _ _ _ _ hsends _ _ _ _ =>
    exact absurd (hdone.senders ▸ hsends) List.not_mem_nil

/-- **What is in hand stays there until some of it is on the wire**, unless the writer fails. -/
theorem grows_or_keeps (h : Moves actor row o row' o') {left : ByteArray}
    (hhand : o.inHand = some left) (hleft : 0 < left.size) (hgoing : o.stopped = none)
    (hgoing' : o'.stopped = none) :
    o.wire.size < o'.wire.size ∨ o'.inHand = some left := by
  cases h with
  | stays | shuts | leaves => exact .inr hhand
  | acts a =>
    cases a with
    | fails text =>
      have hstopped : (o.fail text).stopped = some text := by
        unfold fail
        rw [hhand]
      exact absurd (hstopped.symm.trans hgoing') (Option.some_ne_none text)
    | picks | pushes | finishes | flushes => exact Outbox.grows_or_keeps hhand hleft hgoing rfl
  | enters id _ _ =>
    obtain ⟨senders, heq, -⟩ := enter_eq id o
    exact .inr (heq ▸ hhand)
  | offers _ _ _ _ _ _ _ _ _ hoffer =>
    obtain ⟨-, rfl⟩ := offer_eq hoffer
    exact .inr hhand

end Moves

end Outbox

/-! ## One send -/

/-- What became of a send. -/
inductive Send.Status
  | inFlight (x : Link.Sending)
  | done (result : Except LinkError Unit)
  /-- It was dropped before it was over. -/
  | dropped

/-- A send: where its message goes, the body of the message, and what became of it. -/
structure Send where
  channel : Channel
  body : ByteArray
  status : Send.Status

namespace Send

def Status.of : Progress LinkError Link.Sending Unit → Status
  | .waits x => .inFlight x
  | .goes x => .inFlight x
  | .ends r => .done r

/-- What a step of this kind hands over. -/
def handedOver (id : CallId) (x : Send) :
    Progress LinkError Link.Sending Unit → List (CallId × ByteArray)
  | .goes (.writing (.handed _)) => [(id, x.body)]
  | _ => []

theorem eq_of_mem_handedOver {id : CallId} {x : Send} {q : CallId × ByteArray} :
    ∀ {p : Progress LinkError Link.Sending Unit}, q ∈ x.handedOver id p → q = (id, x.body)
  | .goes (.writing (.handed _)), h => List.mem_singleton.mp h

/-- A send that is dropped, if it is in flight. -/
def drop (x : Send) : Send :=
  match x.status with
  | .inFlight _ => { x with status := .dropped }
  | _ => x

/-- This is the frame of the send. -/
def Frames (x : Send) (frame : ByteArray) : Prop :=
  x.body.size ≤ Frame.maxLength ∧ frame = Frame.wrap x.body

variable {id other : CallId} {x : Send} {o o' : Outbox} {row row' : List (CallId × ByteArray)}
  {actor : Option CallId}

/-- **The account of a send**: what it has done to the row of its channel, and what it has found
there. -/
def Stands (id : CallId) (row : List (CallId × ByteArray)) (o : Outbox) (x : Send) : Prop :=
  match x.status with
  | .inFlight (.begun body) => body = x.body ∧ id ∉ row.map Prod.fst
  | .inFlight (.admitted frame) => x.Frames frame ∧ id ∉ row.map Prod.fst
  | .inFlight (.writing (.start _)) => False
  | .inFlight (.writing (.queueing frame)) =>
    x.Frames frame ∧ id ∉ row.map Prod.fst ∧ id ∈ o.senders
  | .inFlight (.writing (.handed number)) => row[number]? = some (id, x.body)
  | .done (.ok _) => ∃ number < o.written, row[number]? = some (id, x.body)
  | .done (.error (.encode _)) => id ∉ row.map Prod.fst
  | .done (.error _) => True
  | .dropped => True

/-- **What others do leaves the account as it is.** -/
theorem Stands.of_other (h : x.Stands id row o) (hs : o.Sound row)
    (hmove : o.Moves actor row row' o') (hother : actor ≠ some id) : x.Stands id row' o' := by
  have hplace {number : Nat} (hat : row[number]? = some (id, x.body)) :
      row'[number]? = some (id, x.body) := by
    obtain ⟨more, rfl⟩ := hmove.row_grows
    exact List.getElem?_append_left (List.getElem?_eq_some_iff.mp hat).1 ▸ hat
  unfold Stands at h ⊢
  split at h
  · exact h.imp_right (hmove.row_of_other hother)
  · exact h.imp_right (hmove.row_of_other hother)
  · exact h
  · exact ⟨h.1, hmove.row_of_other hother h.2.1, hmove.senders_of_other hother h.2.2⟩
  · exact hplace h
  · obtain ⟨number, hlt, hat⟩ := h
    exact ⟨number, Nat.lt_of_lt_of_le hlt (hmove.written_le hs), hplace hat⟩
  · exact hmove.row_of_other hother h
  · exact trivial
  · exact trivial

/-- A send that was dropped, or was over when it was dropped. -/
theorem Stands.drop (h : x.Stands id row o) : x.drop.Stands id row (o.leave id) := by
  obtain ⟨channel, body, status⟩ := x
  cases status with
  | inFlight stage => exact trivial
  | done result =>
    cases result with
    | ok _ => exact h
    | error e => cases e with
      | io | encode | decode | closed => exact h
  | dropped => exact trivial

/-- What a step of a send may come to: a move of the outbox of its channel, after which its account
is right. -/
def Sent (id : CallId) (x : Send) (row : List (CallId × ByteArray)) (l : Link)
    (r : Link × Progress LinkError Link.Sending Unit) : Prop :=
  ∃ o, r.1 = l.setOutbox x.channel o ∧
    (l.outbox x.channel).Moves (some id) row (row ++ x.handedOver id r.2) o ∧
    { x with status := .of r.2 }.Stands id (row ++ x.handedOver id r.2) o

variable {l : Link} {p : Progress LinkError Link.Sending Unit}

/-- A step that hands nothing over. -/
theorem Sent.of_quiet (hquiet : x.handedOver id p = []) {o : Outbox}
    (hmove : (l.outbox x.channel).Moves (some id) row row o)
    (h : { x with status := .of p }.Stands id row o) :
    x.Sent id row l (l.setOutbox x.channel o, p) := by
  refine ⟨o, rfl, ?_⟩
  rw [hquiet, List.append_nil]
  exact ⟨hmove, h⟩

/-- A step that does nothing. -/
theorem Sent.of_idle (hquiet : x.handedOver id p = [])
    (h : { x with status := .of p }.Stands id row (l.outbox x.channel)) :
    x.Sent id row l (l, p) := by
  have hsent := Sent.of_quiet (l := l) hquiet .stays h
  rwa [Link.setOutbox_outbox] at hsent

/-- Handing over: the frame is the last of the row, and its number is its place there. -/
theorem sent_queueing {frame : ByteArray} (hs : (l.outbox x.channel).Sound row)
    (hframe : x.Frames frame) (hnew : id ∉ row.map Prod.fst)
    (hsends : id ∈ (l.outbox x.channel).senders) :
    x.Sent id row l (l.dispatch id x.channel (.writing (.queueing frame))) := by
  obtain ⟨hsize, rfl⟩ := hframe
  dsimp only [Link.dispatch, Link.write]
  split
  · exact .of_quiet rfl (.leaves id rfl) trivial
  · next hstopped =>
    have hgoing := Option.not_isSome_iff_eq_none.mp hstopped
    split
    · next number o hoffer =>
      obtain ⟨hnumber, -⟩ := hs.relays.offer hgoing hoffer
      refine ⟨o, rfl, .offers id x.body number o rfl hsends hgoing hnew hsize hoffer, ?_⟩
      change (row ++ [(id, x.body)])[number]? = _
      rw [hnumber, List.length_map]
      exact List.getElem?_concat_length
    · exact .of_idle rfl ⟨⟨hsize, rfl⟩, hnew, hsends⟩

/-- **A step of a send is a move of its outbox**, and keeps its account. -/
theorem sent_dispatch {stage : Link.Sending} (hs : (l.outbox x.channel).Sound row)
    (h : { x with status := .inFlight stage }.Stands id row (l.outbox x.channel)) :
    x.Sent id row l (l.dispatch id x.channel stage) := by
  cases stage with
  | begun body =>
    obtain ⟨hbody, hnew⟩ := h
    obtain rfl : body = x.body := hbody
    dsimp only [Link.dispatch]
    split
    · exact .of_idle rfl trivial
    · split
      · exact .of_idle rfl hnew
      · next frame hframe =>
        have hsize := Frame.le_of_encode hframe
        rw [Frame.encode_eq_wrap hsize] at hframe
        exact .of_idle rfl ⟨⟨hsize, (Except.ok.inj hframe).symm⟩, hnew⟩
  | admitted frame =>
    obtain ⟨hframe, hnew⟩ := h
    dsimp only [Link.dispatch]
    split
    · exact .of_idle rfl trivial
    · next hopen =>
      obtain ⟨senders, heq, hmem, -⟩ := Outbox.enter_eq id (l.outbox x.channel)
      exact .of_quiet rfl (.enters id rfl (Bool.eq_false_iff.mpr hopen))
        ⟨hframe, hnew, heq ▸ hmem⟩
  | writing w =>
    cases w with
    | start body => exact h.elim
    | queueing frame => exact sent_queueing hs h.1 h.2.1 h.2.2
    | handed number =>
      dsimp only [Link.dispatch, Link.write]
      split
      · next hfate =>
        exact .of_quiet rfl (.leaves id rfl) ⟨number, Outbox.lt_of_fate hfate, h⟩
      · next e hfate =>
        refine .of_quiet rfl (.leaves id rfl) ?_
        rcases Outbox.error_of_fate hfate with ⟨text, rfl⟩ | rfl
        · exact trivial
        · exact trivial
      · exact .of_idle rfl h

end Send

/-! ## Any number of sends -/

/-- A link, its sends, and for each channel the messages that were ever handed over, in order, each
with its send. -/
structure Dispatch where
  link : Link
  sends : CallId → Option Send := fun _ => none
  queued : Channel → List (CallId × ByteArray) := fun _ => []

namespace Dispatch

inductive Event
  /-- A send begins, under a number that no send has had. -/
  | begins (id : CallId) (ch : Channel) (body : ByteArray)
  /-- A send in flight takes a step. -/
  | turns (id : CallId)
  /-- A call is dropped, wherever it is. -/
  | drops (id : CallId)
  /-- A closing takes a step, from wherever it is. -/
  | closes (id : CallId) (c : Link.Closing)
  | reads (id : CallId) (expired : Bool) (ch : Channel)
  | stirs (x : Stir)

/-- What becomes of one send. -/
def put (w : Dispatch) (id : CallId) (x : Option Send) : CallId → Option Send :=
  fun other => if other = id then x else w.sends other

def turn (w : Dispatch) (id : CallId) (x : Send) (stage : Link.Sending) : Dispatch :=
  let (link, progress) := w.link.dispatch id x.channel stage
  { link
    sends := w.put id (some { x with status := .of progress })
    queued := fun ch =>
      if x.channel = ch then w.queued ch ++ x.handedOver id progress else w.queued ch }

def step (w : Dispatch) : Event → Dispatch
  | .begins id ch body =>
    if (w.sends id).isSome then w
    else { w with sends := w.put id (some ⟨ch, body, .inFlight (.begun body)⟩) }
  | .turns id =>
    match w.sends id with
    | some ⟨ch, body, .inFlight stage⟩ => w.turn id ⟨ch, body, .inFlight stage⟩ stage
    | _ => w
  | .drops id =>
    { w with link := w.link.abandon id, sends := w.put id ((w.sends id).map Send.drop) }
  | .closes id c => { w with link := (w.link.close id c).1 }
  | .reads id expired ch => { w with link := (w.link.read id expired ch).2 }
  | .stirs x => { w with link := x.onLink w.link }

/-- A whole history. -/
def run (w : Dispatch) (es : List Event) : Dispatch := es.foldl step w

/-- The bodies of the messages that were handed over. -/
def bodies (w : Dispatch) (ch : Channel) : List ByteArray := (w.queued ch).map Prod.snd

variable {w : Dispatch} {id : CallId} {ch : Channel} {x : Send}

theorem put_self (w : Dispatch) (id : CallId) (x : Option Send) : w.put id x id = x := if_pos rfl

theorem put_other {other : CallId} (hne : other ≠ id) (w : Dispatch) (x : Option Send) :
    w.put id x other = w.sends other := if_neg hne

/-- The call that acts in an event, where one does. -/
def Event.actor : Event → Option CallId
  | .turns id => some id
  | .drops id => some id
  | _ => none

/-- **The accounts** of all rows and all sends. -/
structure Orderly (w : Dispatch) : Prop where
  sound : ∀ ch, (w.link.outbox ch).Sound (w.queued ch)
  /-- What was handed over is the message of a send on that channel. -/
  known : ∀ ch, ∀ p ∈ w.queued ch,
    ∃ x, w.sends p.1 = some x ∧ x.channel = ch ∧ x.body = p.2
  stands : ∀ id x, w.sends id = some x →
    x.Stands id (w.queued x.channel) (w.link.outbox x.channel)

theorem Orderly.start {l : Link} (hnew : ∀ ch, l.outbox ch = {}) : Orderly { link := l } where
  sound ch := (hnew ch).symm ▸ Outbox.sound_new
  known _ _ h := absurd h List.not_mem_nil
  stands _ _ h := absurd h.symm (Option.some_ne_none _)

/-- **Every event is a move of each outbox.** -/
theorem step_moves (h : w.Orderly) (e : Event) (ch : Channel) :
    (w.link.outbox ch).Moves e.actor (w.queued ch) ((w.step e).queued ch)
      ((w.step e).link.outbox ch) := by
  cases e with
  | begins id c body =>
    rw [step]
    split
    · exact .stays
    · exact .stays
  | turns id =>
    rw [step]
    split
    · next c body stage hx =>
      obtain ⟨o, hlink, hmove, -⟩ :=
        Send.sent_dispatch (x := ⟨c, body, .inFlight stage⟩) (h.sound c) (h.stands id _ hx)
      change (w.link.outbox ch).Moves (some id) (w.queued ch) (if c = ch then _ else _)
        ((w.link.dispatch id c stage).1.outbox ch)
      rw [hlink, Link.outbox_setOutbox]
      by_cases heq : c = ch
      · subst heq
        rw [if_pos rfl, if_pos rfl]
        exact hmove
      · rw [if_neg heq, if_neg heq]
        exact .stays
    · exact .stays
  | drops id => exact (w.link.outbox_abandon id ch).symm ▸ Outbox.Moves.leaves id rfl
  | closes id c =>
    rcases w.link.outbox_close_cases id c ch with hsame | hshut
    · exact hsame.symm ▸ Outbox.Moves.stays
    · exact hshut.symm ▸ Outbox.Moves.shuts
  | reads id expired c =>
    have hsame : (w.link.read id expired c).2.outbox ch = w.link.outbox ch := by
      obtain ⟨i, hlink, -, -⟩ := Link.read_spec id expired c w.link
      rw [hlink, Link.outbox_setInbox]
    exact hsame.symm ▸ Outbox.Moves.stays
  | stirs x =>
    rcases x.outbox_onLink_cases ch w.link with hsame | ⟨a, -, hact⟩
    · exact hsame.symm ▸ Outbox.Moves.stays
    · exact hact.symm ▸ Outbox.Moves.acts a

/-- A send in flight takes a step; one that is not does nothing. -/
theorem step_turns (hx : w.sends id = some x) :
    (∃ stage, x = { x with status := .inFlight stage } ∧
        w.step (.turns id) = w.turn id x stage) ∨ w.step (.turns id) = w := by
  obtain ⟨c, body, status⟩ := x
  rw [step, hx]
  cases status with
  | inFlight stage => exact .inl ⟨stage, rfl, rfl⟩
  | done | dropped => exact .inr rfl

/-- Only a call that acts changes. -/
theorem sends_of_other (hx : w.sends id = some x) {e : Event} (hactor : e.actor ≠ some id) :
    (w.step e).sends id = some x := by
  have hne {id' : CallId} (hactor : some id' ≠ some id) : id ≠ id' :=
    fun heq => hactor (congrArg some heq.symm)
  cases e with
  | begins id' c body =>
    rw [step]
    split
    · exact hx
    · next hnone =>
      refine (put_other ?_ w _).trans hx
      rintro rfl
      rw [hx] at hnone
      exact hnone rfl
  | turns id' =>
    rw [step]
    split
    · exact (put_other (hne hactor) w _).trans hx
    · exact hx
  | drops id' => exact (put_other (hne hactor) w _).trans hx
  | closes | reads | stirs => exact hx

theorem drop_eq (x : Send) : ∃ status, x.drop = { x with status } := by
  unfold Send.drop
  split
  · exact ⟨_, rfl⟩
  · exact ⟨x.status, rfl⟩

/-- What a send is about does not change. -/
theorem sends_step (hx : w.sends id = some x) (e : Event) :
    ∃ status, (w.step e).sends id = some { x with status } := by
  by_cases hactor : e.actor = some id
  · cases e with
    | turns id' =>
      obtain rfl := Option.some.inj hactor
      rcases step_turns hx with ⟨stage, -, hstep⟩ | hstep
      · rw [hstep]
        exact ⟨_, put_self ..⟩
      · rw [hstep]
        exact ⟨x.status, hx⟩
    | drops id' =>
      obtain rfl := Option.some.inj hactor
      obtain ⟨status, hdrop⟩ := drop_eq x
      refine ⟨status, (put_self ..).trans ?_⟩
      rw [hx, ← hdrop, Option.map_some]
    | begins | closes | reads | stirs => exact absurd hactor.symm (Option.some_ne_none id)
  · exact ⟨x.status, sends_of_other hx hactor⟩

/-- A send that was not there before is one that begins. -/
theorem sends_of_new (hnone : w.sends id = none) (e : Event) :
    (w.step e).sends id = none ∨ ∃ c body, e = .begins id c body := by
  cases e with
  | begins id' c body =>
    by_cases heq : id = id'
    · exact .inr ⟨c, body, heq ▸ rfl⟩
    · rw [step]
      split
      · exact .inl hnone
      · exact .inl ((put_other heq w _).trans hnone)
  | turns id' =>
    rw [step]
    split
    · next c body stage hx =>
      refine .inl ((put_other ?_ w _).trans hnone)
      rintro rfl
      exact absurd (hx.symm.trans hnone) (Option.some_ne_none _)
    · exact .inl hnone
  | drops id' =>
    by_cases heq : id = id'
    · subst heq
      refine .inl ((put_self ..).trans ?_)
      rw [hnone, Option.map_none]
    · exact .inl ((put_other heq w _).trans hnone)
  | closes | reads | stirs => exact .inl hnone

/-- What is handed over is the message of a send. -/
theorem mem_queued_step {e : Event} {p : CallId × ByteArray} (hp : p ∈ (w.step e).queued ch) :
    p ∈ w.queued ch ∨ ∃ x, w.sends p.1 = some x ∧ x.channel = ch ∧ x.body = p.2 := by
  cases e with
  | begins id c body =>
    rw [step] at hp
    split at hp
    · exact .inl hp
    · exact .inl hp
  | turns id =>
    rw [step] at hp
    split at hp
    · next c body stage hx =>
      change p ∈ if c = ch then _ else _ at hp
      split at hp
      · next heq =>
        refine (List.mem_append.mp hp).imp_right fun hp => ?_
        obtain rfl := Send.eq_of_mem_handedOver hp
        exact ⟨_, hx, heq, rfl⟩
      · exact .inl hp
    · exact .inl hp
  | drops | closes | reads | stirs => exact .inl hp

/-- A send that begins has done nothing. -/
theorem Orderly.stands_of_new (h : w.Orderly) (hnone : w.sends id = none) {e : Event}
    (hx : (w.step e).sends id = some x) :
    x.Stands id ((w.step e).queued x.channel) ((w.step e).link.outbox x.channel) := by
  rcases sends_of_new hnone e with hgone | ⟨c, body, rfl⟩
  · exact absurd (hx.symm.trans hgone) (Option.some_ne_none x)
  · have hnew : id ∉ (w.queued c).map Prod.fst := fun hmem => by
      obtain ⟨p, hp, hid⟩ := List.mem_map.mp hmem
      obtain ⟨y, hy, -, -⟩ := h.known c p hp
      exact absurd (hy.symm.trans (hid ▸ hnone)) (Option.some_ne_none y)
    have hstep : w.step (.begins id c body)
        = { w with sends := w.put id (some ⟨c, body, .inFlight (.begun body)⟩) } := by
      rw [step, hnone]
      rfl
    rw [hstep] at hx ⊢
    obtain rfl := Option.some.inj ((put_self ..).symm.trans hx)
    exact ⟨rfl, hnew⟩

/-- A send that takes a step keeps its account. -/
theorem Orderly.stands_turns (h : w.Orderly) (hx : w.sends id = some x) {y : Send}
    (hy : (w.step (.turns id)).sends id = some y) :
    y.Stands id ((w.step (.turns id)).queued y.channel)
      ((w.step (.turns id)).link.outbox y.channel) := by
  rcases step_turns hx with ⟨stage, hstage, hstep⟩ | hstep
  · rw [hstep] at hy ⊢
    obtain rfl := Option.some.inj ((put_self ..).symm.trans hy)
    have hbefore := h.stands id x hx
    rw [hstage] at hbefore
    obtain ⟨o, hlink, -, hstands⟩ := Send.sent_dispatch (h.sound x.channel) hbefore
    change Send.Stands id (if x.channel = x.channel then _ else _)
      ((w.link.dispatch id x.channel stage).1.outbox x.channel) _
    rw [if_pos rfl, hlink, Link.outbox_setOutbox, if_pos rfl]
    exact hstands
  · rw [hstep] at hy ⊢
    exact h.stands id y hy

/-- …and so does one that is dropped. -/
theorem Orderly.stands_drops (h : w.Orderly) (hx : w.sends id = some x) {y : Send}
    (hy : (w.step (.drops id)).sends id = some y) :
    y.Stands id ((w.step (.drops id)).queued y.channel)
      ((w.step (.drops id)).link.outbox y.channel) := by
  have hdrop : y = x.drop := by
    have hput := (put_self w id _).symm.trans hy
    rw [hx, Option.map_some] at hput
    exact (Option.some.inj hput).symm
  have hchannel : y.channel = x.channel := by
    obtain ⟨status, heq⟩ := drop_eq x
    rw [hdrop, heq]
  change Send.Stands id (w.queued y.channel) ((w.link.abandon id).outbox y.channel) y
  rw [hchannel, Link.outbox_abandon, hdrop]
  exact (h.stands id x hx).drop

/-- **Every event keeps the accounts.** -/
theorem Orderly.step (h : w.Orderly) (e : Event) : (w.step e).Orderly where
  sound ch := (h.sound ch).moves (step_moves h e ch)
  known ch p hp := by
    obtain ⟨x, hx, hchannel, hbody⟩ := (mem_queued_step hp).elim (h.known ch p) id
    obtain ⟨status, hstatus⟩ := sends_step hx e
    exact ⟨_, hstatus, hchannel, hbody⟩
  stands id y hy := by
    cases hx : w.sends id with
    | none => exact h.stands_of_new hx hy
    | some x =>
      by_cases hactor : e.actor = some id
      · cases e with
        | turns id' =>
          obtain rfl := Option.some.inj hactor
          exact h.stands_turns hx hy
        | drops id' =>
          obtain rfl := Option.some.inj hactor
          exact h.stands_drops hx hy
        | begins | closes | reads | stirs => exact absurd hactor.symm (Option.some_ne_none id)
      · obtain rfl := Option.some.inj ((sends_of_other hx hactor).symm.trans hy)
        exact (h.stands id x hx).of_other (h.sound _) (step_moves h e _) hactor

/-- **So does a whole history.** -/
theorem Orderly.run (h : w.Orderly) (es : List Event) : (w.run es).Orderly := by
  induction es generalizing w with
  | nil => exact h
  | cons e es ih => exact ih (h.step e)

/-! ## What a history leaves alone -/

theorem run_append (w : Dispatch) (es es' : List Event) :
    w.run (es ++ es') = (w.run es).run es' := List.foldl_append

/-- **What every move keeps, a history keeps.** -/
theorem Orderly.keeps {P : List (CallId × ByteArray) → Outbox → Prop} (h : w.Orderly)
    (hmove : ∀ {actor row row' o o'}, o.Sound row → o.Moves actor row row' o' → P row o →
      P row' o')
    (hw : P (w.queued ch) (w.link.outbox ch)) (es : List Event) :
    P ((w.run es).queued ch) ((w.run es).link.outbox ch) := by
  induction es generalizing w with
  | nil => exact hw
  | cons e es ih => exact ih (h.step e) (hmove (h.sound ch) (step_moves h e ch) hw)

/-- The row grows at its end. -/
theorem Orderly.queued_run (h : w.Orderly) (ch : Channel) (es : List Event) :
    ∃ more, (w.run es).queued ch = w.queued ch ++ more :=
  h.keeps (P := fun row _ => ∃ more, row = w.queued ch ++ more)
    (fun _ hmove ⟨more, hrow⟩ => by
      obtain ⟨more', rfl⟩ := hmove.row_grows
      exact ⟨more ++ more', by rw [hrow, List.append_assoc]⟩)
    ⟨[], (List.append_nil _).symm⟩ es

/-- …and so do its frames. -/
theorem Orderly.joined_run (h : w.Orderly) (ch : Channel) (es : List Event) :
    ∃ rest, Frame.joined ((w.run es).bodies ch) = Frame.joined (w.bodies ch) ++ rest := by
  obtain ⟨more, hmore⟩ := h.queued_run ch es
  exact ⟨_, by rw [bodies, hmore, List.map_append, Frame.joined_append]; rfl⟩

theorem Orderly.joined_le (h : w.Orderly) (ch : Channel) (es : List Event) :
    (Frame.joined (w.bodies ch)).size ≤ (Frame.joined ((w.run es).bodies ch)).size := by
  obtain ⟨rest, hrest⟩ := h.joined_run ch es
  rw [hrest, ByteArray.size_append]
  exact Nat.le_add_right _ _

theorem Orderly.wire_run (h : w.Orderly) (ch : Channel) (es : List Event) :
    (w.link.outbox ch).wire.size ≤ ((w.run es).link.outbox ch).wire.size :=
  h.keeps (P := fun _ o => (w.link.outbox ch).wire.size ≤ o.wire.size)
    (fun _ hmove hle => Nat.le_trans hle hmove.wire_le) (Nat.le_refl _) es

/-- **After a write error nothing more is written.** -/
theorem Orderly.halted_run (h : w.Orderly) {text : String}
    (hstopped : (w.link.outbox ch).stopped = some text) (es : List Event) :
    ((w.run es).link.outbox ch).stopped = some text ∧
      ((w.run es).link.outbox ch).wire = (w.link.outbox ch).wire :=
  h.keeps (P := fun _ o => o.stopped = some text ∧ o.wire = (w.link.outbox ch).wire)
    (fun hsound hmove ⟨hstopped, hwire⟩ => by
      obtain ⟨hstopped', hwire', -⟩ := hmove.halted hsound hstopped
      exact ⟨hstopped', hwire'.trans hwire⟩)
    ⟨hstopped, rfl⟩ es

theorem Orderly.going_run (h : w.Orderly) (es : List Event)
    (hgoing : ((w.run es).link.outbox ch).stopped = none) :
    (w.link.outbox ch).stopped = none := by
  cases hstopped : (w.link.outbox ch).stopped with
  | none => rfl
  | some text =>
    exact absurd ((h.halted_run hstopped es).1.symm.trans hgoing) (Option.some_ne_none text)

/-- **Where the channel is shut and nobody is sending, nothing more is handed over.** -/
theorem Orderly.shut_run (h : w.Orderly) (hshut : (w.link.outbox ch).shut)
    (hsenders : (w.link.outbox ch).senders = []) (es : List Event) :
    ((w.run es).link.outbox ch).shut ∧ ((w.run es).link.outbox ch).senders = [] ∧
      (w.run es).queued ch = w.queued ch :=
  h.keeps (P := fun row o => o.shut ∧ o.senders = [] ∧ row = w.queued ch)
    (fun _ hmove ⟨hshut, hsenders, hrow⟩ => by
      obtain ⟨hshut', hsenders', hrow'⟩ := hmove.of_shut hshut hsenders
      exact ⟨hshut', hsenders', hrow'.trans hrow⟩)
    ⟨hshut, hsenders, rfl⟩ es

/-- **After the end of the stream nothing more is written.** -/
theorem Orderly.done_run (h : w.Orderly) (hdone : (w.link.outbox ch).Done) (es : List Event) :
    ((w.run es).link.outbox ch).wire = (w.link.outbox ch).wire :=
  (h.keeps (P := fun _ o => o.Done ∧ o.wire = (w.link.outbox ch).wire)
    (fun _ hmove ⟨hdone, hwire⟩ => by
      obtain ⟨hdone', hwire'⟩ := hmove.done hdone
      exact ⟨hdone', hwire'.trans hwire⟩)
    ⟨hdone, rfl⟩ es).2

/-- What is in hand is on the wire sooner or later. -/
theorem Orderly.keeps_run (h : w.Orderly) {left : ByteArray}
    (hhand : (w.link.outbox ch).inHand = some left) (es : List Event)
    (hgoing : ((w.run es).link.outbox ch).stopped = none) :
    (w.link.outbox ch).wire.size < ((w.run es).link.outbox ch).wire.size ∨
      ((w.run es).link.outbox ch).inHand = some left := by
  refine (h.keeps (P := fun _ o => o.stopped ≠ none ∨
    (w.link.outbox ch).wire.size < o.wire.size ∨ o.inHand = some left ∧
      (w.link.outbox ch).wire.size ≤ o.wire.size) (fun {_ _ _ o o'} hsound hmove hkept => ?_)
    (.inr (.inr ⟨hhand, Nat.le_refl _⟩)) es).elim (fun hstopped => absurd hgoing hstopped)
      (Or.imp_right And.left)
  by_cases hgoing' : o'.stopped = none
  · have hgoing := hmove.going hsound hgoing'
    have hle := hmove.wire_le
    rcases hkept with hstopped | hlt | ⟨hhand, hsame⟩
    · exact absurd hgoing hstopped
    · exact .inr (.inl (Nat.lt_of_lt_of_le hlt hle))
    · have hpos := hsound.relays.pos_of_inHand hhand
      rcases hmove.grows_or_keeps hhand hpos hgoing hgoing' with hlt | hhand'
      · exact .inr (.inl (Nat.lt_of_le_of_lt hsame hlt))
      · exact .inr (.inr ⟨hhand', Nat.le_trans hsame hle⟩)
  · exact .inl hgoing'

/-! ## Getting through the row -/

/-- **The writer of the channel takes this many rounds**: it picks, and after that it pushes a byte
at least. -/
inductive Serves (ch : Channel) : Nat → List Event → Prop
  | rests (es : List Event) : Serves ch 0 es
  | round (before between rest : List Event) (n k : Nat) (hrest : Serves ch k rest) :
      Serves ch (k + 1) (before ++ .stirs (.writes ch .picks) ::
        (between ++ .stirs (.writes ch (.pushes (n + 1))) :: rest))

/-- As many rounds of one byte. -/
def rounds (ch : Channel) : Nat → List Event
  | 0 => []
  | k + 1 => .stirs (.writes ch .picks) :: .stirs (.writes ch (.pushes 1)) :: rounds ch k

theorem serves_rounds (ch : Channel) : ∀ k : Nat, Serves ch k (rounds ch k)
  | 0 => .rests []
  | k + 1 => .round [] [] (rounds ch k) 0 k (serves_rounds ch k)

theorem outbox_writes (w : Dispatch) (ch : Channel) (a : Outbox.Act) :
    (w.step (.stirs (.writes ch a))).link.outbox ch = (w.link.outbox ch).act a :=
  (Link.outbox_setOutbox ..).trans (if_pos rfl)

theorem run_round (w : Dispatch) (before between rest : List Event) (e e' : Event) :
    w.run (before ++ e :: (between ++ e' :: rest))
      = ((((w.run before).step e).run between).step e').run rest := by
  rw [run_append]
  change ((w.run before).step e).run (between ++ e' :: rest) = _
  rw [run_append]
  rfl

/-- After a writer has picked, it has something in hand until some of it is on the wire, unless all
there was is there. -/
theorem Orderly.picks (h : w.Orderly) (between : List Event)
    (hgoing : (((w.step (.stirs (.writes ch .picks))).run between).link.outbox ch).stopped = none) :
    let o := ((w.step (.stirs (.writes ch .picks))).run between).link.outbox ch
    (Frame.joined (w.bodies ch)).size ≤ o.wire.size ∨
      (w.link.outbox ch).wire.size < o.wire.size ∨ ∃ left, o.inHand = some left := by
  have hpicked := h.step (.stirs (.writes ch .picks))
  have hstopped := hpicked.going_run between hgoing
  have houtbox : (w.step (.stirs (.writes ch .picks))).link.outbox ch = (w.link.outbox ch).pick :=
    outbox_writes w ch .picks
  have hwire := Outbox.wire_pick (w.link.outbox ch)
  rcases Outbox.pick_has ((step_moves h _ ch).going (h.sound ch) hstopped) with ⟨left, hhand⟩ | hall
  · rw [← houtbox] at hhand hwire
    rcases hpicked.keeps_run hhand between hgoing with hlt | hkept
    · exact .inr (.inl (hwire ▸ hlt))
    · exact .inr (.inr ⟨left, hkept⟩)
  · left
    rw [← houtbox] at hall
    have hstream : _ = Frame.joined (w.bodies ch) :=
      ((hpicked.sound ch).relays.whole hstopped).1
    rw [← hstream, ← hall]
    exact hpicked.wire_run ch between

/-- Pushing puts a byte on the wire. -/
theorem Orderly.pushes (h : w.Orderly) {left : ByteArray}
    (hhand : (w.link.outbox ch).inHand = some left) (n : Nat) :
    (w.link.outbox ch).wire.size
      < ((w.step (.stirs (.writes ch (.pushes (n + 1))))).link.outbox ch).wire.size := by
  rw [outbox_writes]
  exact Outbox.push_grows hhand ((h.sound ch).relays.pos_of_inHand hhand) n

/-- **A round puts a byte on the wire, or all is there that was handed over before.** -/
theorem Orderly.round (h : w.Orderly) (between : List Event) (n : Nat)
    (hgoing : ((((w.step (.stirs (.writes ch .picks))).run between).step
      (.stirs (.writes ch (.pushes (n + 1))))).link.outbox ch).stopped = none) :
    let o := ((((w.step (.stirs (.writes ch .picks))).run between).step
      (.stirs (.writes ch (.pushes (n + 1))))).link.outbox ch)
    (Frame.joined (w.bodies ch)).size ≤ o.wire.size ∨
      (w.link.outbox ch).wire.size < o.wire.size := by
  have hpicked := (h.step (.stirs (.writes ch .picks))).run between
  have hmove := step_moves hpicked (.stirs (.writes ch (.pushes (n + 1)))) ch
  have hwire := hmove.wire_le
  rcases h.picks between (hmove.going (hpicked.sound ch) hgoing) with hall | hlt | ⟨left, hhand⟩
  · exact .inl (Nat.le_trans hall hwire)
  · exact .inr (Nat.lt_of_lt_of_le hlt hwire)
  · have hle := Nat.le_trans ((step_moves h (.stirs (.writes ch .picks)) ch).wire_le)
      ((h.step (.stirs (.writes ch .picks))).wire_run ch between)
    exact .inr (Nat.lt_of_le_of_lt hle (hpicked.pushes hhand n))

/-- **Each round puts a byte on the wire, until all is there that was handed over before.** -/
theorem Orderly.serves (h : w.Orderly) {k : Nat} {later : List Event} (hserves : Serves ch k later)
    (hgoing : ((w.run later).link.outbox ch).stopped = none) :
    (Frame.joined (w.bodies ch)).size ≤ ((w.run later).link.outbox ch).wire.size ∨
      (w.link.outbox ch).wire.size + k ≤ ((w.run later).link.outbox ch).wire.size := by
  induction hserves generalizing w with
  | rests es => exact .inr (h.wire_run ch es)
  | round before between rest n k hrest ih =>
    rw [run_round] at hgoing ⊢
    have hbefore := h.run before
    have hpicked := hbefore.step (.stirs (.writes ch .picks))
    have hpushing := hpicked.run between
    have hround := hpushing.step (.stirs (.writes ch (.pushes (n + 1))))
    -- what was handed over at first was handed over before the round, and before those that follow
    have hrow := h.joined_le ch before
    have hrow' := Nat.le_trans (hbefore.joined_le ch [.stirs (.writes ch .picks)])
      (Nat.le_trans (hpicked.joined_le ch between)
        (hpushing.joined_le ch [.stirs (.writes ch (.pushes (n + 1)))]))
    have hwire := h.wire_run ch before
    have hwire' := hround.wire_run ch rest
    rcases hbefore.round between n (hround.going_run rest hgoing) with hall | hlt
    · exact .inl (Nat.le_trans hrow (Nat.le_trans hall hwire'))
    · rcases ih hround hgoing with hall | hle
      · exact .inl (Nat.le_trans hrow (Nat.le_trans hrow' hall))
      · exact .inr (by omega)

/-- …so that in the end all of it is on the wire. -/
theorem Orderly.begins_run (h : w.Orderly) {k : Nat} {later : List Event}
    (hserves : Serves ch k later) (hgoing : ((w.run later).link.outbox ch).stopped = none)
    (hk : (Frame.joined (w.bodies ch)).size ≤ (w.link.outbox ch).wire.size + k) :
    ((w.run later).link.outbox ch).Begins (Frame.joined (w.bodies ch)) := by
  have hall : (Frame.joined (w.bodies ch)).size ≤ ((w.run later).link.outbox ch).wire.size :=
    (h.serves hserves hgoing).elim id (Nat.le_trans hk)
  obtain ⟨more, hmore⟩ := h.joined_run ch later
  obtain ⟨-, -, missing, -, hmissing⟩ := (((h.run later).sound ch).relays).front
  exact .of_append (hmissing.trans hmore) hall

/-- **A channel that is shut and on which nobody is sending comes to its end.** -/
theorem Orderly.ends_run (h : w.Orderly) {k : Nat} {later : List Event}
    (hserves : Serves ch k later) (hgoing : ((w.run later).link.outbox ch).stopped = none)
    (hk : (Frame.joined (w.bodies ch)).size ≤ (w.link.outbox ch).wire.size + k)
    (hshut : (w.link.outbox ch).shut) (hsenders : (w.link.outbox ch).senders = []) :
    let o := ((w.run later).step (.stirs (.writes ch .finishes))).link.outbox ch
    o.ended ∧ o.wire = Frame.joined (w.bodies ch) := by
  intro o
  obtain ⟨hshut', hsenders', hqueued⟩ := h.shut_run hshut hsenders later
  have hall : (Frame.joined (w.bodies ch)).size ≤ ((w.run later).link.outbox ch).wire.size :=
    (h.serves hserves hgoing).elim id (Nat.le_trans hk)
  have hrelays := ((h.run later).sound ch).relays
  rw [hqueued] at hrelays
  obtain ⟨hqueue, hhand⟩ := hrelays.rests hgoing hall
  have ho : o = { (w.run later).link.outbox ch with ended := true } := by
    change ((w.run later).step _).link.outbox ch = _
    rw [outbox_writes]
    exact if_pos ⟨hshut', hsenders', hqueue, hhand, hgoing⟩
  have hstream := (hrelays.whole hgoing).1
  rw [Outbox.stream, hqueue, hhand] at hstream
  rw [ho]
  exact ⟨rfl, ByteArray.append_empty.symm.trans hstream⟩

/-- A send that has succeeded has its frame among those that have been written. -/
theorem Orderly.written_of_ok (h : w.Orderly) (hx : w.sends id = some x)
    (hok : x.status = .done (.ok ())) :
    ∃ number < (w.link.outbox x.channel).written,
      (w.queued x.channel)[number]? = some (id, x.body) := by
  have hstands := h.stands id x hx
  unfold Send.Stands at hstands
  rw [hok] at hstands
  exact hstands

/-- A send whose message has no frame has handed nothing over. -/
theorem Orderly.unqueued_of_encode (h : w.Orderly) (hx : w.sends id = some x) {e : EncodeError}
    (herror : x.status = .done (.error (.encode e))) (ch : Channel) :
    id ∉ (w.queued ch).map Prod.fst := by
  intro hmem
  obtain ⟨p, hp, rfl⟩ := List.mem_map.mp hmem
  obtain ⟨y, hy, rfl, -⟩ := h.known ch p hp
  obtain rfl := Option.some.inj (hx.symm.trans hy)
  have hstands := h.stands p.1 x hx
  unfold Send.Stands at hstands
  rw [herror] at hstands
  exact hstands hmem

/-- **Frames are written whole and in order, whatever sends are dropped.**  Let calls send, on new
channels, any messages; let each of them be dropped wherever it waits, for the lock, for room in the
queue or for its frame to be written, or not at all; let the link be closed at any time, and let
anything happen around it.  At any moment, for each channel,

* a message was handed over for each send once at most, and what was handed over is its frame;
* the wire is the frames of the messages that were handed over, in that order: so many of them
  whole, and a part of the next;
* nothing that was handed over is left out unless the writer has stopped with an error, and from
  then on nothing is written;
* a send that has succeeded has its frame among those that are whole on the wire, and one whose
  message is too long for a frame has handed nothing over, on any channel.

What is handed over later comes behind.  A writer that goes on for so many rounds as there are bytes
missing has put all of it on the wire, whether or not the link is being closed; where the channel is
shut and nobody is sending any more, it then ends the stream.  A stream that has ended is the frames
of all that was ever handed over, and remains so. -/
theorem writes_whole_frames {l : Link} (hnew : ∀ ch, l.outbox ch = {}) (es : List Event)
    (ch : Channel) :
    let w := run { link := l } es
    let o := w.link.outbox ch
    ((w.queued ch).map Prod.fst).Nodup ∧
    (∀ p ∈ w.queued ch, ∃ x, w.sends p.1 = some x ∧ x.channel = ch ∧ x.body = p.2 ∧
      Frame.encode p.2 = .ok (Frame.wrap p.2)) ∧
    (∃ part rest, o.wire = Frame.joined ((w.bodies ch).take o.written) ++ part ∧
      o.wire ++ rest = Frame.joined (w.bodies ch)) ∧
    (o.stopped = none → o.stream = Frame.joined (w.bodies ch)) ∧
    (∀ id x, w.sends id = some x → x.channel = ch → x.status = .done (.ok ()) →
      ∃ number < o.written, (w.queued ch)[number]? = some (id, x.body)) ∧
    (∀ id x e, w.sends id = some x → x.status = .done (.error (.encode e)) →
      ∀ c, id ∉ (w.queued c).map Prod.fst) ∧
    (o.ended → o.wire = Frame.joined (w.bodies ch)) ∧
    ∀ later,
      let o' := (w.run later).link.outbox ch
      (∃ more, (w.run later).queued ch = w.queued ch ++ more) ∧
      (o.stopped ≠ none → o'.stopped ≠ none ∧ o'.wire = o.wire) ∧
      (o.ended → o'.wire = o.wire) ∧
      ∀ k, Serves ch k later → o'.stopped = none →
        (Frame.joined (w.bodies ch)).size ≤ o.wire.size + k →
        o'.Begins (Frame.joined (w.bodies ch)) ∧
        (o.shut → o.senders = [] →
          let last := ((w.run later).step (.stirs (.writes ch .finishes))).link.outbox ch
          last.ended ∧ last.wire = Frame.joined (w.bodies ch)) := by
  intro w o
  have hw : w.Orderly := (Orderly.start hnew).run es
  have hsound := hw.sound ch
  refine ⟨hsound.once, fun p hp => ?_, hsound.relays.front.2, fun hgoing => ?_,
    fun id x hx hch hok => ?_, fun id x e hx he => hw.unqueued_of_encode hx he, fun hended => ?_,
    fun later => ⟨hw.queued_run ch later, fun hstopped => ?_, fun hended => ?_,
      fun k hserves hgoing hk => ⟨hw.begins_run hserves hgoing hk,
        hw.ends_run hserves hgoing hk⟩⟩⟩
  · obtain ⟨x, hx, hchannel, hbody⟩ := hw.known ch p hp
    exact ⟨x, hx, hchannel, hbody, Frame.encode_eq_wrap (hsound.short p hp)⟩
  · exact (hsound.relays.whole hgoing).1
  · subst hch
    exact hw.written_of_ok hx hok
  · have hdone := hsound.ends hended
    have hstream := (hsound.relays.whole hdone.going).1
    rw [Outbox.stream, hdone.queue, hdone.hand] at hstream
    exact ByteArray.append_empty.symm.trans hstream
  · obtain ⟨text, htext⟩ := Option.ne_none_iff_exists'.mp hstopped
    obtain ⟨hstopped', hwire⟩ := hw.halted_run htext later
    exact ⟨hstopped' ▸ Option.some_ne_none text, hwire⟩
  · exact hw.done_run (hsound.ends hended) later

/-- Of three sends one is dropped while it waits for the lock and one when its frame is in the queue;
the third is dropped too, after the link has been closed.  Two frames are written, whole, before the
stream ends. -/
theorem writes_whole_frames_closed :
    let es := [Event.begins 0 .send ⟨#[7]⟩, .turns 0, .turns 0, .turns 0, .begins 1 .send ⟨#[9]⟩,
      .turns 1, .drops 1, .begins 2 .send ⟨#[8]⟩, .turns 2, .turns 2, .turns 2, .drops 2,
      .closes 3 .start, .closes 3 (.releasing Channel.all), .closes 3 (.releasing [.send, .recv]),
      .closes 3 (.releasing [.recv]), .drops 0]
    let w := run { link := {} } es
    let last := ((w.run (rounds .send 10)).step (.stirs (.writes .send .finishes))).link.outbox .send
    (∀ ch, ({} : Link).outbox ch = {}) ∧ w.queued .send = [(0, ⟨#[7]⟩), (2, ⟨#[8]⟩)] ∧
      (w.link.outbox .send).wire = .empty ∧ last.ended ∧
      last.wire = ⟨#[1, 0, 0, 0, 7, 1, 0, 0, 0, 8]⟩ := by
  intro es w last
  have hnew : ∀ ch, ({} : Link).outbox ch = {} := fun ch => by cases ch <;> rfl
  have hqueued : w.queued .send = [(0, ⟨#[7]⟩), (2, ⟨#[8]⟩)] := by decide +kernel
  have hgoing : ((w.run (rounds .send 10)).link.outbox .send).stopped = none := by decide +kernel
  have hsize : (Frame.joined (w.bodies .send)).size ≤ (w.link.outbox .send).wire.size + 10 := by
    decide +kernel
  have hshut : (w.link.outbox .send).shut := by decide +kernel
  have hsenders : (w.link.outbox .send).senders = [] := by decide +kernel
  have hjoined : Frame.joined (w.bodies .send) = ⟨#[1, 0, 0, 0, 7, 1, 0, 0, 0, 8]⟩ := by
    decide +kernel
  obtain ⟨-, -, -, -, -, -, -, hlater⟩ := writes_whole_frames hnew es .send
  obtain ⟨-, -, -, hall⟩ := hlater (rounds .send 10)
  obtain ⟨-, hend⟩ := hall 10 (serves_rounds .send 10) hgoing hsize
  obtain ⟨hended, hwire⟩ := hend hshut hsenders
  exact ⟨hnew, hqueued, by decide +kernel, hended, hwire.trans hjoined⟩

end Dispatch

end SimRelay
