import SimRelay.Proofs.Call.Desk

/-!
# Proofs/Call/Leftover — what a hand-over that fails leaves in the store

A hand-over goes to the store once at most, before it says its message.  Until then the store is
what it was, and from then on it is what that one visit has made of it (`Hand.Deals`): whatever
goes wrong with the message, nothing is taken back.

So a hand-over that fails before it says anything leaves the store as it found it, if the store
itself fails safely (`Backend.FailsSafely`).  One that fails later leaves a payload behind, under a
key that nobody is told, or it has released the key of a payload that does not travel, for which it
had no further use.
-/

namespace SimRelay

namespace Hand

variable {x : Hand} {s : Session} {b : Backend} {t : Turn} {phase : Phase}
  {before : List (String × ByteArray)}

/-- What a visit to the store makes of the entries: bytes that are to travel lie under the key that
was drawn for them; the key of a payload that does not travel is released, unless the store fails;
and else nothing changes. -/
inductive Deals (x : Hand) (before : List (String × ByteArray)) :
    Option String → List (String × ByteArray) → Prop
  | stores {key : String} {bytes : ByteArray} (load : x.load = (.inline bytes, true)) :
      Deals x before (some key) ((key, bytes) :: Backend.without key before)
  | releases {key : String} (load : x.load = (.key key, false)) :
      Deals x before none (Backend.without key before)
  | spares : Deals x before none before

/-- The message is being said. -/
def Phase.isSaying : Phase → Bool
  | .saying _ _ => true
  | _ => false

/-- What the store has in a phase, if nobody else changes it. -/
def Phase.Stands (x : Hand) (before after : List (String × ByteArray)) : Phase → Prop
  | .start => after = before
  | .storing _ => after = before ∧ ∃ bytes, x.load = (.inline bytes, true)
  | .releasing key => after = before ∧ x.load = (.key key, false)
  | .saying _ stored => x.Deals before stored after

/-- **A step that fails leaves the store as it was**, unless the store was asked and does not fail
safely. -/
theorem entries_of_failed {e : Failure} (hend : (x.step t phase s b).2.2 = .ends (.error e))
    (hsafe : (∃ key, phase = .storing key) → b.FailsSafely) :
    (x.step t phase s b).2.1.entries = b.entries := by
  unfold step at hend ⊢
  cases hparcel : x.parcel s with
  | error wrong => rfl
  | ok p =>
    rw [hparcel] at hend
    cases phase with
    | start =>
      dsimp only
      split
      · rfl
      · split <;> rfl
    | storing key =>
      obtain ⟨message, payload, travels⟩ := p
      cases payload with
      | key key' => rfl
      | inline bytes =>
        dsimp only at hend ⊢
        have hfailed {fault : StoreError} (h : (b.put key bytes).2 = .error fault) :=
          Backend.entries_put_of_error (hsafe ⟨key, rfl⟩) h
        revert hfailed hend
        rcases b.put key bytes with ⟨b', fault | _⟩
        · exact fun _ hfailed => hfailed rfl
        · intro hend
          cases hend
    | releasing key => exact nomatch hend
    | saying y stored => rfl

/-- **A step of a hand-over** goes to the store where it has to, once, and else leaves it alone. -/
theorem step_stands (t : Turn) (s : Session) (h : phase.Stands x before b.entries) :
    (x.step t phase s b).2.2.Leaves
      (Phase.Stands x before (x.step t phase s b).2.1.entries) := by
  unfold step
  cases hparcel : x.parcel s with
  | error wrong => exact trivial
  | ok p =>
    have hload : x.load = (p.payload, p.travels) := load_of_parcel hparcel
    cases phase with
    | start =>
      obtain rfl : b.entries = before := h
      dsimp only
      split
      · exact trivial
      · split
        · next bytes key s' hpayload htravels _ =>
          exact ⟨rfl, bytes, by rw [hload, hpayload, htravels]⟩
        · next key key' s' hpayload htravels _ =>
          exact ⟨rfl, by rw [hload, hpayload, htravels]⟩
        · exact .spares
    | storing key =>
      obtain ⟨rfl, bytes, htravels⟩ := h
      have hpayload : p.payload = .inline bytes :=
        congrArg Prod.fst (hload.symm.trans htravels)
      dsimp only
      rw [hpayload]
      dsimp only
      have hput : (b.put key bytes).2 = .ok () → _ := Backend.entries_put_of_ok
      revert hput
      rcases b.put key bytes with ⟨b', fault | _⟩
      · exact fun _ => trivial
      · intro hput
        have hentries : b'.entries = _ := hput rfl
        change x.Deals b.entries (some key) b'.entries
        rw [hentries]
        exact .stores htravels
    | releasing key =>
      obtain ⟨rfl, hdropped⟩ := h
      change x.Deals b.entries none (b.checkOut key).1.entries
      rcases b.entries_checkOut key with hgone | hkept
      · rw [hgone]
        exact .releases hdropped
      · rw [hkept]
        exact .spares
    | saying y stored =>
      have hstays (y' : Session.Saying) : (Phase.saying y' stored).Stands x before b.entries := h
      exact (Progress.leaves_true _).andThen (fun y' _ => hstays y') (fun _ => trivial)
        fun _ => trivial

/-- **A payload that does not travel goes the same way whatever the store has.** -/
theorem step_indifferent (hdropped : x.load.2 = false) (hfits : (Call.hand x phase).Fits)
    (t : Turn) (s : Session) (b b' : Backend) :
    (x.step t phase s b).1 = (x.step t phase s b').1 ∧
      (x.step t phase s b).2.2 = (x.step t phase s b').2.2 := by
  cases phase with
  | storing key =>
    obtain ⟨bytes, htravels⟩ := hfits
    exact nomatch hdropped.symm.trans (congrArg Prod.snd htravels)
  | start =>
    unfold step
    split
    · exact ⟨rfl, rfl⟩
    · dsimp only
      split
      · exact ⟨rfl, rfl⟩
      · split <;> exact ⟨rfl, rfl⟩
  | releasing key =>
    unfold step
    split <;> exact ⟨rfl, rfl⟩
  | saying y stored =>
    unfold step
    split <;> exact ⟨rfl, rfl⟩

end Hand

/-! ## One hand-over among other calls -/

namespace Desk

variable {w : Desk} {id : CallId} {c : Call} {x : Hand} {t : Turn}
  {before : List (String × ByteArray)} {es : List Event}

/-- A hand-over begins, and then this happens. -/
def hands (id : CallId) (x : Hand) (es : List Event) (w : Desk) : Desk :=
  (w.step (.begins id (.ofHand x))).run es

/-- The event has nothing to do with this call, or is a step of it: no call goes away under its
number or begins under it, and nobody else changes what the store has. -/
def Event.Spares (id : CallId) (w : Desk) : Event → Prop
  | .begins other _ => other ≠ id
  | .drops other => other ≠ id
  | .turns t => t.id = id ∨ (w.step (.turns t)).store.entries = w.store.entries
  | .stirs x => (w.step (.stirs x)).store.entries = w.store.entries

/-- …and so it is with every event of a history. -/
def Spares (id : CallId) : Desk → List Event → Prop
  | _, [] => True
  | w, e :: es => e.Spares id w ∧ Spares id (w.step e) es

instance decidableEventSpares (id : CallId) (w : Desk) : ∀ e : Event, Decidable (e.Spares id w)
  | .begins other _ => inferInstanceAs (Decidable (other ≠ id))
  | .drops other => inferInstanceAs (Decidable (other ≠ id))
  | .turns t => inferInstanceAs (Decidable (t.id = id ∨ _ = w.store.entries))
  | .stirs _ => inferInstanceAs (Decidable (_ = w.store.entries))

instance decidableSpares (id : CallId) : ∀ (w : Desk) (es : List Event), Decidable (Spares id w es)
  | _, [] => isTrue trivial
  | w, e :: es =>
    have := decidableSpares id (w.step e) es
    inferInstanceAs (Decidable (e.Spares id w ∧ Spares id (w.step e) es))

theorem lookup_erase_of_ne {id other : CallId} (hne : id ≠ other) (c : Call) :
    ∀ calls : List (CallId × Call), (calls.erase (other, c)).lookup id = calls.lookup id
  | [] => rfl
  | (k, c') :: calls => by
      have hrest := lookup_erase_of_ne hne c calls
      rw [List.erase_cons]
      split
      · next heq =>
        obtain ⟨rfl, -⟩ := Prod.mk.inj (eq_of_beq heq)
        rw [List.lookup_cons, beq_false_of_ne hne]
      · rw [List.lookup_cons, List.lookup_cons, hrest]

/-- A step of another call. -/
theorem lookup_turn_of_ne (hne : id ≠ t.id) (c : Call) (w : Desk) :
    (w.turn t c).calls.lookup id = w.calls.lookup id := by
  rw [calls_turn]
  cases (c.step t w.session w.store).2.2.state? with
  | none => exact lookup_erase_of_ne hne c w.calls
  | some next =>
    change ((t.id, next) :: w.calls.erase (t.id, c)).lookup id = _
    rw [List.lookup_cons, beq_false_of_ne hne]
    exact lookup_erase_of_ne hne c w.calls

/-- What is in flight under this number, if anything is, is the hand-over, and the store has what
it has made of it. -/
def Holds (id : CallId) (x : Hand) (before : List (String × ByteArray)) (w : Desk) : Prop :=
  ∀ c, w.calls.lookup id = some c → ∃ phase, c = .hand x phase ∧
    phase.Stands x before w.store.entries ∧ (Call.hand x phase).Fits

/-- **A step of the hand-over itself.** -/
theorem Holds.turn (h : w.Holds t.id x before) (hv : w.Vigil)
    (hcall : w.calls.lookup t.id = some c) : (w.turn t c).Holds t.id x before := by
  obtain ⟨phase, rfl, hstands, -⟩ := h c hcall
  intro c' hc'
  rw [hv.lookup_turn t (mem_of_lookup hcall)] at hc'
  have hfits : c'.Fits :=
    (Progress.Leaves.of_state? (Call.step_sets t (.hand x phase) w.session w.store) hc').1
  obtain ⟨phase', hphase', rfl⟩ := Call.of_state?_lift hc'
  exact ⟨phase', rfl, (Hand.step_stands t w.session hstands).of_state? hphase', hfits⟩

/-- **Whatever else happens, the store has what the hand-over has made of it.** -/
theorem Holds.step (h : w.Holds id x before) (hv : w.Vigil) {e : Event} (he : e.Spares id w) :
    (w.step e).Holds id x before := by
  -- nothing has become of the call or the entries
  have hsame {w' : Desk} (hlookup : w'.calls.lookup id = w.calls.lookup id)
      (hentries : w'.store.entries = w.store.entries) : w'.Holds id x before := by
    intro c hc
    rw [hentries]
    exact h c (hlookup ▸ hc)
  cases e with
  | begins other c =>
    rw [Desk.step]
    split
    · refine hsame ?_ rfl
      rw [List.lookup_cons, beq_false_of_ne (Ne.symm he)]
    · exact h
  | turns t =>
    cases hcall : w.calls.lookup t.id with
    | none =>
      rw [Desk.step, hcall]
      exact h
    | some c =>
      have hw : w.step (.turns t) = w.turn t c := by rw [Desk.step, hcall]; rfl
      by_cases hid : t.id = id
      · subst hid
        exact hw ▸ h.turn hv hcall
      · have hentries : (w.step (.turns t)).store.entries = w.store.entries := he.resolve_left hid
        exact hsame (hw ▸ lookup_turn_of_ne (Ne.symm hid) c w) hentries
  | drops other =>
    rw [Desk.step]
    cases hcall : w.calls.lookup other with
    | none => exact h
    | some c => exact hsame (lookup_erase_of_ne (Ne.symm he) c w.calls) rfl
  | stirs y => exact hsame rfl he

/-- **…and so it is over a whole history.** -/
theorem Holds.run (h : w.Holds id x before) (hv : w.Vigil) (hes : w.Spares id es) :
    (w.run es).Holds id x before := by
  induction es generalizing w with
  | nil => exact h
  | cons e es ih => exact ih (h.step hv hes.1) (hv.step e) hes.2

/-- A hand-over that begins has nothing to do with what is there. -/
theorem holds_begins (hfree : w.calls.lookup id = none) (x : Hand) :
    (w.step (.begins id (.ofHand x))).Holds id x w.store.entries := by
  intro c hc
  have hw : w.step (.begins id (.ofHand x)) = { w with calls := (id, .ofHand x) :: w.calls } :=
    if_pos ⟨rfl, hfree⟩
  rw [hw] at hc ⊢
  obtain rfl : Call.ofHand x = c := Option.some.inj (List.lookup_cons_self.symm.trans hc)
  exact ⟨.start, rfl, rfl, trivial⟩

/-- **A hand-over that fails takes nothing back.**  Let a client have any calls in flight and any
history, with or without a store, and let it begin a hand-over: it sends a payload, or posts one or
a fetched one, which travels or is dropped.  Let any other calls take steps in between, an exit
among them, and the daemon, the writers and the store do as they like, so long as nobody else
changes what the store has.  When the hand-over ends with an error,

* the store has exactly the entries that it had at first, unless the message was being said: so it
  is where the client was closed or the payload could not be routed, and where it could not be
  stored, if the store fails safely;
* if the message was being said, what the store has is what the one visit has made of it
  (`Hand.Deals`): bytes that were to travel lie under the key that was drawn for them, which nobody
  is told; the key of a payload that does not travel may be gone; and else the entries are those
  that it had at first;
* of a payload that does not travel, no step depends on what the store has, so that whoever tries
  again has no use for what is gone. -/
theorem failed_takes_nothing_back (s : Session) (b : Backend) (earlier : List Event)
    (hfree : ((start s b).run earlier).calls.lookup t.id = none)
    (hspares : (((start s b).run earlier).step (.begins t.id (.ofHand x))).Spares t.id es)
    {phase : Hand.Phase}
    (hcall : (((start s b).run earlier).hands t.id x es).calls.lookup t.id = some (.hand x phase))
    {e : Failure} :
    let w := (start s b).run earlier
    let w' := w.hands t.id x es
    (x.step t phase w'.session w'.store).2.2 = .ends (.error e) →
      (phase.isSaying = false → ((∃ key, phase = .storing key) → w'.store.FailsSafely) →
        (w'.step (.turns t)).store.entries = w.store.entries) ∧
      (∀ y stored, phase = .saying y stored →
        x.Deals w.store.entries stored (w'.step (.turns t)).store.entries) ∧
      (x.load.2 = false → ∀ t phase s b b', (Call.hand x phase).Fits →
        (x.step t phase s b).1 = (x.step t phase s b').1 ∧
          (x.step t phase s b).2.2 = (x.step t phase s b').2.2) := by
  intro w w' hend
  have hvigil : w.Vigil := (Vigil.start s b).run earlier
  have hholds : w'.Holds t.id x w.store.entries :=
    (holds_begins hfree x).run (hvigil.step _) hspares
  obtain ⟨phase', heq, hstands, -⟩ := hholds _ hcall
  obtain rfl : phase = phase' := (Call.hand.inj heq).2
  have hentries (hsafe : (∃ key, phase = .storing key) → w'.store.FailsSafely) :
      (w'.step (.turns t)).store.entries = w'.store.entries := by
    change ((w'.calls.lookup t.id).elim w' (w'.turn t)).store.entries = _
    rw [hcall]
    exact Hand.entries_of_failed hend hsafe
  refine ⟨fun hsilent hsafe => ?_, fun y stored hsaying => ?_, fun hdropped t phase s b b' hfits =>
    Hand.step_indifferent hdropped hfits t s b b'⟩
  · rw [hentries hsafe]
    cases phase with
    | start => exact hstands
    | storing key => exact hstands.1
    | releasing key => exact hstands.1
    | saying y stored => exact nomatch hsilent
  · subst hsaying
    rw [hentries fun ⟨_, hstoring⟩ => Hand.Phase.noConfusion hstoring]
    exact hstands

/-- A store that cannot keep a payload has what it had, while a ping is under way. -/
theorem failed_takes_nothing_back_unstored :
    let s : Session :=
      { identifier := "z", role := .application, config := ⟨.push, some ⟨"store", 6379, 0⟩⟩,
        keys := some ⟨"z", 0⟩, responseWindow := .ofSeconds 1, link := {} }
    let b : Backend :=
      { entries := [("k", "old".toUTF8)], failing := [.put], failure := ⟨"boom"⟩ }
    let t : Turn := ⟨0, ⟨0⟩, 0⟩
    let es : List Event := [.turns t, .begins 1 (.ofPing none), .turns ⟨1, ⟨0⟩, 0⟩]
    let w := ((start s b).run []).hands 0 (.send "b" "hi".toUTF8) es
    w.calls.lookup 0 = some (.hand (.send "b" "hi".toUTF8) (.storing "0-z-1")) ∧
      (w.step (.turns t)).store.entries = [("k", "old".toUTF8)] := by
  intro s b t es
  dsimp only
  have hcall : (((start s b).run []).hands 0 (.send "b" "hi".toUTF8) es).calls.lookup 0
      = some (.hand (.send "b" "hi".toUTF8) (.storing "0-z-1")) := by decide +kernel
  have hfree : ((start s b).run []).calls.lookup t.id = none := rfl
  have hspares : Spares 0
      (((start s b).run []).step (.begins 0 (.ofHand (.send "b" "hi".toUTF8)))) es := by
    decide +kernel
  obtain ⟨hkept, -⟩ := failed_takes_nothing_back s b [] (t := t) hfree hspares hcall
    (e := .error (.store ⟨"boom"⟩)) rfl
  exact ⟨hcall, hkept rfl fun _ => by decide +kernel⟩

/-- …but a message that fails is not undone.  An application's payload stays in the store under a
key that it is not told, whether its client leaves before the message is said or the writer fails in
the middle of the frame; and each time that it tries again, one more is left. -/
theorem failed_leaves_payload :
    let s : Session :=
      { identifier := "z", role := .application, config := ⟨.push, some ⟨"store", 6379, 0⟩⟩,
        keys := some ⟨"z", 0⟩, responseWindow := .ofSeconds 1, link := {} }
    let x : Hand := .send "b" "hi".toUTF8
    let turn (id : CallId) : Event := .turns ⟨id, ⟨0⟩, 0⟩
    let stored (id : CallId) : List Event := [turn id, turn id]
    let breaks : List Event := [turn 0, turn 0, turn 0, .stirs (.writes .send .picks),
      .stirs (.writes .send (.pushes 3)), .stirs (.writes .send (.fails "gone"))]
    let left := (start s {}).hands 0 x (stored 0 ++ [.begins 1 .ofExit, turn 1])
    let broken := (start s {}).hands 0 x (stored 0 ++ breaks)
    let again := (broken.step (turn 0)).hands 2 x (stored 2 ++ [turn 2])
    let failure? (w : Desk) (id : CallId) : Option Failure := (w.calls.lookup id).bind fun c =>
      match (c.step ⟨id, ⟨0⟩, 0⟩ w.session w.store).2.2 with
      | .ends (.error e) => some e
      | _ => none
    let entries (w : Desk) (id : CallId) := (w.step (turn id)).store.entries
    failure? left 0 = some (.error .closed) ∧
      entries left 0 = [("0-z-1", "hi".toUTF8)] ∧
      failure? broken 0 = some (.error (.link (.io "gone"))) ∧
      entries broken 0 = [("0-z-1", "hi".toUTF8)] ∧
      failure? again 2 = some (.error (.link .closed)) ∧
      entries again 2 = [("0-z-2", "hi".toUTF8), ("0-z-1", "hi".toUTF8)] := by
  intro s x turn stored breaks left broken again failure? entries
  exact ⟨by decide +kernel, by decide +kernel, by decide +kernel, by decide +kernel,
    by decide +kernel, by decide +kernel⟩

end Desk

end SimRelay
