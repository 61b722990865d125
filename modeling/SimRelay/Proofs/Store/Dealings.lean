import SimRelay.Call.Basic
import SimRelay.Proofs.Call.Pulling

/-!
# Proofs/Store/Dealings — what a step of a call asks of the store

A step makes one request to the store at most (`Call.request?`), and that request is all that
becomes of the store (`Call.store_step`).  Which request it is can be told from the phase: a
hand-over that has drawn a key puts its bytes there, one whose payload was dropped takes its key
out, and a delivery that carries a key is exchanged or looked up.

Phases in turn are reached in one way only (`Call.step_sets`): a key is put once by the call that
has drawn it, and the key under which a delivery is resolved is the one that it carries.
-/

namespace SimRelay

/-! ## Requests -/

/-- The key and the bytes that are to be kept under it, if that is the request. -/
def StoreRequest.entry? : StoreRequest → Option (String × ByteArray)
  | .put key payload => some (key, payload)
  | _ => none

namespace Backend

/-- The store after a request. -/
def serve (request : StoreRequest) (b : Backend) : Backend :=
  match request with
  | .select index => { b with received := b.received ++ [.select index] }
  | .put key payload => (b.put key payload).1
  | .peek key => (b.peek key).1
  | .checkOut key => (b.checkOut key).1
  | .isConnected => b.isConnected.1

/-- What the store was ever given, in order. -/
def puts (b : Backend) : List (String × ByteArray) := b.received.filterMap StoreRequest.entry?

variable {b : Backend}

theorem received_serve (request : StoreRequest) (b : Backend) :
    (b.serve request).received = b.received ++ [request] := by
  cases request with
  | select index => rfl
  | put key payload => by_cases h : .put ∈ b.failing <;> simp [serve, put, receive, h]
  | peek key => by_cases h : .peek ∈ b.failing <;> simp [serve, peek, receive, h]
  | checkOut key => by_cases h : .checkOut ∈ b.failing <;> simp [serve, checkOut, receive, h]
  | isConnected => rfl

theorem failing_serve (request : StoreRequest) (b : Backend) :
    (b.serve request).failing = b.failing := by
  cases request with
  | select index => rfl
  | put key payload => by_cases h : .put ∈ b.failing <;> simp [serve, put, receive, h]
  | peek key => by_cases h : .peek ∈ b.failing <;> simp [serve, peek, receive, h]
  | checkOut key => by_cases h : .checkOut ∈ b.failing <;> simp [serve, checkOut, receive, h]
  | isConnected => rfl

theorem puts_serve (request : StoreRequest) (b : Backend) :
    (b.serve request).puts = b.puts ++ request.entry?.toList := by
  rw [puts, received_serve, List.filterMap_append]
  cases request <;> rfl

/-- Looking leaves every entry, whether or not it succeeds. -/
theorem entries_peek (key : String) (b : Backend) : (b.peek key).1.entries = b.entries := by
  by_cases h : .peek ∈ b.failing <;> simp [peek, receive, h]

/-- …and taking out leaves every entry if it fails safely. -/
theorem entries_checkOut_of_error (safe : b.FailsSafely) {key : String} {fault : StoreError}
    (h : (b.checkOut key).2 = .error fault) : (b.checkOut key).1.entries = b.entries := by
  have hlossy : b.lossy = [] := safe
  by_cases hfails : .checkOut ∈ b.failing
  · simp [checkOut, receive, hfails, entries_failed, hlossy]
  · simp [checkOut, receive, hfails] at h

/-- So does putting. -/
theorem entries_put_of_error (safe : b.FailsSafely) {key : String} {payload : ByteArray}
    {fault : StoreError} (h : (b.put key payload).2 = .error fault) :
    (b.put key payload).1.entries = b.entries := by
  have hlossy : b.lossy = [] := safe
  by_cases hfails : .put ∈ b.failing
  · simp [put, receive, hfails, entries_failed, hlossy]
  · simp [put, receive, hfails] at h

/-- What is put lies in front, in place of what was there. -/
theorem entries_put_of_ok {key : String} {payload : ByteArray}
    (h : (b.put key payload).2 = .ok ()) :
    (b.put key payload).1.entries = (key, payload) :: without key b.entries := by
  by_cases hfails : .put ∈ b.failing
  · simp [put, receive, hfails] at h
  · simp [put, receive, hfails]

/-- What is taken out is gone, or the store has failed and every entry is there. -/
theorem entries_checkOut (key : String) (b : Backend) :
    (b.checkOut key).1.entries = without key b.entries ∨
      (b.checkOut key).1.entries = b.entries := by
  by_cases hfails : .checkOut ∈ b.failing
  · simp only [checkOut, receive, hfails, if_true, entries_failed]
    split
    · exact .inl rfl
    · exact .inr rfl
  · exact .inl (by simp [checkOut, receive, hfails])

section Sound

variable (sound : b.failing = [])
include sound

theorem put_of_sound (key : String) (payload : ByteArray) :
    b.put key payload = ((b.put key payload).1, .ok ()) := by
  simp [put, receive, sound]

theorem peek_of_sound (key : String) : b.peek key = ((b.peek key).1, .ok (b.get? key)) := by
  simp [peek, receive, sound, get?]

theorem checkOut_of_sound (key : String) :
    b.checkOut key = ((b.checkOut key).1, .ok (b.get? key)) := by
  simp [checkOut, receive, sound, get?]

/-- **A store that does not fail** changes the entry of the key that is put or taken out, and no
other. -/
theorem get?_serve (request : StoreRequest) (other : String) :
    (b.serve request).get? other = match request with
      | .put key payload => if other = key then some payload else b.get? other
      | .checkOut key => if other = key then none else b.get? other
      | _ => b.get? other := by
  cases request with
  | select index => rfl
  | put key payload => exact get?_put (put_of_sound sound key payload) other
  | peek key => simp only [serve, get?, entries_peek]
  | checkOut key => exact (get?_checkOut (checkOut_of_sound sound key) other).2
  | isConnected => rfl

/-- An entry was there before, or has just been put. -/
theorem of_get?_serve {request : StoreRequest} {key : String} {bytes : ByteArray}
    (h : (b.serve request).get? key = some bytes) :
    b.get? key = some bytes ∨ request = .put key bytes := by
  rw [get?_serve sound] at h
  split at h
  · split at h
    · next hkey => exact .inr (by rw [hkey, Option.some.inj h])
    · exact .inl h
  · split at h
    · exact nomatch h
    · exact .inl h
  · exact .inl h

/-- An entry that is gone was checked out. -/
theorem eq_checkOut_of_removed {request : StoreRequest} {key : String} {bytes : ByteArray}
    (hbefore : b.get? key = some bytes) (hafter : (b.serve request).get? key = none) :
    request = .checkOut key := by
  rw [get?_serve sound] at hafter
  split at hafter
  · split at hafter
    · exact nomatch hafter
    · exact nomatch hbefore.symm.trans hafter
  · next key' =>
    split at hafter
    · next hkey => rw [hkey]
    · exact nomatch hbefore.symm.trans hafter
  · exact nomatch hbefore.symm.trans hafter

end Sound

end Backend

/-! ## Hand-overs -/

/-- What a hand-over is about: the payload, and whether it is to travel. -/
def Hand.load : Hand → Payload × Bool
  | .send _ bytes => (.inline bytes, true)
  | .post _ _ payload _ success => (payload, success)
  | .postFetched f success => (fetchedPayload f, success)

theorem Hand.load_of_parcel {h : Hand} {s : Session} {p : Parcel} (hp : h.parcel s = .ok p) :
    h.load = (p.payload, p.travels) := by
  cases h with
  | send destination bytes => cases hp; rfl
  | post source destination payload size success => cases hp; rfl
  | postFetched f success =>
    simp only [parcel] at hp
    split at hp
    · cases hp; rfl
    · exact nomatch hp

namespace Call

variable {c : Call} {s : Session} {b : Backend} {key : String} {bytes : ByteArray}

/-- The request with which the next step of a call goes to the store. -/
def request? (s : Session) : Call → Option StoreRequest
  | .intake _ (.resolving _ key) => match s.role with
    | .application => some (.checkOut key)
    | .simulator => some (.peek key)
  | .hand h (.storing key) => match h.parcel s with
    | .ok ⟨_, .inline bytes, _⟩ => some (.put key bytes)
    | _ => none
  | .hand h (.releasing key) => match h.parcel s with
    | .ok _ => some (.checkOut key)
    | .error _ => none
  | _ => none

/-- **A step makes one request to the store at most**, and else leaves it alone. -/
theorem store_step (t : Turn) (c : Call) (s : Session) (b : Backend) :
    (c.step t s b).2.1 = match c.request? s with
      | some request => b.serve request
      | none => b := by
  cases c with
  | ping timeout phase => rfl
  | exit phase => rfl
  | intake i phase =>
    cases phase with
    | start =>
      simp only [step, request?, Intake.step]
      split
      · rfl
      · split
        · rfl
        · split <;> rfl
    | pulling p => rfl
    | attending timeout => rfl
    | waiting deadline => rfl
    | resolving m key =>
      simp only [step, request?, Intake.step, Intake.resolve]
      cases s.role with
      | application => dsimp only [Backend.serve]; split <;> simp only [*]
      | simulator => dsimp only [Backend.serve]; split <;> simp only [*]
  | hand h phase =>
    simp only [step, Hand.step]
    cases hp : h.parcel s with
    | error e => cases phase <;> simp only [request?, hp]
    | ok p =>
      cases phase with
      | start =>
        dsimp only [request?]
        split
        · rfl
        · split <;> rfl
      | storing key =>
        simp only [request?, hp]
        obtain ⟨message, payload, travels⟩ := p
        cases payload with
        | inline bytes => dsimp only [Backend.serve]; split <;> simp only [*]
        | key key' => rfl
      | releasing key => simp only [request?, hp, Backend.serve]
      | saying x stored => rfl

/-- Only a hand-over of bytes puts them into the store. -/
theorem eq_hand_of_put (h : c.request? s = some (.put key bytes)) :
    ∃ x, c = .hand x (.storing key) ∧ x.load.1 = .inline bytes := by
  unfold request? at h
  split at h
  · split at h <;> exact nomatch h
  · next x key' =>
    split at h
    · next bytes' travels hp =>
      obtain ⟨rfl, rfl⟩ := StoreRequest.put.inj (Option.some.inj h)
      exact ⟨x, rfl, congrArg Prod.fst (Hand.load_of_parcel hp)⟩
    · exact nomatch h
  · split at h <;> exact nomatch h
  · exact nomatch h

/-- A payload leaves the store for an application that resolves a delivery, or with the key that a
hand-over releases. -/
theorem eq_of_checkOut (h : c.request? s = some (.checkOut key)) :
    (s.role = .application ∧ ∃ i m, c = .intake i (.resolving m key)) ∨
      ∃ x, c = .hand x (.releasing key) := by
  unfold request? at h
  split at h
  · next i m key' =>
    split at h
    · next hrole =>
      obtain rfl := StoreRequest.checkOut.inj (Option.some.inj h)
      exact .inl ⟨hrole, i, m, rfl⟩
    · exact nomatch h
  · split at h <;> exact nomatch h
  · next x key' =>
    split at h
    · obtain rfl := StoreRequest.checkOut.inj (Option.some.inj h)
      exact .inr ⟨x, rfl⟩
    · exact nomatch h
  · exact nomatch h

/-- **A simulator's intake only looks.** -/
theorem entries_intake (hrole : s.role = .simulator) (t : Turn) (i : Intake) (phase : Intake.Phase)
    (b : Backend) : ((intake i phase).step t s b).2.1.entries = b.entries := by
  rw [store_step]
  cases phase with
  | resolving m key =>
    simp only [request?, hrole]
    exact Backend.entries_peek key b
  | _ => rfl

/-- The key and the bytes that a step redeems: it ends an application's call with a payload that
the store has given up. -/
def redeemed? : Call → Progress Failure Call Reply → Option (String × ByteArray)
  | .intake _ (.resolving _ key), .ends (.ok (.delivery (some (.received m)))) =>
    m.payloadBytes.map (key, ·)
  | _, _ => none

/-- **What is redeemed was in the store**, and is taken out in that step. -/
theorem of_redeemed? (sound : b.failing = []) {t : Turn}
    (h : c.redeemed? (c.step t s b).2.2 = some (key, bytes)) :
    c.request? s = some (.checkOut key) ∧ b.get? key = some bytes := by
  unfold redeemed? at h
  split at h
  · next i m key' m' hends =>
    obtain ⟨bytes', hbytes, heq⟩ := Option.map_eq_some_iff.mp h
    obtain ⟨rfl, rfl⟩ := Prod.mk.inj heq
    simp only [step, lift, Intake.step, Intake.resolve] at hends
    cases hrole : s.role with
    | application =>
      rw [hrole, Backend.checkOut_of_sound sound] at hends
      cases hget : b.get? key' with
      | none => rw [hget] at hends; exact nomatch hends
      | some stored =>
        rw [hget] at hends
        cases hends
        obtain rfl := Option.some.inj hbytes
        exact ⟨by rw [request?, hrole], rfl⟩
    | simulator =>
      rw [hrole, Backend.peek_of_sound sound] at hends
      cases hget : b.get? key' <;> rw [hget] at hends <;> exact nomatch hends
  · exact nomatch h

/-! ## Phases -/

/-- The phase fits the task: a key is drawn for bytes that travel, a key is released when its
payload does not travel, and a delivery is resolved by the key that it carries. -/
def Fits : Call → Prop
  | .hand h (.storing _) => ∃ bytes, h.load = (.inline bytes, true)
  | .hand h (.releasing key) => h.load = (.key key, false)
  | .intake _ (.resolving m key) => m.payloadKey = some key
  | _ => True

/-- The key that a call has drawn and is about to put. -/
def held? : Call → Option String
  | .hand _ (.storing key) => some key
  | _ => none

/-- The key that a call draws in a step that goes so. -/
def drawn? : Call → Progress Failure Call Reply → Option String
  | .hand _ .start, .goes (.hand _ (.storing key)) => some key
  | _, _ => none

/-- What a step may leave behind: a phase that fits, and in it a key only if the step drew it. -/
def Sets (c : Call) (p : Progress Failure Call Reply) : Prop :=
  p.Leaves fun c' => c'.Fits ∧ ∀ key, c'.held? = some key → c.drawn? p = some key

theorem hearForwarded_fits (t : Turn) (i : Intake) (begins : Bool) (deadline : Option Instant)
    (s : Session) :
    (i.hearForwarded t begins deadline s).2.Leaves fun phase => (Call.intake i phase).Fits := by
  unfold Intake.hearForwarded
  split
  · dsimp only
    split
    · exact i.settle_leaves _ fun _ hkey => hkey
    · exact trivial
  · exact trivial
  · exact trivial
  · exact trivial

theorem intakeStep_fits (t : Turn) (i : Intake) (phase : Intake.Phase) (s : Session)
    (b : Backend) : (i.step t phase s b).2.2.Leaves fun phase => (Call.intake i phase).Fits := by
  cases phase with
  | start =>
    simp only [Intake.step]
    split
    · exact trivial
    · split
      · exact trivial
      · split <;> exact trivial
  | pulling p =>
    simp only [Intake.step]
    generalize Pull.step t (i.wanted s) (i.timeout.getD s.responseWindow) p s = r
    obtain ⟨s', progress⟩ := r
    cases progress with
    | waits p' => exact trivial
    | goes p' => exact trivial
    | ends result =>
      match result with
      | .ok none => exact trivial
      | .ok (some m) => exact i.settle_leaves s' fun _ hkey => hkey
      | .error e => exact trivial
  | attending timeout => exact hearForwarded_fits t i true _ s
  | waiting deadline => exact hearForwarded_fits t i false deadline s
  | resolving m key => exact trivial

/-- **A key is held only by the call that drew it**, in the step in which it did, and every phase
fits the task. -/
theorem step_sets (t : Turn) (c : Call) (s : Session) (b : Backend) :
    c.Sets (c.step t s b).2.2 := by
  cases c with
  | ping timeout phase =>
    exact (Progress.leaves_true _).andThen (fun _ _ => ⟨trivial, nofun⟩) (fun _ => trivial)
      fun _ => trivial
  | exit phase =>
    exact (Progress.leaves_true _).andThen (fun _ _ => ⟨trivial, nofun⟩) (fun _ => trivial)
      fun _ => trivial
  | intake i phase =>
    exact (intakeStep_fits t i phase s b).andThen (fun _ h => ⟨h, nofun⟩) (fun _ => trivial)
      fun _ => trivial
  | hand h phase =>
    simp only [step, Hand.step]
    cases hp : h.parcel s with
    | error e => exact trivial
    | ok p =>
      have hload : h.load = (p.payload, p.travels) := Hand.load_of_parcel hp
      cases phase with
      | start =>
        dsimp only
        split
        · exact trivial
        · split
          · next hpayload htravels _ =>
            exact ⟨⟨_, by rw [hload, hpayload, htravels]⟩, fun _ hkey => hkey⟩
          · next hpayload htravels _ =>
            exact ⟨by rw [Fits, hload, hpayload, htravels], nofun⟩
          · exact ⟨trivial, nofun⟩
      | storing key =>
        dsimp only
        split
        · split
          · exact ⟨trivial, nofun⟩
          · exact trivial
        · exact ⟨trivial, nofun⟩
      | releasing key => exact ⟨trivial, nofun⟩
      | saying x stored =>
        have hsaying : Progress.Leaves (fun phase => ∃ x, phase = Hand.Phase.saying x stored)
            ((s.say t .send x).2.andThen (.saying · stored) (fun _ => .ends (.ok stored))
              fun e => .ends (.error (Failure.error e))) :=
          (Progress.leaves_true _).andThen (fun x _ => ⟨x, rfl⟩) (fun _ => trivial) fun _ => trivial
        exact hsaying.andThen (fun _ ⟨_, h⟩ => h ▸ ⟨trivial, nofun⟩) (fun _ => trivial)
          fun _ => trivial

end Call

end SimRelay
