import Mathlib.Logic.Function.Basic
import SimRelay.Proofs.Store.Dealings
import SimRelay.Proofs.Wire.Frames

/-!
# Proofs/Store/SingleUse — a stored payload is consumed once, by the right party

Any number of clients share one store, and any number of their calls are in flight at once; one
step is taken at a time, by whichever call it may be.  That keys are pairwise distinct is asked of
the keys that a history draws (`Commons.drawn`), and is all that is asked.

Two accounts carry the proof.  The `Ledger` is about the store: every key was put once, and what
was redeemed is gone.  The `Holdings` are about keys: one that is still to be put is held by one
call, and was not put before.
-/

namespace SimRelay

/-! ## The store's account -/

/-- The account of a store that does not fail: each key was put once, an entry has the bytes that
were put with it, and a key is redeemed once, after which it has no entry. -/
structure Ledger (b : Backend) (redeemed : List (String × ByteArray)) : Prop where
  sound : b.failing = []
  once : (b.puts.map Prod.fst).Nodup
  kept : ∀ key bytes, b.get? key = some bytes → (key, bytes) ∈ b.puts
  gone : ∀ p ∈ redeemed, p ∈ b.puts ∧ b.get? p.1 = none
  single : (redeemed.map Prod.fst).Nodup

/-- What a request puts was not put before. -/
def Backend.Unput (b : Backend) (request : StoreRequest) : Prop :=
  ∀ p ∈ request.entry?, p.1 ∉ b.puts.map Prod.fst

namespace Ledger

variable {b : Backend} {redeemed : List (String × ByteArray)} {request : StoreRequest}
  {key : String} {bytes : ByteArray}

theorem nil : Ledger {} [] where
  sound := rfl
  once := .nil
  kept _ _ h := nomatch h
  gone _ h := nomatch h
  single := .nil

/-- **A key that was put and has no entry gets none again.** -/
theorem get?_serve_eq_none (h : Ledger b redeemed) (hunput : b.Unput request)
    (hput : key ∈ b.puts.map Prod.fst) (hnone : b.get? key = none) :
    (b.serve request).get? key = none := by
  refine Option.eq_none_iff_forall_ne_some.mpr fun bytes hget => ?_
  rcases Backend.of_get?_serve h.sound hget with hbefore | rfl
  · exact nomatch hnone.symm.trans hbefore
  · exact hunput (key, bytes) rfl hput

/-- **A request keeps the account.** -/
theorem serve (h : Ledger b redeemed) (hunput : b.Unput request) :
    Ledger (b.serve request) redeemed where
  sound := (Backend.failing_serve request b).trans h.sound
  once := by
    rw [Backend.puts_serve, List.map_append]
    refine List.nodup_append.mpr ⟨h.once, ?_, ?_⟩
    · cases request.entry? <;> simp
    · rintro key hold _ hnew rfl
      obtain ⟨p, hp, rfl⟩ := List.mem_map.mp hnew
      exact hunput p (Option.mem_toList.mp hp) hold
  kept key bytes hget := by
    rw [Backend.puts_serve, List.mem_append]
    rcases Backend.of_get?_serve h.sound hget with hbefore | rfl
    · exact .inl (h.kept key bytes hbefore)
    · exact .inr (List.mem_singleton.mpr rfl)
  gone p hp := by
    obtain ⟨hput, hnone⟩ := h.gone p hp
    refine ⟨?_, h.get?_serve_eq_none hunput (List.mem_map_of_mem hput) hnone⟩
    rw [Backend.puts_serve]
    exact List.mem_append_left _ hput
  single := h.single

/-- **A key that is redeemed** was not redeemed before, since it had an entry. -/
theorem redeem (h : Ledger b redeemed) (hget : b.get? key = some bytes) :
    Ledger (b.serve (.checkOut key)) (redeemed ++ [(key, bytes)]) := by
  have hserved : Ledger (b.serve (.checkOut key)) redeemed := h.serve nofun
  refine ⟨hserved.sound, hserved.once, hserved.kept, ?_, ?_⟩
  · refine List.forall_mem_append.mpr ⟨hserved.gone, fun p hp => ?_⟩
    obtain rfl := List.mem_singleton.mp hp
    refine ⟨?_, ?_⟩
    · rw [Backend.puts_serve]
      exact List.mem_append_left _ (h.kept key bytes hget)
    · rw [Backend.get?_serve h.sound]
      exact if_pos rfl
  · rw [List.map_append]
    refine List.nodup_append.mpr ⟨h.single, by simp, ?_⟩
    rintro other hold _ hnew rfl
    obtain rfl := List.mem_singleton.mp hnew
    obtain ⟨p, hp, rfl⟩ := List.mem_map.mp hold
    exact nomatch hget.symm.trans (h.gone p hp).2

end Ledger

/-! ## Clients that share a store -/

/-- A client, among those that share a store. -/
abbrev ClientId := Nat

/-- Clients that share one store, and their calls in flight. -/
structure Commons where
  clients : ClientId → Session
  calls : CallId → Option (ClientId × Call) := fun _ => none
  store : Backend := {}
  /-- The keys drawn so far. -/
  drawn : List String := []
  /-- The keys that were redeemed, with the bytes that were returned for them. -/
  redeemed : List (String × ByteArray) := []

/-- The call has not taken a step. -/
def Call.isNew : Call → Bool
  | .ping _ .start | .intake _ .start | .hand _ .start | .exit .start => true
  | _ => false

theorem Call.fits_of_isNew {c : Call} (h : c.isNew) : c.Fits ∧ c.held? = none := by
  unfold isNew at h
  split at h
  · exact ⟨trivial, rfl⟩
  · exact ⟨trivial, rfl⟩
  · exact ⟨trivial, rfl⟩
  · exact ⟨trivial, rfl⟩
  · exact nomatch h

namespace Commons

inductive Event
  /-- A client begins a call, unless one of that number is in flight. -/
  | begins (who : ClientId) (id : CallId) (c : Call)
  /-- A call in flight takes a step. -/
  | turns (t : Turn)
  /-- A call is dropped. -/
  | drops (id : CallId)
  /-- Bytes come and go on the channels of a client. -/
  | stirs (who : ClientId) (f : Link → Link)

def setClient (who : ClientId) (s : Session) (w : Commons) : Commons :=
  { w with clients := Function.update w.clients who s }

def setCall (id : CallId) (call : Option (ClientId × Call)) (w : Commons) : Commons :=
  { w with calls := Function.update w.calls id call }

def step (w : Commons) : Event → Commons
  | .begins who id c => if c.isNew ∧ w.calls id = none then w.setCall id (some (who, c)) else w
  | .turns t => match w.calls t.id with
    | none => w
    | some (who, c) =>
      let (s, store, progress) := c.step t (w.clients who) w.store
      { (w.setClient who s).setCall t.id (progress.state?.map (who, ·)) with
        store
        drawn := w.drawn ++ (c.drawn? progress).toList
        redeemed := w.redeemed ++ (c.redeemed? progress).toList }
  | .drops id => match w.calls id with
    | none => w
    | some (who, _) => (w.setClient who ((w.clients who).abandon id)).setCall id none
  | .stirs who f => w.setClient who { w.clients who with link := f (w.clients who).link }

/-- A whole history. -/
def run (w : Commons) (es : List Event) : Commons := es.foldl step w

variable {w : Commons} {t : Turn} {who : ClientId} {c : Call}

@[simp] theorem calls_setCall (id id' : CallId) (call : Option (ClientId × Call)) (w : Commons) :
    (w.setCall id call).calls id' = if id' = id then call else w.calls id' :=
  Function.update_apply w.calls id call id'

theorem run_append (w : Commons) (es es' : List Event) : w.run (es ++ es') = (w.run es).run es' :=
  List.foldl_append

theorem step_turns (hcall : w.calls t.id = some (who, c)) :
    w.step (.turns t) =
      let r := c.step t (w.clients who) w.store
      { (w.setClient who r.1).setCall t.id (r.2.2.state?.map (who, ·)) with
        store := r.2.1
        drawn := w.drawn ++ (c.drawn? r.2.2).toList
        redeemed := w.redeemed ++ (c.redeemed? r.2.2).toList } := by
  rw [step, hcall]

/-! ## Keys that are held -/

/-- The call of this number has drawn a key that it is about to put. -/
def Holds (w : Commons) (id : CallId) (key : String) : Prop :=
  ∃ who c, w.calls id = some (who, c) ∧ c.held? = some key

/-- The account of the keys: what was put was drawn, and a key that is still to be put was drawn
too, was not put before and is held by one call.  Each call does what its phase is for. -/
structure Holdings (w : Commons) : Prop where
  fits : ∀ {id who c}, w.calls id = some (who, c) → c.Fits
  drawn : ∀ {id key}, w.Holds id key → key ∈ w.drawn
  unput : ∀ {id key}, w.Holds id key → key ∉ w.store.puts.map Prod.fst
  alone : ∀ {id id' key}, w.Holds id key → w.Holds id' key → id = id'
  put : w.store.puts.map Prod.fst ⊆ w.drawn

/-- What begins no call but a new one changes nothing about the keys. -/
theorem Holdings.of_calls (h : w.Holdings) {w' : Commons} (hstore : w'.store = w.store)
    (hdrawn : w'.drawn = w.drawn)
    (hcalls : ∀ id who c, w'.calls id = some (who, c) → w.calls id = some (who, c) ∨ c.isNew) :
    w'.Holdings := by
  have hholds {id : CallId} {key : String} : w'.Holds id key → w.Holds id key := by
    rintro ⟨who, c, hcall, hheld⟩
    rcases hcalls id who c hcall with hcall | hnew
    · exact ⟨who, c, hcall, hheld⟩
    · exact nomatch hheld.symm.trans (Call.fits_of_isNew hnew).2
  refine ⟨fun {id who c} hcall => ?_, fun hw => ?_, fun hw => ?_, fun hw hw' => ?_, ?_⟩
  · rcases hcalls id who c hcall with hcall | hnew
    · exact h.fits hcall
    · exact (Call.fits_of_isNew hnew).1
  · rw [hdrawn]; exact h.drawn (hholds hw)
  · rw [hstore]; exact h.unput (hholds hw)
  · exact h.alone (hholds hw) (hholds hw')
  · rw [hstore, hdrawn]; exact h.put

/-- A call holds the key of what it asks the store to keep. -/
theorem holds_of_entry (hcall : w.calls t.id = some (who, c)) {request : StoreRequest}
    (hrequest : c.request? (w.clients who) = some request) {p : String × ByteArray}
    (hp : p ∈ request.entry?) : w.Holds t.id p.1 := by
  cases request with
  | put key bytes =>
    obtain rfl := Option.some.inj hp
    obtain ⟨x, rfl, -⟩ := Call.eq_hand_of_put hrequest
    exact ⟨who, _, hcall, rfl⟩
  | _ => exact nomatch hp

/-- **What a call asks the store to keep was not put before.** -/
theorem Holdings.unput_request (h : w.Holdings) (hcall : w.calls t.id = some (who, c))
    {request : StoreRequest} (hrequest : c.request? (w.clients who) = some request) :
    w.store.Unput request :=
  fun _ hp => h.unput (holds_of_entry hcall hrequest hp)

theorem puts_turn (hcall : w.calls t.id = some (who, c)) :
    ∀ key ∈ (c.step t (w.clients who) w.store).2.1.puts.map Prod.fst,
      key ∈ w.store.puts.map Prod.fst ∨ w.Holds t.id key := by
  intro key hkey
  rw [Call.store_step] at hkey
  split at hkey
  · next request hrequest =>
    rw [Backend.puts_serve, List.map_append, List.mem_append] at hkey
    rcases hkey with hold | hnew
    · exact .inl hold
    · obtain ⟨p, hp, rfl⟩ := List.mem_map.mp hnew
      exact .inr (holds_of_entry hcall hrequest (Option.mem_toList.mp hp))
  · exact .inl hkey

/-- **A step of a call** draws a key that nobody holds, or puts the one that the call holds. -/
theorem Holdings.turn (h : w.Holdings) (hcall : w.calls t.id = some (who, c))
    (hnew : (w.step (.turns t)).drawn.Nodup) : (w.step (.turns t)).Holdings := by
  rw [step_turns hcall] at hnew ⊢
  have hsets : Progress.Leaves _ _ := Call.step_sets t c (w.clients who) w.store
  have hputs := puts_turn hcall
  generalize c.step t (w.clients who) w.store = r at hnew hsets hputs ⊢
  obtain ⟨s, store, progress⟩ := r
  dsimp only at hnew hputs ⊢
  obtain ⟨-, -, hfresh⟩ := List.nodup_append.mp hnew
  -- after the step, a key is held as it was, or is the one that was drawn
  have hcalls {id : CallId} {who' : ClientId} {c' : Call}
      (hc : ((w.setClient who s).setCall t.id (progress.state?.map (who, ·))).calls id
        = some (who', c')) :
      (id ≠ t.id ∧ w.calls id = some (who', c')) ∨ (id = t.id ∧ c'.Fits ∧
        ∀ key, c'.held? = some key → c.drawn? progress = some key) := by
    rw [calls_setCall] at hc
    split at hc
    · next hid =>
      obtain ⟨next, hnext, heq⟩ := Option.map_eq_some_iff.mp hc
      obtain ⟨-, rfl⟩ := Prod.mk.inj heq
      have hnext := hsets.of_state? hnext
      exact .inr ⟨hid, hnext⟩
    · next hid => exact .inl ⟨hid, hc⟩
  have hholds {id : CallId} {key : String}
      (hw : ∃ who' c', ((w.setClient who s).setCall t.id (progress.state?.map (who, ·))).calls id
        = some (who', c') ∧ c'.held? = some key) :
      (id ≠ t.id ∧ w.Holds id key) ∨ (id = t.id ∧ key ∈ (c.drawn? progress).toList) := by
    obtain ⟨who', c', hc, hheld⟩ := hw
    rcases hcalls hc with ⟨hid, hc⟩ | ⟨hid, -, hdrawn⟩
    · exact .inl ⟨hid, who', c', hc, hheld⟩
    · exact .inr ⟨hid, Option.mem_toList.mpr (hdrawn key hheld)⟩
  refine ⟨fun hc => ?_, fun {id key} hw => ?_, fun {id key} hw hput => ?_,
    fun {id id' key} hw hw' => ?_, fun key hput => ?_⟩
  · rcases hcalls hc with ⟨-, hc⟩ | ⟨-, hfits, -⟩
    · exact h.fits hc
    · exact hfits
  · rcases hholds hw with ⟨-, hw⟩ | ⟨-, hdrawn⟩
    · exact List.mem_append_left _ (h.drawn hw)
    · exact List.mem_append_right _ hdrawn
  · rcases hholds hw with ⟨hid, hw⟩ | ⟨-, hdrawn⟩
    · rcases hputs key hput with hold | hheld
      · exact h.unput hw hold
      · exact hid (h.alone hw hheld)
    · rcases hputs key hput with hold | hheld
      · exact hfresh key (h.put hold) key hdrawn rfl
      · exact hfresh key (h.drawn hheld) key hdrawn rfl
  · rcases hholds hw with ⟨-, hw⟩ | ⟨hid, hdrawn⟩
    · rcases hholds hw' with ⟨-, hw'⟩ | ⟨-, hdrawn'⟩
      · exact h.alone hw hw'
      · exact absurd rfl (hfresh key (h.drawn hw) key hdrawn')
    · rcases hholds hw' with ⟨-, hw'⟩ | ⟨hid', -⟩
      · exact absurd rfl (hfresh key (h.drawn hw') key hdrawn)
      · exact hid.trans hid'.symm
  · rcases hputs key hput with hold | hheld
    · exact List.mem_append_left _ (h.put hold)
    · exact List.mem_append_left _ (h.drawn hheld)

/-! ## Histories -/

/-- Both accounts are in order. -/
structure Orderly (w : Commons) : Prop where
  ledger : Ledger w.store w.redeemed
  holdings : w.Holdings

theorem Orderly.start (clients : ClientId → Session) : Orderly { clients } where
  ledger := .nil
  holdings :=
    { fits := nofun
      drawn := fun ⟨_, _, h, _⟩ => nomatch h
      unput := fun ⟨_, _, h, _⟩ => nomatch h
      alone := fun ⟨_, _, h, _⟩ => nomatch h
      put := List.nil_subset _ }

/-- **A step of a call keeps the store's account**: what it redeems had an entry. -/
theorem Orderly.turn_ledger (h : w.Orderly) (hcall : w.calls t.id = some (who, c)) :
    Ledger (w.step (.turns t)).store (w.step (.turns t)).redeemed := by
  rw [step_turns hcall]
  dsimp only
  cases hredeemed : c.redeemed? (c.step t (w.clients who) w.store).2.2 with
  | some p =>
    obtain ⟨hrequest, hget⟩ := Call.of_redeemed? h.ledger.sound hredeemed
    rw [Call.store_step, hrequest]
    exact h.ledger.redeem hget
  | none =>
    rw [Option.toList_none, List.append_nil, Call.store_step]
    split
    · next hrequest => exact h.ledger.serve (h.holdings.unput_request hcall hrequest)
    · exact h.ledger

/-- **Nothing that happens puts the accounts out of order**, if no key is drawn twice. -/
theorem Orderly.step (h : w.Orderly) (e : Event) (hnew : (w.step e).drawn.Nodup) :
    (w.step e).Orderly := by
  cases e with
  | begins who id c =>
    rw [Commons.step]
    split
    · next hbegins =>
      refine ⟨h.ledger, h.holdings.of_calls rfl rfl fun id' who' c' hc => ?_⟩
      rw [calls_setCall] at hc
      split at hc
      · obtain ⟨-, rfl⟩ := Prod.mk.inj (Option.some.inj hc)
        exact .inr hbegins.1
      · exact .inl hc
    · exact h
  | turns t =>
    cases hcall : w.calls t.id with
    | none =>
      rw [Commons.step, hcall]
      exact h
    | some call => exact ⟨h.turn_ledger hcall, h.holdings.turn hcall hnew⟩
  | drops id =>
    rw [Commons.step]
    split
    · exact h
    · refine ⟨h.ledger, h.holdings.of_calls rfl rfl fun id' who' c' hc => .inl ?_⟩
      rw [calls_setCall] at hc
      split at hc
      · exact nomatch hc
      · exact hc
  | stirs who f => exact ⟨h.ledger, h.holdings.of_calls rfl rfl fun _ _ _ hc => .inl hc⟩

/-- Keys that were drawn stay drawn. -/
theorem drawn_step (w : Commons) (e : Event) : ∃ more, (w.step e).drawn = w.drawn ++ more := by
  cases e with
  | begins who id c =>
    rw [step]
    split <;> exact ⟨[], (List.append_nil _).symm⟩
  | turns t =>
    rw [step]
    split
    · exact ⟨[], (List.append_nil _).symm⟩
    · exact ⟨_, rfl⟩
  | drops id =>
    rw [step]
    split <;> exact ⟨[], (List.append_nil _).symm⟩
  | stirs who f => exact ⟨[], (List.append_nil _).symm⟩

theorem drawn_run (w : Commons) (es : List Event) : ∃ more, (w.run es).drawn = w.drawn ++ more := by
  induction es generalizing w with
  | nil => exact ⟨[], (List.append_nil _).symm⟩
  | cons e es ih =>
    obtain ⟨first, hfirst⟩ := w.drawn_step e
    obtain ⟨rest, hrest⟩ := ih (w.step e)
    exact ⟨first ++ rest, by rw [run, List.foldl_cons, ← run, hrest, hfirst, List.append_assoc]⟩

/-- A history that draws no key twice had not done so before. -/
theorem nodup_drawn_of_run {es : List Event} (hnew : (w.run es).drawn.Nodup) : w.drawn.Nodup := by
  obtain ⟨more, hmore⟩ := w.drawn_run es
  rw [hmore] at hnew
  exact (List.nodup_append.mp hnew).1

/-- **…and so it is over a whole history.** -/
theorem Orderly.run (h : w.Orderly) (es : List Event) (hnew : (w.run es).drawn.Nodup) :
    (w.run es).Orderly := by
  induction es generalizing w with
  | nil => exact h
  | cons e es ih =>
    change ((w.step e).run es).drawn.Nodup at hnew
    exact ih (h.step e (nodup_drawn_of_run hnew)) hnew

/-! ## Entries come and go -/

/-- The step is that of a hand-over of these bytes, which are to travel under this key. -/
def Puts (w : Commons) (e : Event) (key : String) (bytes : ByteArray) : Prop :=
  ∃ t who x, e = .turns t ∧ w.calls t.id = some (who, .hand x (.storing key)) ∧
    x.load = (.inline bytes, true)

/-- The step is that of an application's call which resolves a delivery that carries this key, or of
a hand-over of the key for a payload that was dropped. -/
def TakesOut (w : Commons) (e : Event) (key : String) : Prop :=
  ∃ t who, e = .turns t ∧
    ((w.clients who).role = .application ∧
        (∃ i m, w.calls t.id = some (who, .intake i (.resolving m key)) ∧
          m.payloadKey = some key) ∨
      ∃ x, w.calls t.id = some (who, .hand x (.releasing key)) ∧ x.load = (.key key, false))

/-- **The store changes by a request of the call that takes a step.** -/
theorem store_step (w : Commons) (e : Event) :
    (w.step e).store = w.store ∨
      ∃ t who c request, e = .turns t ∧ w.calls t.id = some (who, c) ∧
        c.request? (w.clients who) = some request ∧ (w.step e).store = w.store.serve request := by
  cases e with
  | begins who id c =>
    rw [step]
    split <;> exact .inl rfl
  | turns t =>
    cases hcall : w.calls t.id with
    | none =>
      rw [step, hcall]
      exact .inl rfl
    | some call =>
      obtain ⟨who, c⟩ := call
      rw [step_turns hcall]
      dsimp only
      rw [Call.store_step]
      cases hrequest : c.request? (w.clients who) with
      | none => exact .inl rfl
      | some request => exact .inr ⟨t, who, c, request, rfl, hcall, hrequest, rfl⟩
  | drops id =>
    rw [step]
    split <;> exact .inl rfl
  | stirs who f => exact .inl rfl

/-- What was put stays on record. -/
theorem puts_step (w : Commons) (e : Event) : w.store.puts ⊆ (w.step e).store.puts := by
  rcases w.store_step e with hstore | ⟨-, -, -, request, -, -, -, hstore⟩
  · rw [hstore]
    exact List.Subset.refl _
  · rw [hstore, Backend.puts_serve]
    exact List.subset_append_left _ _

theorem puts_run (w : Commons) (es : List Event) : w.store.puts ⊆ (w.run es).store.puts := by
  induction es generalizing w with
  | nil => exact List.Subset.refl _
  | cons e es ih => exact List.Subset.trans (w.puts_step e) (ih (w.step e))

variable {key : String} {bytes : ByteArray}

theorem Orderly.puts_of_added (h : w.Orderly) {e : Event} (hbefore : w.store.get? key = none)
    (hafter : (w.step e).store.get? key = some bytes) : w.Puts e key bytes := by
  rcases w.store_step e with hstore | ⟨t, who, c, request, rfl, hcall, hrequest, hstore⟩
  · rw [hstore] at hafter
    exact nomatch hbefore.symm.trans hafter
  · rw [hstore] at hafter
    rcases Backend.of_get?_serve h.ledger.sound hafter with hhad | rfl
    · exact nomatch hbefore.symm.trans hhad
    · obtain ⟨x, rfl, hload⟩ := Call.eq_hand_of_put hrequest
      obtain ⟨bytes', hfits⟩ := h.holdings.fits hcall
      rw [hfits] at hload
      obtain rfl := Payload.inline.inj hload
      exact ⟨t, who, x, rfl, hcall, hfits⟩

theorem Orderly.takesOut_of_removed (h : w.Orderly) {e : Event}
    (hbefore : w.store.get? key = some bytes) (hafter : (w.step e).store.get? key = none) :
    w.TakesOut e key := by
  rcases w.store_step e with hstore | ⟨t, who, c, request, rfl, hcall, hrequest, hstore⟩
  · rw [hstore] at hafter
    exact nomatch hbefore.symm.trans hafter
  · rw [hstore] at hafter
    obtain rfl := Backend.eq_checkOut_of_removed h.ledger.sound hbefore hafter
    have hfits := h.holdings.fits hcall
    rcases Call.eq_of_checkOut hrequest with ⟨hrole, i, m, rfl⟩ | ⟨x, rfl⟩
    · exact ⟨t, who, rfl, .inl ⟨hrole, i, m, hcall, hfits⟩⟩
    · exact ⟨t, who, rfl, .inr ⟨x, hcall, hfits⟩⟩

/-- **A simulator's fetch or listen leaves every entry.** -/
theorem entries_simulator {i : Intake} {phase : Intake.Phase}
    (hcall : w.calls t.id = some (who, .intake i phase))
    (hrole : (w.clients who).role = .simulator) :
    (w.step (.turns t)).store.entries = w.store.entries := by
  rw [step_turns hcall]
  exact Call.entries_intake hrole t i phase w.store

/-- **What is gone stays gone.** -/
theorem Orderly.gone_step (h : w.Orderly) (e : Event) (hput : key ∈ w.store.puts.map Prod.fst)
    (hnone : w.store.get? key = none) : (w.step e).store.get? key = none := by
  rcases w.store_step e with hstore | ⟨t, who, c, request, rfl, hcall, hrequest, hstore⟩
  · rw [hstore]
    exact hnone
  · rw [hstore]
    exact h.ledger.get?_serve_eq_none (h.holdings.unput_request hcall hrequest) hput hnone

theorem Orderly.gone_run (h : w.Orderly) (es : List Event) (hnew : (w.run es).drawn.Nodup)
    (hput : key ∈ w.store.puts.map Prod.fst) (hnone : w.store.get? key = none) :
    (w.run es).store.get? key = none := by
  induction es generalizing w with
  | nil => exact hnone
  | cons e es ih =>
    change ((w.step e).run es).drawn.Nodup at hnew
    exact ih (h.step e (nodup_drawn_of_run hnew)) hnew (List.map_subset _ (w.puts_step e) hput)
      (h.gone_step e hput hnone)

/-- **A delivery whose key is gone comes to nothing**: it has to be resolved by the key, and that
finds nothing. -/
theorem resolved_of_gone (hsound : w.store.failing = []) (hnone : w.store.get? key = none)
    {i : Intake} {m : Message} (hkey : m.payloadKey = some key)
    (hshares : (w.clients who).keys.isSome)
    (hwants : (w.clients who).role = .application ∨ i.wantsPayload) (t : Turn) :
    i.settle (w.clients who) m = .goes (.resolving m key) ∧
      ((Call.intake i (.resolving m key)).step t (w.clients who) w.store).2.2
        = .ends (.ok (.delivery none)) := by
  cases hrole : (w.clients who).role with
  | application =>
    refine ⟨?_, ?_⟩
    · rw [Intake.settle, hrole, hkey]
      exact if_pos hshares
    · simp only [Call.step, Intake.step, Intake.resolve, hrole]
      rw [Backend.checkOut_of_sound hsound, hnone]
      rfl
  | simulator =>
    have hwants : i.wantsPayload := hwants.resolve_left (by rw [hrole]; decide)
    refine ⟨?_, ?_⟩
    · rw [Intake.settle, hrole, hkey]
      exact if_pos ⟨hwants, hshares⟩
    · simp only [Call.step, Intake.step, Intake.resolve, hrole]
      rw [Backend.peek_of_sound hsound, hnone]
      rfl

/-- **Stored payloads are consumed once, by the right party.**  In every history of clients that
share a store which is empty at first, if no key is drawn twice:

* an entry is added only by a hand-over of its bytes that are to travel, and removed only by an
  application that resolves a delivery with its key, or by a hand-over of the key for a payload that
  was dropped; a simulator's intake leaves every entry;
* each key is put once, and an entry has the bytes that were put with its key;
* a key is redeemed once, whoever its client, and for the bytes that were put;
* once an entry has been removed it is not there again, and a delivery that carries its key comes
  to nothing, for applications and for simulators that want the payload. -/
theorem consumed_once (clients : ClientId → Session) (es : List Event)
    (hdistinct : (run { clients } es).drawn.Nodup) :
    (∀ past e later, es = past ++ e :: later →
      let w := run { clients } past
      (∀ key bytes, w.store.get? key = none → (w.step e).store.get? key = some bytes →
        w.Puts e key bytes) ∧
      (∀ key bytes, w.store.get? key = some bytes → (w.step e).store.get? key = none →
        w.TakesOut e key) ∧
      (∀ t who i phase, e = .turns t → w.calls t.id = some (who, .intake i phase) →
        (w.clients who).role = .simulator → (w.step e).store.entries = w.store.entries)) ∧
    let w := run { clients } es
    (w.store.puts.map Prod.fst).Nodup ∧
      (∀ key bytes, w.store.get? key = some bytes → (key, bytes) ∈ w.store.puts) ∧
      (w.redeemed.map Prod.fst).Nodup ∧ (∀ p ∈ w.redeemed, p ∈ w.store.puts) ∧
      ∀ past mid later key bytes, es = past ++ mid ++ later →
        (run { clients } past).store.get? key = some bytes →
        (run { clients } (past ++ mid)).store.get? key = none →
        w.store.get? key = none ∧
          ∀ t who i m, m.payloadKey = some key → (w.clients who).keys.isSome →
            (w.clients who).role = .application ∨ i.wantsPayload →
            i.settle (w.clients who) m = .goes (.resolving m key) ∧
              ((Call.intake i (.resolving m key)).step t (w.clients who) w.store).2.2
                = .ends (.ok (.delivery none)) := by
  have horderly (past later : List Event) (hes : es = past ++ later) :
      (run { clients } past).Orderly := by
    rw [hes, run_append] at hdistinct
    exact (Orderly.start clients).run past (nodup_drawn_of_run hdistinct)
  refine ⟨fun past e later hes => ?_, ?_⟩
  · have hw := horderly past (e :: later) hes
    refine ⟨fun key bytes => hw.puts_of_added, fun key bytes => hw.takesOut_of_removed, ?_⟩
    rintro t who i phase rfl hcall hrole
    exact entries_simulator hcall hrole
  · have hw := horderly es [] (List.append_nil es).symm
    refine ⟨hw.ledger.once, hw.ledger.kept, hw.ledger.single, fun p hp => (hw.ledger.gone p hp).1,
      fun past mid later key bytes hes hhad hnone => ?_⟩
    have hput : (key, bytes) ∈ (run { clients } (past ++ mid)).store.puts := by
      have hpast := horderly past (mid ++ later) (by rw [hes, List.append_assoc])
      rw [run_append]
      exact puts_run _ mid (hpast.ledger.kept key bytes hhad)
    have hgone : (run { clients } es).store.get? key = none := by
      have hmid := horderly (past ++ mid) later hes
      rw [hes, run_append] at hdistinct ⊢
      exact hmid.gone_run later hdistinct (List.mem_map_of_mem hput) hnone
    exact ⟨hgone, fun t who i m hkey hshares hwants =>
      resolved_of_gone hw.ledger.sound hgone hkey hshares hwants t⟩

/-- Two applications listen to deliveries with one key: the first gets the bytes that were sent, the
second nothing. -/
theorem consumed_once_raced :
    let member (name : String) : Session :=
      { identifier := name, role := .application, config := ⟨.push, some ⟨"store", 6379, 0⟩⟩,
        keys := some ⟨name, 0⟩, responseWindow := .ofSeconds 1, link := {} }
    let clients : ClientId → Session := fun who => member (if who = 0 then "a" else "b")
    let letter : Message :=
      { Message.bare .forward .daemon .message with payload := some (.key "0-a-1") }
    let arrival (who : ClientId) : Event := .stirs who fun l => l.setInbox .recv
      ((l.inbox .recv).arrive ((letter.encode.map Frame.wrap).toOption.getD .empty))
    let turn (id : CallId) : Event := .turns ⟨id, ⟨0⟩, 0⟩
    let es := [.begins 0 0 (.ofHand (.send "b" "hello".toUTF8)), turn 0, turn 0, arrival 1,
      arrival 2, .begins 1 1 (.ofIntake (.listen false)), .begins 2 2 (.ofIntake (.listen false)),
      turn 1, turn 2, turn 1, turn 2, turn 1, turn 2]
    (run { clients } es).drawn.Nodup ∧
      (run { clients } es).redeemed = [("0-a-1", "hello".toUTF8)] ∧
      ("0-a-1", "hello".toUTF8) ∈ (run { clients } es).store.puts := by
  intro member clients letter arrival turn es
  have hdistinct : (run { clients } es).drawn.Nodup := by decide +kernel
  have hredeemed : (run { clients } es).redeemed = [("0-a-1", "hello".toUTF8)] := by
    decide +kernel
  obtain ⟨-, -, -, -, hput, -⟩ := consumed_once clients es hdistinct
  exact ⟨hdistinct, hredeemed, hput _ (hredeemed ▸ List.mem_singleton_self _)⟩

end Commons

end SimRelay
