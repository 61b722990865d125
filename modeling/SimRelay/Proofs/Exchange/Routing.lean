import SimRelay.Connect.Handshake
import SimRelay.Exchange
import SimRelay.Proofs.Store.Keys
import SimRelay.Proofs.Wire.Letters

/-!
# Proofs/Exchange/Routing — whose queue a message reaches

No channel's name has a dot in it, so the last dot of a queue's name ends the identifier, whatever
dots that has itself (`Channel.clientQueue_eq_iff`).  The daemon's keys are spelled like the queues
of a client called `daemon` (`Channel.daemonKey_eq_clientQueue`), and like no other client's.

Queues come and go.  A client's queue is its own as long as it is there, and so it is bound under
its name and under nothing else (`Exchange.Owned`); what it gets is what is published under that
name (`Exchange.Owned.mem_route`).  A client that gets its own introduction is lost: it takes it for
the daemon's answer (`Handshake.judge_of_encode_init`).
-/

namespace SimRelay

/-! ## Names -/

namespace Channel

theorem dot_notMem_name (c : Channel) : '.' ∉ c.name.toList := by
  cases c <;> decide

theorem name_injective : Function.Injective name := by
  intro c d
  cases c <;> cases d <;> decide

theorem toList_clientQueue (identifier : String) (c : Channel) :
    (clientQueue identifier c).toList = identifier.toList ++ '.' :: c.name.toList := by
  simp [clientQueue]

/-- **Two queues have one name only if they are one client's on one channel.** -/
theorem clientQueue_eq_iff {i j : String} {c d : Channel} :
    clientQueue i c = clientQueue j d ↔ i = j ∧ c = d := by
  constructor
  · intro h
    have hlist := congrArg String.toList h
    rw [toList_clientQueue, toList_clientQueue] at hlist
    obtain ⟨hclient, hname⟩ :=
      KeySource.eq_of_append_cons_last (dot_notMem_name c) (dot_notMem_name d) hlist
    exact ⟨String.toList_inj.mp hclient, name_injective (String.toList_inj.mp hname)⟩
  · rintro ⟨rfl, rfl⟩
    rfl

/-- The daemon's keys are the names that the queues of a client called `daemon` have. -/
theorem daemonKey_eq_clientQueue (c : Channel) : daemonKey c = clientQueue "daemon" c := by
  cases c <;> decide

theorem clientQueue_eq_daemonKey_iff {i : String} {c d : Channel} :
    clientQueue i c = daemonKey d ↔ i = "daemon" ∧ c = d := by
  rw [daemonKey_eq_clientQueue, clientQueue_eq_iff]

end Channel

open Channel (clientQueue daemonKey clientQueue_eq_iff clientQueue_eq_daemonKey_iff)

/-! ## An introduction that comes back -/

/-- **A client that hears its own introduction** takes it for an answer without terms. -/
theorem Handshake.judge_of_encode_init {originator : Originator} {intro : Intro} {body : ByteArray}
    (h : (Message.init originator intro).encode = .ok body) : judge body = .error .noTerms := by
  have hvalid : (Message.init originator intro).Valid := rfl
  rw [judge, Message.decode_of_encode h hvalid]
  rfl

/-! ## Queues that come and go -/

namespace Exchange

inductive Event
  /-- A client declares its queue for a channel and binds it. -/
  | opens (identifier : String) (c : Channel)
  /-- A client's queue is deleted, and what is bound to it with it. -/
  | closes (identifier : String) (c : Channel)
  /-- Somebody else, such as the daemon, binds a queue… -/
  | binds (b : Binding)
  /-- …or takes a binding away. -/
  | unbinds (b : Binding)
  deriving DecidableEq

end Exchange

/-- The exchange, and the clients at it. -/
structure Exchange where
  bindings : List Exchange.Binding := []
  /-- The channels that are open, each with its client. -/
  opened : List (String × Channel) := []

namespace Exchange

def step (x : Exchange) : Event → Exchange
  | .opens i c => { bindings := inbound i c :: x.bindings, opened := (i, c) :: x.opened }
  | .closes i c =>
    { bindings := x.bindings.filter (·.queue ≠ clientQueue i c)
      opened := x.opened.filter (· ≠ (i, c)) }
  | .binds b => { x with bindings := b :: x.bindings }
  | .unbinds b => { x with bindings := x.bindings.filter (· ≠ b) }

/-- A whole history. -/
def run (x : Exchange) (es : List Event) : Exchange := es.foldl step x

/-- A client's queue is exclusive: it can be declared only if no queue of that name is in use, and
nobody else can bind it or unbind it. -/
def Allows (x : Exchange) : Event → Prop
  | .opens i c => ∀ b ∈ x.bindings, b.queue ≠ clientQueue i c
  | .closes _ _ => True
  | .binds b | .unbinds b => ∀ o ∈ x.opened, b.queue ≠ clientQueue o.1 o.2

instance (x : Exchange) : ∀ e : Event, Decidable (x.Allows e)
  | .opens i c => inferInstanceAs (Decidable (∀ b ∈ x.bindings, b.queue ≠ clientQueue i c))
  | .closes _ _ => inferInstanceAs (Decidable True)
  | .binds b | .unbinds b =>
    inferInstanceAs (Decidable (∀ o ∈ x.opened, b.queue ≠ clientQueue o.1 o.2))

/-- Every event of a history is allowed when it comes. -/
def AllowsAll (x : Exchange) : List Event → Prop
  | [] => True
  | e :: es => x.Allows e ∧ (x.step e).AllowsAll es

instance decidableAllowsAll : ∀ (es : List Event) (x : Exchange), Decidable (x.AllowsAll es)
  | [], _ => inferInstanceAs (Decidable True)
  | e :: es, x =>
    have := decidableAllowsAll es (x.step e)
    inferInstanceAs (Decidable (x.Allows e ∧ (x.step e).AllowsAll es))

/-! ## What an open queue is bound under -/

/-- A client's open queue is bound under its own name and under no other key. -/
def Owned (x : Exchange) : Prop :=
  ∀ i c, (i, c) ∈ x.opened → ∀ key, ⟨clientQueue i c, key⟩ ∈ x.bindings ↔ key = clientQueue i c

namespace Owned

variable {x : Exchange} {i : String} {c : Channel}

theorem start : ({} : Exchange).Owned := fun _ _ hopen => absurd hopen List.not_mem_nil

theorem opens (h : x.Owned) (hfree : ∀ b ∈ x.bindings, b.queue ≠ clientQueue i c) :
    (x.step (.opens i c)).Owned := by
  intro j d hopen key
  have hnew : (⟨clientQueue j d, key⟩ : Binding) = inbound i c ↔
      clientQueue j d = clientQueue i c ∧ key = clientQueue i c := by
    rw [inbound, Binding.mk.injEq]
  rw [step, List.mem_cons, hnew]
  rcases List.mem_cons.mp hopen with heq | hold
  · obtain ⟨rfl, rfl⟩ := Prod.mk.inj heq
    exact ⟨fun hbound => hbound.elim And.right fun hbound => absurd rfl (hfree _ hbound),
      fun hkey => .inl ⟨rfl, hkey⟩⟩
  · -- a queue of that name is in use, so it is not the new one
    have hother : clientQueue j d ≠ clientQueue i c := hfree _ ((h j d hold _).mpr rfl)
    rw [← h j d hold key]
    exact or_iff_right fun hbound => hother hbound.1

theorem closes (h : x.Owned) (i : String) (c : Channel) : (x.step (.closes i c)).Owned := by
  intro j d hopen key
  obtain ⟨hopen, hne⟩ := List.mem_filter.mp hopen
  -- what is still open is another client's or on another channel, so its queue has another name
  have hother : clientQueue j d ≠ clientQueue i c := by
    rw [Ne, clientQueue_eq_iff, ← Prod.mk.injEq]
    exact of_decide_eq_true hne
  rw [← h j d hopen key, step, List.mem_filter]
  exact and_iff_left (decide_eq_true hother)

theorem binds {b : Binding} (h : x.Owned)
    (hforeign : ∀ o ∈ x.opened, b.queue ≠ clientQueue o.1 o.2) : (x.step (.binds b)).Owned := by
  intro j d hopen key
  rw [← h j d hopen key, step, List.mem_cons]
  exact or_iff_right fun heq => hforeign _ hopen (heq ▸ rfl)

theorem unbinds {b : Binding} (h : x.Owned)
    (hforeign : ∀ o ∈ x.opened, b.queue ≠ clientQueue o.1 o.2) :
    (x.step (.unbinds b)).Owned := by
  intro j d hopen key
  rw [← h j d hopen key, step, List.mem_filter]
  exact and_iff_left (decide_eq_true fun heq => hforeign _ hopen (heq ▸ rfl))

theorem step (h : x.Owned) : ∀ {e : Event}, x.Allows e → (x.step e).Owned
  | .opens _ _, hfree => h.opens hfree
  | .closes i c, _ => h.closes i c
  | .binds _, hforeign => h.binds hforeign
  | .unbinds _, hforeign => h.unbinds hforeign

theorem run (h : x.Owned) {es : List Event} (hes : x.AllowsAll es) : (x.run es).Owned := by
  induction es generalizing x with
  | nil => exact h
  | cons e es ih => exact ih (h.step hes.1) hes.2

end Owned

/-! ## Whose queue a message reaches -/

/-- An exchange that takes a message to the queues bound under exactly its key. -/
def Direct (route : List Binding → String → List String) : Prop :=
  ∀ bindings key queue, queue ∈ route bindings key ↔ ⟨queue, key⟩ ∈ bindings

/-- The queues bound under a key, one after another. -/
def boundUnder (bindings : List Binding) (key : String) : List String :=
  (bindings.filter (·.key = key)).map Binding.queue

theorem direct_boundUnder : Direct boundUnder := by
  intro bindings key queue
  rw [boundUnder, List.mem_map]
  constructor
  · rintro ⟨b, hb, rfl⟩
    obtain ⟨hb, hkey⟩ := List.mem_filter.mp hb
    rwa [← of_decide_eq_true hkey]
  · exact fun hb => ⟨_, List.mem_filter.mpr ⟨hb, decide_eq_true rfl⟩, rfl⟩

/-- **An open queue gets what is published under its name**, and nothing else. -/
theorem Owned.mem_route {x : Exchange} {route : List Binding → String → List String} {i : String}
    {c : Channel} (h : x.Owned) (hroute : Direct route) (hopen : (i, c) ∈ x.opened)
    {key : String} : clientQueue i c ∈ route x.bindings key ↔ key = clientQueue i c := by
  rw [hroute, h i c hopen]

/-- **Clients are kept apart, and from the daemon, unless one of them is called `daemon`.**  Two
queues have one name exactly if they are of one client and one channel; and a queue is named like a
key of the daemon's exactly if it is the queue of a client called `daemon`, on that key's channel.
So it is, however queues come and go, with what a client `j` says on a channel `d` of a direct
exchange:

* the message itself, which is for the daemon, reaches no open queue of a client's but the one for
  `d` of a client called `daemon`, and that it does reach;
* what is published as the answer to it, or for that client on that channel in any other way,
  reaches, of all open queues of clients, that of `j` for `d` and no other. -/
theorem keeps_apart (route : List Binding → String → List String) (hroute : Direct route)
    (es : List Event) (hes : ({} : Exchange).AllowsAll es) :
    (∀ i j c d, clientQueue i c = clientQueue j d ↔ i = j ∧ c = d) ∧
    (∀ i c d, clientQueue i c = daemonKey d ↔ i = "daemon" ∧ c = d) ∧
    let x := ({} : Exchange).run es
    ∀ i c, (i, c) ∈ x.opened → ∀ j d body,
      (clientQueue i c ∈ route x.bindings (outbound j d body).key ↔ i = "daemon" ∧ c = d) ∧
      (clientQueue i c ∈ route x.bindings (outbound j d body).replyTo ↔ i = j ∧ c = d) := by
  refine ⟨fun _ _ _ _ => clientQueue_eq_iff, fun _ _ _ => clientQueue_eq_daemonKey_iff, ?_⟩
  intro x i c hopen j d body
  have howned : x.Owned := Owned.start.run hes
  rw [howned.mem_route hroute hopen, howned.mem_route hroute hopen]
  exact ⟨eq_comm.trans clientQueue_eq_daemonKey_iff, eq_comm.trans clientQueue_eq_iff⟩

/-- The daemon and two clients, one of them called like a queue of the other; a third has come and
gone.  What `a` says reaches the daemon alone, and the answer reaches `a` alone. -/
theorem keeps_apart_nested :
    let es : List Event := Channel.all.map (fun c => .binds ⟨"desk", daemonKey c⟩)
      ++ Channel.all.map (.opens "a") ++ [.opens "b" .recv] ++ Channel.all.map (.opens "a.recv")
      ++ [.closes "b" .recv]
    let x := ({} : Exchange).run es
    let said := outbound "a" .recv .empty
    ({} : Exchange).AllowsAll es ∧ Direct boundUnder ∧
      boundUnder x.bindings said.key = ["desk"] ∧
      boundUnder x.bindings said.replyTo = ["a.recv"] ∧
      ∀ i c, (i, c) ∈ x.opened →
        (clientQueue i c ∈ boundUnder x.bindings said.key ↔ i = "daemon" ∧ c = .recv) ∧
        (clientQueue i c ∈ boundUnder x.bindings said.replyTo ↔ i = "a" ∧ c = .recv) := by
  intro es x said
  have hes : ({} : Exchange).AllowsAll es := by decide +kernel
  obtain ⟨-, -, hreaches⟩ := keeps_apart boundUnder direct_boundUnder es hes
  exact ⟨hes, direct_boundUnder, by decide +kernel, by decide +kernel,
    fun i c hopen => hreaches i c hopen "a" .recv .empty⟩

/-- A client called `daemon` has its queues named like the daemon's keys.  It gets a copy of what
another client says to the daemon, and of its own introduction, which it takes for an answer that
sets no terms. -/
theorem keeps_apart_namesake :
    let es : List Event := [.binds ⟨"desk", daemonKey .ctrl⟩, .opens "bob" .ctrl,
      .opens "daemon" .ctrl]
    let x := ({} : Exchange).run es
    ({} : Exchange).AllowsAll es ∧
      clientQueue "daemon" .ctrl = daemonKey .ctrl ∧
      boundUnder x.bindings (outbound "bob" .ctrl .empty).key
        = [clientQueue "daemon" .ctrl, "desk"] ∧
      ∃ body, (Message.init .application ⟨"daemon", "127.0.0.1", 0, 0, 0⟩).encode = .ok body ∧
        clientQueue "daemon" .ctrl ∈ boundUnder x.bindings (outbound "daemon" .ctrl body).key ∧
        Handshake.judge body = .error .noTerms := by
  intro es x
  refine ⟨by decide +kernel, by decide +kernel, by decide +kernel, ?_⟩
  have hfits : (Message.init .application ⟨"daemon", "127.0.0.1", 0, 0, 0⟩).Admits {} :=
    ⟨by decide, by decide, by decide, by decide, by decide⟩
  have hencode := Message.encode_eq_extended hfits
  have hcopy : clientQueue "daemon" .ctrl ∈ boundUnder x.bindings (daemonKey .ctrl) := by
    decide +kernel
  exact ⟨_, hencode, hcopy, Handshake.judge_of_encode_init hencode⟩

end Exchange

end SimRelay
