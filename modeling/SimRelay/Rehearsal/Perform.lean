import SimRelay.Rehearsal.World

/-!
# Rehearsal/Perform — one step of a script, and what is seen of it

A call starts a flight. In the foreground the flight is followed to its end; if it has not ended
when the clock has nowhere to go, it is blocked and goes away. In the background it goes as far as
it goes without the clock, and is joined or cancelled later. What is done directly with a store is
over at once, in the background too.
-/

namespace SimRelay.Rehearsal.World

/-! ## Following a flight -/

/-- The earliest instant at which some flight goes on by itself. -/
def nextAlarm? (w : World) : Option Instant :=
  w.flights.foldl (fun first f => match first, alarm? f with
    | none, alarm => alarm
    | some a, none => some a
    | some a, some b => some (if a.nanos ≤ b.nanos then a else b)) none

def flight? (id : CallId) (w : World) : Option Flight := w.flights.find? (·.id = id)

/-- A flight leaves the world; whatever its call held is let go. A link on which no session was
begun is closed. -/
def ground (f : Flight) (w : World) : World :=
  let w := { w with flights := w.flights.filter (·.id ≠ f.id) }
  if f.answer.isSome then w
  else
    let w := w.modifyClient f.client fun c => { c with
      endpoint := match f.job, c.endpoint with
        | .greeting _ _ _, e => e.mapLink fun l =>
          ({ l with closing := true }.mapPorts fun p =>
            { p with outbox := { p.outbox with shut := true } }).abandon f.id
        | _, e => e.mapLink (Link.abandon f.id) }
    w.settle

/-- Follows a flight, from alarm to alarm, until it ends, blocks or passes the limit. -/
def follow (id : CallId) (limit : Option Instant) : Nat → World → World × Option Answer
  | 0, w => (w, none)
  | fuel + 1, w =>
    let w := w.settle
    match (w.flight? id).bind Flight.answer with
    | some answer => (w, some answer)
    | none => match w.nextAlarm? with
      | none => (w, none)
      | some alarm =>
        if limit.any fun l => l.nanos < alarm.nanos then (w, none)
        else follow id limit fuel
          { w with now := if alarm.nanos ≤ w.now.nanos then w.now else alarm }

/-- Keeps in mind what a simulator fetched last. -/
def remember (name : String) (a : Answer) (w : World) : World :=
  match a with
  | .reply (.delivery (some (.fetched f))) =>
    w.modifyClient name fun c => { c with lastFetched := some f }
  | _ => w

/-- How long a client may wait; as long as it takes unless time is real. -/
def patienceOf (name : String) (w : World) : Option Duration :=
  if (w.client? name).any Client.realTime then some patience
  else if w.realTime then some briefPatience
  else none

/-- Follows a flight to its end, or until it is blocked. -/
def complete (f : Flight) (w : World) : World × Answer :=
  let limit := (w.patienceOf f.client).map w.now.timer
  let (w, answer) := w.follow f.id limit (w.flights.foldl (fun n f => n + alarmsLeft f) 4)
  let f := (w.flight? f.id).getD f
  let answer := answer.getD .blocked
  ((w.ground f).remember f.client answer, answer)

/-- Starts a flight, and follows it unless it is to stay in the background. Elapsed time is told in
the foreground only, and where time is not real. -/
def launch (s : Step) (job : Job) (w : World) : World × Answer :=
  let f : Flight := {
    id := w.nextId, client := s.client, job, began := w.now
    timed := s.background.isNone && (w.patienceOf s.client).isNone }
  let w := { w with nextId := w.nextId + 1, flights := w.flights ++ [f] }
  match s.background with
  | none => w.complete f
  | some name =>
    let w := { w with background := setPair name (.flight f.id) w.background }
    (w.settle, .started)

/-- Something that was over at once. In the background its answer is kept until it is asked for. -/
def atOnce (s : Step) : World × Answer → World × Answer
  | (w, answer) => match s.background with
    | none => (w, answer)
    | some name => ({ w with background := setPair name (.over answer) w.background }, .started)

/-! ## Steps -/

/-- A client that has tried to connect; from then on it has a daemon. -/
def known (name : String) (w : World) : Except Fault Client :=
  match w.client? name with
  | some c => .ok c
  | none => .error .notConnected

/-- A client that is connected. -/
def connected (name : String) (w : World) : Except Fault Client := do
  let c ← w.known name
  if c.endpoint.isConnected then return c else throw .notConnected

/-- Lets a connected client do something. -/
def launchFor (s : Step) (job : Job) (w : World) : Except Fault (World × Answer) := do
  let c ← w.connected s.client
  let w := w.setClient s.client { c with daemon := { c.daemon with cues := s.replies } }
  return w.launch s job

/-- Starts to dial. -/
def connect (s : Step) (o : ConnectOptions) (w : World) : World × Answer :=
  let w := match o.store with
    | some name => w.nameStore name
    | none => w
  let w := w.setClient s.client { daemon := { cues := s.replies }, realTime := o.realTime }
  match o.kind with
  | .raw => w.launch s (.linking o.server)
  | .client role => match Dial.deadline? o.window w.now with
    | none => (w, .failure .deadlineOverflow none)
    | some deadline => w.launch s (.dialing o role deadline w.now)

/-- Opens a store on its own. -/
def openStore (s : Step) (clientId : String) (ref : StoreRef) (w : World) : World × Answer :=
  let handle : StoreHandle := ⟨ref, { clientId }⟩
  let opened (w : World) : World × Answer :=
    ({ w with handles := setPair s.client handle w.handles }, .done)
  match ref with
  | .memory name => opened (w.nameStore name)
  | .server index => match w.canOpen ⟨"127.0.0.1", 6379, index⟩ with
    | .ok () => opened (w.noteSelect index)
    | .error e => (if e = noSuchStore then w.noteSelect index else w, .storeFailure e)

/-- Does something directly with a store. -/
def withStore (s : Step) (action : StoreAction) (w : World) : Except Fault (World × Answer) :=
  match w.handles.lookup s.client with
  | none => .error .notConnected
  | some handle =>
    let answer {α : Type} (done : α → Answer) : Except StoreError α → Answer
      | .ok a => done a
      | .error e => .storeFailure e
    match action with
    | .store payload =>
      let (key, keys) := handle.keys.next w.millis
      let (w, r) := w.withBackend handle.ref (Backend.put key payload)
      .ok ({ w with handles := setPair s.client { handle with keys } w.handles },
        answer (fun _ => .key key) r)
    | .put key payload =>
      let (w, r) := w.withBackend handle.ref (Backend.put key payload)
      .ok (w, answer (fun _ => .done) r)
    | .peek key =>
      let (w, r) := w.withBackend handle.ref (Backend.peek key)
      .ok (w, answer .bytes r)
    | .checkOut key =>
      let (w, r) := w.withBackend handle.ref (Backend.checkOut key)
      .ok (w, answer .bytes r)
    | .isConnected =>
      let (w, r) := w.withBackend handle.ref Backend.isConnected
      .ok (w, .flag r)

/-- What has been left in the background under a name: a flight, or its answer. -/
def leftUnder (name : String) (w : World) : Except Fault (Flight ⊕ Answer) :=
  match w.background.lookup name with
  | some (.flight id) => match w.flight? id with
    | some f => .ok (.inl f)
    | none => .error .noSuchCall
  | some (.over answer) => .ok (.inr answer)
  | none => .error .noSuchCall

/-- Nothing is in the background under a name any more. -/
def dismiss (name : String) (w : World) : World :=
  { w with background := w.background.filter (·.1 != name) }

/-- A step, without what is seen of it. -/
def act (s : Step) (w : World) : Except Fault (World × Answer) := do
  match s.action with
  | .connect o => return w.connect s o
  | .call c => w.launchFor s (.calling c)
  | .postLast success =>
    let c ← w.connected s.client
    let f := c.lastFetched.getD ⟨.bare .fetch .daemon .message, none⟩
    w.launchFor s (.calling (.ofHand (.postFetched f success)))
  | .rawSend ch body => w.launchFor s (.sending ch (.start body))
  | .rawReceive ch timeout => w.launchFor s (.receiving ch (timeout.map w.now.timer))
  | .rawClose => w.launchFor s (.closing .start)
  | .openStore clientId ref => return atOnce s (w.openStore s clientId ref)
  | .withStore action => return atOnce s (← w.withStore s action)
  | .daemon cues =>
    let c ← w.known s.client
    let endpoint := c.endpoint.mapLink (Daemon.speakAll .recv cues)
    return ((w.setClient s.client { c with endpoint }).settle, .done)
  | .storeServer failing =>
    return ({ w with server := w.server.map fun server => { server with failing } }, .done)
  | .join name => match (← w.leftUnder name) with
    | .inl f => return (w.dismiss name).complete f
    | .inr answer => return (w.dismiss name, answer)
  | .cancel name => match (← w.leftUnder name) with
    | .inl f => return ((w.dismiss name).ground f, .cancelled f.answer.isNone)
    | .inr _ => return (w.dismiss name, .cancelled false)

/-- The world when the next step begins: nothing has been heard yet, and it is a little later in
the day. -/
def nextStep (w : World) : World :=
  { w with
    millis := w.millis + 1
    clients := w.clients.map fun (name, c) =>
      (name, { c with daemon := { c.daemon with notes := [] } })
    server := w.server.map fun s => { s with received := [] } }

/-- A step of a script, and what is seen of it. -/
def perform (s : Step) (w : World) : Except Fault (World × Report) := do
  let (w, answer) ← w.nextStep.act s
  if let .failure .deadlineOverflow _ := answer then throw (.aborted .deadlineOverflow)
  return (w, {
    answer
    sent := w.clients.map fun (name, c) => (name, c.endpoint.isRaw, c.daemon.notes)
    closed := (w.client? s.client).bind fun c => c.endpoint.closed?
    stores := w.memory.map fun (name, b) => (name, b.size)
    server := w.server.bind fun s => if s.running then some (s.received, s.size) else none })

end SimRelay.Rehearsal.World
