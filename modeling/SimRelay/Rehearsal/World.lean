import SimRelay.Pairs
import SimRelay.Rehearsal.Script

/-!
# Rehearsal/World — clients, their daemons, stores and a clock

Calls in flight take turns until each of them waits; what a daemon does takes no time. Only then
does the clock move, to the next instant at which a call goes on by itself.

A world may have no network at all (`reachable` is false). Then every attempt to connect fails at
once, whoever listens at the other end. A client dials again and again, as long as its window is
open; a bare link makes one attempt.
-/

namespace SimRelay.Rehearsal

/-! ## Parts -/

/-- Where a client is. -/
inductive Endpoint
  /-- Not connected, or not any more; with its link, once there has been one. -/
  | away (link : Option Link)
  | raw (link : Link)
  | session (s : Session)
  deriving DecidableEq

namespace Endpoint

def link? : Endpoint → Option Link
  | .away link => link
  | .raw link => some link
  | .session s => some s.link

def mapLink (f : Link → Link) : Endpoint → Endpoint
  | .away link => .away (link.map f)
  | .raw link => .raw (f link)
  | .session s => .session { s with link := f s.link }

def isConnected : Endpoint → Bool
  | .away _ => false
  | _ => true

def isRaw : Endpoint → Bool
  | .raw _ => true
  | _ => false

/-- Whether a connected client is closed. -/
def closed? : Endpoint → Option Bool
  | .away _ => none
  | .raw link => some link.closing
  | .session s => some s.closed

end Endpoint

/-! ### What the system and the stores say

The texts of the operating system and of the store are part of what a script is answered. -/

/-- What keeps a connection from being made. -/
inductive Obstacle
  /-- Nobody listens at the address. -/
  | refused
  /-- There is no way to the address. -/
  | noRoute
  deriving DecidableEq, Repr

def Obstacle.message : Obstacle → String
  | .refused => "Connection refused (os error 111)"
  | .noRoute => "Network is unreachable (os error 101)"

/-- No connection to the store could be made. -/
def Obstacle.storeError (o : Obstacle) : StoreError := ⟨o.message⟩

/-- The store was made to fail. -/
def faulty : StoreError := ⟨"boom- ResponseError"⟩

/-- The store server answered with an error. -/
def signalled : StoreError := ⟨"An error was signalled by the server - ResponseError: boom"⟩

/-- The store server has no store of that number. -/
def noSuchStore : StoreError := ⟨"Redis server refused to switch database- ResponseError"⟩

structure Client where
  endpoint : Endpoint := .away none
  daemon : Daemon := {}
  /-- The store through which its payloads travel, if they do. -/
  store : StoreRef := .memory ""
  /-- Its last fetched payload. -/
  lastFetched : Option Fetched := none
  realTime : Bool := false

/-- A store opened on its own. -/
structure StoreHandle where
  ref : StoreRef
  keys : KeySource

/-- A server of numbered stores. -/
structure StoreServer where
  /-- Connections are taken. -/
  running : Bool
  failing : Bool := false
  stores : List (UInt32 × Backend) := []
  received : List StoreRequest := []

namespace StoreServer

/-- A numbered store, as it is now. -/
def backend (index : UInt32) (s : StoreServer) : Backend :=
  { (s.stores.lookup index).getD {} with
    failing := if s.failing then [.put, .peek, .checkOut, .isConnected] else []
    failure := signalled
    received := [] }

/-- A numbered store has changed. -/
def update (index : UInt32) (b : Backend) (s : StoreServer) : StoreServer :=
  { s with
    stores := (index, b) :: s.stores.filter (·.1 != index)
    received := s.received ++ b.received }

/-- How many payloads there are in all stores. -/
def size (s : StoreServer) : Nat := s.stores.foldl (fun n p => n + p.2.size) 0

end StoreServer

/-- What a call in flight is doing. -/
inductive Job
  /-- Trying to reach the daemon until `deadline`; the next attempt begins at `start`. -/
  | dialing (options : ConnectOptions) (role : Role) (deadline start : Instant)
  /-- A bare link is about to be made. -/
  | linking (server : Server)
  | greeting (options : ConnectOptions) (h : Handshake) (phase : Handshake.Phase)
  | calling (c : Call)
  | sending (ch : Channel) (w : Link.Writing)
  | receiving (ch : Channel) (deadline : Option Instant)
  | closing (c : Link.Closing)

structure Flight where
  id : CallId
  client : String
  job : Job
  began : Instant
  /-- How long it took is told with the answer. -/
  timed : Bool := false
  answer : Option Answer := none

/-- What has been left in the background. -/
inductive Errand
  /-- A call that may still be in flight. -/
  | flight (id : CallId)
  /-- Something that was over at once; its answer is kept. -/
  | over (answer : Answer)

structure World where
  /-- There is a network. -/
  reachable : Bool := true
  /-- The script itself runs in real time. -/
  realTime : Bool := false
  now : Instant := ⟨0⟩
  /-- The time of day in milliseconds. -/
  millis : Nat
  clients : List (String × Client) := []
  memory : List (String × Backend) := []
  server : Option StoreServer := none
  handles : List (String × StoreHandle) := []
  flights : List Flight := []
  /-- What is in the background, by name. -/
  background : List (String × Errand) := []
  nextId : CallId := 0

/-- The stores that a store server has are numbered from zero to this. -/
def lastStore : UInt32 := 15

/-- A call of a client that lives in real time counts as blocked when it has waited so long. -/
def patience : Duration := .ofSeconds 5

/-- In a script that runs in real time, a call counts as blocked when it has waited so long. -/
def briefPatience : Duration := .ofMillis 100

/-- The steps in which elapsed time is seen. -/
def elapsedStep : Nat := 250

namespace World

def client? (name : String) (w : World) : Option Client := w.clients.lookup name

def setClient (name : String) (c : Client) (w : World) : World :=
  { w with clients := setPair name c w.clients }

def modifyClient (name : String) (f : Client → Client) (w : World) : World :=
  match w.client? name with
  | some c => w.setClient name (f c)
  | none => w

/-! ## Stores -/

/-- The store of a name, made to fail as its name says. -/
def memoryStore (name : String) (w : World) : Backend :=
  (w.memory.lookup name).getD {
    failing := if name.startsWith "fail-" then
        [("put", .put), ("peek", .peek), ("check_out", .checkOut),
          ("is_connected", .isConnected)].filterMap fun (p : String × StoreOperation) =>
            if (name.splitOn p.1).length > 1 then some p.2 else none
      else []
    failure := faulty }

/-- The store of a name exists from now on. -/
def nameStore (name : String) (w : World) : World :=
  { w with memory := setPair name (w.memoryStore name) w.memory }

/-- Lets something happen to a store. -/
def withBackend {α : Type} (ref : StoreRef) (f : Backend → Backend × α) (w : World) : World × α :=
  match ref, w.server with
  | .memory name, _ =>
    let (b, a) := f (w.memoryStore name)
    (if (w.memory.lookup name).isSome then { w with memory := setPair name b w.memory } else w, a)
  | .server index, some s =>
    let (b, a) := f (s.backend index)
    ({ w with server := some (s.update index b) }, a)
  | .server _, none => (w, (f {}).2)

/-- Whether the store that terms name can be opened. -/
def canOpen (w : World) (p : StoreParams) : Except StoreError Unit :=
  if ¬ w.reachable then .error Obstacle.noRoute.storeError
  else match w.server with
    | some s =>
      if s.running ∧ p.address = "127.0.0.1" ∧ p.port = 6379 then
        if p.index ≤ lastStore then .ok () else .error noSuchStore
      else .error Obstacle.refused.storeError
    | none => .error Obstacle.refused.storeError

/-- The server hears that a store was selected; the first is selected from the start. -/
def noteSelect (index : UInt32) (w : World) : World :=
  match w.server with
  | some s =>
    if s.running ∧ index ≠ 0 then
      { w with server := some { s with received := s.received ++ [.select index] } }
    else w
  | none => w

/-! ## One flight -/

/-- What is now in the way to a daemon; `began` is when the client began to look for it. -/
def obstacle? (w : World) (server : Server) (began now : Instant) : Option Obstacle :=
  if ¬ w.reachable then some .noRoute
  else match server with
    | .listening => none
    | .down => some .refused
    | .afterMillis n =>
      if began.nanos + (Duration.ofMillis n).nanos ≤ now.nanos then none else some .refused

/-- How an attempt to reach a daemon goes that begins now. -/
def attempt (w : World) (server : Server) (began : Instant) : Dial.Attempt where
  takes := some .zero
  succeeds := (w.obstacle? server began w.now).isNone

/-- A link as it is when all channels have just been connected. Local ports are numbered in the
order of the channels. -/
def freshLink : Link where
  address := "127.0.0.1"
  ctrl := { number := 1 }
  send := { number := 2 }
  recv := { number := 3 }

/-- The milliseconds since a timed flight began, in whole steps. -/
def elapsed (f : Flight) (w : World) : Option Nat :=
  if f.timed then
    let step := (Duration.ofMillis elapsedStep).nanos
    some (((f.began.timeTo w.now).nanos + step - 1) / step * elapsedStep)
  else none

def turn (f : Flight) (w : World) : Turn := ⟨f.id, w.now, w.millis⟩

/-- A flight ends with an answer. -/
def land (f : Flight) (a : Answer) (w : World) : World × Flight := (w, { f with answer := some a })

/-- Takes a flight as far as it goes for now. -/
def fly (f : Flight) (w : World) : World × Flight :=
  match w.client? f.client with
  | none => w.land f (.failure (.error .closed) none)
  | some c =>
    let setEndpoint (e : Endpoint) : World := w.setClient f.client { c with endpoint := e }
    match f.job with
    | .dialing o role deadline start =>
      if ¬ w.now.reached start then (w, f)
      else match (Dial.next (w.attempt o.server f.began) deadline w.now).2 with
        | .again start => (w, { f with job := .dialing o role deadline start })
        | .over => w.land f (.failure (.error (.connectTimeout o.address o.window)) (w.elapsed f))
        | .reached =>
          let h : Handshake := {
            identifier := o.identifier, role
            responseWindow := o.responseWindow, bringsStore := o.store.isSome }
          (setEndpoint (.away (some freshLink)), { f with job := .greeting o h .start })
    | .linking server => match w.obstacle? server f.began w.now with
      | some obstacle => w.land f (.failure (.error (.link (.io obstacle.message))) (w.elapsed f))
      | none => (setEndpoint (.raw freshLink)).land f (.linked freshLink.address (w.elapsed f))
    | .greeting o h phase =>
      match c.endpoint.link? with
      | none => w.land f (.failure (.error .closed) none)
      | some link => match h.advance (w.turn f) w.canOpen phase link with
        | (link, .waits phase) | (link, .goes phase) =>
          (setEndpoint (.away (some link)), { f with job := .greeting o h phase })
        | (link, .ends (.error fault)) =>
          let w := setEndpoint (.away (some link))
          let w := match fault with
            | .store p e => if e = noSuchStore then w.noteSelect p.index else w
            | _ => w
          w.land f (.failure (.error (.initialization fault)) (w.elapsed f))
        | (link, .ends (.ok config)) =>
          let s := h.session link config
          let ref : StoreRef := match o.store, config.store with
            | some name, _ => .memory name
            | none, some p => .server p.index
            | none, none => c.store
          let w := w.setClient f.client { c with endpoint := .session s, store := ref }
          let w := match ref with
            | .server index => w.noteSelect index
            | .memory _ => w
          w.land f (.opened h.identifier config (w.elapsed f))
    | .calling call => match c.endpoint with
      | .session s =>
        let (w, s, progress) := w.withBackend c.store fun b =>
          let (s, b, progress) := call.advance (w.turn f) s b
          (b, s, progress)
        let w := w.setClient f.client { c with endpoint := .session s }
        match progress with
        | .waits call | .goes call => (w, { f with job := .calling call })
        | .ends (.ok r) => w.land f (.reply r)
        | .ends (.error e) => w.land f (.failure e none)
      | _ => w.land f (.failure (.error .closed) none)
    | .sending ch writing => match c.endpoint with
      | .raw link => match link.write f.id ch writing with
        | (link, .waits writing) | (link, .goes writing) =>
          (setEndpoint (.raw link), { f with job := .sending ch writing })
        | (link, .ends (.ok ())) => (setEndpoint (.raw link)).land f .done
        | (link, .ends (.error e)) =>
          (setEndpoint (.raw link)).land f (.failure (.error (.link e)) none)
      | _ => w.land f (.failure (.error .closed) none)
    | .receiving ch deadline => match c.endpoint with
      | .raw link => match link.read f.id (deadline.any fun d => w.now.reached d) ch with
        | (.frame body, link) => (setEndpoint (.raw link)).land f (.bytes (some body))
        | (.timedOut, link) => (setEndpoint (.raw link)).land f (.bytes none)
        | (.failure e, link) =>
          (setEndpoint (.raw link)).land f (.failure (.error (.link e)) none)
        | (.inLine, link) => (setEndpoint (.raw link), f)
      | _ => w.land f (.failure (.error .closed) none)
    | .closing closing => match c.endpoint with
      | .raw link => match link.close f.id closing with
        | (link, .waits closing) | (link, .goes closing) =>
          (setEndpoint (.raw link), { f with job := .closing closing })
        | (link, .ends _) => (setEndpoint (.raw link)).land f .done
      | _ => w.land f (.failure (.error .closed) none)

/-- The instant at which a flight goes on by itself. -/
def alarm? (f : Flight) : Option Instant :=
  if f.answer.isSome then none
  else match f.job with
    | .dialing _ _ _ start => some start
    | .greeting _ _ phase => Handshake.alarm? phase
    | .calling call => call.alarm?
    | .receiving _ deadline => deadline
    | _ => none

/-- How many more alarms a flight sets at most: one for each attempt to reach the daemon, and a
few. -/
def alarmsLeft (f : Flight) : Nat :=
  match f.job with
  | .dialing _ _ deadline start => (start.timeTo deadline).nanos / Dial.backoff.nanos + 6
  | _ => 4

/-! ## All flights -/

/-- Every writer writes. -/
def flush (w : World) : World :=
  { w with clients := w.clients.map fun (name, c) =>
      (name, { c with endpoint := c.endpoint.mapLink Link.flush }) }

/-- Every daemon hears, and answers if it has cues to answer with. -/
def attend (w : World) : World :=
  { w with clients := w.clients.map fun (name, c) => match c.endpoint.link? with
      | none => (name, c)
      | some link =>
        let (daemon, link) := c.daemon.attend link
        (name, { c with daemon, endpoint := c.endpoint.mapLink fun _ => link }) }

/-- Each flight in turn goes as far as it goes with what the daemons have written. -/
def round (w : World) : World :=
  w.flights.foldl (fun w f =>
    if f.answer.isSome then w
    else
      let (w, f) := w.fly f
      { w.flush with flights := w.flights.map fun g => if g.id = f.id then f else g }) w

/-- So many rounds. -/
def rounds : Nat → World → World
  | 0, w => w
  | n + 1, w => rounds n w.round

/-- How many flights have not ended. -/
def aloft (w : World) : Nat := w.flights.countP (·.answer.isNone)

/-- Rounds, a few at a time, as long as flights end. -/
def calmWithin : Nat → World → World
  | 0, w => w
  | fuel + 1, w =>
    let after := w.rounds 16
    if after.aloft < w.aloft then calmWithin fuel after else after

/-- Rounds until every flight waits. In a round a flight passes at least one of its phases, of
which there are few, or waits for another flight to end. -/
def calm (w : World) : World := w.flush.calmWithin (w.flights.length + 1)

/-- How many daemons have cues. -/
def cued (w : World) : Nat := w.clients.countP fun (_, c) => c.daemon.cues ≠ []

/-- Flights and daemons in turn, at most `fuel` times, until no daemon answers. A daemon hears of a
message only when every flight waits, so that a call which does not wait misses the answer. -/
def settleWithin : Nat → World → World
  | 0, w => w
  | fuel + 1, w =>
    let w := w.calm
    let after := w.attend
    if after.cued < w.cued then settleWithin fuel after else after

/-- Flights and daemons in turn until no daemon answers, which each of them does at most once. -/
def settle (w : World) : World := w.settleWithin (w.clients.length + 1)

end World

end SimRelay.Rehearsal
