import Resolvd.Daemon.Upstream
import Resolvd.Engine.Run

/-!
# The daemon

`main.rs`: the loop around the engine.  It holds the engine, the sockets to upstream servers, the
native connections that are still sending their request, and who waits for which question; `perform`
carries out what the engine asks for.

A step of the machine is what the loop does for one ready descriptor, for one message from the
network service or the registry, or for its timers.  What happened outside is part of the input: the
system calls that fail, the requests that arrive, and whether the control object permits them.

Two outputs are not in the source: `missed` says that an answer found nobody waiting for it, and
`unfinished` that `perform` was cut off.  The loop does neither (`Runs.tables_agree`).
-/

namespace Resolvd.Daemon

open Lib Dns Engine

/-- `MAX_PENDING_CLIENTS`. -/
abbrev maxPendingClients : ℕ := 256
/-- `MAX_PENDING_UDP`. -/
abbrev maxPendingUdp : ℕ := 256
/-- `MAX_PENDING_UDP_PER_PEER`. -/
abbrev maxPendingUdpPerPeer : ℕ := 16
/-- `IO_BATCH_LIMIT`. -/
abbrev ioBatchLimit : ℕ := 64
/-- `CLIENT_TIMEOUT`. -/
abbrev clientTimeout : ℕ := secs 5

/-! ### Who asks -/

/-- A connection of a client. -/
abbrev Stream := ℕ

/-- `stub::Origin`: where a stub query came from. -/
inductive Origin where
  | udp (peer : SocketAddr) (query : Message)
  | tcp (stream : Stream) (query : Message)
  deriving DecidableEq

def Origin.query : Origin → Message
  | .udp _ query => query
  | .tcp _ query => query

/-- `stub::Incoming`. -/
inductive Incoming where
  | query (origin : Origin)
  | nothing

/-- Who is waiting for a question. -/
inductive Waiter where
  | native (stream : Stream)
  | stub (origin : Origin)

/-- `Waiter::stream_fd`. -/
def Waiter.streamFd : Waiter → Option Stream
  | .native stream => some stream
  | .stub (.tcp stream _) => some stream
  | .stub (.udp ..) => none

/-- The peer of a query by datagram. -/
def Waiter.udpPeer : Waiter → Option SocketAddr
  | .stub (.udp peer _) => some peer
  | _ => none

def Waiter.isNative : Waiter → Bool
  | .native _ => true
  | .stub _ => false

/-- `udp_has_capacity`. -/
def udpHasCapacity (waiters : Table Qid Waiter) (peer : SocketAddr) : Bool :=
  let total := (waiters.select fun _ w => w.udpPeer.isSome).length
  let samePeer := (waiters.select fun _ w => w.udpPeer == some peer).length
  total < maxPendingUdp && samePeer < maxPendingUdpPerPeer

/-- `resolvd_core::Request`. -/
inductive Request where
  | resolve (name : Bytes) (rtype : UInt16) (noCache : Bool)
  | lookup (name : Bytes) (family : Family)
  | reverse (address : IpAddr)
  | status
  | flush

/-- `resolvd_core::Reply`, with the engine's own answers and without the contents of the status
report. -/
inductive Reply where
  | answer (a : Answer)
  | addresses (a : Addresses)
  | status
  | ok
  | error (text : String)
  deriving DecidableEq

/-- `control::Client`: a native connection that is still sending its request. -/
structure Client where
  stream : Stream
  since : Instant

/-- `control::Progress`. -/
inductive Progress where
  | incomplete
  | request (request : Request)
  | reply (reply : Reply)
  | closed

/-- What the daemon does that can be seen from outside. -/
inductive Output where
  /-- a reply at the native door -/
  | reply (stream : Stream) (reply : Reply)
  /-- an answer at the stub door -/
  | answer (origin : Origin) (answer : Answer)
  /-- an answer found nobody waiting for it (ghost) -/
  | missed (qid : Qid)
  /-- actions were not carried out (ghost) -/
  | unfinished
  deriving DecidableEq

end Resolvd.Daemon

namespace Resolvd

open Lib Dns Engine Daemon

/-- `main.rs`: the struct `Resolvd`. -/
structure Daemon where
  engine : Engine
  upstream : Upstream := {}
  clients : Table ℕ Client := Table.empty
  waiters : Table Qid Waiter := Table.empty
  nextId : ℕ := 1

end Resolvd

namespace Resolvd.Daemon

open Lib Dns Engine

/-! ### Carrying out actions -/

/-- `Resolvd::deliver`. -/
def deliver (d : Daemon) (qid : Qid) (completion : Completion) : Daemon × List Output :=
  match d.waiters.get qid with
  | none => (d, [.missed qid])
  | some waiter =>
    ({ d with waiters := d.waiters.remove qid },
      match waiter, completion with
      | .native stream, .answer a => [.reply stream (.answer a)]
      | .native stream, .addresses a => [.reply stream (.addresses a)]
      | .stub origin, .answer a => [.answer origin a]
      | .stub _, .addresses _ => [])

/-- One action: the state after it, the actions that follow from it, and what was seen. -/
def performOne (os : Os) (now : Instant) (d : Daemon) : Action → Daemon × List Action × List Output
  | .send tx server interface tcp payload =>
    match d.upstream.send os tx server interface tcp payload with
    | .ok upstream => ({ d with upstream }, [], [])
    | .error error =>
      let (engine, followUps) := if isLocalFailure error then d.engine.localFailed tx now
        else d.engine.failed tx now
      ({ d with engine }, followUps, [])
  | .cancel tx => ({ d with upstream := d.upstream.cancel tx }, [], [])
  | .done qid completion =>
    let (d, out) := d.deliver qid completion
    (d, [], out)

/-- The loop of `Resolvd::perform` over its actions. -/
def performAll (os : Os) (now : Instant) : List Action → Daemon → Daemon × List Action × List Output
  | [], d => (d, [], [])
  | action :: actions, d =>
    let (d, followUps, out) := performOne os now d action
    let (d, followUps', out') := performAll os now actions d
    (d, followUps ++ followUps', out ++ out')

/-- `Resolvd::perform`, with at most `n` nested calls. -/
def performUpTo (os : Os) (now : Instant) : ℕ → Daemon → List Action → Daemon × List Output
  | 0, d, _ => (d, [.unfinished])
  | n + 1, d, actions =>
    let (d, followUps, out) := performAll os now actions d
    if followUps.isEmpty then (d, out)
    else
      let (d, out') := performUpTo os now n d followUps
      (d, out ++ out')

/-- `Resolvd::perform`.  Its nesting is bounded by the attempts of a question. -/
def perform (os : Os) (now : Instant) (d : Daemon) (actions : List Action) : Daemon × List Output :=
  performUpTo os now (maxAttempts + 1) d actions

/-- An operation of the engine, and `perform` for its actions. -/
def operate (os : Os) (now : Instant) (d : Daemon) (op : Op) : Daemon × List Output :=
  perform os now { d with engine := (d.engine.apply op).1 } (d.engine.apply op).2

/-! ### The doors -/

/-- A question gets a fresh id and somebody who waits for it, and is put to the engine. -/
def ask (os : Os) (now : Instant) (d : Daemon) (waiter : Waiter) (op : Qid → Op) :
    Daemon × List Output :=
  operate os now { d with nextId := d.nextId + 1, waiters := d.waiters.insert d.nextId waiter }
    (op d.nextId)

/-- `Resolvd::handle_request`.  Every request that is permitted takes an id. -/
def handleRequest (os : Os) (now : Instant) (d : Daemon) (stream : Stream) (request : Request)
    (permitted : Bool) : Daemon × List Output :=
  if !permitted then (d, [.reply stream (.error "access denied")])
  else match request with
    | .status => ({ d with nextId := d.nextId + 1 }, [.reply stream .status])
    | .flush => ({ d with nextId := d.nextId + 1, engine := d.engine.flush }, [.reply stream .ok])
    | .resolve name rtype noCache =>
      ask os now d (.native stream) fun qid => .resolve qid name rtype noCache now
    | .lookup name family => ask os now d (.native stream) fun qid => .lookup qid name family now
    | .reverse address => ask os now d (.native stream) fun qid => .reverse qid address now

/-- A query by datagram for which there is no room. -/
def Origin.overflows (waiters : Table Qid Waiter) : Origin → Bool
  | .udp peer _ => !udpHasCapacity waiters peer
  | .tcp .. => false

/-- One round of the loop of `Resolvd::handle_stub`. -/
def handleStubOne (os : Os) (now : Instant) (d : Daemon) : Incoming → Daemon × List Output
  | .nothing => (d, [])
  | .query origin =>
    match origin.query.question with
    | none => (d, [])
    | some question =>
      if origin.overflows d.waiters then
        ({ d with engine := d.engine.count fun c => { c with queries := c.queries + 1, refused := c.refused + 1 } },
          [.answer origin { outcome := .unavailable }])
      else ask os now d (.stub origin) fun qid => .resolveQuestion qid question now

/-- `Resolvd::handle_stub`. -/
def handleStub (os : Os) (now : Instant) : List Incoming → Daemon → Daemon × List Output
  | [], d => (d, [])
  | i :: incoming, d =>
    let (d, out) := handleStubOne os now d i
    let (d, out') := handleStub os now incoming d
    (d, out ++ out')

/-! ### The loop -/

/-- A waiting stream was hung up. -/
def hangup (os : Os) (now : Instant) (d : Daemon) (qid : Qid) : Daemon × List Output :=
  match d.waiters.get qid with
  | none => (d, [])
  | some waiter =>
    if waiter.streamFd.isSome then operate os now { d with waiters := d.waiters.remove qid }
      (.abandon qid) else (d, [])

/-- The socket of a transaction is ready. -/
def serviceUpstream (os : Os) (now : Instant) (d : Daemon) (tx : Txid) (ready : Upstream.Ready) :
    Daemon × List Output :=
  match d.upstream.service tx ready (d.engine.responseMatches tx) with
  | (upstream, some (.received bytes)) =>
    operate os now { d with upstream } (.received tx bytes now)
  | (upstream, some .failed) => operate os now { d with upstream } (.failed tx now)
  | (upstream, none) => ({ d with upstream }, [])

/-- One connection at the native door, with `pending` native waiters. -/
def acceptOne (now : Instant) (pending : ℕ) (d : Daemon) (stream : Stream) : Daemon :=
  if maxPendingClients ≤ d.clients.len + pending then d
  else { d with clients := d.clients.insert d.nextId ⟨stream, now⟩, nextId := d.nextId + 1 }

/-- A batch of connections at the native door. -/
def acceptClients (now : Instant) (d : Daemon) (streams : List Stream) : Daemon :=
  let pending := (d.waiters.select fun _ w => w.isNative).length
  (streams.take ioBatchLimit).foldl (acceptOne now pending) d

/-- A native connection is ready. -/
def serviceClient (os : Os) (now : Instant) (d : Daemon) (id : ℕ) (progress : Progress)
    (permitted : Bool) : Daemon × List Output :=
  match d.clients.get id with
  | none => (d, [])
  | some client =>
    let gone := { d with clients := d.clients.remove id }
    match progress with
    | .incomplete => (d, [])
    | .closed => (gone, [])
    | .reply reply => (gone, [.reply client.stream reply])
    | .request request => handleRequest os now gone client.stream request permitted

/-- `Resolvd::apply_snapshot`, for the scopes of the snapshot and the name it sets or else the
kernel has. -/
def applySnapshot (d : Daemon) (hostname : Option Bytes) (scopes : List Scope) : Daemon :=
  { d with engine := (d.engine.setHostname hostname).setScopes scopes }

/-- `Resolvd::apply_config`, for a configuration that is not the one in force. -/
def applyConfig (d : Daemon) (servers : List IpAddr) (search : List Name) (hosts : Hosts) :
    Daemon :=
  { d with engine := (d.engine.setFallback servers search).setHosts hosts }

/-- The timers. -/
def tick (os : Os) (now : Instant) (d : Daemon) : Daemon × List Output :=
  let (d, out) := operate os now d (.tick now)
  ({ d with clients := d.clients.retain fun _ c => now - c.since < clientTimeout }, out)

/-- What the loop turns to. -/
inductive Wake where
  | hangup (qid : Qid)
  | upstream (tx : Txid) (ready : Upstream.Ready)
  | stub (incoming : List Incoming)
  | accept (streams : List Stream)
  | client (id : ℕ) (progress : Progress) (permitted : Bool)
  | snapshot (hostname : Option Bytes) (scopes : List Scope)
  | config (servers : List IpAddr) (search : List Name) (hosts : Hosts)
  | tick

/-- One turn of the loop, with the time and the answers of the kernel. -/
structure Input where
  wake : Wake
  now : Instant
  os : Os

def turn (d : Daemon) (i : Input) : Daemon × List Output :=
  match i.wake with
  | .hangup qid => hangup i.os i.now d qid
  | .upstream tx ready => serviceUpstream i.os i.now d tx ready
  | .stub incoming => handleStub i.os i.now incoming d
  | .accept streams => (acceptClients i.now d streams, [])
  | .client id progress permitted => serviceClient i.os i.now d id progress permitted
  | .snapshot hostname scopes => (d.applySnapshot hostname scopes, [])
  | .config servers search hosts => (d.applyConfig servers search hosts, [])
  | .tick => tick i.os i.now d

/-- The state in which `main` enters its loop. -/
def boot (entropy : Entropy) (hostname : Option Bytes) (servers : List IpAddr) (search : List Name)
    (hosts : Hosts) : Daemon where
  engine := (((withEntropy entropy).setHostname hostname).setFallback servers search).setHosts hosts

/-- The states differ in the order in which their tables are visited, and in the counters, but in
nothing else. -/
structure Reorder (d d' : Daemon) : Prop where
  engine : Engine.Reorder d.engine d'.engine
  udp : d.upstream.udp.Same d'.upstream.udp
  tcp : d.upstream.tcp.Same d'.upstream.tcp
  clients : d.clients.Same d'.clients
  waiters : d.waiters.Same d'.waiters
  nextId : d'.nextId = d.nextId

theorem Reorder.refl (d : Daemon) : Reorder d d :=
  ⟨.refl _, .refl _, .refl _, .refl _, .refl _, rfl⟩

theorem Reorder.trans {d d' d'' : Daemon} (h : Reorder d d') (h' : Reorder d' d'') :
    Reorder d d'' :=
  ⟨h.engine.trans h'.engine, List.Perm.trans h.udp h'.udp, List.Perm.trans h.tcp h'.tcp,
    List.Perm.trans h.clients h'.clients, List.Perm.trans h.waiters h'.waiters,
      h'.nextId.trans h.nextId⟩

/-- The daemon with an entropy source, whatever its first configuration is. -/
def machine (entropy : Entropy) : Machine Daemon Input Output where
  start := fun d => ∃ hostname servers search hosts, d = boot entropy hostname servers search hosts
  step := turn
  idle := Reorder

/-- The log is that of a run of the daemon with this entropy source, and ends in the state. -/
abbrev Runs (entropy : Entropy) (log : Log Daemon Input) (d : Daemon) : Prop :=
  (machine entropy).Run log d

/-- The log and the last state of these turns, after a start without configuration. -/
def ran (entropy : Entropy) (turns : List Input) : Log Daemon Input × Daemon :=
  (machine entropy).exec (boot entropy none [] [] Hosts.empty) turns

theorem runs_ran (entropy : Entropy) (turns : List Input) :
    Runs entropy (ran entropy turns).1 (ran entropy turns).2 := by
  have h := Machine.Run.exec (M := machine entropy) Reorder.refl
    (.start ⟨none, [], [], Hosts.empty, rfl⟩) turns
  rwa [List.append_nil] at h

/-- Sockets can be opened, except for these transactions. -/
def osWithout (failing : List Txid) (error : IoError) : Os where
  ifNametoindex := fun _ => 2
  connect := fun tx => if failing.contains tx then some error else none

/-- An interface comes up, a client connects and asks for the address of a name; the first query
cannot be sent, and a second one is. -/
def requestOnLan : List Input :=
  let os := osWithout [2] (.fromRawOsError Libc.ENOBUFS)
  [⟨.snapshot none [lan], 0, os⟩, ⟨.accept [40], 500, os⟩,
    ⟨.client 1 (.request (.resolve (ascii "peios.example") Rtype.a false)) true, 1000, os⟩]

end Resolvd.Daemon
