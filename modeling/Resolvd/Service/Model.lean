import Resolvd.Daemon.Loop
import Resolvd.Daemon.Netd
import Resolvd.Daemon.Replies
import Resolvd.Service.Reports
import Resolvd.Service.Snapshot

/-!
# The service

The whole of `main.rs`: the loop with everything it holds.  Around the daemon and its two doors
(`Loop`) stand the octets of the requests that are still arriving, the two queues of replies, the
channel from the network service, the configuration in force and the descriptor it sets, and the
pauses after a failed `accept`.

A turn is what the loop does for one ready descriptor, or for its timers, and `Pass.turns` is the
order in which it takes them.  What is outside is part of the input: the octets that come, how many
of those that go are taken, the registry as it stands, and the answers of the kernel.

To the daemon, a run of the service is one of its own runs (`Runs.loop`).
-/

namespace Resolvd.Service

open Lib Dns Engine Daemon
open Resolvd.Core (AddressText maxMessageBytes)
open Msgpack (octets)

/-! ### Pauses -/

/-- `RETRY_DELAY`: 250 ms. -/
abbrev retryDelay : ℕ := 250000000

/-- `AcceptBackoff`. -/
structure AcceptBackoff where
  until? : Option Instant := none

namespace AcceptBackoff

/-- `AcceptBackoff::failed`. -/
def failed (now : Instant) : AcceptBackoff := ⟨some (now + retryDelay)⟩

/-- `AcceptBackoff::deadline`. -/
def deadline (b : AcceptBackoff) (now : Instant) : Option Instant :=
  b.until?.filter fun t => now < t

/-- `AcceptBackoff::poll_fd`: whether the listener is in the poll set. -/
def polled (b : AcceptBackoff) (now : Instant) : Bool := (b.deadline now).isNone

end AcceptBackoff

/-! ### Configuration -/

/-- `Vec<Name>`'s equality. -/
def eqNames (a b : List Name) : Bool := a.length == b.length && (a.zip b).all fun p => p.1.eq p.2

/-- `HashMap`'s equality, for static names. -/
def eqHosts (a b : Hosts) : Bool :=
  a.entries.length == b.entries.length && a.entries.all fun p => b.get p.1 == some p.2

/-- `Config`'s equality, which ignores the case of names. -/
def Config.eq (a b : Config) : Bool :=
  a.servers == b.servers && eqNames a.search b.search && eqHosts a.hosts b.hosts &&
    a.controlSecurity == b.controlSecurity

/-- `config::load`, for the key as it can be opened: a key that is not there is no failure. -/
def load (T : AddressText) (root : Except IoError (Option ℕ)) (R : Reader ℕ) :
    Except IoError Config := do
  loadFrom T R (← root)

/-! ### Requests -/

/-- `RESOLVER_QUERY`. -/
abbrev resolverQuery : UInt32 := 1

/-- `RESOLVER_CONTROL`. -/
abbrev resolverControl : UInt32 := 2

/-- `Request::required_right`. -/
def requiredRight : Core.Request → UInt32
  | .flush => resolverControl
  | _ => resolverQuery

/-- The family of a request, as the engine has it. -/
def toFamily : Core.Family → Family
  | .any => .any
  | .v4 => .v4
  | .v6 => .v6

/-- A request as `handle_request` takes it apart. -/
def toRequest : Core.Request → Request
  | .resolve name rtype noCache => .resolve (octets name) rtype noCache
  | .lookup name family => .lookup (octets name) (toFamily family)
  | .reverse address => .reverse address
  | .status => .status
  | .flush => .flush

end Resolvd.Service

namespace Resolvd

open Lib Dns Engine Daemon Service

/-- The struct `Resolvd` with the rest of the state of `main`. -/
structure Service where
  loop : Loop
  /-- the octets of the requests that are still arriving, by the ids of their connections -/
  readers : Table ℕ Core.Client := Table.empty
  config : Config
  /-- the descriptor of `ControlObject`, when it is not the compiled one -/
  control : Option Bytes
  netd : NetdLink
  replies : Replies Stream := {}
  stubReplies : Replies Stream := {}
  acceptBackoff : AcceptBackoff := {}
  stubAcceptBackoff : AcceptBackoff := {}
  /-- whether the registry is watched -/
  watch : Bool

end Resolvd

namespace Resolvd.Service

open Lib Dns Engine Daemon
open Resolvd.Core (AddressText maxMessageBytes)
open Msgpack (octets)

/-- What does not change while the service runs: `std`'s texts, the decoder of the channel, the test
of a descriptor, and the entropy source. -/
structure World where
  addressText : AddressText
  lossy : Bytes → String
  debug : String → String
  decode : Bytes → NetdReply Snapshot
  isDescriptor : Bytes → Bool
  entropy : Entropy

/-- A connection that comes from the native listener: whether it can be made nonblocking, and what
its peer is going to send. -/
structure Connection where
  stream : Stream
  nonblocking : Bool
  bytes : Bytes

/-- What reading the watch gives. -/
inductive WatchRead where
  /-- something has changed; the registry as it can be read now -/
  | events (root : Except IoError (Option ℕ)) (reader : Reader ℕ)
  | nothing
  /-- the watch is lost, and can be armed again or not -/
  | failed (rearmed : Bool)

/-- What the loop turns to. -/
inductive Turn where
  | hangup (qid : Qid)
  | upstream (tx : Txid) (ready : Upstream.Ready)
  | reply (id : ℕ)
  | stubReply (id : ℕ)
  | udp (datagrams : List (Io (SocketAddr × Bytes)))
  | acceptStub (accepts : List (Io Stub.Connection))
  | stubClient (id : ℕ) (attempts : List Attempt)
  | accept (accepts : List (Io Connection))
  /-- `allowed` is what the access check against a descriptor finds -/
  | client (id : ℕ) (attempts : List Attempt) (allowed : Option Bytes → UInt32 → Bool)
  /-- `hostname` is the text `gethostname` gives -/
  | netd (attempts : List Attempt) (hostname : Option String)
  | watch (read : WatchRead)
  /-- `connect` is what the network service is going to send, if it can be reached -/
  | timers (connect : Option Bytes)

/-- A turn, with the time of its pass and the answers of the kernel.  The clock is read again, and a
write is tried, for the `n`th reply of the turn. -/
structure Input where
  turn : Turn
  now : Instant
  os : Os
  clock : ℕ → Instant
  write : ℕ → Io ℕ

/-- What can be seen from outside. -/
inductive Event where
  | seen (seen : Loop.Seen)
  | datagram (peer : SocketAddr) (bytes : Bytes)
  /-- a write to a native connection -/
  | reply (event : ReplyEvent Stream)
  /-- a write to a connection of the stub door -/
  | stubReply (event : ReplyEvent Stream)

/-! ### Replies -/

/-- `Stub::send_tcp`, for a frame. -/
def sendTcp (s : Service) (stream : Stream) (frame : Bytes) (clock : Instant) (kernel : Io ℕ) :
    Service × List Event :=
  let (stubReplies, events) := s.stubReplies.enqueue stream frame clock kernel
  ({ s with stubReplies }, events.map .stubReply)

/-- `Resolvd::reply`, for a frame. -/
def sendReply (s : Service) (stream : Stream) (frame : Bytes) (clock : Instant) (kernel : Io ℕ) :
    Service × List Event :=
  let (replies, events) := s.replies.enqueue stream frame clock kernel
  ({ s with replies }, events.map .reply)

/-- What is given out in a turn goes to its socket: `Resolvd::reply`, `Stub::answer`, and the error
replies of the stub door. -/
def emitOne (frame : Reply → Bytes) (clock : Instant) (kernel : Io ℕ) (s : Service) :
    Loop.Seen → Service × List Event
  | .daemon (.reply stream reply) => s.sendReply stream (frame reply) clock kernel
  | .daemon (.answer origin a) =>
    match origin, Stub.answer origin a with
    | .udp peer _, some bytes => (s, [.datagram peer bytes])
    | .tcp stream _, some bytes => s.sendTcp stream bytes clock kernel
    | _, none => (s, [])
  | .daemon (.missed _) | .daemon .unfinished => (s, [])
  | .refusal peer reply => (s, [.datagram peer reply])
  | .tcpRefusal stream reply => s.sendTcp stream (Stub.tcpFrame reply) clock kernel

/-- All that is given out in a turn, from the `n`th on. -/
def emit (frame : Reply → Bytes) (i : Input) : ℕ → List Loop.Seen → Service → Service × List Event
  | _, [], s => (s, [])
  | n, o :: os, s =>
    let (s, events) := s.emitOne frame (i.clock n) (i.write n) o
    let (s, events') := s.emit frame i (n + 1) os
    (s, events ++ events')

/-- The frame of a reply.  A report is about the state in which the turn began. -/
def frame (w : World) (s : Service) (now : Instant) (reply : Reply) : Bytes :=
  responseFrame w.addressText (toReply w.addressText w.lossy s.loop.daemon.engine
    s.netd.stream.isSome now reply)

/-- A turn of the daemon and its doors. -/
def loopTurn (w : World) (s : Service) (i : Input) (turn : Loop.Turn) : Service × List Event :=
  let (loop, seen) := s.loop.turn ⟨turn, i.now, i.os⟩
  let (s', events) := emit (s.frame w i.now) i 0 seen { s with loop }
  (s', seen.map .seen ++ events)

/-! ### The doors -/

/-- The connections that `accept` has for the daemon: those it returns before it fails or blocks, if
they can be made nonblocking. -/
def offered : List (Io Connection) → List Connection
  | [] => []
  | .ok c :: accepts => if c.nonblocking then c :: offered accepts else offered accepts
  | .interrupted :: accepts => offered accepts
  | .wouldBlock :: _ => []
  | .error :: _ => []

/-- `accept` fails, before it blocks. -/
def acceptFails {α : Type} : List (Io α) → Bool
  | [] => false
  | .ok _ :: accepts => acceptFails accepts
  | .interrupted :: accepts => acceptFails accepts
  | .wouldBlock :: _ => false
  | .error :: _ => true

/-- One connection at the native door, with `pending` native waiters. -/
def acceptOne (now : Instant) (pending : ℕ) (s : Service) (c : Connection) : Service :=
  let d := s.loop.daemon
  { s with
    loop := { s.loop with daemon := Daemon.acceptOne now pending d c.stream }
    readers := if maxPendingClients ≤ d.clients.len + pending then s.readers
      else s.readers.insert d.nextId ⟨⟨c.bytes, []⟩, []⟩ }

/-- The connections at the native door. -/
def accept (s : Service) (now clock : Instant) (accepts : List (Io Connection)) : Service :=
  let pending := (s.loop.daemon.waiters.select fun _ w => w.isNative).length
  let batch := accepts.take ioBatchLimit
  let s := (offered batch).foldl (acceptOne now pending) s
  if acceptFails batch then { s with acceptBackoff := .failed clock } else s

/-- `control::Progress`, as the daemon has it.  `Client::read` replies with nothing but errors. -/
def toProgress : Core.Progress → Progress
  | .incomplete => .incomplete
  | .request r => .request (toRequest r)
  | .reply (.error text) => .reply (.error text)
  | .reply _ => .closed
  | .closed => .closed

/-- `ControlObject::permits`, for what is read from a connection. -/
def permitted (s : Service) (allowed : Option Bytes → UInt32 → Bool) : Core.Progress → Bool
  | .request r => allowed s.control (requiredRight r)
  | _ => false

/-- A native connection is ready. -/
def client (w : World) (s : Service) (i : Input) (id : ℕ) (attempts : List Attempt)
    (allowed : Option Bytes → UInt32 → Bool) : Service × List Event :=
  match s.readers.get id with
  | none => (s, [])
  | some reader =>
    let (progress, reader) := reader.read w.addressText w.debug attempts
    let readers := match progress with
      | .incomplete => s.readers.insert id reader
      | _ => s.readers.remove id
    loopTurn w { s with readers } i
      (.client id (toProgress progress) (s.permitted allowed progress))

/-! ### Configuration, snapshots and timers -/

/-- The descriptor of `ControlObject::new`. -/
def controlOf (w : World) (config : Config) : Option Bytes :=
  config.controlSecurity.filter w.isDescriptor

/-- `Resolvd::apply_config`. -/
def applyConfig (w : World) (s : Service) (i : Input) (fresh : Config) : Service × List Event :=
  if fresh.eq s.config then (s, [])
  else loopTurn w { s with config := fresh, control := controlOf w fresh } i
    (.config fresh.servers fresh.search fresh.hosts)

/-- The watch is ready. -/
def watchTurn (w : World) (s : Service) (i : Input) : WatchRead → Service × List Event
  | .events root R =>
    match load w.addressText root R with
    | .ok config => applyConfig w s i config
    | .error _ => (s, [])
  | .nothing => (s, [])
  | .failed rearmed => ({ s with watch := rearmed }, [])

/-- `Resolvd::apply_snapshot`. -/
def applySnapshot (w : World) (i : Input) (hostname : Option String) (s : Service)
    (snapshot : Snapshot) : Service :=
  (loopTurn w s i (.snapshot ((snapshot.effectiveHostname hostname).map octets)
    (snapshot.scopes.map (toScope w.addressText i.os)))).1

/-- The channel from the network service is ready. -/
def netdTurn (w : World) (s : Service) (i : Input) (attempts : List Attempt)
    (hostname : Option String) : Service :=
  let (netd, snapshots) := s.netd.service w.decode i.now attempts
  snapshots.foldl (applySnapshot w i hostname) { s with netd }

/-- The timers. -/
def timers (w : World) (s : Service) (i : Input) (connect : Option Bytes) : Service × List Event :=
  let (s, events) := loopTurn w s i .timers
  let (stubReplies, expired) := s.stubReplies.expire i.now
  let (replies, expired') := s.replies.expire i.now
  ({ s with
      netd := s.netd.maintain i.now connect
      stubReplies, replies
      readers := s.readers.retain fun id _ => (s.loop.daemon.clients.get id).isSome },
    events ++ expired.map .stubReply ++ expired'.map .reply)

def turn (w : World) (s : Service) (i : Input) : Service × List Event :=
  match i.turn with
  | .hangup qid => loopTurn w s i (.hangup qid)
  | .upstream tx ready => loopTurn w s i (.upstream tx ready)
  | .reply id =>
    let (replies, events) := s.replies.service id (i.clock 0) (i.write 0)
    ({ s with replies }, events.map .reply)
  | .stubReply id =>
    let (stubReplies, events) := s.stubReplies.service id (i.clock 0) (i.write 0)
    ({ s with stubReplies }, events.map .stubReply)
  | .udp datagrams => loopTurn w s i (.udp datagrams)
  | .acceptStub accepts =>
    let (s, events) := loopTurn w s i (.acceptStub accepts)
    (if acceptFails (accepts.take ioBatchLimit)
      then { s with stubAcceptBackoff := .failed (i.clock 0) } else s, events)
  | .stubClient id attempts => loopTurn w s i (.stubClient id attempts)
  | .accept accepts => (s.accept i.now (i.clock 0) accepts, [])
  | .client id attempts allowed => s.client w i id attempts allowed
  | .netd attempts hostname => (s.netdTurn w i attempts hostname, [])
  | .watch read => if s.watch then s.watchTurn w i read else (s, [])
  | .timers connect => s.timers w i connect

/-! ### Runs -/

/-- The state in which `main` enters its loop, for the configuration it has read. -/
def boot (w : World) (config : Config) (hostname : Option String) (now : Instant)
    (connect : Option Bytes) (watch : Bool) : Service where
  loop :=
    { daemon :=
        Daemon.boot w.entropy ((kernelHostname hostname).map octets) config.servers config.search
          config.hosts }
  config := config
  control := controlOf w config
  netd := NetdLink.maintain { nextTry := now } now connect
  watch := watch

/-- The states differ in the order in which their tables are visited, and in the counters, but in
nothing else. -/
structure Reorder (s s' : Service) : Prop where
  loop : Loop.Reorder s.loop s'.loop
  readers : s.readers.Same s'.readers
  replies : s'.replies = s.replies
  stubReplies : s'.stubReplies = s.stubReplies
  config : s'.config = s.config
  control : s'.control = s.control
  netd : s'.netd = s.netd
  acceptBackoff : s'.acceptBackoff = s.acceptBackoff
  stubAcceptBackoff : s'.stubAcceptBackoff = s.stubAcceptBackoff
  watch : s'.watch = s.watch

theorem Reorder.refl (s : Service) : Reorder s s :=
  ⟨.refl _, .refl _, rfl, rfl, rfl, rfl, rfl, rfl, rfl, rfl⟩

/-- The service in its world, started with a configuration it could read. -/
def machine (w : World) : Machine Service Input Event where
  start := fun s => ∃ root R config hostname now connect watch,
    load w.addressText root R = .ok config ∧ s = boot w config hostname now connect watch
  step := turn w
  idle := Reorder

/-- The log is that of a run of the service, and ends in the state. -/
abbrev Runs (w : World) (log : Log Service Input) (s : Service) : Prop := (machine w).Run log s

/-- What `poll` reports, and what the calls after it find. -/
structure Pass where
  now : Instant
  os : Os
  clock : ℕ → Instant
  write : ℕ → Io ℕ
  hangups : List Qid := []
  upstream : List (Txid × Upstream.Ready) := []
  replies : List ℕ := []
  stubReplies : List ℕ := []
  datagrams : List (Io (SocketAddr × Bytes)) := []
  stubAccepts : List (Io Stub.Connection) := []
  stubClients : List (ℕ × List Attempt) := []
  accepts : List (Io Connection) := []
  clients : List (ℕ × List Attempt × (Option Bytes → UInt32 → Bool)) := []
  netd : Option (List Attempt × Option String) := none
  watch : Option WatchRead := none
  connect : Option Bytes := none

/-- The turns of one pass, in the order of the loop. -/
def Pass.turns (p : Pass) : List Input :=
  let turns : List Turn :=
    p.hangups.map .hangup ++ p.upstream.map (fun u => Turn.upstream u.1 u.2) ++
      p.replies.map .reply ++
      p.stubReplies.map .stubReply ++ [.udp p.datagrams] ++ [.acceptStub p.stubAccepts] ++
      p.stubClients.map (fun c => Turn.stubClient c.1 c.2) ++ [.accept p.accepts] ++
      p.clients.map (fun c => Turn.client c.1 c.2.1 c.2.2) ++
        p.netd.toList.map (fun n => Turn.netd n.1 n.2) ++
      p.watch.toList.map .watch ++ [.timers p.connect]
  turns.map fun turn => ⟨turn, p.now, p.os, p.clock, p.write⟩

/-- The log and the last state of these passes, after a start without configuration. -/
def ran (w : World) (passes : List Pass) : Log Service Input × Service :=
  (machine w).exec (boot w {} none 0 none true) (passes.flatMap Pass.turns)

theorem runs_ran (w : World) (passes : List Pass) : Runs w (ran w passes).1 (ran w passes).2 := by
  have hstart : Runs w [] (boot w {} none 0 none true) :=
    .start ⟨.ok none, ⟨fun _ _ => .ok none, fun _ => .ok [], fun _ _ => .ok none⟩, {}, none, 0,
      none, true, rfl, rfl⟩
  have h := hstart.exec Reorder.refl (passes.flatMap Pass.turns)
  rwa [List.append_nil] at h

/-! ### A small run -/

/-- A world in which addresses are their octets and nothing is random. -/
def stillWorld : World where
  addressText := Core.octetText
  lossy := fun _ => ""
  debug := id
  decode := fun _ => .unreadable
  isDescriptor := fun _ => false
  entropy := zeros

/-- A pass in which nothing is ready. -/
def stillPass : Pass where
  now := secs 1
  os := ⟨fun _ => 0, fun _ => none⟩
  clock := fun _ => secs 1
  write := fun _ => .wouldBlock

/-- A client asks for a flush.  Three octets of the reply can be written at once, and the others
later. -/
def flushed : List Pass :=
  let request := Core.Request.encode Core.octetText .flush
  [{ stillPass with accepts := [.ok ⟨40, true, toLe 4 request.length ++ request⟩] },
    { stillPass with write := fun _ => .ok 3, clients := [(1, [.ready 99, .ready 99], fun _ _ => true)] },
    { stillPass with write := fun _ => .ok 99, replies := [0] }]

end Resolvd.Service
