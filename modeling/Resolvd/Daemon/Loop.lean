import Resolvd.Stub.Tcp

/-!
# The loop with both doors

`main.rs` again, now with the stub door's own connections: the loop holds the daemon and the table
of the TCP connections that are still sending their query.  A turn is what the loop does for one
ready descriptor, or for its timers; datagrams and the octets of a stream are read here, where the
daemon is given what they say.

`Pass.turns` is the order in which the loop takes its turns after one `poll`.  What is proved of
runs is proved of turns in any order.
-/

namespace Resolvd

open Lib Dns Engine Daemon

/-- The state of the loop. -/
structure Loop where
  daemon : Daemon
  stub : Stub := {}

end Resolvd

namespace Resolvd.Loop

open Lib Dns Engine Daemon

/-- What can be seen from outside. -/
inductive Seen where
  /-- an output of the daemon -/
  | daemon (output : Output)
  /-- an error reply to a datagram -/
  | refusal (peer : SocketAddr) (reply : Bytes)
  /-- an error reply on a connection -/
  | tcpRefusal (stream : Stream) (reply : Bytes)
  deriving DecidableEq

/-- The loop of `Stub::receive_udp`. -/
def receiveAll : List (Io (SocketAddr × Bytes)) → List Incoming × List Seen
  | [] => ([], [])
  | .ok (peer, datagram) :: datagrams =>
    let (incoming, seen) := receiveAll datagrams
    match Stub.receiveUdp peer.ip datagram with
    | .query query => (.query (.udp peer query) :: incoming, seen)
    | .reply reply => (incoming, .refusal peer reply :: seen)
    | .nothing => (incoming, seen)
  | .interrupted :: datagrams => receiveAll datagrams
  | .wouldBlock :: _ => ([], [])
  | .error :: _ => ([], [])

/-- The datagrams at the stub door. -/
def serviceUdp (os : Os) (now : Instant) (l : Loop) (datagrams : List (Io (SocketAddr × Bytes))) :
    Loop × List Seen :=
  let (incoming, seen) := receiveAll (datagrams.take ioBatchLimit)
  let (daemon, out) := handleStub os now incoming l.daemon
  ({ l with daemon }, seen ++ out.map .daemon)

def isTcp : Waiter → Bool
  | .stub (.tcp ..) => true
  | _ => false

/-- The connections at the stub door. -/
def acceptStub (now : Instant) (l : Loop) (accepts : List (Io Stub.Connection)) : Loop :=
  let pending := (l.daemon.waiters.select fun _ w => isTcp w).length
  { l with stub := l.stub.accept now (maxPendingClients - pending) accepts }

/-- A connection at the stub door is ready. -/
def serviceStubClient (os : Os) (now : Instant) (l : Loop) (id : ℕ) (attempts : List Attempt) :
    Loop × List Seen :=
  match l.stub.serviceClient id attempts with
  | (stub, none) => ({ l with stub }, [])
  | (stub, some (stream, .query query)) =>
    let (daemon, out) := handleStub os now [.query (.tcp stream query)] l.daemon
    ({ daemon, stub }, out.map .daemon)
  | (stub, some (stream, .reply reply)) => ({ l with stub }, [.tcpRefusal stream reply])
  | (stub, some (_, .nothing)) => ({ l with stub }, [])

/-- What the loop turns to. -/
inductive Turn where
  | hangup (qid : Qid)
  | upstream (tx : Txid) (ready : Upstream.Ready)
  | udp (datagrams : List (Io (SocketAddr × Bytes)))
  | acceptStub (accepts : List (Io Stub.Connection))
  | stubClient (id : ℕ) (attempts : List Attempt)
  | accept (streams : List Stream)
  | client (id : ℕ) (progress : Progress) (permitted : Bool)
  | snapshot (hostname : Option Bytes) (scopes : List Scope)
  | config (servers : List IpAddr) (search : List Name) (hosts : Hosts)
  | timers

/-- A turn, with the time and the answers of the kernel. -/
structure Input where
  turn : Turn
  now : Instant
  os : Os

/-- A turn of the daemon. -/
def daemonTurn (l : Loop) (i : Daemon.Input) : Loop × List Seen :=
  let (daemon, out) := l.daemon.turn i
  ({ l with daemon }, out.map .daemon)

def turn (l : Loop) (i : Input) : Loop × List Seen :=
  match i.turn with
  | .hangup qid => l.daemonTurn ⟨.hangup qid, i.now, i.os⟩
  | .upstream tx ready => l.daemonTurn ⟨.upstream tx ready, i.now, i.os⟩
  | .udp datagrams => l.serviceUdp i.os i.now datagrams
  | .acceptStub accepts => (l.acceptStub i.now accepts, [])
  | .stubClient id attempts => l.serviceStubClient i.os i.now id attempts
  | .accept streams => l.daemonTurn ⟨.accept streams, i.now, i.os⟩
  | .client id progress permitted => l.daemonTurn ⟨.client id progress permitted, i.now, i.os⟩
  | .snapshot hostname scopes => l.daemonTurn ⟨.snapshot hostname scopes, i.now, i.os⟩
  | .config servers search hosts => l.daemonTurn ⟨.config servers search hosts, i.now, i.os⟩
  | .timers =>
    let (l, seen) := l.daemonTurn ⟨.tick, i.now, i.os⟩
    ({ l with stub := l.stub.expire i.now }, seen)

/-- What `poll` reports, and what the calls after it find.  A descriptor that is not ready has no
entry, or an empty list. -/
structure Pass where
  now : Instant
  os : Os
  hangups : List Qid := []
  upstream : List (Txid × Upstream.Ready) := []
  datagrams : List (Io (SocketAddr × Bytes)) := []
  stubAccepts : List (Io Stub.Connection) := []
  stubClients : List (ℕ × List Attempt) := []
  streams : List Stream := []
  clients : List (ℕ × Progress × Bool) := []
  snapshots : List (Option Bytes × List Scope) := []
  config : Option (List IpAddr × List Name × Hosts) := none

/-- The turns of one pass, in the order of the loop. -/
def Pass.turns (p : Pass) : List Input :=
  let turns : List Turn :=
    p.hangups.map .hangup ++ p.upstream.map (fun u => Turn.upstream u.1 u.2) ++
      [.udp p.datagrams] ++
      [.acceptStub p.stubAccepts] ++ p.stubClients.map (fun c => Turn.stubClient c.1 c.2) ++
        [.accept p.streams] ++
      p.clients.map (fun c => Turn.client c.1 c.2.1 c.2.2) ++
        p.snapshots.map (fun s => Turn.snapshot s.1 s.2) ++
      p.config.toList.map (fun c => Turn.config c.1 c.2.1 c.2.2) ++ [.timers]
  turns.map fun turn => ⟨turn, p.now, p.os⟩

/-- The states differ in the order in which their tables are visited, and in the counters, but in
nothing else. -/
structure Reorder (l l' : Loop) : Prop where
  daemon : Daemon.Reorder l.daemon l'.daemon
  clients : l.stub.clients.Same l'.stub.clients
  nextClient : l'.stub.nextClient = l.stub.nextClient

theorem Reorder.refl (l : Loop) : Reorder l l := ⟨.refl _, .refl _, rfl⟩

/-- The loop with an entropy source, whatever its first configuration is. -/
def machine (entropy : Entropy) : Machine Loop Input Seen where
  start := fun l => (Daemon.machine entropy).start l.daemon ∧ l.stub = {}
  step := turn
  idle := Reorder

/-- The log is that of a run of the loop with this entropy source, and ends in the state. -/
abbrev Runs (entropy : Entropy) (log : Log Loop Input) (l : Loop) : Prop :=
  (machine entropy).Run log l

/-- The log and the last state of these passes, after a start without configuration. -/
def ran (entropy : Entropy) (passes : List Pass) : Log Loop Input × Loop :=
  (machine entropy).exec ⟨boot entropy none [] [] Hosts.empty, {}⟩ (passes.flatMap Pass.turns)

theorem runs_ran (entropy : Entropy) (passes : List Pass) :
    Runs entropy (ran entropy passes).1 (ran entropy passes).2 := by
  have hstart : Runs entropy [] ⟨boot entropy none [] [] Hosts.empty, {}⟩ :=
    .start ⟨⟨none, [], [], Hosts.empty, rfl⟩, rfl⟩
  have h := hstart.exec Reorder.refl (passes.flatMap Pass.turns)
  rwa [List.append_nil] at h

end Resolvd.Loop
