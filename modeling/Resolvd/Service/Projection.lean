import Resolvd.Daemon.Answers
import Resolvd.Service.Model

/-!
# The daemon in the service

What is known of the daemon holds in the service: a run of the service is a run of the loop
(`Runs.loop`), and a run of the loop is a run of the daemon (`Runs.daemonLog`), turn by turn.
`loopLog` and `daemonStep` say which turns these are, so that what the daemon takes in and gives out
can be read off the log of the service.
-/

namespace Resolvd.Loop

open Lib Dns Engine Daemon List

/-! ### The daemon in the loop -/

/-- The daemon's output in what is seen. -/
def Seen.output : Seen → Option Output
  | .daemon output => some output
  | _ => none

/-- What the daemon gives out. -/
def outputs (seen : List Seen) : List Output := seen.filterMap Seen.output

theorem outputs_append (seen seen' : List Seen) :
    outputs (seen ++ seen') = outputs seen ++ outputs seen' :=
  filterMap_append

theorem outputs_map (out : List Output) : outputs (out.map .daemon) = out := by
  rw [outputs, filterMap_map]
  exact filterMap_some

/-- What a turn of the loop is to the daemon.  A turn that does not concern it is one in which
nobody comes. -/
def wake (l : Loop) (i : Input) : Wake :=
  match i.turn with
  | .hangup qid => .hangup qid
  | .upstream tx ready => .upstream tx ready
  | .udp datagrams => .stub (receiveAll (datagrams.take ioBatchLimit)).1
  | .acceptStub _ => .accept []
  | .stubClient id attempts =>
    match l.stub.serviceClient id attempts with
    | (_, some (stream, .query query)) => .stub [.query (.tcp stream query)]
    | _ => .accept []
  | .accept streams => .accept streams
  | .client id progress permitted => .client id progress permitted
  | .snapshot hostname scopes => .snapshot hostname scopes
  | .config servers search hosts => .config servers search hosts
  | .timers => .tick

/-- The step of the daemon in a step of the loop. -/
def daemonStep (st : Step Loop Input) : Step Daemon Daemon.Input :=
  ⟨st.before.daemon, ⟨st.before.wake st.input, st.input.now, st.input.os⟩⟩

theorem outputs_refusals (datagrams : List (Io (SocketAddr × Bytes))) :
    outputs (receiveAll datagrams).2 = [] := by
  induction datagrams with
  | nil => rfl
  | cons d datagrams ih =>
    cases d with
    | ok p =>
      obtain ⟨peer, datagram⟩ := p
      simp only [receiveAll]
      cases Stub.receiveUdp peer.ip datagram <;> exact ih
    | interrupted => exact ih
    | wouldBlock => rfl
    | error => rfl

theorem daemonTurn_wake (l : Loop) (i : Daemon.Input) :
    (l.daemonTurn i).1.daemon = (l.daemon.turn i).1 ∧
      outputs (l.daemonTurn i).2 = (l.daemon.turn i).2 :=
  ⟨rfl, outputs_map _⟩

/-- **To the daemon, a turn of the loop is a turn of its own.** -/
theorem turn_wake (entropy : Entropy) (st : Step Loop Input) :
    ((machine entropy).after st).daemon = (Daemon.machine entropy).after (daemonStep st) ∧
      outputs ((machine entropy).out st) = (Daemon.machine entropy).out (daemonStep st) := by
  obtain ⟨l, turn, now, os⟩ := st
  simp only [Machine.after, Machine.out, machine, Daemon.machine, daemonStep, Loop.turn]
  cases turn with
  | hangup qid => exact daemonTurn_wake l ⟨.hangup qid, now, os⟩
  | upstream tx ready => exact daemonTurn_wake l ⟨.upstream tx ready, now, os⟩
  | udp datagrams =>
    refine ⟨rfl, (outputs_append _ _).trans ?_⟩
    rw [outputs_refusals, outputs_map]
    rfl
  | acceptStub accepts => exact ⟨rfl, rfl⟩
  | stubClient id attempts =>
    simp only [wake, serviceStubClient]
    generalize l.stub.serviceClient id attempts = r
    obtain ⟨stub, _ | ⟨stream, received⟩⟩ := r
    · exact ⟨rfl, rfl⟩
    · cases received with
      | query query => exact ⟨rfl, outputs_map _⟩
      | reply reply => exact ⟨rfl, rfl⟩
      | nothing => exact ⟨rfl, rfl⟩
  | accept streams => exact daemonTurn_wake l ⟨.accept streams, now, os⟩
  | client id progress permitted => exact daemonTurn_wake l ⟨.client id progress permitted, now, os⟩
  | snapshot hostname scopes => exact daemonTurn_wake l ⟨.snapshot hostname scopes, now, os⟩
  | config servers search hosts => exact daemonTurn_wake l ⟨.config servers search hosts, now, os⟩
  | timers =>
    obtain ⟨hdaemon, hout⟩ := daemonTurn_wake l ⟨.tick, now, os⟩
    exact ⟨hdaemon, hout⟩

/-- **A run of the loop is a run of the daemon**, turn by turn. -/
theorem Runs.daemonLog {entropy : Entropy} {log : Log Loop Input} {l : Loop}
    (h : Runs entropy log l) : Daemon.Runs entropy (log.map daemonStep) l.daemon := by
  induction h with
  | start h => exact .start h.1
  | @step log l l' h hidle i ih =>
    have hstep := ih.step hidle.daemon ⟨l'.wake i, i.now, i.os⟩
    have heq : ((machine entropy).step l' i).1.daemon =
        ((Daemon.machine entropy).step l'.daemon ⟨l'.wake i, i.now, i.os⟩).1 :=
      (turn_wake entropy ⟨l', i⟩).1
    rw [heq]
    exact hstep

theorem Reorder.trans {l l' l'' : Loop} (h : Reorder l l') (h' : Reorder l' l'') : Reorder l l'' :=
  ⟨h.daemon.trans h'.daemon, List.Perm.trans h.clients h'.clients, h'.nextClient.trans h.nextClient⟩

end Resolvd.Loop

namespace Resolvd.Service

open Lib Dns Engine Daemon List
open Msgpack (octets)

variable {log : Log Service Input}

/-! ### The loop in the service -/

/-- The turns of the loop in a turn of the service. -/
def loopTurns (w : World) (s : Service) (i : Input) : List Loop.Turn :=
  match i.turn with
  | .hangup qid => [.hangup qid]
  | .upstream tx ready => [.upstream tx ready]
  | .reply _ | .stubReply _ => []
  | .udp datagrams => [.udp datagrams]
  | .acceptStub accepts => [.acceptStub accepts]
  | .stubClient id attempts => [.stubClient id attempts]
  | .accept accepts => [.accept ((offered (accepts.take ioBatchLimit)).map Connection.stream)]
  | .client id attempts allowed =>
    match s.readers.get id with
    | none => []
    | some reader =>
      let progress := (reader.read w.addressText w.debug attempts).1
      [.client id (toProgress progress) (s.permitted allowed progress)]
  | .netd attempts hostname =>
    (s.netd.service w.decode i.now attempts).2.map fun snapshot =>
      .snapshot ((snapshot.effectiveHostname hostname).map octets)
        (snapshot.scopes.map (toScope w.addressText i.os))
  | .watch (.events root R) =>
    match load w.addressText root R with
    | .ok fresh =>
      if s.watch && !fresh.eq s.config then [.config fresh.servers fresh.search fresh.hosts] else []
    | .error _ => []
  | .watch _ => []
  | .timers _ => [.timers]

/-- The steps of the loop in a step of the service. -/
def loopLog (w : World) (st : Step Service Input) : Log Loop Loop.Input :=
  ((Loop.machine w.entropy).exec st.before.loop
    ((loopTurns w st.before st.input).map fun turn => ⟨turn, st.input.now, st.input.os⟩)).1

/-- What is given out in a turn changes the queues of replies only. -/
theorem emitOne_eq (frame : Reply → Bytes) (clock : Instant) (kernel : Io ℕ) (s : Service)
    (o : Loop.Seen) :
    ∃ replies stubReplies, (s.emitOne frame clock kernel o).1 =
      { s with replies, stubReplies } := by
  unfold emitOne
  split
  · exact ⟨_, _, rfl⟩
  · split
    · exact ⟨_, _, rfl⟩
    · exact ⟨_, _, rfl⟩
    · exact ⟨_, _, rfl⟩
  · exact ⟨_, _, rfl⟩
  · exact ⟨_, _, rfl⟩
  · exact ⟨_, _, rfl⟩
  · exact ⟨_, _, rfl⟩

theorem emit_eq (frame : Reply → Bytes) (i : Input) (n : ℕ) (seen : List Loop.Seen) (s : Service) :
    ∃ replies stubReplies, (s.emit frame i n seen).1 = { s with replies, stubReplies } := by
  induction seen generalizing n s with
  | nil => exact ⟨_, _, rfl⟩
  | cons o seen ih =>
    obtain ⟨r, r', hone⟩ := emitOne_eq frame (i.clock n) (i.write n) s o
    obtain ⟨r₁, r₁', hrest⟩ := ih (n + 1) (s.emitOne frame (i.clock n) (i.write n) o).1
    refine ⟨r₁, r₁', ?_⟩
    rw [hone] at hrest
    simp only [emit, hone, hrest]

/-- A turn of the loop changes the loop and the queues of replies only. -/
theorem loopTurn_eq (w : World) (s : Service) (i : Input) (turn : Loop.Turn) :
    ∃ replies stubReplies, (loopTurn w s i turn).1 =
      { s with loop := (s.loop.turn ⟨turn, i.now, i.os⟩).1, replies, stubReplies } := by
  obtain ⟨r, r', h⟩ := emit_eq (s.frame w i.now) i 0 (s.loop.turn ⟨turn, i.now, i.os⟩).2
    { s with loop := (s.loop.turn ⟨turn, i.now, i.os⟩).1 }
  exact ⟨r, r', h⟩

theorem loop_loopTurn (w : World) (s : Service) (i : Input) (turn : Loop.Turn) :
    (loopTurn w s i turn).1.loop = (s.loop.turn ⟨turn, i.now, i.os⟩).1 := by
  obtain ⟨r, r', h⟩ := loopTurn_eq w s i turn
  rw [h]

/-- `accept` and the daemon see the same connections. -/
theorem foldl_acceptOne (now : Instant) (pending : ℕ) (cs : List Connection) (s : Service) :
    ∃ readers, cs.foldl (acceptOne now pending) s =
      { s with
        loop := { s.loop with
          daemon := (cs.map Connection.stream).foldl (Daemon.acceptOne now pending) s.loop.daemon }
        readers } := by
  induction cs generalizing s with
  | nil => exact ⟨_, rfl⟩
  | cons c cs ih =>
    obtain ⟨readers, h⟩ := ih (acceptOne now pending s c)
    exact ⟨readers, h⟩

theorem offered_sublist (accepts : List (Io Connection)) :
    ((offered accepts).map .ok).Sublist accepts := by
  induction accepts with
  | nil => exact .slnil
  | cons a accepts ih =>
    cases a with
    | ok c =>
      rw [offered]
      split
      · exact ih.cons_cons _
      · exact ih.cons _
    | interrupted => exact ih.cons _
    | wouldBlock => exact nil_sublist _
    | error => exact nil_sublist _

theorem loop_accept (s : Service) (now clock : Instant) (os : Os) (accepts : List (Io Connection)) :
    (s.accept now clock accepts).loop =
      (s.loop.turn ⟨.accept ((offered (accepts.take ioBatchLimit)).map Connection.stream), now,
        os⟩).1 := by
  have hshort : ((offered (accepts.take ioBatchLimit)).map Connection.stream).take ioBatchLimit =
      (offered (accepts.take ioBatchLimit)).map Connection.stream := by
    refine take_of_length_le ?_
    have hle := (offered_sublist (accepts.take ioBatchLimit)).length_le
    rw [length_map] at hle ⊢
    exact hle.trans (length_take_le _ _)
  obtain ⟨readers, h⟩ := foldl_acceptOne now (s.loop.daemon.waiters.select fun _ w =>
    w.isNative).length
    (offered (accepts.take ioBatchLimit)) s
  have hloop : (s.accept now clock accepts).loop = { s.loop with
      daemon := ((offered (accepts.take ioBatchLimit)).map Connection.stream).foldl
        (Daemon.acceptOne now
        (s.loop.daemon.waiters.select fun _ w => w.isNative).length) s.loop.daemon } := by
    unfold accept
    dsimp only
    split <;> rw [h]
  rw [hloop]
  simp only [Loop.turn, Loop.daemonTurn, Daemon.turn, acceptClients, hshort]

theorem loop_snapshots (w : World) (i : Input) (hostname : Option String)
    (snapshots : List Snapshot) (s : Service) :
    (snapshots.foldl (applySnapshot w i hostname) s).loop =
      ((Loop.machine w.entropy).exec s.loop (snapshots.map fun snapshot =>
        ⟨.snapshot ((snapshot.effectiveHostname hostname).map octets)
          (snapshot.scopes.map (toScope w.addressText i.os)),
          i.now, i.os⟩)).2 := by
  induction snapshots generalizing s with
  | nil => rfl
  | cons snapshot snapshots ih =>
    rw [foldl_cons, ih, applySnapshot, loop_loopTurn]
    rfl

/-- A turn for the registry is one of the loop, with a configuration that is new, or concerns the
watch alone. -/
theorem watch_cases (w : World) (s : Service) {i : Input} {read : WatchRead}
    (h : i.turn = .watch read) :
    (loopTurns w s i = [] ∧ ∃ watch, turn w s i = ({ s with watch }, [])) ∨
    ∃ fresh : Config, loopTurns w s i = [.config fresh.servers fresh.search fresh.hosts] ∧
      turn w s i = loopTurn w { s with config := fresh, control := controlOf w fresh } i
        (.config fresh.servers fresh.search fresh.hosts) := by
  simp only [Service.turn, loopTurns, h]
  cases read with
  | events root R =>
    simp only [watchTurn]
    cases load w.addressText root R with
    | error e => exact .inl ⟨rfl, s.watch, by split <;> rfl⟩
    | ok fresh =>
      simp only [applyConfig]
      by_cases hw : s.watch = true
      · by_cases hsame : fresh.eq s.config = true
        · exact .inl ⟨by simp [hsame], s.watch, by rw [if_pos hw, if_pos hsame]⟩
        · exact .inr ⟨fresh, by simp [hw, hsame], by rw [if_pos hw, if_neg hsame]⟩
      · exact .inl ⟨by simp [hw], s.watch, by rw [if_neg hw]⟩
  | nothing => exact .inl ⟨rfl, s.watch, by split <;> rfl⟩
  | failed rearmed =>
    refine .inl ⟨rfl, ?_⟩
    split
    · exact ⟨rearmed, rfl⟩
    · exact ⟨s.watch, rfl⟩

/-- **To the loop, a turn of the service is a number of its own turns.** -/
theorem turn_loop (w : World) (s : Service) (i : Input) :
    (turn w s i).1.loop = ((Loop.machine w.entropy).exec s.loop
      ((loopTurns w s i).map fun turn => ⟨turn, i.now, i.os⟩)).2 := by
  obtain ⟨turn, now, os, clock, write⟩ := i
  cases turn with
  | hangup qid => exact loop_loopTurn w s _ _
  | upstream tx ready => exact loop_loopTurn w s _ _
  | reply id => rfl
  | stubReply id => rfl
  | udp datagrams => exact loop_loopTurn w s _ _
  | acceptStub accepts =>
    simp only [Service.turn]
    split <;> exact loop_loopTurn w s _ _
  | stubClient id attempts => exact loop_loopTurn w s _ _
  | accept accepts => exact loop_accept s now (clock 0) os accepts
  | client id attempts allowed =>
    simp only [Service.turn, loopTurns, client]
    cases s.readers.get id with
    | none => rfl
    | some reader => exact loop_loopTurn w _ _ _
  | netd attempts hostname =>
    have h := loop_snapshots w ⟨.netd attempts hostname, now, os, clock, write⟩ hostname
      (s.netd.service w.decode now attempts).2
        { s with netd := (s.netd.service w.decode now attempts).1 }
    simp only [Service.turn, loopTurns, netdTurn, map_map]
    exact h
  | watch read =>
    rcases watch_cases w s (i := ⟨.watch read, now, os, clock, write⟩)
      rfl with ⟨hnone, watch, heq⟩ | ⟨fresh, hone, heq⟩
    · rw [heq, hnone]
      rfl
    · rw [heq, hone]
      exact loop_loopTurn w _ _ _
  | timers connect =>
    simp only [Service.turn, timers, loopTurns, map_cons, map_nil, Machine.exec, Loop.machine]
    exact loop_loopTurn w s _ .timers

/-! ### Runs -/

/-- **A run of the service is a run of the loop**, up to the order of its tables. -/
theorem Runs.loop {w : World} {s : Service} (h : Runs w log s) :
    ∃ l, Loop.Runs w.entropy (log.flatMap (loopLog w)) l ∧ Loop.Reorder l s.loop := by
  induction h with
  | start h =>
    obtain ⟨root, R, config, hostname, now, connect, watch, -, rfl⟩ := h
    exact ⟨_, .start ⟨⟨_, _, _, _, rfl⟩, rfl⟩, .refl _⟩
  | @step log s s' h hidle i ih =>
    obtain ⟨l, hl, hr⟩ := ih
    obtain ⟨l', hl', hr'⟩ := hl.exec_of_idle Loop.Reorder.refl (hr.trans hidle.loop)
      ((loopTurns w s' i).map fun turn => ⟨turn, i.now, i.os⟩)
    have hturn : ((machine w).step s' i).1.loop = ((Loop.machine w.entropy).exec s'.loop
      ((loopTurns w s' i).map fun turn => ⟨turn, i.now, i.os⟩)).2 := turn_loop w s' i
    exact ⟨l', hl', hturn ▸ hr'⟩

/-- The steps of the daemon in the course of a log of the service. -/
def daemonLog (w : World) (log : Log Service Input) : Log Daemon Daemon.Input :=
  (log.flatMap (loopLog w)).map Loop.daemonStep

/-- **A run of the service is a run of the daemon**, up to the order of its tables. -/
theorem Runs.daemon {w : World} {s : Service} (h : Runs w log s) :
    ∃ d, Daemon.Runs w.entropy (daemonLog w log) d ∧ Daemon.Reorder d s.loop.daemon := by
  obtain ⟨l, hl, hr⟩ := h.loop
  exact ⟨l.daemon, hl.daemonLog, hr.daemon⟩

end Resolvd.Service
