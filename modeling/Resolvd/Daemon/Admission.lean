import Resolvd.Daemon.Loop

/-!
# Admission

How much the daemon takes on at once.  A query by datagram is counted among those who wait; a
connection is counted while it sends, and then, when its question was put to the engine, among those
who wait.  The limits are checked where somebody is let in, and only there: for the rest of the loop
it is enough to know who can come to wait, and who can only leave.
-/

namespace Resolvd.Daemon

open Lib Dns Engine

variable {d d' : Daemon}

/-! ### Who waits -/

/-- The waiters that pass a test. -/
def pending (d : Daemon) (p : Waiter → Bool) : ℕ := (d.waiters.select fun _ w => p w).length

/-- Nobody new waits or sends. -/
structure Fewer (d d' : Daemon) : Prop where
  waiters : d'.waiters.Within d.waiters
  clients : d'.clients.Within d.clients

theorem Fewer.refl (d : Daemon) : Fewer d d := ⟨.refl _, .refl _⟩

theorem Fewer.trans {d'' : Daemon} (h : Fewer d d') (h' : Fewer d' d'') : Fewer d d'' :=
  ⟨h'.waiters.trans h.waiters, h'.clients.trans h.clients⟩

theorem Fewer.pending_le (h : Fewer d d') (p : Waiter → Bool) : d'.pending p ≤ d.pending p :=
  h.waiters.length_select_le _

section Perform

variable (os : Os) (now : Instant)

theorem fewer_deliver (d : Daemon) (qid : Qid) (completion : Completion) :
    Fewer d (d.deliver qid completion).1 := by
  unfold deliver
  split
  · exact .refl d
  · exact ⟨Table.within_remove _ _, .refl _⟩

theorem fewer_performOne (d : Daemon) (action : Action) :
    Fewer d (performOne os now d action).1 := by
  cases action with
  | send tx server interface tcp payload =>
    unfold performOne
    dsimp only
    split <;> exact ⟨.refl _, .refl _⟩
  | cancel tx => exact ⟨.refl _, .refl _⟩
  | done qid completion => exact fewer_deliver d qid completion

theorem fewer_performAll (d : Daemon) (actions : List Action) :
    Fewer d (performAll os now actions d).1 := by
  induction actions generalizing d with
  | nil => exact .refl d
  | cons action actions ih => exact (fewer_performOne os now d action).trans (ih _)

theorem fewer_performUpTo (n : ℕ) (d : Daemon) (actions : List Action) :
    Fewer d (performUpTo os now n d actions).1 := by
  induction n generalizing d actions with
  | zero => exact .refl d
  | succ n ih =>
    have hall := fewer_performAll os now d actions
    unfold performUpTo
    dsimp only
    split
    · exact hall
    · exact hall.trans (ih _ _)

theorem fewer_operate (d : Daemon) (op : Engine.Op) : Fewer d (operate os now d op).1 := by
  have h := fewer_performUpTo os now (maxAttempts + 1) { d with engine := (d.engine.apply op).1 }
    (d.engine.apply op).2
  exact ⟨h.waiters, h.clients⟩

/-- The one who asks is the only one who comes to wait. -/
theorem pending_ask_le (d : Daemon) (waiter : Waiter) (op : Qid → Engine.Op) (p : Waiter → Bool) :
    (ask os now d waiter op).1.pending p ≤ d.pending p + (p waiter).toNat := by
  have h := fewer_operate os now
    { d with nextId := d.nextId + 1, waiters := d.waiters.insert d.nextId waiter }
    (op d.nextId)
  exact (h.pending_le p).trans (Table.length_select_insert_le ..)

theorem within_clients_ask (d : Daemon) (waiter : Waiter) (op : Qid → Engine.Op) :
    (ask os now d waiter op).1.clients.Within d.clients :=
  (fewer_operate os now { d with nextId := d.nextId + 1, waiters := d.waiters.insert d.nextId waiter }
    (op d.nextId)).clients

end Perform

/-! ### The bounds -/

/-- The daemon has let in no more than it should. -/
structure Admitted (d : Daemon) : Prop where
  udp : d.pending (fun w => w.udpPeer.isSome) ≤ maxPendingUdp
  perPeer : ∀ peer, d.pending (fun w => w.udpPeer == some peer) ≤ maxPendingUdpPerPeer
  native : d.clients.len + d.pending Waiter.isNative ≤ maxPendingClients

theorem Admitted.fewer (h : Admitted d) (hf : Fewer d d') : Admitted d' where
  udp := (hf.pending_le _).trans h.udp
  perPeer := fun peer => (hf.pending_le _).trans (h.perPeer peer)
  native := (Nat.add_le_add hf.clients.len_le (hf.pending_le _)).trans h.native

section Doors

variable (os : Os) (now : Instant) {d : Daemon}

theorem lt_of_udpHasCapacity {peer : SocketAddr} (h : udpHasCapacity d.waiters peer = true) :
    d.pending (fun w => w.udpPeer.isSome) < maxPendingUdp ∧
      d.pending (fun w => w.udpPeer == some peer) < maxPendingUdpPerPeer := by
  simpa [udpHasCapacity, pending] using h

section

variable (h : Admitted d)
include h

/-- A query at the stub door comes to wait, and there is room for it if it came by datagram. -/
theorem Admitted.ask_stub {origin : Origin} (hroom : origin.overflows d.waiters = false)
    (op : Qid → Engine.Op) : Admitted (ask os now d (.stub origin) op).1 := by
  have hclients := (within_clients_ask os now d (.stub origin) op).len_le
  have hpending := pending_ask_le os now d (.stub origin) op
  refine ⟨(hpending _).trans ?_, fun peer => (hpending _).trans ?_,
    (Nat.add_le_add hclients (hpending _)).trans h.native⟩
  · cases origin with
    | udp peer query =>
      have hcap : udpHasCapacity d.waiters peer = true := by simpa [Origin.overflows] using hroom
      exact Nat.succ_le_of_lt (lt_of_udpHasCapacity hcap).1
    | tcp stream query => exact h.udp
  · cases origin with
    | udp peer' query =>
      have hcap : udpHasCapacity d.waiters peer' = true := by simpa [Origin.overflows] using hroom
      have hlt := (lt_of_udpHasCapacity hcap).2
      by_cases heq : peer' = peer
      · subst heq
        have hself : ((Waiter.stub (.udp peer' query)).udpPeer == some peer') = true := by
          simp [Waiter.udpPeer]
        rw [hself]
        exact Nat.succ_le_of_lt hlt
      · have hother : ((Waiter.stub (.udp peer' query)).udpPeer == some peer) = false := by
          simpa [Waiter.udpPeer] using heq
        rw [hother]
        exact h.perPeer peer
    | tcp stream query => exact h.perPeer peer

theorem Admitted.handleStubOne (i : Incoming) : Admitted (handleStubOne os now d i).1 := by
  unfold Daemon.handleStubOne
  split
  · exact h
  · next origin =>
    split
    · exact h
    · split
      · exact h.fewer ⟨.refl _, .refl _⟩
      · next hroom => exact h.ask_stub os now (by simpa using hroom) _

theorem Admitted.handleStub (incoming : List Incoming) :
    Admitted (handleStub os now incoming d).1 := by
  induction incoming generalizing d with
  | nil => exact h
  | cons i incoming ih => exact ih (h.handleStubOne os now i)

/-- A client at the native door that has sent its request leaves a place to the one who waits for
the answer. -/
theorem Admitted.ask_native {id : ℕ} {client : Client} (hclient : d.clients.get id = some client)
    (op : Qid → Engine.Op) :
    Admitted (ask os now { d with clients := d.clients.remove id }
      (.native client.stream) op).1 := by
  have hclients := (within_clients_ask os now { d with clients := d.clients.remove id }
    (.native client.stream) op).len_le
  have hpending := pending_ask_le os now { d with clients := d.clients.remove id }
    (.native client.stream) op
  have hlen := Table.len_remove hclient
  refine ⟨(hpending _).trans h.udp, fun peer => (hpending _).trans (h.perPeer peer), ?_⟩
  have hnative : _ ≤ d.pending Waiter.isNative + 1 := hpending Waiter.isNative
  have hbound := h.native
  dsimp only at hclients
  omega

theorem Admitted.acceptOne (stream : Stream) :
    Admitted (acceptOne now (d.pending Waiter.isNative) d stream) := by
  unfold Daemon.acceptOne
  split
  · exact h
  · next hroom =>
    have hlen := Table.len_insert_le d.clients d.nextId ⟨stream, now⟩
    refine ⟨h.udp, h.perPeer, ?_⟩
    show (d.clients.insert d.nextId ⟨stream, now⟩).len + d.pending Waiter.isNative ≤
      maxPendingClients
    omega

end

theorem waiters_acceptOne (pending : ℕ) (d : Daemon) (stream : Stream) :
    (acceptOne now pending d stream).waiters = d.waiters := by
  unfold acceptOne
  split <;> rfl

theorem waiters_acceptClients (d : Daemon) (streams : List Stream) :
    (acceptClients now d streams).waiters = d.waiters := by
  unfold acceptClients
  generalize (d.waiters.select fun _ w => w.isNative).length = pending
  generalize streams.take ioBatchLimit = streams
  induction streams generalizing d with
  | nil => rfl
  | cons stream streams ih => exact (ih _).trans (waiters_acceptOne now pending d stream)

theorem Admitted.acceptClients (h : Admitted d) (streams : List Stream) :
    Admitted (acceptClients now d streams) := by
  unfold Daemon.acceptClients
  generalize streams.take ioBatchLimit = streams
  -- the number of those who wait is counted once, and it stays the same
  show Admitted (streams.foldl (Daemon.acceptOne now (d.pending Waiter.isNative)) d)
  induction streams generalizing d with
  | nil => exact h
  | cons stream streams ih =>
    have hpending : (Daemon.acceptOne now (d.pending Waiter.isNative) d stream).pending
        Waiter.isNative =
        d.pending Waiter.isNative := by rw [pending, waiters_acceptOne, pending]
    have h' := ih (h.acceptOne now stream)
    rwa [hpending] at h'

end Doors

/-! ### The turns of the daemon -/

/-- A client at the native door was read: nobody new comes, or it has sent a request, and waits now.
-/
theorem serviceClient_cases (os : Os) (now : Instant) (d : Daemon) (id : ℕ) (progress : Progress)
    (permitted : Bool) :
    Fewer d (serviceClient os now d id progress permitted).1 ∨
      ∃ client op, d.clients.get id = some client ∧
        (serviceClient os now d id progress permitted).1 =
        (ask os now { d with clients := d.clients.remove id } (.native client.stream) op).1 := by
  unfold serviceClient
  cases hclient : d.clients.get id with
  | none => exact .inl (.refl d)
  | some client =>
    have hgone : Fewer d { d with clients := d.clients.remove id } :=
      ⟨.refl _, Table.within_remove _ _⟩
    cases progress with
    | incomplete => exact .inl (.refl d)
    | closed => exact .inl hgone
    | reply reply => exact .inl hgone
    | request request =>
      dsimp only
      unfold handleRequest
      split
      · exact .inl hgone
      · cases request with
        | resolve name rtype noCache => exact .inr ⟨client, _, rfl, rfl⟩
        | lookup name family => exact .inr ⟨client, _, rfl, rfl⟩
        | reverse address => exact .inr ⟨client, _, rfl, rfl⟩
        | status => exact .inl ⟨.refl _, Table.within_remove _ _⟩
        | flush => exact .inl ⟨.refl _, Table.within_remove _ _⟩

/-- **What a turn of the daemon can do to those who wait and send.**  Nobody new comes, connections
come to the native door, a client of that door has sent its request, or queries have come to the
stub door. -/
theorem turn_cases (d : Daemon) (i : Input) :
    Fewer d (turn d i).1 ∨ (∃ streams, (turn d i).1 = acceptClients i.now d streams) ∨
      (∃ id client op, d.clients.get id = some client ∧ (turn d i).1 =
        (ask i.os i.now { d with clients := d.clients.remove id } (.native client.stream) op).1) ∨
      ∃ incoming, i.wake = .stub incoming ∧
        (turn d i).1 = (handleStub i.os i.now incoming d).1 := by
  unfold turn
  cases i.wake with
  | hangup qid =>
    refine .inl ?_
    dsimp only
    unfold hangup
    split
    · exact .refl d
    · split
      · refine Fewer.trans ?_ (fewer_operate i.os i.now _ _)
        exact ⟨Table.within_remove _ _, .refl _⟩
      · exact .refl d
  | upstream tx ready =>
    refine .inl ?_
    dsimp only
    unfold serviceUpstream
    split
    · refine Fewer.trans ?_ (fewer_operate i.os i.now _ _)
      exact ⟨.refl _, .refl _⟩
    · refine Fewer.trans ?_ (fewer_operate i.os i.now _ _)
      exact ⟨.refl _, .refl _⟩
    · exact ⟨.refl _, .refl _⟩
  | stub incoming => exact .inr (.inr (.inr ⟨incoming, rfl, rfl⟩))
  | accept streams => exact .inr (.inl ⟨streams, rfl⟩)
  | client id progress permitted =>
    rcases serviceClient_cases i.os i.now d id progress
      permitted with hfewer | ⟨client, op, hclient, heq⟩
    · exact .inl hfewer
    · exact .inr (.inr (.inl ⟨id, client, op, hclient, heq⟩))
  | snapshot hostname scopes => exact .inl ⟨.refl _, .refl _⟩
  | config servers search hosts => exact .inl ⟨.refl _, .refl _⟩
  | tick =>
    refine .inl ((fewer_operate i.os i.now d (.tick i.now)).trans ?_)
    exact ⟨.refl _, Table.within_retain _ _⟩

theorem Admitted.turn (h : Admitted d) (i : Input) : Admitted (turn d i).1 := by
  rcases turn_cases d i with hfewer | ⟨streams, heq⟩ | ⟨id, client, op, hclient,
    heq⟩ | ⟨incoming, -, heq⟩
  · exact h.fewer hfewer
  · rw [heq]
    exact h.acceptClients i.now streams
  · rw [heq]
    exact h.ask_native i.os i.now hclient op
  · rw [heq]
    exact h.handleStub i.os i.now incoming

/-- By a turn that is not one of the stub door, nobody comes to wait but clients of the native door.
-/
theorem pending_turn_le {p : Waiter → Bool} (hp : ∀ stream, p (.native stream) = false) (d : Daemon)
    {i : Input} (hi : ∀ incoming, i.wake ≠ .stub incoming) :
    (turn d i).1.pending p ≤ d.pending p := by
  rcases turn_cases d i with hfewer | ⟨streams, heq⟩ | ⟨id, client, op, -, heq⟩ | ⟨incoming,
    hstub, -⟩
  · exact hfewer.pending_le p
  · rw [heq, pending, waiters_acceptClients, pending]
  · rw [heq]
    have hle := pending_ask_le i.os i.now { d with clients := d.clients.remove id }
      (.native client.stream) op p
    rwa [hp] at hle
  · exact absurd hstub (hi incoming)

end Resolvd.Daemon

namespace Resolvd.Loop

open Lib Dns Engine Daemon

variable {l : Loop}

/-- The loop has let in no more than it should. -/
structure Admitted (l : Loop) : Prop where
  daemon : Daemon.Admitted l.daemon
  tcp : l.stub.clients.len + l.daemon.pending isTcp ≤ maxPendingClients

/-- A turn after which no more connections are read and no more queries of connections wait. -/
theorem Admitted.of_le {l' : Loop} (h : Admitted l) (hdaemon : Daemon.Admitted l'.daemon)
    (hclients : l'.stub.clients.len ≤ l.stub.clients.len)
    (hpending : l'.daemon.pending isTcp ≤ l.daemon.pending isTcp) : Admitted l' :=
  ⟨hdaemon, (Nat.add_le_add hclients hpending).trans h.tcp⟩

theorem Admitted.daemonTurn (h : Admitted l) {i : Daemon.Input}
    (hi : ∀ incoming, i.wake ≠ .stub incoming) : Admitted (l.daemonTurn i).1 :=
  h.of_le (h.daemon.turn i) le_rfl (pending_turn_le (fun _ => rfl) l.daemon hi)

/-! ### The stub door -/

/-- A query at the stub door adds itself to those who wait, if anyone. -/
theorem pending_handleStubOne_le (os : Os) (now : Instant) (d : Daemon) (origin : Origin)
    (p : Waiter → Bool) :
    (handleStubOne os now d (.query origin)).1.pending p ≤ d.pending p +
      (p (.stub origin)).toNat := by
  unfold handleStubOne
  dsimp only
  split
  · exact Nat.le_add_right _ _
  · split
    · exact Nat.le_add_right _ _
    · exact pending_ask_le os now d (.stub origin) _ p

theorem receiveAll_udp (datagrams : List (Io (SocketAddr × Bytes))) :
    ∀ i ∈ (receiveAll datagrams).1, ∃ peer query, i = .query (.udp peer query) := by
  induction datagrams with
  | nil => simp [receiveAll]
  | cons d datagrams ih =>
    cases d with
    | ok datagram =>
      obtain ⟨peer, datagram⟩ := datagram
      rw [receiveAll]
      dsimp only
      split
      · exact List.forall_mem_cons.mpr ⟨⟨peer, _, rfl⟩, ih⟩
      · exact ih
      · exact ih
    | interrupted => exact ih
    | wouldBlock => simp [receiveAll]
    | error => simp [receiveAll]

theorem pending_handleStub_le (os : Os) (now : Instant) {incoming : List Incoming}
    (hudp : ∀ i ∈ incoming, ∃ peer query, i = .query (.udp peer query)) (d : Daemon) :
    (handleStub os now incoming d).1.pending isTcp ≤ d.pending isTcp := by
  induction incoming generalizing d with
  | nil => exact le_rfl
  | cons i incoming ih =>
    obtain ⟨⟨peer, query, rfl⟩, hrest⟩ := List.forall_mem_cons.mp hudp
    exact (ih hrest _).trans (pending_handleStubOne_le os now d (.udp peer query) isTcp)

theorem len_acceptAll_le (now : Instant) {limit : ℕ} (accepts : List (Io Stub.Connection))
    {s : Stub} (hs : s.clients.len ≤ limit) :
    (s.acceptAll now limit accepts).clients.len ≤ limit := by
  induction accepts generalizing s with
  | nil => exact hs
  | cons a accepts ih =>
    cases a with
    | ok c =>
      rw [Stub.acceptAll]
      split
      · exact ih hs
      · next hroom =>
        simp only [Bool.or_eq_true, decide_eq_true_eq, not_or] at hroom
        refine ih ?_
        have hlen := Table.len_insert_le s.clients s.nextClient
          { stream := c.stream, socket := ⟨c.bytes, []⟩, since := now }
        dsimp only
        omega
    | interrupted => exact ih hs
    | wouldBlock => exact hs
    | error => exact hs

theorem Admitted.acceptStub (h : Admitted l) (now : Instant) (accepts : List (Io Stub.Connection)) :
    Admitted (l.acceptStub now accepts) := by
  have htcp := h.tcp
  have hroom : l.stub.clients.len ≤ maxPendingClients - l.daemon.pending isTcp := by omega
  have hle := len_acceptAll_le now (accepts.take ioBatchLimit) hroom
  refine ⟨h.daemon, ?_⟩
  show ((l.stub.acceptAll now (maxPendingClients - l.daemon.pending isTcp)
    (accepts.take ioBatchLimit)).clients.len) +
    l.daemon.pending isTcp ≤ maxPendingClients
  omega

/-- A connection that leaves the table leaves a place there. -/
theorem serviceClient_cases (s : Stub) (id : ℕ) (attempts : List Attempt) :
    (s.serviceClient id attempts).2 = none ∧
      (s.serviceClient id attempts).1.clients.len ≤ s.clients.len ∨
      (∃ left, (s.serviceClient id attempts).2 = some left) ∧
        (s.serviceClient id attempts).1.clients.len + 1 = s.clients.len := by
  unfold Stub.serviceClient
  cases hc : s.clients.get id with
  | none => exact .inl ⟨rfl, le_rfl⟩
  | some c =>
    dsimp only
    split
    · next c' _ =>
      exact .inl ⟨rfl, (Table.len_insert_of_some hc c').le⟩
    · exact .inr ⟨⟨_, rfl⟩, Table.len_remove hc⟩

/-- A connection whose query has come leaves its place to the one who waits for the answer. -/
theorem Admitted.serviceStubClient (h : Admitted l) (os : Os) (now : Instant) (id : ℕ)
    (attempts : List Attempt) : Admitted (l.serviceStubClient os now id attempts).1 := by
  have hcases := serviceClient_cases l.stub id attempts
  unfold Loop.serviceStubClient
  generalize l.stub.serviceClient id attempts = r at hcases ⊢
  obtain ⟨stub, left⟩ := r
  have hlen : stub.clients.len ≤ l.stub.clients.len := by
    rcases hcases with ⟨-, hle⟩ | ⟨-, heq⟩
    · exact hle
    · exact Nat.le_of_succ_le heq.le
  rcases left with _ | ⟨stream, query | reply | _⟩
  · exact h.of_le h.daemon hlen le_rfl
  · obtain ⟨hnone, -⟩ | ⟨-, hleft⟩ := hcases
    · cases hnone
    · refine ⟨h.daemon.handleStub os now _, ?_⟩
      have hpending := pending_handleStubOne_le os now l.daemon (.tcp stream query) isTcp
      have htcp := h.tcp
      show stub.clients.len + (handleStubOne os now l.daemon (.query (.tcp stream query))).1.pending
        isTcp ≤
        maxPendingClients
      have hone : (isTcp (.stub (.tcp stream query))).toNat = 1 := rfl
      dsimp only at hleft
      omega
  · exact h.of_le h.daemon hlen le_rfl
  · exact h.of_le h.daemon hlen le_rfl

theorem Admitted.turn (h : Admitted l) (i : Input) : Admitted (l.turn i).1 := by
  unfold Loop.turn
  cases i.turn with
  | hangup qid => exact h.daemonTurn (by simp)
  | upstream tx ready => exact h.daemonTurn (by simp)
  | udp datagrams =>
    refine h.of_le (h.daemon.handleStub i.os i.now _) le_rfl ?_
    exact pending_handleStub_le i.os i.now (receiveAll_udp _) l.daemon
  | acceptStub accepts => exact h.acceptStub i.now accepts
  | stubClient id attempts => exact h.serviceStubClient i.os i.now id attempts
  | accept streams => exact h.daemonTurn (by simp)
  | client id progress permitted => exact h.daemonTurn (by simp)
  | snapshot hostname scopes => exact h.daemonTurn (by simp)
  | config servers search hosts => exact h.daemonTurn (by simp)
  | timers =>
    have htick := h.daemonTurn (i := ⟨.tick, i.now, i.os⟩) (by simp)
    exact htick.of_le htick.daemon (Table.within_retain _ _).len_le le_rfl

theorem Admitted.reorder {l' : Loop} (h : Admitted l) (hr : Reorder l l') : Admitted l' := by
  have hpending : ∀ p, l'.daemon.pending p = l.daemon.pending p :=
    fun p => hr.daemon.waiters.length_select_eq _
  refine ⟨⟨?_, fun peer => ?_, ?_⟩, ?_⟩
  · rw [hpending]
    exact h.daemon.udp
  · rw [hpending]
    exact h.daemon.perPeer peer
  · rw [hpending, hr.daemon.clients.len_eq]
    exact h.daemon.native
  · rw [hpending, hr.clients.len_eq]
    exact h.tcp

theorem Runs.admitted {entropy : Entropy} {log : Log Loop Input} (h : Runs entropy log l) :
    Admitted l := by
  refine Machine.Run.invariant (M := machine entropy) (I := fun _ l => Admitted l) ?_ ?_ ?_ h
  · rintro ⟨d, stub⟩ ⟨⟨hostname, servers, search, hosts, rfl⟩, rfl⟩
    exact ⟨⟨Nat.zero_le _, fun _ => Nat.zero_le _, Nat.zero_le _⟩, Nat.zero_le _⟩
  · exact fun _ _ _ hl hr => hl.reorder hr
  · exact fun _ _ i hl => hl.turn i

/-- **Admission is bounded.**  In every run of the loop, whatever the order of its turns, there wait
at most `MAX_PENDING_UDP` queries that came by datagram and at most `MAX_PENDING_UDP_PER_PEER` of
them from any one address and port; at each of the doors with connections, at most
`MAX_PENDING_CLIENTS` are sending or wait.  A query by datagram for which there is no room is
answered at once, and changes neither who waits nor what the engine is doing. -/
theorem admission_bounded {entropy : Entropy} {log : Log Loop Input} {l : Loop}
    (h : Runs entropy log l) :
    l.daemon.pending (fun w => w.udpPeer.isSome) ≤ maxPendingUdp ∧
    (∀ peer, l.daemon.pending (fun w => w.udpPeer == some peer) ≤ maxPendingUdpPerPeer) ∧
    l.daemon.clients.len + l.daemon.pending Waiter.isNative ≤ maxPendingClients ∧
    l.stub.clients.len + l.daemon.pending isTcp ≤ maxPendingClients ∧
    ∀ (d : Daemon) os now peer query question, query.question = some question →
      udpHasCapacity d.waiters peer = false →
      (handleStubOne os now d (.query (.udp peer query))).2 =
        [.answer (.udp peer query) { outcome := .unavailable }] ∧
      (handleStubOne os now d (.query (.udp peer query))).1.waiters = d.waiters ∧
      (handleStubOne os now d (.query (.udp peer query))).1.engine.tasks = d.engine.tasks ∧
      (handleStubOne os now d (.query (.udp peer query))).1.engine.txs = d.engine.txs ∧
      (handleStubOne os now d (.query (.udp peer query))).1.engine.lookups = d.engine.lookups := by
  have hl := h.admitted
  refine ⟨hl.daemon.udp, hl.daemon.perPeer, hl.daemon.native, hl.tcp,
    fun d os now peer query question hq hfull => ?_⟩
  have hover : (Origin.udp peer query).overflows d.waiters = true := by
    simp [Origin.overflows, hfull]
  have hone : handleStubOne os now d (.query (.udp peer query)) =
      ({ d with engine := d.engine.count fun c => { c with queries := c.queries + 1, refused := c.refused + 1 } },
        [.answer (.udp peer query) { outcome := .unavailable }]) := by
    simp only [handleStubOne, Origin.query, hq, hover, if_true]
  rw [hone]
  exact ⟨rfl, rfl, rfl, rfl, rfl⟩

/-- An interface comes up; then a query comes by datagram and a connection at each door, and then
the query on the one of the stub door. -/
def doorsOnLan : List Pass :=
  let os := osWithout [] .invalidInput
  [{ now := 0, os, snapshots := [(none, [lan])] },
    { now := 1000, os, datagrams := [.ok (⟨.v4 IpAddr.localhost4, 4000, 0⟩, Stub.clientQuery.wire), .wouldBlock],
      stubAccepts := [.ok ⟨40, .v4 IpAddr.localhost4, true, Stub.tcpFrame Stub.clientQuery.wire⟩],
        streams := [50] },
    { now := 2000, os, stubClients := [(1, [.ready 4095])] }]

theorem admission_bounded_doorsOnLan :
    (ran zeros doorsOnLan).2.daemon.pending (fun w => w.udpPeer.isSome) = 1 ∧
    (ran zeros doorsOnLan).2.daemon.clients.len = 1 ∧
    (ran zeros doorsOnLan).2.daemon.pending isTcp = 1 ∧
    1 ≤ maxPendingUdp ∧ (ran zeros doorsOnLan).2.stub.clients.len + 1 ≤ maxPendingClients := by
  obtain ⟨hudp, -, -, htcp, -⟩ := admission_bounded (runs_ran zeros doorsOnLan)
  have hone : (ran zeros doorsOnLan).2.daemon.pending (fun w => w.udpPeer.isSome) = 1 := by
    decide +kernel
  have hwaits : (ran zeros doorsOnLan).2.daemon.pending isTcp = 1 := by decide +kernel
  rw [hwaits] at htcp
  exact ⟨hone, by decide +kernel, hwaits, hone ▸ hudp, htcp⟩

end Resolvd.Loop
