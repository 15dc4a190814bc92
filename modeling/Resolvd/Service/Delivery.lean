import Resolvd.Daemon.Connections
import Resolvd.Service.Projection

/-!
# From the listener to the last octet

A native connection of the service goes through three tables: it is read from, it waits, and a reply
is written to it.  `Runs.connections_conserved` says that it is in exactly one of them until it is
closed, in every run; `Runs.delivered` what is written to it: the front of one frame, that of the
one reply the daemon has made for it, and a client that gets all of it reads this reply.

The queue of replies in the service is the queue of `reply_queue.rs` in a run of its own
(`Runs.replies`), and its account is that of any such run (`Replies.Runs.offered`).
-/

namespace Resolvd.Daemon

open Lib Engine List

variable {S : Type}

theorem Pending.InOrder.front {p : Pending S} (h : p.InOrder) : p.sink.accepted <+: p.frame := by
  rw [h.accepted]
  exact take_prefix _ _

theorem Pending.InOrder.whole_iff {p : Pending S} (h : p.InOrder) :
    p.sink.accepted = p.frame ↔ p.sent = p.frame.length := by
  rw [h.accepted, take_eq_self_iff]
  exact ⟨fun hle => le_antisymm h.le hle, fun heq => heq.ge⟩

namespace Replies

/-! ### The account of a queue -/

/-- The frames that wait, with their streams. -/
def offers (r : Replies S) : List (S × Bytes) :=
  r.pending.values.map fun p => (p.sink.stream, p.frame)

/-- The frame a call puts in. -/
def Op.offer? : Op S → Option (S × Bytes)
  | .enqueue stream frame _ _ => some (stream, frame)
  | _ => none

/-- The frame whose entry leaves. -/
def offer? : ReplyEvent S → Option (S × Bytes)
  | .left p _ => some (p.sink.stream, p.frame)
  | .tried .. => none

/-- The ids of the entries were given out. -/
def Fresh (r : Replies S) : Prop := ∀ id p, r.pending.get id = some p → id < r.nextId

/-- A write changes neither the stream nor the frame of an entry. -/
theorem offer_push (p : Pending S) (kernel : Io ℕ) :
    ((p.push kernel).2.sink.stream, (p.push kernel).2.frame) = (p.sink.stream, p.frame) := by
  have hstream := (writeOnce_spec p.sink (p.frame.drop p.sent) kernel).1
  unfold Pending.push
  generalize writeOnce p.sink (p.frame.drop p.sent) kernel = w at hstream
  obtain ⟨e | n, sink⟩ := w <;> exact Prod.ext hstream rfl

/-- What a call does to the entries there are, counted by their frames. -/
structure Handles (r : Replies S) (came : List (S × Bytes))
    (result : Replies S × List (ReplyEvent S)) : Prop where
  fresh : Fresh result.1
  perm : (r.offers ++ came).Perm (result.2.filterMap offer? ++ result.1.offers)

section

variable {r : Replies S} (h : Fresh r)
include h

theorem Fresh.free : r.pending.get r.nextId = none :=
  Option.eq_none_iff_forall_ne_some.mpr fun p hget => lt_irrefl _ (h _ p hget)

/-- A frame that is not put into the table leaves at once. -/
theorem Handles.refused {p p' : Pending S} {now : Instant} {result : Except WriteError Unit}
    {offer : S × Bytes} (hoffer : (p'.sink.stream, p'.frame) = offer) :
    Handles r [offer] (r, [.tried p now, .left p' result]) := by
  refine ⟨h, ?_⟩
  show (r.offers ++ [offer]).Perm ([(p'.sink.stream, p'.frame)] ++ r.offers)
  rw [hoffer]
  exact perm_append_comm

theorem Handles.enqueue (stream : S) (frame : Bytes) (now : Instant) (kernel : Io ℕ) :
    Handles r [(stream, frame)] (r.enqueue stream frame now kernel) := by
  have hoffer := offer_push (Pending.unwritten stream frame now) kernel
  unfold Replies.enqueue
  dsimp only
  generalize (Pending.unwritten stream frame now).push kernel = w at hoffer ⊢
  obtain ⟨e | _, p⟩ := w
  · exact .refused h hoffer
  · dsimp only
    split
    · exact .refused h hoffer
    · split
      · exact .refused h hoffer
      · constructor
        · intro id p' hget
          dsimp only at hget ⊢
          rw [Table.get_insert] at hget
          split at hget
          · next heq => exact heq ▸ Nat.lt_succ_self _
          · exact Nat.lt_succ_of_lt (h id p' hget)
        · simp only [offers, Table.values_insert h.free, map_cons]
          rw [show (p.sink.stream, p.frame) = (stream, frame) from hoffer]
          exact perm_append_singleton _ _

theorem Handles.removed {id : ℕ} {p : Pending S} (hget : r.pending.get id = some p)
    {events : List (ReplyEvent S)}
    (hevents : events.filterMap offer? = [(p.sink.stream, p.frame)]) :
    Handles r [] ({ r with pending := r.pending.remove id }, events) := by
  refine ⟨fun id' p' hget' => h id' p' (Table.within_remove _ _ id' p' hget'), ?_⟩
  rw [append_nil, hevents]
  exact (Table.values_remove hget).map _

theorem Handles.service (id : ℕ) (now : Instant) (kernel : Io ℕ) :
    Handles r [] (r.service id now kernel) := by
  unfold Replies.service
  cases hget : r.pending.get id with
  | none => exact ⟨h, by rw [append_nil]; exact .refl _⟩
  | some p =>
    dsimp only
    split
    · exact .removed h hget rfl
    · have hoffer := offer_push p kernel
      generalize p.push kernel = w at hoffer ⊢
      obtain ⟨e | _, p'⟩ := w
      · exact .removed h hget (congrArg (fun x => [x]) hoffer)
      · dsimp only
        split
        · -- the entry goes back under its id
          have hremoved : (r.pending.remove id).get id = none := by
            rw [Table.get_remove, if_pos rfl]
          refine ⟨fun id' q hq => ?_, ?_⟩
          · dsimp only at hq ⊢
            rw [Table.get_insert] at hq
            split at hq
            · next heq => exact heq ▸ h id p hget
            · exact h id' q (Table.within_remove _ _ id' q hq)
          · simp only [offers, Table.values_insert hremoved, map_cons, append_nil]
            rw [show (p'.sink.stream, p'.frame) = (p.sink.stream, p.frame) from hoffer]
            exact (Table.values_remove hget).map _
        · exact .removed h hget (congrArg (fun x => [x]) hoffer)

theorem Handles.expire (now : Instant) : Handles r [] (r.expire now) := by
  refine ⟨fun id p hget => h id p (Table.within_retain _ _ id p hget), ?_⟩
  have hleft : (r.expire now).2.filterMap offer? =
      (r.pending.values.filter fun p => decide (p.deadline ≤ now)).map fun p =>
        (p.sink.stream, p.frame) := by
    rw [← Table.filterMap_select, map_filterMap]
    simp only [Replies.expire, filterMap_filterMap]
    refine filterMap_congr fun id _ => ?_
    cases r.pending.get id <;> rfl
  have hstay : (r.expire now).1.offers =
      (r.pending.values.filter fun p => !decide (p.deadline ≤ now)).map fun p =>
        (p.sink.stream, p.frame) := by
    simp only [Replies.expire, offers, Table.values_retain, ← decide_not, not_le]
  rw [append_nil, hleft, hstay, ← map_append]
  exact ((filter_append_perm _ _).symm).map _

end

/-- The frames that were put in, in the course of a log. -/
def putIn (log : Log (Replies S) (Op S)) : List (S × Bytes) :=
  log.flatMap fun st => st.input.offer?.toList

/-- The frames whose entry has left, in the course of a log. -/
def takenOut (log : Log (Replies S) (Op S)) : List (S × Bytes) :=
  log.flatMap fun st => ((machine S).out st).filterMap offer?

/-- **Every frame leaves once or waits.**  The frames that were put into the queue in the course of
a run are those whose entry has left and those that wait. -/
theorem Runs.offered {log : Log (Replies S) (Op S)} {r : Replies S} (h : Runs log r) :
    (putIn log).Perm (takenOut log ++ r.offers) := by
  have hstep : ∀ (r : Replies S) (op : Op S), Fresh r →
      Handles r op.offer?.toList ((machine S).step r op) := by
    intro r op hr
    cases op with
    | enqueue stream frame now kernel => exact .enqueue hr stream frame now kernel
    | service id now kernel => exact .service hr id now kernel
    | expire now => exact .expire hr now
  have hfresh : ∀ {log : Log (Replies S) (Op S)} {r : Replies S}, Runs log r → Fresh r := by
    intro log r h
    refine Machine.Run.invariant (M := machine S) (I := fun _ r => Fresh r) ?_ ?_ ?_ h
    · rintro r rfl id p hget
      cases hget
    · rintro _ r _ hr rfl
      exact hr
    · exact fun _ r op hr => (hstep r op hr).fresh
  exact Machine.Run.balance (M := machine S) (I := Fresh) offers (fun st => st.input.offer?.toList)
    (fun st => ((machine S).out st).filterMap offer?) (fun h hidle => hidle ▸ hfresh h)
      (by rintro r rfl; rfl)
    (by rintro r r' rfl; exact .refl _) (fun st hr => (hstep st.before st.input hr).perm) h

end Replies

end Resolvd.Daemon

namespace Resolvd.Service

open Lib Dns Engine Daemon List

variable {s : Service} {w : World} {log : Log Service Input}

/-! ### The queue in the service -/

/-- The calls of the queue for what is given out in a turn, from the `n`th on. -/
def enqueues (frame : Reply → Bytes) (i : Input) : ℕ → List Loop.Seen → List (Replies.Op Stream)
  | _, [] => []
  | n, .daemon (.reply stream reply) :: seen =>
    .enqueue stream (frame reply) (i.clock n) (i.write n) :: enqueues frame i (n + 1) seen
  | n, _ :: seen => enqueues frame i (n + 1) seen

/-- What a turn of the service shows of the loop. -/
def seen (w : World) (st : Step Service Input) : List Loop.Seen :=
  (Loop.machine w.entropy).outs (loopLog w st)

/-- The calls of the queue in a turn of the service. -/
def replyOps (w : World) (s : Service) (i : Input) : List (Replies.Op Stream) :=
  match i.turn with
  | .reply id => [.service id (i.clock 0) (i.write 0)]
  | .timers _ => enqueues (s.frame w i.now) i 0 (seen w ⟨s, i⟩) ++ [.expire i.now]
  | _ => enqueues (s.frame w i.now) i 0 (seen w ⟨s, i⟩)

/-- The steps of the queue in a step of the service. -/
def replyLog (w : World) (st : Step Service Input) : Log (Replies Stream) (Replies.Op Stream) :=
  ((Replies.machine Stream).exec st.before.replies (replyOps w st.before st.input)).1

/-- A write to a native connection. -/
def Event.reply? : Event → Option (ReplyEvent Stream)
  | .reply event => some event
  | _ => none

/-- The turn does to the queue what these calls do. -/
structure Queues (r : Replies Stream) (ops : List (Replies.Op Stream))
    (result : Service × List Event) : Prop where
  replies : result.1.replies = ((Replies.machine Stream).exec r ops).2
  events : (result.2.filterMap Event.reply?).Perm
    ((Replies.machine Stream).outs ((Replies.machine Stream).exec r ops).1)

theorem Queues.nothing {r : Replies Stream} {result : Service × List Event}
    (h : result.1.replies = r) (hevents : result.2.filterMap Event.reply? = []) :
    Queues r [] result :=
  ⟨h, by rw [hevents]; exact .refl _⟩

theorem Queues.append {r : Replies Stream} {ops ops' : List (Replies.Op Stream)} {s' : Service}
    {events events' : List Event} (h : Queues r ops (s, events))
    (h' : Queues s.replies ops' (s', events')) :
    Queues r (ops ++ ops') (s', events ++ events') := by
  have hreplies := h.replies
  dsimp only at hreplies
  rw [hreplies] at h'
  constructor
  · rw [Machine.exec_append]
    exact h'.replies
  · rw [Machine.exec_append, filterMap_append, Machine.outs, flatMap_append]
    exact (h.events.append h'.events).trans perm_append_comm

theorem filterMap_reply (events : List (ReplyEvent Stream)) :
    (events.map Event.reply).filterMap Event.reply? = events := by
  rw [filterMap_map]
  exact filterMap_some

theorem filterMap_stubReply (events : List (ReplyEvent Stream)) :
    (events.map Event.stubReply).filterMap Event.reply? = [] :=
  filterMap_eq_nil_iff.mpr fun e he => by
    obtain ⟨e', -, rfl⟩ := mem_map.mp he
    rfl

theorem filterMap_seen (seen : List Loop.Seen) :
    (seen.map Event.seen).filterMap Event.reply? = [] :=
  filterMap_eq_nil_iff.mpr fun e he => by
    obtain ⟨o, -, rfl⟩ := mem_map.mp he
    rfl

/-- What is given out is put into the queue, if it is a native reply. -/
theorem Queues.emitOne (frame : Reply → Bytes) (i : Input) (n : ℕ) (s : Service) (o : Loop.Seen) :
    Queues s.replies (enqueues frame i n [o]) (s.emitOne frame (i.clock n) (i.write n) o) := by
  cases o with
  | daemon output =>
    cases output with
    | reply stream reply =>
      refine ⟨rfl, ?_⟩
      simp only [Service.emitOne, sendReply, filterMap_reply]
      exact List.Perm.of_eq (append_nil _).symm
    | answer origin a =>
      simp only [Service.emitOne]
      split
      · exact .nothing rfl rfl
      · exact .nothing rfl (filterMap_stubReply _)
      · exact .nothing rfl rfl
    | missed q => exact .nothing rfl rfl
    | unfinished => exact .nothing rfl rfl
  | refusal peer reply => exact .nothing rfl rfl
  | tcpRefusal stream reply => exact .nothing rfl (filterMap_stubReply _)

theorem enqueues_cons (frame : Reply → Bytes) (i : Input) (n : ℕ) (o : Loop.Seen)
    (seen : List Loop.Seen) :
    enqueues frame i n (o :: seen) = enqueues frame i n [o] ++ enqueues frame i (n + 1) seen := by
  cases o with
  | daemon output => cases output <;> rfl
  | refusal peer reply => rfl
  | tcpRefusal stream reply => rfl

theorem Queues.emit (frame : Reply → Bytes) (i : Input) (n : ℕ) (seen : List Loop.Seen)
    (s : Service) : Queues s.replies (enqueues frame i n seen) (s.emit frame i n seen) := by
  induction seen generalizing n s with
  | nil => exact .nothing rfl rfl
  | cons o seen ih =>
    rw [enqueues_cons]
    exact (Queues.emitOne frame i n s o).append (ih (n + 1) _)

theorem Queues.loopTurn (w : World) (s : Service) (i : Input) (turn : Loop.Turn) :
    Queues s.replies (enqueues (s.frame w i.now) i 0 (s.loop.turn ⟨turn, i.now, i.os⟩).2)
      (loopTurn w s i turn) := by
  obtain ⟨hreplies, hevents⟩ :=
    Queues.emit (s.frame w i.now) i 0 (s.loop.turn ⟨turn, i.now, i.os⟩).2
    { s with loop := (s.loop.turn ⟨turn, i.now, i.os⟩).1 }
  refine ⟨hreplies, ?_⟩
  simp only [Service.loopTurn, filterMap_append, filterMap_seen, nil_append]
  exact hevents

/-- A turn of the loop, when something was changed that its replies do not depend on. -/
theorem Queues.loopTurn_of_eq (w : World) {s' : Service} (i : Input) (turn : Loop.Turn)
    (hloop : s'.loop = s.loop) (hnetd : s'.netd = s.netd) (hreplies : s'.replies = s.replies) :
    Queues s.replies (enqueues (s.frame w i.now) i 0 (s.loop.turn ⟨turn, i.now, i.os⟩).2)
      (Service.loopTurn w s' i turn) := by
  have hframe : s'.frame w i.now = s.frame w i.now := by
    funext reply
    rw [frame, frame, hloop, hnetd]
  have h := Queues.loopTurn w s' i turn
  rwa [hframe, hloop, hreplies] at h

section Seen

variable {w : World} {s : Service} {i : Input}

theorem seen_of_one {turn : Loop.Turn} (h : loopTurns w s i = [turn]) :
    seen w ⟨s, i⟩ = (s.loop.turn ⟨turn, i.now, i.os⟩).2 := by
  simp only [seen, loopLog, h]
  exact append_nil _

theorem seen_of_none (h : loopTurns w s i = []) : seen w ⟨s, i⟩ = [] := by
  simp only [seen, loopLog, h]
  rfl

theorem seen_of_snapshots
    (h : ∀ turn ∈ loopTurns w s i, ∃ hostname scopes, turn = .snapshot hostname scopes) :
    seen w ⟨s, i⟩ = [] := by
  unfold seen loopLog
  dsimp only
  generalize s.loop = l
  generalize loopTurns w s i = turns at h
  induction turns generalizing l with
  | nil => rfl
  | cons turn turns ih =>
    obtain ⟨⟨hostname, scopes, rfl⟩, hrest⟩ := forall_mem_cons.mp h
    simp only [map_cons, Machine.exec, Machine.outs, flatMap_append]
    exact append_eq_nil_iff.mpr ⟨ih _ hrest, rfl⟩

theorem Queues.of_one {turn : Loop.Turn} (h : loopTurns w s i = [turn]) :
    Queues s.replies (enqueues (s.frame w i.now) i 0 (seen w ⟨s, i⟩))
      (Service.loopTurn w s i turn) := by
  rw [seen_of_one h]
  exact .loopTurn w s i turn

end Seen

theorem replies_snapshots (w : World) (i : Input) (hostname : Option String)
    (snapshots : List Snapshot) (s : Service) :
    (snapshots.foldl (applySnapshot w i hostname) s).replies = s.replies := by
  refine List.foldlRecOn (motive := fun s' : Service => s'.replies = s.replies) snapshots _ rfl
    fun s' h snapshot _ => ?_
  rw [applySnapshot, (Queues.loopTurn w s' i _).replies]
  exact h

theorem replies_accept (s : Service) (now clock : Instant) (accepts : List (Io Connection)) :
    (s.accept now clock accepts).replies = s.replies := by
  obtain ⟨readers, h⟩ := foldl_acceptOne now (s.loop.daemon.waiters.select fun _ w =>
    w.isNative).length
    (offered (accepts.take ioBatchLimit)) s
  unfold accept
  dsimp only
  split <;> rw [h]

/-- **To the queue, a turn of the service is a number of its own calls.** -/
theorem Queues.turn (w : World) (s : Service) (i : Input) :
    Queues s.replies (replyOps w s i) (turn w s i) := by
  obtain ⟨turn, now, os, clock, write⟩ := i
  cases turn with
  | hangup qid => exact .of_one (i := ⟨.hangup qid, now, os, clock, write⟩) rfl
  | upstream tx ready => exact .of_one (i := ⟨.upstream tx ready, now, os, clock, write⟩) rfl
  | reply id =>
    refine ⟨rfl, ?_⟩
    simp only [Service.turn, filterMap_reply]
    exact List.Perm.of_eq (append_nil _).symm
  | stubReply id => exact .nothing rfl (filterMap_stubReply _)
  | udp datagrams => exact .of_one (i := ⟨.udp datagrams, now, os, clock, write⟩) rfl
  | acceptStub accepts =>
    obtain ⟨hreplies, hevents⟩ :=
      Queues.of_one (w := w) (s := s) (i := ⟨.acceptStub accepts, now, os, clock, write⟩) rfl
    simp only [Service.turn]
    split <;> exact ⟨hreplies, hevents⟩
  | stubClient id attempts =>
    exact .of_one (i := ⟨.stubClient id attempts, now, os, clock, write⟩) rfl
  | accept accepts => exact .nothing (replies_accept s now (clock 0) accepts) rfl
  | client id attempts allowed =>
    simp only [replyOps, Service.turn, client]
    cases hget : s.readers.get id with
    | none =>
      rw [seen_of_none (by simp only [loopTurns, hget])]
      exact .nothing rfl rfl
    | some reader =>
      have hone : loopTurns w s ⟨.client id attempts allowed, now, os, clock, write⟩ =
          [.client id (toProgress (reader.read w.addressText w.debug attempts).1)
            (s.permitted allowed (reader.read w.addressText w.debug attempts).1)] := by
        simp only [loopTurns, hget]
      rw [seen_of_one hone]
      exact Queues.loopTurn_of_eq w ⟨.client id attempts allowed, now, os, clock, write⟩ _
        rfl rfl rfl
  | netd attempts hostname =>
    have hnone : seen w ⟨s, ⟨.netd attempts hostname, now, os, clock, write⟩⟩ = [] := by
      refine seen_of_snapshots fun turn hturn => ?_
      obtain ⟨snapshot, -, rfl⟩ := mem_map.mp hturn
      exact ⟨_, _, rfl⟩
    simp only [replyOps, hnone]
    exact .nothing (replies_snapshots w _ hostname _ _) rfl
  | watch read =>
    simp only [replyOps]
    rcases watch_cases w s (i := ⟨.watch read, now, os, clock, write⟩)
      rfl with ⟨hnone, watch, heq⟩ | ⟨fresh, hone, heq⟩
    · rw [seen_of_none hnone, heq]
      exact .nothing rfl rfl
    · rw [seen_of_one hone, heq]
      exact Queues.loopTurn_of_eq w ⟨.watch read, now, os, clock, write⟩ _ rfl rfl rfl
  | timers connect =>
    have h := Queues.of_one (w := w) (s := s) (i := ⟨.timers connect, now, os, clock, write⟩) rfl
    simp only [replyOps, Service.turn, timers]
    generalize Service.loopTurn w s ⟨.timers connect, now, os, clock, write⟩ .timers = r at h ⊢
    obtain ⟨s', events⟩ := r
    rw [append_assoc]
    refine h.append ⟨rfl, ?_⟩
    simp only [filterMap_append, filterMap_stubReply, filterMap_reply, nil_append]
    exact List.Perm.of_eq (append_nil _).symm

/-- **The queue of replies in a run of the service is in a run of its own.** -/
theorem Runs.replies (h : Runs w log s) : Replies.Runs (log.flatMap (replyLog w)) s.replies := by
  induction h with
  | start h =>
    obtain ⟨root, R, config, hostname, now, connect, watch, -, rfl⟩ := h
    exact .start rfl
  | @step log s s' h hidle i ih =>
    have hturn : ((machine w).step s' i).1.replies =
      ((Replies.machine Stream).exec s'.replies (replyOps w s' i)).2 := (Queues.turn w s' i).replies
    obtain ⟨r, hr, hsame⟩ := ih.exec_of_idle (fun _ => rfl) hidle.replies (replyOps w s' i)
    rw [hturn, show ((Replies.machine Stream).exec s'.replies (replyOps w s' i)).2 = r from hsame]
    exact hr

/-! ### What is put into the queue -/

/-- The frame of a native reply, with its connection. -/
def offerOf (frame : Reply → Bytes) : Loop.Seen → Option (Stream × Bytes)
  | .daemon (.reply stream reply) => some (stream, frame reply)
  | _ => none

theorem offers_enqueues (frame : Reply → Bytes) (i : Input) (n : ℕ) (seen : List Loop.Seen) :
    ((enqueues frame i n seen).flatMap fun op => op.offer?.toList) = seen.filterMap
      (offerOf frame) := by
  induction seen generalizing n with
  | nil => rfl
  | cons o seen ih =>
    rw [enqueues_cons, flatMap_append, ih]
    cases o with
    | daemon output => cases output <;> rfl
    | refusal peer reply => rfl
    | tcpRefusal stream reply => rfl

theorem offers_replyOps (w : World) (s : Service) (i : Input) :
    ((replyOps w s i).flatMap fun op => op.offer?.toList) = (seen w ⟨s, i⟩).filterMap
      (offerOf (s.frame w i.now)) := by
  obtain ⟨turn, now, os, clock, write⟩ := i
  cases turn with
  | reply id => rfl
  | timers connect =>
    simp only [replyOps, flatMap_append, offers_enqueues]
    exact append_nil _
  | _ => exact offers_enqueues _ _ _ _

/-- The replies that a step of the service makes on native connections, as frames. -/
def replied (w : World) (st : Step Service Input) : List (Stream × Bytes) :=
  (seen w st).filterMap (offerOf (st.before.frame w st.input.now))

theorem putIn_replyLog (w : World) (st : Step Service Input) :
    (Replies.putIn (replyLog w st)).Perm (replied w st) := by
  have hinputs : Replies.putIn (replyLog w st) =
      ((replyLog w st).map Step.input).flatMap fun op => op.offer?.toList := by
    rw [Replies.putIn, flatMap_map]
  rw [hinputs, replyLog, Machine.exec_inputs, replied, ← offers_replyOps]
  exact (reverse_perm _).flatMap_right _

theorem putIn_perm (w : World) (log : Log Service Input) :
    (Replies.putIn (log.flatMap (replyLog w))).Perm (log.flatMap (replied w)) := by
  rw [Replies.putIn, flatMap_assoc]
  exact List.Perm.flatMap_left _ fun st _ => putIn_replyLog w st

/-- The connections that get a reply are those that the daemon serves. -/
theorem streams_replied (w : World) (st : Step Service Input) : (replied w st).map Prod.fst =
    natives (served ((Daemon.machine w.entropy).outs ((loopLog w st).map Loop.daemonStep))) := by
  have houts : (Daemon.machine w.entropy).outs ((loopLog w st).map Loop.daemonStep) =
      Loop.outputs (seen w st) := by
    rw [Machine.outs, seen, Machine.outs, Loop.outputs, filterMap_flatMap, flatMap_map]
    exact congrArg (List.flatMap · (loopLog w st)) (funext fun st =>
      (Loop.turn_wake w.entropy st).2.symm)
  rw [houts, replied, natives, served, Loop.outputs, filterMap_filterMap, filterMap_filterMap,
    map_filterMap]
  refine filterMap_congr fun o _ => ?_
  cases o with
  | daemon output => cases output <;> rfl
  | refusal peer reply => rfl
  | tcpRefusal stream reply => rfl

theorem streams_log (w : World) (log : Log Service Input) :
    natives (served ((Daemon.machine w.entropy).outs (daemonLog w log))) =
      (log.flatMap (replied w)).map Prod.fst := by
  rw [map_flatMap, daemonLog, map_flatMap, Machine.outs, flatMap_assoc, served, natives,
    filterMap_flatMap, filterMap_flatMap]
  exact congrArg (List.flatMap · log) (funext fun st => (streams_replied w st).symm)

/-! ### Where a connection is -/

/-- The native connections the service holds: those it reads from, those that wait, and those it
writes to. -/
def connections (s : Service) : List Stream :=
  s.loop.daemon.reading ++ natives s.loop.daemon.waiting ++ s.replies.offers.map Prod.fst

/-- The native connections that were taken in, in the course of a log. -/
def accepted (w : World) (log : Log Service Input) : List Stream := takenIn (daemonLog w log)

/-- The native connections that were closed, in the course of a log: before they had sent their
request, while they waited, and when nothing more was to be written. -/
def closed (w : World) (log : Log Service Input) : List Stream :=
  shutOut (daemonLog w log) ++ natives (left (daemonLog w log)) ++
    (Replies.takenOut (log.flatMap (replyLog w))).map Prod.fst

theorem Runs.connections_perm (h : Runs w log s) :
    (accepted w log).Perm (closed w log ++ s.connections) := by
  obtain ⟨d, hd, hr⟩ := h.daemon
  have hreading : s.loop.daemon.reading.Perm d.reading := hr.clients.values_perm.map _
  have hwaiting : (natives s.loop.daemon.waiting).Perm (natives d.waiting) :=
    hr.waiters.values_perm.filterMap _
  have hserved : (natives (served ((Daemon.machine w.entropy).outs (daemonLog w log)))).Perm
      ((Replies.takenOut (log.flatMap (replyLog w))).map Prod.fst ++
        s.replies.offers.map Prod.fst) := by
    rw [streams_log, ← map_append]
    exact ((putIn_perm w log).symm.trans (Replies.Runs.offered h.replies)).map Prod.fst
  classical
  refine hd.accounted.trans (perm_iff_count.mpr fun c => ?_)
  have h₁ := hreading.count_eq c
  have h₂ := hwaiting.count_eq c
  have h₃ := hserved.count_eq c
  simp only [closed, connections, count_append] at h₁ h₂ h₃ ⊢
  omega

/-- **No connection is lost, and none is in two places.**  In every run of the service, the native
connections that were taken in are those that were closed and those that are being read from, wait,
or are being written to, each as often as it was taken in.  When no connection is taken in twice,
each is in exactly one place. -/
theorem Runs.connections_conserved {w : World} {log : Log Service Input} {s : Service}
    (h : Runs w log s) :
    (accepted w log).Perm (closed w log ++ s.connections) ∧
    ((accepted w log).Nodup → s.connections.Nodup ∧ (closed w log).Nodup ∧
      ∀ c ∈ s.connections, c ∉ closed w log) := by
  refine ⟨h.connections_perm, fun honce => ?_⟩
  obtain ⟨hclosed, hheld, hapart⟩ := nodup_append'.mp (h.connections_perm.nodup honce)
  exact ⟨hheld, hclosed, fun c hc hc' => hapart hc' hc⟩

/-- Before the client of the small run has its reply it is held, and then it is closed. -/
theorem connections_conserved_flushed :
    (ran stillWorld (flushed.take 2)).2.connections = [40] ∧
      closed stillWorld (ran stillWorld (flushed.take 2)).1 = [] ∧
      (accepted stillWorld (ran stillWorld (flushed.take 2)).1).Perm [40] ∧
      (ran stillWorld flushed).2.connections = [] ∧
      (accepted stillWorld (ran stillWorld flushed).1).Perm
        (closed stillWorld (ran stillWorld flushed).1) := by
  have hheld : (ran stillWorld (flushed.take 2)).2.connections = [40] := by rfl
  have hopen : closed stillWorld (ran stillWorld (flushed.take 2)).1 = [] := by rfl
  have hempty : (ran stillWorld flushed).2.connections = [] := by rfl
  have h := (runs_ran stillWorld (flushed.take 2)).connections_conserved.1
  have h' := (runs_ran stillWorld flushed).connections_conserved.1
  rw [hheld, hopen] at h
  rw [hempty, append_nil] at h'
  exact ⟨hheld, hopen, h, hempty, h'⟩

/-! ### What a client gets -/

theorem responseFrame_ne_nil (T : Core.AddressText) (reply : Core.Reply) :
    responseFrame T reply ≠ [] := by
  intro h
  have hlen := congrArg List.length h
  rw [responseFrame, length_append, toLe, length_reverse, length_toBe] at hlen
  simp at hlen

theorem replyLog_frames {rst : Step (Replies Stream) (Replies.Op Stream)}
    (hrst : rst ∈ log.flatMap (replyLog w)) {stream : Stream} {frame : Bytes} {now : Instant}
    {kernel : Io ℕ} (hop : rst.input = .enqueue stream frame now kernel) :
    (stream, frame) ∈ log.flatMap (replied w) := by
  refine (putIn_perm w log).subset (mem_flatMap.mpr ⟨rst, hrst, ?_⟩)
  rw [hop]
  exact mem_singleton_self _

theorem mem_replied {stream : Stream} {frame : Bytes}
    (h : (stream, frame) ∈ log.flatMap (replied w)) :
    ∃ st ∈ log, ∃ reply, .daemon (.reply stream reply) ∈ seen w st ∧
      frame = st.before.frame w st.input.now reply := by
  obtain ⟨st, hst, hmem⟩ := mem_flatMap.mp h
  obtain ⟨o, ho, hoffer⟩ := mem_filterMap.mp hmem
  cases o with
  | daemon output =>
    cases output with
    | reply stream' reply =>
      cases hoffer
      exact ⟨st, hst, reply, ho, rfl⟩
    | _ => cases hoffer
  | refusal peer reply => cases hoffer
  | tcpRefusal stream reply => cases hoffer

theorem Runs.good (h : Runs w log s) : Replies.Good (log.flatMap (replyLog w)) s.replies := by
  refine Replies.Runs.good h.replies fun rst hrst stream frame now kernel hop => ?_
  obtain ⟨st, -, reply, -, rfl⟩ := mem_replied (replyLog_frames hrst hop)
  exact responseFrame_ne_nil _ _

theorem queued_replied {p : Pending Stream} (h : Replies.Queued (log.flatMap (replyLog w)) p) :
    (p.sink.stream, p.frame) ∈ log.flatMap (replied w) := by
  obtain ⟨rst, hrst, now, kernel, hop, -⟩ := h
  exact replyLog_frames hrst hop

/-- A write to a native connection is one of the queue. -/
theorem event_of_out {st : Step Service Input} (hst : st ∈ log)
    {event : ReplyEvent Stream} (he : .reply event ∈ (machine w).out st) :
    ∃ rst ∈ log.flatMap (replyLog w), event ∈ (Replies.machine Stream).out rst := by
  have hmem : event ∈ ((machine w).out st).filterMap Event.reply? := mem_filterMap.mpr ⟨_, he, rfl⟩
  obtain ⟨rst, hrst, hout⟩ := mem_flatMap.mp ((Queues.turn w st.before st.input).events.subset hmem)
  exact ⟨rst, mem_flatMap.mpr ⟨st, hst, hrst⟩, hout⟩

/-- On no connection two replies are made, if none is taken in twice. -/
theorem Runs.replied_nodup (h : Runs w log s)
    (honce : (accepted w log).Nodup) : ((log.flatMap (replied w)).map Prod.fst).Nodup := by
  have hsub : ((Replies.takenOut (log.flatMap (replyLog w))).map Prod.fst ++
      s.replies.offers.map Prod.fst).Sublist
      (closed w log ++ s.connections) :=
    (sublist_append_right _ _).append (sublist_append_right _ _)
  have hperm := ((putIn_perm w log).symm.trans (Replies.Runs.offered h.replies)).map Prod.fst
  rw [map_append] at hperm
  exact hperm.symm.nodup (hsub.nodup (h.connections_perm.nodup honce))

/-- The octets are the frame of the reply that was made on the connection, and whoever reads them
reads this reply. -/
def Conveys (w : World) (log : Log Service Input) (stream : Stream) (octets : Bytes) : Prop :=
  ∃ made ∈ log, ∃ reply, .daemon (.reply stream reply) ∈ seen w made ∧
    let sent := toReply w.addressText w.lossy made.before.loop.daemon.engine
      made.before.netd.stream.isSome
      made.input.now reply
    octets = responseFrame w.addressText sent ∧
    (CountsBelow sent → ∃ payload, Core.nativeFraming.split octets = some (payload, []) ∧
      Core.Reply.decode w.addressText payload = .ok (sentReply w.addressText sent))

theorem conveys_of_queued {p : Pending Stream}
    (h : Replies.Queued (log.flatMap (replyLog w)) p) : Conveys w log p.sink.stream p.frame := by
  obtain ⟨st, hst, reply, hseen, hframe⟩ := mem_replied (queued_replied h)
  refine ⟨st, hst, reply, hseen, hframe, fun hcounts =>
    ⟨_, ?_, (decode_responseFrame w.addressText hcounts).2⟩⟩
  rw [hframe]
  exact (decode_responseFrame w.addressText hcounts).1

/-- **What a client gets.**  In every run of the service in which no connection is taken in twice,
one reply at most is made on a connection, and the queue holds it at most once.  What was written to
the connection is the front of the frame of this reply; all of it exactly if the service is done
with the connection and reports no failure; and a client that has read all of it has read the reply,
or that the reply was too large. -/
theorem Runs.delivered {w : World} {log : Log Service Input} {s : Service} (h : Runs w log s)
    (honce : (accepted w log).Nodup) :
    ((log.flatMap (replied w)).map Prod.fst).Nodup ∧ (s.replies.offers.map Prod.fst).Nodup ∧
    (∀ id p, s.replies.pending.get id = some p →
      Conveys w log p.sink.stream p.frame ∧ p.sink.accepted <+: p.frame ∧
        p.sink.accepted ≠ p.frame) ∧
    ∀ st ∈ log, ∀ p result, .reply (.left p result) ∈ (machine w).out st →
      Conveys w log p.sink.stream p.frame ∧ p.sink.accepted <+: p.frame ∧
        (p.sink.accepted = p.frame ↔ result = .ok ()) := by
  have hheld : s.connections.Nodup := (nodup_append'.mp (h.connections_perm.nodup honce)).2.1
  refine ⟨h.replied_nodup honce, (nodup_append'.mp hheld).2.1, fun id p hget => ?_,
    fun st hst p result hleft => ?_⟩
  · obtain ⟨hqueued, horder, hsent, -⟩ := h.good.entries id p hget
    exact ⟨conveys_of_queued hqueued, horder.front, fun heq => hsent.ne (horder.whole_iff.mp heq)⟩
  · obtain ⟨rst, hrst, hout⟩ := event_of_out hst hleft
    obtain ⟨hqueued, horder, hdone⟩ := h.good.events rst hrst _ hout
    exact ⟨conveys_of_queued hqueued, horder.front, horder.whole_iff.trans hdone⟩

/-- The client of the small run gets its reply. -/
theorem delivered_flushed :
    accepted stillWorld (ran stillWorld flushed).1 = [40] ∧
    ∃ st ∈ (ran stillWorld flushed).1,
      ∃ p result, .reply (.left p result) ∈ (machine stillWorld).out st ∧
      p.sink.stream = 40 ∧ p.frame = [5, 0, 0, 0, 129, 162, 111, 107, 195] ∧
      Conveys stillWorld (ran stillWorld flushed).1 p.sink.stream p.frame ∧
      (p.sink.accepted = p.frame ↔ result = .ok ()) := by
  have hone : accepted stillWorld (ran stillWorld flushed).1 = [40] := by rfl
  have hleft : (((machine stillWorld).outs (ran stillWorld flushed).1).filterMap
      Event.reply?).filterMap Replies.offer? =
      [(40, [5, 0, 0, 0, 129, 162, 111, 107, 195])] := by rfl
  obtain ⟨event, hevent, hoffer⟩ := mem_filterMap.mp (hleft ▸ mem_singleton_self _)
  obtain ⟨e, he, hreply⟩ := mem_filterMap.mp hevent
  obtain ⟨st, hst, hout⟩ := mem_flatMap.mp he
  cases e with
  | reply event' =>
    cases hreply
    cases event with
    | left p result =>
      obtain ⟨hstream, hframe⟩ := Prod.mk.inj (Option.some.inj hoffer)
      obtain ⟨-, -, -, hevents⟩ := (runs_ran stillWorld flushed).delivered (by rw [hone]; decide)
      obtain ⟨hconveys, -, hdone⟩ := hevents st hst p result hout
      exact ⟨hone, st, hst, p, result, hout, hstream, hframe, hconveys, hdone⟩
    | tried p now => cases hoffer
  | seen o => cases hreply
  | datagram peer bytes => cases hreply
  | stubReply event' => cases hreply

end Resolvd.Service
