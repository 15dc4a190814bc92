import Resolvd.Service.Delivery

/-!
# Who may ask

The right to ask is checked once, when a request has been read from a native connection, against the
control object as it is configured at this moment; the answer may come much later.
`Runs.authorized` connects the two ends: behind every frame that is made for a native connection
stands the turn in which the request was read from it, and unless the frame says that access is
denied or that the request cannot be read, the right that this request needs was granted in this
turn.
-/

namespace Resolvd.Service

open Lib Dns Engine Daemon List

variable {log : Log Service Input}

/-- In this turn of the service, this is read from the connection; whether it is permitted is asked
of the control object of this turn. -/
def Reads (w : World) (st : Step Service Input) (stream : Stream) (progress : Core.Progress)
    (permitted : Bool) : Prop :=
  ∃ id attempts allowed reader client, st.input.turn = .client id attempts allowed ∧
    st.before.readers.get id = some reader ∧ st.before.loop.daemon.clients.get id = some client ∧
    client.stream = stream ∧ (reader.read w.addressText w.debug attempts).1 = progress ∧
    st.before.permitted allowed progress = permitted

/-- Why a reply is made on a connection, in the course of a log, with the steps `elog` of the
engine. -/
inductive Granted (w : World) (log : Log Service Input) (elog : EngineLog) (stream : Stream) :
    Reply → Prop
  /-- the request was permitted, and the engine has completed its question as it was asked for -/
  | completed {st : Step Service Input} {r : Core.Request} {q : Qid} {est : Step Engine Op}
      {c : Completion} {reply : Reply} (hst : st ∈ log)
      (hreads : Reads w st stream (.request r) true) (hest : est ∈ elog)
      (hop : (toRequest r).op st.input.now q = some est.input) (hdone : .done q c ∈ emitted elog)
      (hmeets : Meets elog est.input c)
      (hreply : (Waiter.native stream).told c = some (.reply stream reply)) :
      Granted w log elog stream reply
  /-- the request was denied, or needs no engine and was permitted -/
  | direct {st : Step Service Input} {r : Core.Request} {permitted : Bool} {reply : Reply}
      (hst : st ∈ log) (hreads : Reads w st stream (.request r) permitted)
      (h : (toRequest r).direct permitted = some reply) :
      Granted w log elog stream reply
  /-- the request could not be read -/
  | unread {st : Step Service Input} {text : String} {permitted : Bool} (hst : st ∈ log)
      (hreads : Reads w st stream (.reply (.error text)) permitted) :
      Granted w log elog stream (.error text)

/-- What the daemon is given for a native connection was read in a turn of the service. -/
theorem reads_of_wake {w : World} {dst : Step Daemon Daemon.Input} (hdst : dst ∈ daemonLog w log)
    {id : ℕ} {progress : Progress} {permitted : Bool}
    (hwake : dst.input.wake = .client id progress permitted) {client : Daemon.Client}
    (hget : dst.before.clients.get id = some client) :
    ∃ st ∈ log, ∃ p, Reads w st client.stream p permitted ∧ dst.input.now = st.input.now ∧
      progress = toProgress p := by
  obtain ⟨lst, hlst, rfl⟩ := mem_map.mp hdst
  obtain ⟨st, hst, hmem⟩ := mem_flatMap.mp hlst
  -- only the turn of the loop for a native connection wakes the daemon so
  have hturn : lst.input.turn = .client id progress permitted := by
    simp only [Loop.daemonStep, Loop.wake] at hwake
    split at hwake
    all_goals first | (cases hwake; assumption) | cases hwake | (split at hwake <;> cases hwake)
  refine ⟨st, hst, ?_⟩
  unfold loopLog at hmem
  obtain ⟨turn, hin, heq⟩ := mem_map.mp (Machine.exec_input hmem)
  rw [← heq] at hturn
  obtain rfl : turn = .client id progress permitted := hturn
  -- and only a turn of the service that reads from the connection has such a turn of the loop
  cases hi : st.input.turn with
  | client id' attempts allowed =>
    simp only [loopTurns, hi] at hin hmem
    cases hreader : st.before.readers.get id' with
    | none =>
      rw [hreader] at hin
      cases hin
    | some reader =>
      rw [hreader] at hin hmem
      cases mem_singleton.mp hin
      obtain rfl := mem_singleton.mp hmem
      exact ⟨_, ⟨id, attempts, allowed, reader, client, hi, hreader, hget, rfl, rfl, rfl⟩, rfl, rfl⟩
  | netd attempts hostname =>
    simp only [loopTurns, hi] at hin
    obtain ⟨snapshot, -, hsnapshot⟩ := mem_map.mp hin
    cases hsnapshot
  | watch read =>
    rcases watch_cases w st.before hi with ⟨hnone, -⟩ | ⟨fresh, hone, -⟩
    · rw [hnone] at hin
      cases hin
    · rw [hone] at hin
      cases mem_singleton.mp hin
  | _ => simp [loopTurns, hi] at hin

theorem toProgress_request {p : Core.Progress} {request : Request}
    (h : .request request = toProgress p) : ∃ r, p = .request r ∧ request = toRequest r := by
  cases p with
  | request r => exact ⟨r, rfl, Progress.request.inj h⟩
  | reply reply => cases reply <;> cases h
  | _ => cases h

/-- What the service gives out of the daemon, the daemon has given out. -/
theorem mem_seen {w : World} {st : Step Service Input} (hst : st ∈ log) {o : Output}
    (ho : .daemon o ∈ seen w st) :
    ∃ dst ∈ daemonLog w log, o ∈ (Daemon.machine w.entropy).out dst := by
  obtain ⟨lst, hlst, hout⟩ := mem_flatMap.mp ho
  refine ⟨Loop.daemonStep lst, mem_map_of_mem (mem_flatMap.mpr ⟨st, hst, hlst⟩), ?_⟩
  rw [← (Loop.turn_wake w.entropy lst).2]
  exact mem_filterMap.mpr ⟨_, hout, rfl⟩

/-- **Nobody is answered who may not ask.**  In every run of the service, however its configuration
changes meanwhile: every frame made for a native connection is that of a reply to what was read from
this very connection.  It says that access is denied, or that the request cannot be read, or the
right that the request needs was granted by the control object of the turn in which it was read; and
then it is what the service's engine, in the operations of this run, has completed the question of
this request with, or the request needs no engine. -/
theorem Runs.authorized {w : World} {log : Log Service Input} {s : Service} (h : Runs w log s) :
    ∃ elog, EngineLogOf w.entropy (daemonLog w log) s.loop.daemon elog ∧
      Reached w.entropy elog s.loop.daemon.engine ∧ (asked elog).Nodup ∧
      ∀ stream frame, (stream, frame) ∈ log.flatMap (replied w) →
        ∃ made ∈ log, ∃ reply, .daemon (.reply stream reply) ∈ seen w made ∧
          frame = made.before.frame w made.input.now reply ∧ Granted w log elog stream reply := by
  obtain ⟨d, hd, hr⟩ := h.daemon
  obtain ⟨elog, hof, hm, hsaid⟩ := hd.matched
  obtain ⟨e, he, -⟩ := hm.reached
  refine ⟨elog, hof.reorder hr, hm.reached.reorder hr.engine, hm.distinct,
    fun stream frame hmem => ?_⟩
  obtain ⟨made, hmade, reply, hseen, hframe⟩ := mem_replied hmem
  obtain ⟨dst, hdst, hout⟩ := mem_seen hmade hseen
  refine ⟨made, hmade, reply, hseen, hframe, ?_⟩
  cases hsaid dst hdst _ hout (hd.clean hdst _ hout) with
  | @completed dst' est q waiter c _ hst hest hasks hdone ho =>
    have hmeets := he.meets hm.distinct hdone hest hasks.asks
    cases waiter with
    | stub origin => cases c <;> cases ho
    | native stream' =>
      obtain rfl : stream' = stream := by cases c <;> cases ho <;> rfl
      generalize hinput : est.input = op at hasks
      cases hasks with
      | native hget hwake hop =>
        obtain ⟨st, hst, p, hreads, hnow, hp⟩ := reads_of_wake hst hwake hget
        obtain ⟨r, rfl, rfl⟩ := toProgress_request hp
        rw [hnow, ← hinput] at hop
        exact .completed hst hreads hest hop hdone hmeets ho
  | direct hst hget hwake hdirect =>
    obtain ⟨st, hst, p, hreads, -, hp⟩ := reads_of_wake hst hwake hget
    obtain ⟨r, rfl, rfl⟩ := toProgress_request hp
    exact .direct hst hreads hdirect
  | unread hst hget hwake =>
    obtain ⟨st, hst, p, hreads, -, hp⟩ := reads_of_wake hst hwake hget
    cases p with
    | reply answer =>
      cases answer with
      | error text =>
        cases hp
        exact .unread hst hreads
      | _ => cases hp
    | _ => cases hp

/-- One client asks for a flush and another one for a name that needs no server; both may. -/
def flushAndResolve : List Pass :=
  let flush := Core.Request.encode Core.octetText .flush
  let resolve := Core.Request.encode Core.octetText (.resolve "localhost" Rtype.a false)
  [{ stillPass with
      accepts := [.ok ⟨40, true, toLe 4 flush.length ++ flush⟩,
        .ok ⟨41, true, toLe 4 resolve.length ++ resolve⟩] },
    { stillPass with
      clients := [(1, [.ready 99, .ready 99], fun _ _ => true),
        (2, [.ready 99, .ready 99], fun _ _ => true)] }]

/-- The first is told that it is done, and the second gets the answer with which the engine
completes its question. -/
theorem authorized_flushAndResolve :
    ∃ elog, EngineLogOf zeros (daemonLog stillWorld (ran stillWorld flushAndResolve).1)
        (ran stillWorld flushAndResolve).2.loop.daemon elog ∧
      Granted stillWorld (ran stillWorld flushAndResolve).1 elog 40 .ok ∧
      Granted stillWorld (ran stillWorld flushAndResolve).1 elog 41
        (.answer (addressAnswer localhost Rtype.a [.v4 IpAddr.localhost4] .synthetic)) := by
  obtain ⟨elog, hof, -, -, hframes⟩ := (runs_ran stillWorld flushAndResolve).authorized
  have hall : (ran stillWorld flushAndResolve).1.flatMap (seen stillWorld) = [
      .daemon (.reply 41 (.answer (addressAnswer localhost Rtype.a [.v4 IpAddr.localhost4]
        .synthetic))),
      .daemon (.reply 40 .ok)] := by
    decide +kernel
  generalize (ran stillWorld flushAndResolve).1 = log at hof hframes hall ⊢
  generalize addressAnswer localhost Rtype.a _ _ = a at hall ⊢
  -- each of the two connections gets one reply
  have hsaid : ∀ stream reply, .daemon (.reply stream reply) ∈ log.flatMap (seen stillWorld) →
      (∀ reply', .daemon (.reply stream reply') ∈ log.flatMap (seen stillWorld) → reply' = reply) →
      Granted stillWorld log elog stream reply := by
    intro stream reply hmem hone
    obtain ⟨st, hst, ho⟩ := mem_flatMap.mp hmem
    obtain ⟨made, hmade, reply', hseen, -, hgranted⟩ := hframes stream _
      (mem_flatMap.mpr ⟨st, hst, mem_filterMap.mpr ⟨_, ho, rfl⟩⟩)
    exact hone reply' (mem_flatMap.mpr ⟨made, hmade, hseen⟩) ▸ hgranted
  rw [hall] at hsaid
  exact ⟨elog, hof, hsaid 40 .ok (by simp) (by simp), hsaid 41 (.answer a) (by simp) (by simp)⟩

end Resolvd.Service
