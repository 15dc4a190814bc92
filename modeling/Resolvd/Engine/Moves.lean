import Resolvd.Engine.Effects

/-!
# What an operation can do

An operation of the engine is a sequence of small changes: a task begins, its transaction is closed,
its next candidate is chosen, a query is launched, it is settled, and so on.  `Move` lists these
changes with everything that is known when they happen, and `apply_path` says that every operation,
in every state, is a sequence of them.  Invariants are then proved once per change and never look
into the operations again.

In the middle of an operation some tasks have no transaction: those that began or whose transaction
was closed, and that are neither settled nor under way again.  They are `loose` in the state `Mid`
of such a moment; when the operation is over none is left.
-/

namespace Resolvd.Engine

open Lib Dns Relation

variable {op : Op} {qid : Qid} {name : Name} {rtype : UInt16} {noCache : Bool} {st : Step Engine Op}
    {tx : Txid} {x : Tx} {t : Task} {M : Message}

/-! ### What an operation asks and brings -/

/-- The time an operation is given. -/
def Op.now : Op → Instant
  | .resolve _ _ _ _ now | .resolveQuestion _ _ now | .lookup _ _ _ now | .reverse _ _
    now | .received _ _ now
  | .failed _ now | .localFailed _ now | .tick now => now
  | _ => 0

/-- The operation answers at once, since the text it was given is not a name. -/
inductive Op.Refused : Op → Qid → Completion → Prop
  | resolve {qid : Qid} {text : Bytes} {rtype : UInt16} {noCache : Bool} {now : Instant}
      {err : Error} (h : Name.parse text = .error err) :
      Refused (.resolve qid text rtype noCache now) qid (.answer { outcome := .notFound })
  | lookup {qid : Qid} {text : Bytes} {family : Family} {now : Instant} {err : Error}
      (h : Name.parse text = .error err) :
      Refused (.lookup qid text family now) qid (.addresses { outcome := .notFound })

/-- The operation asks for the records of a name. -/
inductive Op.Resolves : Op → Qid → Name → UInt16 → Bool → Prop
  | resolve {qid : Qid} {text : Bytes} {name : Name} {rtype : UInt16} {noCache : Bool}
      {now : Instant} (h : Name.parse text = .ok name) :
      Resolves (.resolve qid text rtype noCache now) qid name rtype noCache
  | resolveQuestion {qid : Qid} {question : Question} {now : Instant} :
      Resolves (.resolveQuestion qid question now) qid question.name question.rtype false
  | reverse {qid : Qid} {address : IpAddr} {now : Instant} :
      Resolves (.reverse qid address now) qid (Name.reverseOf address) Rtype.ptr false

/-- The operation asks for the addresses of a name. -/
inductive Op.LooksUp : Op → Qid → Name → Family → Prop
  | lookup {qid : Qid} {text : Bytes} {name : Name} {family : Family} {now : Instant}
      (h : Name.parse text = .ok name) : LooksUp (.lookup qid text family now) qid name family

theorem Op.Refused.asks {completion : Completion} (h : op.Refused qid completion) :
    op.asks = some qid := by
  cases h <;> rfl

theorem Op.Refused.answer {a : Answer} (h : op.Refused qid (.answer a)) :
    a = { outcome := .notFound } := by
  cases h; rfl

theorem Op.Refused.addresses {a : Addresses} (h : op.Refused qid (.addresses a)) :
    a = { outcome := .notFound } := by
  cases h; rfl

section

variable (h : op.Resolves qid name rtype noCache)
include h

theorem Op.Resolves.asks : op.asks = some qid := by
  cases h <;> rfl

theorem Op.Resolves.apply_eq (e : Engine) :
    apply e op = e.countQuery.resolveName qid name rtype noCache op.now := by
  cases h with
  | resolve hparse => simp only [apply, Engine.resolve, hparse, Op.now]
  | resolveQuestion => rfl
  | reverse => simp only [apply, Engine.reverse, Engine.resolve, Name.parse_display_reverse, Op.now]

/-- An operation asks for the records of one name only. -/
theorem Op.Resolves.unique {qid' : Qid} {name' : Name} {rtype' : UInt16} {noCache' : Bool}
    (h' : op.Resolves qid' name' rtype' noCache') : name = name' ∧ rtype = rtype' := by
  cases h with
  | resolve hparse =>
    cases h' with
    | resolve hparse' => exact ⟨Except.ok.inj (hparse.symm.trans hparse'), rfl⟩
  | resolveQuestion => cases h'; exact ⟨rfl, rfl⟩
  | reverse => cases h'; exact ⟨rfl, rfl⟩

end

theorem Op.LooksUp.asks {family : Family} (h : op.LooksUp qid name family) :
    op.asks = some qid := by
  cases h; rfl

theorem Op.not_config_of_asks (h : op.asks = some qid) : op.isConfig = false := by
  cases op <;> first | rfl | cases h

/-- The operation brings a reply `M` that matches the transaction `tx`, which is the task `t`'s. -/
structure Reply (st : Step Engine Op) (tx : Txid) (x : Tx) (t : Task) (M : Message) : Prop where
  input : ∃ bytes now, st.input = .received tx bytes now ∧
    st.before.matchingResponse tx bytes = some M
  live : st.before.txs.get tx = some x
  task : st.before.tasks.get x.task = some t

/-- The reply is to be asked for again over TCP. -/
def Tx.truncated (x : Tx) (M : Message) : Bool := M.header.truncated && !x.tcp

/-- The reply answers the question: NOERROR or NXDOMAIN, and not truncated. -/
structure Answers (st : Step Engine Op) (tx : Txid) (x : Tx) (t : Task) (M : Message) : Prop
    extends Reply st tx x t M where
  whole : x.truncated M = false
  code : isAnswer M.rcode = true

theorem Answers.apply_eq (h : Answers st tx x t M) :
    ∃ now, apply st.before st.input = accept ((st.before.closeTx tx x).count fun c =>
      { c with upstreamAnswered := c.upstreamAnswered + 1 }) x.task t M M.rcode x.server now := by
  obtain ⟨bytes, now, hop, hM⟩ := h.input
  have ht : { st.before with txs := st.before.txs.remove tx }.tasks.get x.task = some t := h.task
  have hwhole := h.whole
  simp only [Tx.truncated] at hwhole
  refine ⟨now, ?_⟩
  simp only [hop, apply, received, h.live, hM, ht, handleReply, hwhole, h.code, Bool.false_eq_true,
    if_false, if_true]
  rfl

/-- Its task, once the transaction is closed and the answer stored. -/
theorem Answers.get_task (h : Answers st tx x t M) (f : Counters → Counters) (now : Instant) :
    (((st.before.closeTx tx x).count f).keepAnswer t M M.rcode x.server now).tasks.get x.task =
      some { t with tx := none } := by
  rw [keepAnswer_tasks]
  exact get_closeTx_self h.task

/-- **A reply with response code 0 completes a question** of its own. -/
theorem Answers.done (h : Answers st tx x t M)
    {q : Qid} (ho : t.owner = .resolve q) (hcode : M.rcode = 0) :
    ∃ e : Engine, actions st = [.done q (.answer (e.replyAnswer M t M.rcode x.server))] := by
  obtain ⟨now, heq⟩ := h.apply_eq
  have hget := h.get_task (fun c => { c with upstreamAnswered := c.upstreamAnswered + 1 }) now
  set e₁ := (st.before.closeTx tx x).count fun c =>
    { c with upstreamAnswered := c.upstreamAnswered + 1 }
  have hout : outcomeOf M.rcode = .found := by rw [hcode]; rfl
  have hfound : ¬ (outcomeOf M.rcode = .notFound ∧ t.candidates ≠ []) := by simp [hout]
  refine ⟨e₁.keepAnswer t M M.rcode x.server now, ?_⟩
  simp only [actions, heq, accept, if_neg hfound, settle_eq hget rfl, settled, ho]

/-- The operation ends the transaction `tx`, which was live when it began; an expired one is
cancelled. -/
inductive Closes (st : Step Engine Op) (tx : Txid) : List Action → Prop
  | received {x : Tx} {M : Message} {bytes : Bytes} {now : Instant}
      (h : st.input = .received tx bytes now) (hx : st.before.txs.get tx = some x)
      (hM : st.before.matchingResponse tx bytes = some M) :
      Closes st tx []
  | failed {x : Tx} {now : Instant} (h : st.input = .failed tx now)
      (hx : st.before.txs.get tx = some x) :
      Closes st tx []
  | localFailed {x : Tx} {now : Instant} (h : st.input = .localFailed tx now)
      (hx : st.before.txs.get tx = some x) :
      Closes st tx []
  | expired {x : Tx} {now : Instant} (h : st.input = .tick now) (hx : st.before.txs.get tx = some x)
      (hd : x.deadline ≤ now) : Closes st tx [.cancel tx]

theorem Closes.asks {acts : List Action} (h : Closes st tx acts) : st.input.asks = none := by
  cases h with
  | received h hx hM => rw [h]; rfl
  | failed h hx => rw [h]; rfl
  | localFailed h hx => rw [h]; rfl
  | expired h hx hd => rw [h]; rfl

theorem Closes.reply {acts : List Action} {tx' : Txid} (h : Closes st tx' acts)
    (hM : Reply st tx x t M) : tx' = tx := by
  obtain ⟨bytes, now, hop, -⟩ := hM.input
  cases h with
  | received hop' => exact (Op.received.inj (hop'.symm.trans hop)).1
  | failed hop' => cases hop'.symm.trans hop
  | localFailed hop' => cases hop'.symm.trans hop
  | expired hop' => cases hop'.symm.trans hop

theorem Reply.unique {tx' : Txid} {x' : Tx} {t' : Task} {M' : Message}
    (h : Reply st tx x t M) (h' : Reply st tx' x' t' M') : tx = tx' ∧ x = x' ∧ t = t' ∧ M = M' := by
  obtain ⟨bytes, now, hop, hM⟩ := h.input
  obtain ⟨bytes', now', hop', hM'⟩ := h'.input
  rw [hop] at hop'
  obtain ⟨rfl, rfl, rfl⟩ := Op.received.inj hop'
  obtain rfl := Option.mem_unique h.live h'.live
  obtain rfl := Option.mem_unique h.task h'.task
  exact ⟨rfl, rfl, rfl, Option.mem_unique hM hM'⟩

theorem Reply.asks (h : Reply st tx x t M) : st.input.asks = none := by
  obtain ⟨bytes, now, hop, -⟩ := h.input
  rw [hop]
  rfl

/-! ### Why a task moves on -/

/-- The operation makes a task look for its next candidate: it asks a question, or it brings an
NXDOMAIN. -/
inductive Searches (st : Step Engine Op) : Prop
  | asked {q : Qid} (h : st.input.asks = some q)
  | answered {tx : Txid} {x : Tx} {t : Task} {M : Message} (h : Answers st tx x t M)
      (hout : outcomeOf M.rcode = .notFound)

/-- What shows that the candidate `c` of the task `id` does not exist. -/
inductive Absent (st : Step Engine Op) (e : Engine) (id : TaskId) (t : Task) (c : Name) : Prop
  | cached {s : String} {x : Entry} (hscope : t.scope = some s) (hroute : e.route c = some s)
      (hx : e.cache.entries.get (CacheKey.new c t.rtype s) = some x)
      (hlive : st.input.now < x.expires) (hout : x.outcome = .notFound)
  | replied {tx : Txid} {x : Tx} {t₀ : Task} {M : Message} (h : Answers st tx x t₀ M)
      (hid : x.task = id) (hc : t₀.candidate = c) (hout : outcomeOf M.rcode = .notFound)

/-- Why a task is settled, and with which answer. -/
inductive Why (st : Step Engine Op) (e : Engine) (id : TaskId) (t : Task) : Answer → Prop
  | synthetic {a : Answer} {q : Qid} (hop : st.input.asks = some q) (hnew : t.current = none)
      (h : e.synthetic t.original t.rtype = some a) : Why st e id t a
  | noCandidates {q : Qid} (hop : st.input.asks = some q) (hnew : t.current = none)
      (h : e.candidates t.original = []) : Why st e id t { outcome := .notFound }
  | unroutable {c : Name} {rest : List Name} (hop : Searches st) (hc : t.candidates = c :: rest)
      (h : e.route c = none) : Why st e id t unavailable
  | cached {c : Name} {s : String} {x : Entry} (hop : Searches st) (hc : t.current = some c)
      (hscope : t.scope = some s) (hroute : e.route c = some s)
      (hx : e.cache.entries.get (CacheKey.new c t.rtype s) = some x)
      (hlive : st.input.now < x.expires) (hlast : ¬ (x.outcome = .notFound ∧ t.candidates ≠ [])) :
      Why st e id t (e.cachedAnswer (Cache.aged x st.input.now) c s st.input.now)
  | replied {tx : Txid} {x : Tx} {t₀ : Task} {M : Message} (h : Answers st tx x t₀ M)
      (hid : x.task = id) (ht : t = { t₀ with tx := none })
      (hlast : ¬ (outcomeOf M.rcode = .notFound ∧ t.candidates ≠ [])) :
      Why st e id t (e.replyAnswer M t₀ M.rcode x.server)
  | budget (h : maxAttempts ≤ t.attempt) :
      Why st e id t { unavailable with interface := e.interfaceOf t.scopeId }
  | noServers (h : e.configuredServers t.scopeId = []) : Why st e id t unavailable
  | ceiling (h : maxInFlight ≤ e.txs.len) : Why st e id t unavailable
  | entropy {n : ℕ} (h : e.entropy n = none) : Why st e id t unavailable

/-- Which server a query may go to: one of the list, or over TCP the one whose reply was truncated.
-/
inductive Target (st : Step Engine Op) (e : Engine) (id : TaskId) (t : Task) (server : IpAddr) :
    Bool → Prop
  | listed (h : server ∈ e.configuredServers t.scopeId) : Target st e id t server false
  | retry {tx : Txid} {x : Tx} {t₀ : Task} {M : Message} (h : Reply st tx x t₀ M)
      (hid : x.task = id) (htrunc : x.truncated M = true) (ht : t = { t₀ with tx := none })
      (hserver : server = x.server) :
      Target st e id t server true

/-! ### The changes -/

/-- A moment in the middle of an operation. -/
structure Mid where
  engine : Engine
  /-- the tasks that have no transaction and are not settled -/
  loose : List TaskId := []
  /-- the actions so far -/
  acts : List Action := []
  /-- the question of the operation was taken up -/
  begun : Bool := false

/-- A loose task is settled or under way again. -/
def Mid.finish (m : Mid) (id : TaskId) (r : Engine × List Action) : Mid :=
  { m with engine := r.1, loose := m.loose.erase id, acts := m.acts ++ r.2 }

/-- A change that leaves transactions, lookups and actions alone. -/
inductive Tweak (st : Step Engine Op) : Mid → Mid → Prop
  /-- counters, health of servers and calls of the entropy source -/
  | book (m : Mid) (c : Counters) (d : Table (IpAddr × String) Instant) (n : ℕ) :
      Tweak st m { m with engine := { m.engine with counters := c, demoted := d, draws := n } }
  /-- the configuration changes -/
  | configure (m : Mid) (h : st.input.isConfig = true) (hm : m = { engine := st.before }) :
      Tweak st m { m with engine := (m.engine.apply st.input).1 }
  /-- a fresh task gets its candidates -/
  | expand (m : Mid) {id : TaskId} {t : Task} (hop : Searches st) (hid : id ∈ m.loose)
      (ht : m.engine.tasks.get id = some t) (hnew : t.current = none) (hnone : t.candidates = [])
      (h : m.engine.candidates t.original ≠ []) :
      Tweak st m { m with
        engine := m.engine.updateTask id fun t =>
          { t with candidates := m.engine.candidates t.original } }
  /-- a task moves to its next candidate, the one before being absent -/
  | choose (m : Mid) {id : TaskId} {t : Task} {c : Name} {rest : List Name} {s : String}
      (hop : Searches st) (hid : id ∈ m.loose) (ht : m.engine.tasks.get id = some t)
      (hc : t.candidates = c :: rest) (hs : m.engine.route c = some s)
      (hwhy : t.current = none ∨ ∃ c₀, t.current = some c₀ ∧ Absent st m.engine id t c₀) :
      Tweak st m { m with engine := m.engine.updateTask id fun t => t.choose c rest s }
  /-- an expired cache entry is dropped -/
  | forget (m : Mid) {key : CacheKey} {x : Entry} (hx : m.engine.cache.entries.get key = some x)
      (hexp : x.expires ≤ st.input.now) :
      Tweak st m { m with engine := { m.engine with cache := ⟨m.engine.cache.entries.remove key⟩ } }
  /-- the answer of a reply is stored -/
  | store (m : Mid) {tx : Txid} {x : Tx} {t₀ : Task} {M : Message} (h : Answers st tx x t₀ M)
      (hstore : storable M t₀ M.rcode = true) :
      Tweak st m { m with
        engine := { m.engine with
          cache := m.engine.cache.insert (CacheKey.new t₀.candidate t₀.rtype t₀.scopeId)
            (entryOf M t₀.candidate t₀.rtype M.rcode x.server st.input.now) st.input.now } }
  /-- the transaction that brought an NXDOMAIN is not charged -/
  | refund (m : Mid) {tx : Txid} {x : Tx} {t₀ : Task} {M : Message} (h : Answers st tx x t₀ M)
      (hid : x.task ∈ m.loose) :
      Tweak st m { m with engine := m.engine.updateTask x.task fun t => { t with attempt := t.attempt - 1 } }
  /-- a server is noted as asked -/
  | ask (m : Mid) {id : TaskId} (server : IpAddr) (hid : id ∈ m.loose) :
      Tweak st m { m with engine := m.engine.updateTask id fun t => { t with tried := t.tried ++ [server] } }

/-- A change of the tables of tasks, transactions and lookups, or an action. -/
inductive Shift (st : Step Engine Op) : Mid → Mid → Prop
  /-- the text was not a name -/
  | refuse (m : Mid) {qid : Qid} {completion : Completion} (h : st.input.Refused qid completion)
      (hb : m.begun = false) :
      Shift st m { m with acts := m.acts ++ [.done qid completion], begun := true }
  /-- the task of a question begins -/
  | start (m : Mid) {qid : Qid} {name : Name} {rtype : UInt16} {noCache : Bool}
      (h : st.input.Resolves qid name rtype noCache) (hb : m.begun = false) :
      Shift st m { m with
        engine := m.engine.startTask (.resolve qid) name rtype noCache
        loose := m.loose ++ [m.engine.nextId]
        begun := true }
  /-- the tasks of a lookup begin -/
  | startAll (m : Mid) {qid : Qid} {name : Name} {family : Family}
      (h : st.input.LooksUp qid name family) (hb : m.begun = false) :
      Shift st m { m with
        engine := m.engine.openLookup qid name family
        loose := m.loose ++ (m.engine.startTasks qid name family.types).2
        begun := true }
  /-- a question is forgotten -/
  | abandon (m : Mid) {qid : Qid} (h : st.input = .abandon qid) (hm : m = { engine := st.before }) :
      Shift st m { m with engine := (m.engine.abandon qid).1, acts := m.acts ++ (m.engine.abandon qid).2 }
  /-- a transaction ends and its task becomes loose -/
  | close (m : Mid) {tx : Txid} {x : Tx} {t : Task} {acts : List Action}
      (hx : m.engine.txs.get tx = some x) (ht : m.engine.tasks.get x.task = some t)
      (h : Closes st tx acts) :
      Shift st m { m with
        engine := m.engine.closeTx tx x
        loose := m.loose ++ [x.task]
        acts := m.acts ++ acts }
  /-- a transaction without a task ends -/
  | orphan (m : Mid) {tx : Txid} {x : Tx} {acts : List Action} (hx : m.engine.txs.get tx = some x)
      (ht : m.engine.tasks.get x.task = none) (h : Closes st tx acts) :
      Shift st m { m with engine := { m.engine with txs := m.engine.txs.remove tx }, acts := m.acts ++ acts }
  /-- an expired transaction is already gone -/
  | stray (m : Mid) {tx : Txid} {now : Instant} (h : st.input = .tick now)
      (hx : m.engine.txs.get tx = none) (hold : ∃ x, st.before.txs.get tx = some x) :
      Shift st m { m with acts := m.acts ++ [.cancel tx] }
  /-- a query goes out -/
  | launch (m : Mid) {id : TaskId} {t : Task} {server : IpAddr} {tcp : Bool}
      (random : Vector UInt8 34) (hid : id ∈ m.loose) (ht : m.engine.tasks.get id = some t)
      (htx : t.tx = none) (hcur : t.current ≠ none ∨ st.input.asks = none)
      (hbudget : t.attempt < maxAttempts) (hroom : m.engine.txs.len < maxInFlight)
      (h : Target st m.engine id t server tcp) :
      Shift st m (m.finish id (m.engine.launch id t server tcp random st.input.now))
  /-- a task is over -/
  | settle (m : Mid) {id : TaskId} {t : Task} {a : Answer} (hid : id ∈ m.loose)
      (ht : m.engine.tasks.get id = some t) (htx : t.tx = none) (h : Why st m.engine id t a) :
      Shift st m (m.finish id (m.engine.settle id a))

/-- One change in the course of the operation `st`. -/
inductive Move (st : Step Engine Op) (m m' : Mid) : Prop
  | tweak (h : Tweak st m m')
  | shift (h : Shift st m m')

/-! ### What a tweak leaves alone -/

/-- What every tweak keeps. -/
structure Quiet (m m' : Mid) : Prop where
  loose : m'.loose = m.loose
  acts : m'.acts = m.acts
  begun : m'.begun = m.begun
  txs : m'.engine.txs = m.engine.txs
  lookups : m'.engine.lookups = m.engine.lookups
  nextId : m'.engine.nextId = m.engine.nextId
  leaked : m'.engine.leaked = m.engine.leaked
  /-- every task stays, and only loose ones move -/
  task : ∀ id t, m.engine.tasks.get id = some t →
    ∃ t', m'.engine.tasks.get id = some t' ∧ t.Like t' ∧ (id ∉ m.loose → t.Still t')
  /-- no task comes -/
  old : ∀ id t', m'.engine.tasks.get id = some t' → ∃ t, m.engine.tasks.get id = some t

theorem Quiet.task_old {m m' : Mid} (h : Quiet m m') {id : TaskId} {t' : Task}
    (ht : m'.engine.tasks.get id = some t') :
    ∃ t, m.engine.tasks.get id = some t ∧ t.Like t' ∧ (id ∉ m.loose → t.Still t') := by
  obtain ⟨t, ht₀⟩ := h.old id t' ht
  obtain ⟨t'', ht'', hlike⟩ := h.task id t ht₀
  rw [ht] at ht''
  obtain rfl := Option.some.inj ht''
  exact ⟨t, ht₀, hlike⟩

theorem quiet_updateTask (m : Mid) {id : TaskId} (hid : id ∈ m.loose) (f : Task → Task)
    (hf : ∀ t : Task, t.Like (f t)) : Quiet m { m with engine := m.engine.updateTask id f } := by
  refine ⟨rfl, rfl, rfl, rfl, rfl, rfl, rfl, fun i t ht => ?_, fun i t' ht' => ?_⟩
  · by_cases hi : i = id
    · subst hi
      exact ⟨f t, get_updateTask_self ht f, hf t, fun hnot => absurd hid hnot⟩
    · exact ⟨t, by rw [updateTask_tasks_ne hi]; exact ht, (Task.Still.refl t).toLike, fun _ => Task.Still.refl t⟩
  · by_cases hi : i = id
    · subst hi
      simp only [updateTask, Table.get_modify, if_true, Option.map_eq_some_iff] at ht'
      obtain ⟨t, ht, -⟩ := ht'
      exact ⟨t, ht⟩
    · exact ⟨t', by rw [← ht', updateTask_tasks_ne hi]⟩

variable {m m' : Mid}

/-- A change that does not touch the tables of tasks, transactions and lookups. -/
theorem quiet_of_eq (hl : m'.loose = m.loose) (ha : m'.acts = m.acts) (hb : m'.begun = m.begun)
    (htasks : m'.engine.tasks = m.engine.tasks) (htxs : m'.engine.txs = m.engine.txs)
    (hlookups : m'.engine.lookups = m.engine.lookups) (hnext : m'.engine.nextId = m.engine.nextId)
    (hleaked : m'.engine.leaked = m.engine.leaked) : Quiet m m' :=
  ⟨hl, ha, hb, htxs, hlookups, hnext, hleaked,
    fun id t ht => ⟨t, by rw [htasks, ht], (Task.Still.refl t).toLike, fun _ => Task.Still.refl t⟩,
    fun id t ht => ⟨t, by rw [← htasks, ht]⟩⟩

/-- **A tweak is quiet.** -/
theorem Tweak.quiet (h : Tweak st m m') : Quiet m m' := by
  cases h with
  | book c d n => exact quiet_of_eq rfl rfl rfl rfl rfl rfl rfl rfl
  | forget hx hexp => exact quiet_of_eq rfl rfl rfl rfl rfl rfl rfl rfl
  | store h hstore => exact quiet_of_eq rfl rfl rfl rfl rfl rfl rfl rfl
  | expand hop hid ht hnew hnone h =>
    exact quiet_updateTask m hid _ fun t => ⟨⟨rfl, rfl, rfl, rfl⟩, rfl⟩
  | choose hop hid ht hc hs hwhy =>
    exact quiet_updateTask m hid _ fun t => ⟨⟨rfl, rfl, rfl, rfl⟩, rfl⟩
  | refund h hid => exact quiet_updateTask m hid _ fun t => ⟨⟨rfl, rfl, rfl, rfl⟩, rfl⟩
  | ask server hid => exact quiet_updateTask m hid _ fun t => ⟨⟨rfl, rfl, rfl, rfl⟩, rfl⟩
  | configure h hm =>
    obtain ⟨f, hf, htasks, h1, h2, h3, h4, -⟩ := configure_tasks m.engine h
    refine ⟨rfl, rfl, rfl, h1, h2, h3, h4, fun id t ht => ?_, fun id t' ht' => ?_⟩
    · exact ⟨f t, by rw [htasks, ht, Option.map_some], (hf t).toLike, fun _ => hf t⟩
    · rw [htasks, Option.map_eq_some_iff] at ht'
      obtain ⟨t, ht, -⟩ := ht'
      exact ⟨t, ht⟩

/-- What a tweak can have done to a task that is there after it. -/
inductive Tweaked (st : Step Engine Op) (m : Mid) (id : TaskId) (t' : Task) : Prop
  | kept (h : m.engine.tasks.get id = some t')
  | marked {t : Task} (ht : m.engine.tasks.get id = some t) (hop : st.input.isConfig = true)
    (h : t.Still t')
  | expanded {t : Task} (hop : Searches st) (hid : id ∈ m.loose)
      (ht : m.engine.tasks.get id = some t) (hnew : t.current = none) (hnone : t.candidates = [])
      (h : m.engine.candidates t.original ≠ [])
      (heq : t' = { t with candidates := m.engine.candidates t.original })
  | chosen {t : Task} {c : Name} {rest : List Name} {s : String} (hop : Searches st)
      (hid : id ∈ m.loose) (ht : m.engine.tasks.get id = some t) (hc : t.candidates = c :: rest)
      (hs : m.engine.route c = some s)
      (hwhy : t.current = none ∨ ∃ c₀, t.current = some c₀ ∧ Absent st m.engine id t c₀)
      (heq : t' = t.choose c rest s)
  | refunded {t t₀ : Task} {tx : Txid} {x : Tx} {M : Message} (h : Answers st tx x t₀ M)
      (hid : id ∈ m.loose) (ht : m.engine.tasks.get id = some t)
      (heq : t' = { t with attempt := t.attempt - 1 })
  | noted {t : Task} {server : IpAddr} (hid : id ∈ m.loose) (ht : m.engine.tasks.get id = some t)
      (heq : t' = { t with tried := t.tried ++ [server] })

/-- A task after a change of the task `id`. -/
theorem updateTask_cases {e : Engine} {id i : TaskId} {f : Task → Task} {t' : Task}
    (h : (e.updateTask id f).tasks.get i = some t') :
    (i ≠ id ∧ e.tasks.get i = some t') ∨ (i = id ∧ ∃ t, e.tasks.get id = some t ∧ t' = f t) := by
  by_cases hi : i = id
  · subst hi
    simp only [updateTask, Table.get_modify, if_true, Option.map_eq_some_iff] at h
    obtain ⟨t, ht, rfl⟩ := h
    exact .inr ⟨rfl, t, ht, rfl⟩
  · rw [updateTask_tasks_ne hi] at h
    exact .inl ⟨hi, h⟩

/-- **What a tweak does to a task.** -/
theorem Tweak.task_cases (hm : Tweak st m m') {i : TaskId} {t' : Task}
    (h : m'.engine.tasks.get i = some t') : Tweaked st m i t' := by
  cases hm with
  | book c d n => exact .kept h
  | forget hx hexp => exact .kept h
  | store h' hstore => exact .kept h
  | configure hop hm =>
    obtain ⟨f, hf, htasks, -⟩ := configure_tasks m.engine hop
    rw [htasks, Option.map_eq_some_iff] at h
    obtain ⟨t, ht, rfl⟩ := h
    exact .marked ht hop (hf t)
  | expand hop hid ht hnew hnone h' =>
    rcases updateTask_cases h with ⟨-, h⟩ | ⟨rfl, t, ht', rfl⟩
    · exact .kept h
    · obtain rfl := Option.mem_unique ht ht'
      exact .expanded hop hid ht hnew hnone h' rfl
  | choose hop hid ht hc hs hwhy =>
    rcases updateTask_cases h with ⟨-, h⟩ | ⟨rfl, t, ht', rfl⟩
    · exact .kept h
    · obtain rfl := Option.mem_unique ht ht'
      exact .chosen hop hid ht hc hs hwhy rfl
  | refund h' hid =>
    rcases updateTask_cases h with ⟨-, h⟩ | ⟨rfl, t, ht', rfl⟩
    · exact .kept h
    · exact .refunded h' hid ht' rfl
  | ask server hid =>
    rcases updateTask_cases h with ⟨-, h⟩ | ⟨rfl, t, ht', rfl⟩
    · exact .kept h
    · exact .noted hid ht' rfl

end Resolvd.Engine
