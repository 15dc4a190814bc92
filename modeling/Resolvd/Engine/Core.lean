import Resolvd.Engine.Routing

/-!
# The engine

The state machine of `engine.rs`, each method as a function from the state to the state after it and
the actions it returns.  The order of the definitions is the source's from the inside out: `settle`,
`send`, `next_attempt`, `next_candidate` and `advance` move one task, the public methods below start
tasks, feed them replies and time, or change the configuration.

`next_candidate` calls itself on the same task with one candidate less; here it is a recursion on
the candidates (`nextCandidateLoop`), and `nextCandidate_eq` is the equation the source has.
-/

namespace Resolvd.Engine

open Lib Dns

variable {code : UInt16}

/-- `Engine::with_entropy`. -/
def withEntropy (entropy : Entropy) : Engine := { entropy }

def count (e : Engine) (f : Counters → Counters) : Engine := { e with counters := f e.counters }

/-- A change of a task through `tasks.get_mut`. -/
def updateTask (e : Engine) (id : TaskId) (f : Task → Task) :
    Engine := { e with tasks := e.tasks.modify id f }

/-- `demote`. -/
def demote (e : Engine) (server : IpAddr) (scope : String) (now : Instant) : Engine :=
  { e with demoted := e.demoted.insert (serverKey server scope) (now + demotion) }

def unavailable : Answer := { outcome := .unavailable }

/-! ### Moving one task -/

/-- The task is taken out of the tables; a transaction it still has goes with it. -/
def dropTask (e : Engine) (id : TaskId) (task : Task) : Engine :=
  match task.tx with
  | some tx =>
    { e with tasks := e.tasks.remove id, txs := e.txs.remove tx, leaked := e.leaked ++ [tx] }
  | none => { e with tasks := e.tasks.remove id }

/-- A lookup after the answer of one of its tasks. -/
def Lookup.push (l : Lookup) (id : TaskId) (rtype : UInt16) (answer : Answer) : Lookup :=
  { l with pending := l.pending.filter fun t => t != id, results := l.results ++ [(rtype, answer)] }

/-- `settle`: the task is over and its owner gets the answer. -/
def settle (e : Engine) (id : TaskId) (answer : Answer) : Engine × List Action :=
  match e.tasks.get id with
  | none => (e, [])
  | some task =>
    let e := e.dropTask id task
    match task.owner with
    | .resolve qid => (e, [.done qid (.answer answer)])
    | .lookup qid =>
      match e.lookups.get qid with
      | none => (e, [])
      | some lookup =>
        let lookup := lookup.push id task.rtype answer
        if lookup.pending ≠ [] then ({ e with lookups := e.lookups.insert qid lookup }, [])
        else ({ e with lookups := e.lookups.remove qid }, [.done qid (.addresses (combine lookup))])

/-- The octets of a query; `encode_query` is the `expect` of the source. -/
def queryPayload (dnsId : UInt16) (question : Question) : Bytes :=
  match (Message.query dnsId question).encode with
  | .ok b => b
  | .error _ => []

/-- The case bits of `send`, behind the two octets of the id. -/
def caseBit (random : Vector UInt8 34) (n : ℕ) : Bool :=
  random.toList.getD (2 + n / 8) 0 &&& (1 <<< UInt8.ofNat (n % 8)) != 0

/-- The id of a query: `u16::from_le_bytes([random[0], random[1]])`. -/
def idOf (random : Vector UInt8 34) : UInt16 :=
  UInt16.ofNat (random[0].toNat + 256 * random[1].toNat)

/-- The name a task asks for now. -/
def Task.candidate (t : Task) : Name := t.current.getD t.original

/-- `task.scope.clone().unwrap_or_default()`. -/
def Task.scopeId (t : Task) : String := t.scope.getD ""

/-- The question of a task, spelled by the random octets. -/
def Task.question (t : Task) (random : Vector UInt8 34) : Question :=
  Question.new (t.candidate.randomiseCase (caseBit random)) t.rtype

/-- The end of `send`: the transaction is recorded and the query goes out. -/
def launch (e : Engine) (id : TaskId) (task : Task) (server : IpAddr) (tcp : Bool)
    (random : Vector UInt8 34) (now : Instant) : Engine × List Action :=
  let tx := e.nextId
  let question := task.question random
  let e := { e with
    nextId := e.nextId + 1
    txs := e.txs.insert tx { task := id, dnsId := idOf random, question, server, tcp, deadline := now + serverTimeout } }
  let e := e.updateTask id fun t => { t with attempt := t.attempt + 1, tx := some tx }
  (e.count fun c => { c with upstreamSent := c.upstreamSent + 1 },
    [.send tx server (task.scope.bind e.interfaceOf) tcp (queryPayload (idOf random) question)])

/-- `send`: every transaction passes here, TCP retries and later candidates included. -/
def send (e : Engine) (id : TaskId) (server : IpAddr) (tcp : Bool) (now : Instant) :
    Engine × List Action :=
  match e.tasks.get id with
  | none => (e, [])
  | some task =>
    if task.attempt ≥ maxAttempts then
      e.settle id { unavailable with interface := e.interfaceOf task.scopeId }
    else if e.txs.len ≥ maxInFlight then
      (e.count fun c => { c with refused := c.refused + 1 }).settle id unavailable
    else
      match e.entropy e.draws with
      | none =>
        ({ e with draws := e.draws + 1 }.count fun c => { c with refused := c.refused + 1 }).settle
          id unavailable
      | some random => { e with draws := e.draws + 1 }.launch id task server tcp random now

/-- The server of the next attempt: one not yet asked, healthiest first, else in turn. -/
def pickServer (tried servers : List IpAddr) (first : IpAddr) : IpAddr :=
  (servers.find? fun s => !tried.contains s).getD
    (servers.getD (tried.length % servers.length) first)

/-- `next_attempt`: send the current candidate to the next server, or give up. -/
def nextAttempt (e : Engine) (id : TaskId) (now : Instant) : Engine × List Action :=
  match e.tasks.get id with
  | none => (e, [])
  | some task =>
    if task.attempt ≥ maxAttempts then
      e.settle id { unavailable with interface := e.interfaceOf task.scopeId }
    else
      match e.serversOf task.scopeId now with
      | [] => e.settle id unavailable
      | first :: rest =>
        let server := pickServer task.tried (first :: rest) first
        (e.updateTask id fun t => { t with tried := t.tried ++ [server] }).send id server false now

/-- The answer made of a cache entry. -/
def cachedAnswer (e : Engine) (entry : Entry) (candidate : Name) (scope : String) (now : Instant) :
    Answer where
  outcome := entry.outcome
  negativeTtl := if entry.records = [] then Cache.remaining entry now else 0
  records := entry.records
  source := .cache
  server := some entry.server
  interface := e.interfaceOf scope
  rcode := entry.rcode
  resolvedName := some candidate

/-- `next_candidate`, on a task that has these candidates left. -/
def nextCandidateLoop (id : TaskId) (rtype : UInt16) (noCache : Bool) (now : Instant) :
    List Name → Engine → Engine × List Action
  | [], e => e.settle id { outcome := .notFound }
  | candidate :: rest, e =>
    let e := e.updateTask id fun t =>
      { t with candidates := rest, current := some candidate, tried := [] }
    match e.route candidate with
    | none => e.settle id unavailable
    | some scope =>
      let e := e.updateTask id fun t => { t with scope := some scope }
      if noCache then e.nextAttempt id now
      else
        let (hit, cache) := e.cache.get (CacheKey.new candidate rtype scope) now
        let e := { e with cache }
        match hit with
        | none => e.nextAttempt id now
        | some entry =>
          let e := e.count fun c => { c with cacheHits := c.cacheHits + 1 }
          if entry.outcome = .notFound ∧ rest ≠ []
            then nextCandidateLoop id rtype noCache now rest e
          else e.settle id (e.cachedAnswer entry candidate scope now)

/-- `next_candidate`: try the next name of the task. -/
def nextCandidate (e : Engine) (id : TaskId) (now : Instant) : Engine × List Action :=
  match e.tasks.get id with
  | none => (e, [])
  | some task => nextCandidateLoop id task.rtype task.noCache now task.candidates e

/-- `advance`: a fresh task is answered locally or gets its candidates. -/
def advance (e : Engine) (id : TaskId) (now : Instant) : Engine × List Action :=
  match e.tasks.get id with
  | none => (e, [])
  | some task =>
    if task.current = none ∧ task.candidates = [] ∧ task.attempt = 0 then
      match e.synthetic task.original task.rtype with
      | some answer => (e.count fun c => { c with synthetic := c.synthetic + 1 }).settle id answer
      | none =>
        if e.candidates task.original = [] then e.settle id { outcome := .notFound }
        else (e.updateTask id fun t =>
          { t with candidates := e.candidates task.original }).nextCandidate id now
    else e.nextCandidate id now

/-! ### Questions -/

/-- `start_task`, with `fresh_id`. -/
def startTask (e : Engine) (owner : Owner) (name : Name) (rtype : UInt16) (noCache : Bool) :
    Engine :=
  { e with nextId := e.nextId + 1, tasks := e.tasks.insert e.nextId { owner, original := name, rtype, noCache } }

def countQuery (e : Engine) : Engine := e.count fun c => { c with queries := c.queries + 1 }

/-- `resolve_name`. -/
def resolveName (e : Engine) (qid : Qid) (name : Name) (rtype : UInt16) (noCache : Bool)
    (now : Instant) : Engine × List Action :=
  (e.startTask (.resolve qid) name rtype noCache).advance e.nextId now

/-- `resolve`. -/
def resolve (e : Engine) (qid : Qid) (name : Bytes) (rtype : UInt16) (noCache : Bool)
    (now : Instant) : Engine × List Action :=
  match Name.parse name with
  | .error _ => (e.countQuery, [.done qid (.answer { outcome := .notFound })])
  | .ok name => e.countQuery.resolveName qid name rtype noCache now

/-- `resolve_question`. -/
def resolveQuestion (e : Engine) (qid : Qid) (question : Question) (now : Instant) :
    Engine × List Action :=
  e.countQuery.resolveName qid question.name question.rtype false now

/-- The record types of a family. -/
def Family.types : Family → List UInt16
  | .any => [Rtype.a, Rtype.aaaa]
  | .v4 => [Rtype.a]
  | .v6 => [Rtype.aaaa]

/-- The first loop of `lookup`: one task for each type, and their ids. -/
def startTasks (e : Engine) (qid : Qid) (name : Name) : List UInt16 → Engine × List TaskId
  | [] => (e, [])
  | t :: ts =>
    let (e', ids) := (e.startTask (.lookup qid) name t false).startTasks qid name ts
    (e', e.nextId :: ids)

/-- A loop over tasks or transactions that collects the actions of a method. -/
def each {α : Type} (f : Engine → α → Engine × List Action) : List α → Engine → Engine × List Action
  | [], e => (e, [])
  | a :: as, e =>
    let (e, acts) := f e a
    let (e, more) := each f as e
    (e, acts ++ more)

/-- `lookup`. -/
def lookup (e : Engine) (qid : Qid) (name : Bytes) (family : Family) (now : Instant) :
    Engine × List Action :=
  match Name.parse name with
  | .error _ => (e.countQuery, [.done qid (.addresses { outcome := .notFound })])
  | .ok name =>
    let (e, pending) := e.countQuery.startTasks qid name family.types
    let e := { e with lookups := e.lookups.insert qid { name, pending, results := [] } }
    each (fun e id => e.advance id now) pending e

/-- `reverse`: the reverse name, displayed and resolved. -/
def reverse (e : Engine) (qid : Qid) (address : IpAddr) (now : Instant) : Engine × List Action :=
  e.resolve qid (Name.reverseOf address).display Rtype.ptr false now

/-- One turn of the loop of `abandon`. -/
def abandonTask (e : Engine) (id : TaskId) : Engine × List Action :=
  match e.tasks.get id with
  | none => (e, [])
  | some task =>
    let e := { e with tasks := e.tasks.remove id }
    match task.tx with
    | some tx => ({ e with txs := e.txs.remove tx }, [.cancel tx])
    | none => (e, [])

/-- `abandon`: forget a question whose asker went away. -/
def abandon (e : Engine) (qid : Qid) : Engine × List Action :=
  let (e, acts) := each abandonTask (e.tasks.select fun _ t => t.owner.qid == qid) e
  ({ e with lookups := e.lookups.remove qid }, acts)

/-! ### Replies and time -/

/-- `matching_response`: the reply has the id, the response bit, and the one question exactly as it
was sent. -/
def matchingResponse (e : Engine) (tx : Txid) (bytes : Bytes) : Option Message :=
  match e.txs.get tx with
  | none => none
  | some t =>
    match Message.decode bytes with
    | .error _ => none
    | .ok message =>
      if message.header.id ≠ t.dnsId ∨ message.header.response = false then none
      else
        match message.question with
        | none => none
        | some q =>
          if q.rtype ≠ t.question.rtype ∨ q.class_ ≠ t.question.class_ ∨
            q.name.labels ≠ t.question.name.labels then none
          else some message

/-- `response_matches`. -/
def responseMatches (e : Engine) (tx : Txid) (bytes : Bytes) : Bool :=
  (e.matchingResponse tx bytes).isSome

/-- The response codes that answer a question: NOERROR and NXDOMAIN, without extended bits. -/
def isAnswer (code : UInt16) : Bool :=
  (code.toUInt8 == Rcode.noerror || code.toUInt8 == Rcode.nxdomain) && code < 16

def outcomeOf (code : UInt16) :
    Outcome := if code.toUInt8 = Rcode.nxdomain then .notFound else .found

theorem isAnswer_iff : isAnswer code = true ↔ code = 0 ∨ code = 3 := by
  have hbyte : ∀ n : UInt8, code < 16 → (code.toUInt8 = n ↔ code.toNat = n.toNat) := by
    intro n hlt
    have hlt' : code.toNat < 16 := UInt16.lt_iff_toNat_lt.mp hlt
    rw [← UInt8.toNat_inj, UInt16.toNat_toUInt8, Nat.mod_eq_of_lt (by omega)]
  simp only [isAnswer, Bool.and_eq_true, Bool.or_eq_true, beq_iff_eq, decide_eq_true_eq]
  constructor
  · rintro ⟨h, hlt⟩
    rw [hbyte _ hlt, hbyte _ hlt] at h
    exact h.imp UInt16.toNat_inj.mp UInt16.toNat_inj.mp
  · rintro (rfl | rfl) <;> decide

theorem outcomeOf_eq (h : isAnswer code = true) :
    outcomeOf code = if code = 0 then .found else .notFound := by
  rcases isAnswer_iff.mp h with rfl | rfl <;> rfl

theorem code_of_notFound (h : isAnswer code = true) (hout : outcomeOf code = .notFound) :
    code = 3 := by
  rcases isAnswer_iff.mp h with rfl | rfl
  · cases hout
  · rfl

/-- A record at the candidate gets the candidate's spelling. -/
def recase (candidate : Name) (r : Record) :
    Record := if r.name.eq candidate then { r with name := candidate } else r

/-- The records of the answer a reply makes; an absence carries none. -/
def answerRecords (message : Message) (candidate : Name) (rtype code : UInt16) : List Record :=
  ((relevantRecords message.answers candidate rtype).1.filter fun _ => outcomeOf code == .found).map
    (recase candidate)

/-- The least of some times to live, or `other` when there is none. -/
def minTtl (records : List Record) (other : UInt32) : UInt32 :=
  ((records.map Record.ttl).min?).getD other

/-- How long the answer a reply makes may be kept. -/
def answerTtl (message : Message) (candidate : Name) (rtype code : UInt16) : UInt32 :=
  let records := answerRecords message candidate rtype code
  let relevant := relevantRecords message.answers candidate rtype
  if outcomeOf code = .found ∧ records ≠ [] then min (minTtl records 0) maxPositiveTtl
  else min (negativeTtl message.authority relevant.2)
    (minTtl (relevant.1.filter fun r => r.rtype == Rtype.cname) 0xFFFFFFFF)

/-- The cache entry a reply makes. -/
def entryOf (message : Message) (candidate : Name) (rtype code : UInt16) (server : IpAddr)
    (now : Instant) : Entry where
  outcome := outcomeOf code
  records := answerRecords message candidate rtype code
  rcode := code
  server := server
  expires := now + secs (answerTtl message candidate rtype code).toNat

/-- The answer a reply makes. -/
def replyAnswer (e : Engine) (message : Message) (task : Task) (code : UInt16) (server : IpAddr) :
    Answer where
  outcome := outcomeOf code
  negativeTtl :=
    if answerRecords message task.candidate task.rtype code = [] then
      answerTtl message task.candidate task.rtype code
    else 0
  records := answerRecords message task.candidate task.rtype code
  source := .dns
  server := some server
  interface := e.interfaceOf task.scopeId
  rcode := code
  resolvedName := some task.candidate

/-- Whether the answer of a reply may be stored. -/
def storable (message : Message) (task : Task) (code : UInt16) : Bool :=
  0 < answerTtl message task.candidate task.rtype code && !task.cacheInvalidated

/-- The server is healthy, and its answer is stored. -/
def keepAnswer (e : Engine) (task : Task) (message : Message) (code : UInt16) (server : IpAddr)
    (now : Instant) : Engine :=
  let e := { e with demoted := e.demoted.remove (serverKey server task.scopeId) }
  if storable message task code then
    { e with
      cache := e.cache.insert (CacheKey.new task.candidate task.rtype task.scopeId)
        (entryOf message task.candidate task.rtype code server now) now }
  else e

/-- The arm of `received` for a reply that answers the question. -/
def accept (e : Engine) (id : TaskId) (task : Task) (message : Message) (code : UInt16)
    (server : IpAddr) (now : Instant) : Engine × List Action :=
  let e := e.keepAnswer task message code server now
  if outcomeOf code = .notFound ∧ task.candidates ≠ [] then
    -- the transaction that carried the NXDOMAIN is not charged to the question
    (e.updateTask id fun t => { t with attempt := t.attempt - 1 }).nextCandidate id now
  else e.settle id (e.replyAnswer message task code server)

/-- The end of `received`, once the transaction is closed: what the reply means for its task. -/
def handleReply (e : Engine) (t : Tx) (task : Task) (message : Message) (now : Instant) :
    Engine × List Action :=
  if message.header.truncated && !t.tcp then e.send t.task t.server true now
  else if isAnswer message.rcode then e.accept t.task task message message.rcode t.server now
  else
    let e := e.count fun c => { c with upstreamFailed := c.upstreamFailed + 1 }
    (e.demote t.server task.scopeId now).nextAttempt t.task now

/-- `received`. -/
def received (e : Engine) (tx : Txid) (bytes : Bytes) (now : Instant) : Engine × List Action :=
  match e.txs.get tx with
  | none => (e, [])
  | some t =>
    match e.matchingResponse tx bytes with
    | none => (e, [])
    | some message =>
      let e := { e with txs := e.txs.remove tx }
      match e.tasks.get t.task with
      | none => (e, [])
      | some task =>
        let e := e.updateTask t.task fun task => { task with tx := none }
        let e := e.count fun c => { c with upstreamAnswered := c.upstreamAnswered + 1 }
        e.handleReply t task message now

/-- A transaction is over without a reply: it is taken out, and its task has none. -/
def closeFailed (e : Engine) (tx : Txid) (t : Tx) : Engine :=
  let e := { e with txs := e.txs.remove tx }.count fun c =>
    { c with upstreamFailed := c.upstreamFailed + 1 }
  e.updateTask t.task fun task => { task with tx := none }

/-- `failed`: the transport failed. -/
def failed (e : Engine) (tx : Txid) (now : Instant) : Engine × List Action :=
  match e.txs.get tx with
  | none => (e, [])
  | some t =>
    let scope := ((e.tasks.get t.task).bind Task.scope).getD ""
    ((e.closeFailed tx t).demote t.server scope now).nextAttempt t.task now

/-- `local_failed`: the query could not be sent; the server is not to blame. -/
def localFailed (e : Engine) (tx : Txid) (now : Instant) : Engine × List Action :=
  match e.txs.get tx with
  | none => (e, [])
  | some t => (e.closeFailed tx t).nextAttempt t.task now

/-- One turn of the loop of `tick`. -/
def expire (now : Instant) (e : Engine) (tx : Txid) : Engine × List Action :=
  let (e, acts) := e.failed tx now
  (e, .cancel tx :: acts)

/-- `tick`: expired transactions move to the next attempt. -/
def tick (e : Engine) (now : Instant) : Engine × List Action :=
  each (expire now) (e.txs.select fun _ t => t.deadline ≤ now) e

/-! ### Configuration -/

/-- `invalidate_scope_cache`. -/
def invalidateScopeCache (e : Engine) (scope : String) : Engine :=
  { e with
    cache := e.cache.flushScope scope
    tasks := e.tasks.map fun t => if t.scope = some scope
      then { t with cacheInvalidated := true } else t }

/-- The scopes that lose their cache when the old list is replaced by the new one. -/
def invalidated (old new : List Scope) : List String :=
  ((new.filter fun n =>
    match old.find? fun s => s.id == n.id with
    | none => true
    | some o => o.servers != n.servers).map Scope.id) ++
  ((old.filter fun o => !new.any fun s => s.id == o.id).map Scope.id)

/-- `set_scopes`. -/
def setScopes (e : Engine) (scopes : List Scope) : Engine :=
  { (invalidated e.scopes scopes).foldl invalidateScopeCache e with scopes }

/-- `set_fallback`. -/
def setFallback (e : Engine) (servers : List IpAddr) (domains : List Name) : Engine :=
  let e := if servers ≠ e.fallbackServers then e.invalidateScopeCache fallbackScope else e
  { e with fallbackServers := servers, fallbackDomains := domains }

/-- `set_hostname`. -/
def setHostname (e : Engine) (hostname : Option Bytes) : Engine :=
  { e with hostname := (hostname.bind fun h => (Name.parse h).toOption).filter fun n => !n.isRoot }

/-- `set_hosts`. -/
def setHosts (e : Engine) (hosts : Hosts) : Engine := { e with hosts }

/-- `flush`. -/
def flush (e : Engine) : Engine :=
  { e with cache := e.cache.clear, tasks := e.tasks.map fun t => { t with cacheInvalidated := true } }

/-! ### What a change of the configuration does -/

/-- The task may no longer store answers when its scope is one of these. -/
def Task.invalidate (ids : List String) (t : Task) : Task :=
  { t with cacheInvalidated := t.cacheInvalidated || ids.any fun s => t.scope = some s }

/-- **What `invalidate_scope_cache` does, scope after scope**: the entries of the scopes go, their
tasks are marked, and nothing else changes. -/
theorem foldl_invalidateScopeCache (ids : List String) (e : Engine) :
    (∀ id, (ids.foldl invalidateScopeCache e).tasks.get id = (e.tasks.get id).map
      (Task.invalidate ids)) ∧
    (∀ k x, (ids.foldl invalidateScopeCache e).cache.entries.get k = some x ↔
      e.cache.entries.get k = some x ∧ k.scope ∉ ids) ∧
    ids.foldl invalidateScopeCache e =
      { e with
        tasks := (ids.foldl invalidateScopeCache e).tasks
        cache := (ids.foldl invalidateScopeCache e).cache } := by
  induction ids generalizing e with
  | nil =>
    have hid : Task.invalidate [] = id := by funext t; simp [Task.invalidate]
    exact ⟨fun id => by rw [hid, Option.map_id]; rfl, fun k x => by simp, rfl⟩
  | cons s ids ih =>
    obtain ⟨ih1, ih2, ih3⟩ := ih (e.invalidateScopeCache s)
    refine ⟨fun id => ?_, fun k x => ?_, ?_⟩
    · rw [List.foldl_cons, ih1]
      simp only [invalidateScopeCache, Table.get_map, Option.map_map]
      congr 1
      funext t
      by_cases hs : t.scope = some s
      · simp [Task.invalidate, hs]
      · simp [Task.invalidate, hs]
    · rw [List.foldl_cons, ih2, invalidateScopeCache, Cache.flushScope_entries]
      simp only [List.mem_cons, not_or, and_assoc]
    · rw [List.foldl_cons, ih3]
      rfl

/-! ### The recursion of `next_candidate` -/

/-- **The recursive equation of `next_candidate`**, as the source has it. -/
theorem nextCandidate_eq (e : Engine) (id : TaskId) (now : Instant) :
    e.nextCandidate id now =
      match e.tasks.get id with
      | none => (e, [])
      | some task =>
        match task.candidates with
        | [] => e.settle id { outcome := .notFound }
        | candidate :: rest =>
          let e := e.updateTask id fun t =>
            { t with candidates := rest, current := some candidate, tried := [] }
          match e.route candidate with
          | none => e.settle id unavailable
          | some scope =>
            let e := e.updateTask id fun t => { t with scope := some scope }
            if task.noCache then e.nextAttempt id now
            else
              let (hit, cache) := e.cache.get (CacheKey.new candidate task.rtype scope) now
              let e := { e with cache }
              match hit with
              | none => e.nextAttempt id now
              | some entry =>
                let e := e.count fun c => { c with cacheHits := c.cacheHits + 1 }
                if entry.outcome = .notFound ∧ rest ≠ [] then e.nextCandidate id now
                else e.settle id (e.cachedAnswer entry candidate scope now) := by
  cases ht : e.tasks.get id with
  | none => simp only [nextCandidate, ht]
  | some task =>
    simp only [nextCandidate, ht]
    cases task.candidates with
    | nil => rfl
    | cons candidate rest =>
      rw [nextCandidateLoop]
      simp only [updateTask, count, Table.get_modify, if_true, ht, Option.map_some]

end Resolvd.Engine
