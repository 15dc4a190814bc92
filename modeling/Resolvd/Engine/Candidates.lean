import Resolvd.Engine.Attempts
import Resolvd.Engine.Counters

/-!
# Every search candidate is asked

A name that does not exist is an answer, not a failure: `received` gives the attempt back and goes
on to the next candidate, so that a search may have more candidates than a question has attempts.
`Answered` is a question whose queries are all answered, whatever else the engine does in between;
`Awaits` is what holds while such a search waits for a reply, `Awaits.next` takes it to the next
candidate and `Awaits.done` to its end, and `asks_every_candidate` is the result.
-/

namespace Resolvd.Engine

open Lib Dns List

variable {e e' : Engine}

/-! ### A question and its replies -/

/-- Names go to the same scopes, with the same servers and interfaces. -/
structure SameRoutes (e e' : Engine) : Prop where
  route : e'.route = e.route
  servers : e'.configuredServers = e.configuredServers
  interface : e'.interfaceOf = e.interfaceOf

theorem SameRoutes.refl (e : Engine) : SameRoutes e e := ⟨rfl, rfl, rfl⟩

theorem SameRoutes.of_scopes (hscopes : e'.scopes = e.scopes)
    (hfallback : e'.fallbackServers = e.fallbackServers) : SameRoutes e e' := by
  refine ⟨funext fun n => ?_, funext fun s => ?_, funext fun s => ?_⟩
  · simp only [Engine.route, exclusiveScope, upScopes, hscopes, hfallback]
  · simp only [configuredServers, hscopes, hfallback]
  · simp only [interfaceOf, hscopes]

theorem SameRoutes.trans {e'' : Engine} (h : SameRoutes e e') (h' : SameRoutes e' e'') :
    SameRoutes e e'' :=
  ⟨h'.route.trans h.route, h'.servers.trans h.servers, h'.interface.trans h.interface⟩

theorem SameSettings.routes (h : e.SameSettings e') : SameRoutes e e' :=
  .of_scopes h.scopes h.fallbackServers

/-- What the engine may do while the query `tx` of the task is out: it takes care of other
questions.  Names keep their routes, and nothing is stored for those that are searched for. -/
structure Meanwhile (id : TaskId) (tx : Txid) (names : List Name) (rtype : UInt16) (e e' : Engine) :
    Prop where
  routes : SameRoutes e e'
  entropy : e'.entropy = e.entropy
  room : e.txs.len ≤ maxInFlight → e'.txs.len ≤ maxInFlight
  task : ∀ t, e.tasks.get id = some t → ∃ t', e'.tasks.get id = some t' ∧ t.Still t'
  query : e'.txs.get tx = e.txs.get tx
  cache : ∀ c ∈ names, ∀ s, e.cache.entries.get (CacheKey.new c rtype s) = none →
    e'.cache.entries.get (CacheKey.new c rtype s) = none

theorem Meanwhile.refl (id : TaskId) (tx : Txid) (names : List Name) (rtype : UInt16) (e : Engine) :
    Meanwhile id tx names rtype e e :=
  ⟨.refl e, rfl, fun h => h, fun t ht => ⟨t, ht, .refl t⟩, rfl, fun _ _ _ h => h⟩

/-- **Any operation that does not end the query will do**, as long as it leaves the configuration
alone and stores nothing for the names. -/
theorem meanwhile_step {st : Step Engine Op} {tx : Txid} {x : Tx} {names : List Name}
    {rtype : UInt16} (hl : Linked [] st.before) (hx : st.before.txs.get tx = some x)
    (hop : st.input.isConfig = false) (hends : ¬ st.input.Ends st.before tx)
    (hcancel : .cancel tx ∉ actions st)
    (hcache : ∀ c ∈ names, ∀ s, st.before.cache.entries.get (CacheKey.new c rtype s) = none →
      (after st).cache.entries.get (CacheKey.new c rtype s) = none) :
    Meanwhile x.task tx names rtype st.before (after st) := by
  have hs : Sound st (.last st) := Path.sound hl (apply_path st)
  have haccounts := accounts_step st hl
  have hstays : (after st).txs.get tx ≠ none := fun hnone =>
    (hs.traffic.gone tx x hx hnone).elim hends hcancel
  obtain ⟨x', hx'⟩ := Option.ne_none_iff_exists'.mp hstays
  obtain ⟨hx₀, t₀, t', ht₀, ht', hst⟩ := hs.traffic.old_tx tx x' hx' (hl.tx_lt tx x hx)
  obtain rfl := Option.mem_unique hx hx₀
  refine ⟨(hs.steady.settings hop).routes, haccounts.entropy, haccounts.room, ?_,
    hx'.trans hx.symm, hcache⟩
  intro t ht
  obtain rfl := Option.mem_unique ht ht₀
  exact ⟨t', ht', hst⟩

/-- The question of the task is answered: `r` is what the engine returned with the query, the
replies to that query and to those after it match, are not truncated and have these response codes,
and the rounds are the actions of the asking and of every reply. -/
inductive Answered (id : TaskId) (names : List Name) (rtype : UInt16) :
    Engine × List Action → List UInt16 → List (List Action) → Prop
  | asked (r : Engine × List Action) : Answered id names rtype r [] [r.2]
  | reply {r : Engine × List Action} {e : Engine} {tx : Txid} {bytes : Bytes} {now : Instant}
    {M : Message}
      {code : UInt16} {codes : List UInt16} {rounds : List (List Action)}
        (hsent : tx ∈ r.2.filterMap Action.sent)
      (hmean : Meanwhile id tx names rtype r.1 e) (hM : e.matchingResponse tx bytes = some M)
      (hwhole : M.header.truncated = false) (hcode : M.rcode = code)
      (h : Answered id names rtype (e.received tx bytes now) codes rounds) :
      Answered id names rtype r (code :: codes) (r.2 :: rounds)

/-- The name can be asked for: it is routed to a scope that has servers, and the cache has no entry
for it there. -/
def Askable (e : Engine) (rtype : UInt16) (c : Name) : Prop :=
  ∃ s, e.route c = some s ∧ e.configuredServers s ≠ [] ∧
    e.cache.entries.get (CacheKey.new c rtype s) = none

/-- The action is a query for the name, to a server of the scope the name is routed to. -/
def QueryFor (e : Engine) (rtype : UInt16) (c : Name) (a : Action) : Prop :=
  ∃ s tx server dnsId question, e.route c = some s ∧ server ∈ e.configuredServers s ∧
    question.name.eq c = true ∧ question.rtype = rtype ∧
    a = .send tx server (e.interfaceOf s) false (queryPayload dnsId question)

/-- The answer names the server and the interface of the query. -/
def AnsweredBy (a : Answer) (query : Action) : Prop :=
  ∃ tx server interface tcp payload, query = .send tx server interface tcp payload ∧
    a.server = some server ∧
    a.interface = interface

/-! ### A search that waits for a reply -/

/-- The task is at the candidate `c` of the scope `s`, with the candidates `rest` to come. -/
structure Task.At (t : Task) (q : Qid) (rtype : UInt16) (noCache : Bool) (c : Name)
    (rest : List Name) (s : String) : Prop where
  owner : t.owner = .resolve q
  rtype : t.rtype = rtype
  noCache : t.noCache = noCache
  current : t.current = some c
  candidates : t.candidates = rest
  scope : t.scope = some s

/-- The query `tx` for the candidate `c` is out: one attempt is charged, and the other candidates
can be asked for. -/
structure Awaits (id : TaskId) (q : Qid) (rtype : UInt16) (noCache : Bool) (c : Name)
    (rest : List Name) (s : String) (tx : Txid) (server : IpAddr) (e : Engine) : Prop where
  entropy : ∀ n, e.entropy n ≠ none
  room : e.txs.len ≤ maxInFlight
  task : ∃ t, e.tasks.get id = some t ∧ t.At q rtype noCache c rest s ∧ t.attempt = 1
  query : ∃ x, e.txs.get tx = some x ∧ x.task = id ∧ x.server = server
  askable : ∀ c' ∈ rest, Askable e rtype c'

/-- The engine returns a query for the candidate `c` and nothing else, and waits for the reply. -/
structure Asks (e₀ : Engine) (id : TaskId) (q : Qid) (rtype : UInt16) (noCache : Bool) (c : Name)
    (rest : List Name) (r : Engine × List Action) : Prop where
  routes : SameRoutes e₀ r.1
  waits : ∃ s tx server dnsId question, e₀.route c = some s ∧ server ∈ e₀.configuredServers s ∧
    question.name.eq c = true ∧ question.rtype = rtype ∧
    r.2 = [.send tx server (e₀.interfaceOf s) false (queryPayload dnsId question)] ∧
    Awaits id q rtype noCache c rest s tx server r.1

theorem Askable.congr {rtype : UInt16} {c : Name} (h : Askable e rtype c) (hr : SameRoutes e e')
    (hcache : ∀ s, e.cache.entries.get (CacheKey.new c rtype s) = none →
      e'.cache.entries.get (CacheKey.new c rtype s) = none) : Askable e' rtype c := by
  obtain ⟨s, hroute, hservers, habsent⟩ := h
  exact ⟨s, hr.route ▸ hroute, hr.servers ▸ hservers, hcache s habsent⟩

section Search

variable {e₀ e e' : Engine} {id : TaskId} {q : Qid} {rtype : UInt16} {noCache : Bool} {c : Name}
    {rest : List Name} {s : String} {tx : Txid} {server : IpAddr} {now : Instant}
    {r : Engine × List Action} {t : Task} {names : List Name} {k : ℕ} {rounds : List (List Action)}

theorem Task.At.still {t' : Task} (h : t.At q rtype noCache c rest s) (hst : t.Still t') :
    t'.At q rtype noCache c rest s :=
  ⟨hst.owner.trans h.owner, hst.rtype.trans h.rtype, hst.noCache.trans h.noCache,
    hst.current.trans h.current, hst.candidates.trans h.candidates, hst.scope.trans h.scope⟩

/-- **A search waits on**, whatever the engine does meanwhile. -/
theorem Awaits.meanwhile (h : Awaits id q rtype noCache c rest s tx server e)
    (hm : Meanwhile id tx names rtype e e') (hnames : ∀ c' ∈ rest, c' ∈ names) :
    Awaits id q rtype noCache c rest s tx server e' where
  entropy := hm.entropy ▸ h.entropy
  room := hm.room h.room
  task := by
    obtain ⟨t, ht, hat, hattempt⟩ := h.task
    obtain ⟨t', ht', hst⟩ := hm.task t ht
    exact ⟨t', ht', hat.still hst, hst.attempt.trans hattempt⟩
  query := hm.query ▸ h.query
  askable := fun c' hc' => (h.askable c' hc').congr hm.routes (hm.cache c' (hnames c' hc'))

/-- A candidate that can be asked for is tried: the task is at it when the server is chosen. -/
theorem nextCandidateLoop_askable (hroute : e.route c = some s)
    (habsent : e.cache.entries.get (CacheKey.new c rtype s) = none) :
    nextCandidateLoop id rtype noCache now (c :: rest) e =
      (e.updateTask id fun t => t.choose c rest s).nextAttempt id now := by
  have hget : e.cache.get (CacheKey.new c rtype s) now = (none, e.cache) := by
    simp only [Cache.get, habsent]
  rw [nextCandidateLoop_cons hroute]
  simp only [hget, updateTask, ite_self]

section

variable (hroutes : SameRoutes e₀ e) (ht : e.tasks.get id = some t)
  (hat : t.At q rtype noCache c rest s) (hattempt : t.attempt = 0)
  (hentropy : ∀ n, e.entropy n ≠ none) (hroom : e.txs.len < maxInFlight)
  (hroute : e₀.route c = some s) (hserver : server ∈ e₀.configuredServers s)
  (hrest : ∀ c' ∈ rest, Askable e rtype c')
include hroutes ht hat hattempt hentropy hroom hroute hserver hrest

/-- A task without an attempt that sends a query waits for the reply. -/
theorem asks_launch (random) :
    Asks e₀ id q rtype noCache c rest (e.launch id t server false random now) := by
  have hc : t.candidate = c := by rw [Task.candidate, hat.current, Option.getD_some]
  have hinterface : t.scope.bind e.interfaceOf = e₀.interfaceOf s := by
    rw [hat.scope, hroutes.interface, Option.bind_some]
  have hroutes' : SameRoutes e₀ (e.launch id t server false random now).1 :=
    ⟨hroutes.route, hroutes.servers, hroutes.interface⟩
  refine ⟨hroutes', s, e.nextId, server, idOf random, t.question random, hroute, hserver, ?_,
    hat.rtype, ?_, ?_⟩
  · rw [← hc]
    exact Name.randomiseCase_eq _ _
  · rw [← hinterface]
    rfl
  · refine ⟨hentropy, ?_, ⟨_, launch_tasks_self _ _ _ _ ht, ?_, ?_⟩,
      ⟨_, launch_txs_self _ _ _ _, rfl, rfl⟩, hrest⟩
    · exact (Table.len_insert_le _ _ _).trans hroom
    · exact ⟨hat.owner, hat.rtype, hat.noCache, hat.current, hat.candidates, hat.scope⟩
    · show t.attempt + 1 = 1
      rw [hattempt]

/-- A query goes out when there is room for it and the entropy source succeeds. -/
theorem asks_send (now : Instant) :
    Asks e₀ id q rtype noCache c rest (e.send id server false now) := by
  obtain ⟨random, hrandom⟩ := Option.ne_none_iff_exists'.mp (hentropy e.draws)
  have hbudget : ¬ t.attempt ≥ maxAttempts := by rw [hattempt]; decide
  simp only [send, ht, if_neg hbudget, if_neg (not_le.mpr hroom), hrandom]
  have hroutes' : SameRoutes e₀ { e with draws := e.draws + 1 } :=
    ⟨hroutes.route, hroutes.servers, hroutes.interface⟩
  exact asks_launch hroutes' ht hat hattempt hentropy hroom hroute hserver hrest random

end

/-- **The next candidate is asked for.** -/
theorem asks_candidate (hroutes : SameRoutes e₀ e) (ht : e.tasks.get id = some t)
    (ho : t.owner = .resolve q) (hattempt : t.attempt = 0) (hentropy : ∀ n, e.entropy n ≠ none)
    (hroom : e.txs.len < maxInFlight) (hall : ∀ c' ∈ c :: rest, Askable e t.rtype c')
    (now : Instant) :
    Asks e₀ id q t.rtype t.noCache c rest
      (nextCandidateLoop id t.rtype t.noCache now (c :: rest) e) := by
  obtain ⟨s, hroute, hservers, habsent⟩ := hall c mem_cons_self
  rw [nextCandidateLoop_askable hroute habsent]
  set e₁ := e.updateTask id fun t => t.choose c rest s
  have ht₁ : e₁.tasks.get id = some (t.choose c rest s) := get_updateTask_self ht _
  have hsome : e₁.serversOf s now ≠ [] := mt serversOf_eq_nil.mp hservers
  obtain ⟨first, others, hlist⟩ := exists_cons_of_ne_nil hsome
  set server := pickServer [] (first :: others) first
  have hserver : server ∈ e.configuredServers s := by
    have hmem : server ∈ e₁.serversOf s now := hlist ▸ pickServer_mem [] others first
    exact mem_serversOf.mp hmem
  have hbudget : (t.choose c rest s).attempt < maxAttempts := by
    show t.attempt < maxAttempts
    rw [hattempt]
    decide
  have hchooses : Chooses e₁ id (t.choose c rest s) now server :=
    ⟨ht₁, hbudget, first, others, hlist, rfl⟩
  have ht₂ := get_updateTask_self ht₁ fun t => { t with tried := t.tried ++ [server] }
  rw [hchooses.nextAttempt_eq]
  refine asks_send ?_ ht₂ ⟨ho, rfl, rfl, rfl, rfl, rfl⟩ hattempt hentropy hroom
    (hroutes.route ▸ hroute)
    (hroutes.servers ▸ hserver) ?_ now
  · exact ⟨hroutes.route, hroutes.servers, hroutes.interface⟩
  · exact fun c' hc' => hall c' (mem_cons_of_mem _ hc')

/-! ### A reply -/

theorem keepAnswer_absent {M : Message} {code : UInt16} {k : CacheKey}
    (hk : k ≠ CacheKey.new t.candidate t.rtype t.scopeId) (habsent : e.cache.entries.get k = none) :
    (e.keepAnswer t M code server now).cache.entries.get k = none := by
  unfold keepAnswer
  dsimp only
  split
  · rw [Option.eq_none_iff_forall_ne_some]
    intro x hx
    rcases Cache.insert_entries hx with ⟨hkey, -⟩ | ⟨-, hx⟩
    · exact hk hkey
    · rw [habsent] at hx
      cases hx
  · exact habsent

theorem keepAnswer_same (e : Engine) (t : Task) (M : Message) (code : UInt16) (server : IpAddr)
    (now : Instant) :
    SameRoutes e (e.keepAnswer t M code server now) ∧
      (e.keepAnswer t M code server now).txs = e.txs ∧
      (e.keepAnswer t M code server now).entropy = e.entropy := by
  unfold keepAnswer
  split <;> exact ⟨.of_scopes rfl rfl, rfl, rfl⟩

theorem closeTx_same (e : Engine) (x : Tx) (tx : Txid) (f : Counters → Counters) :
    SameRoutes e ((e.closeTx tx x).count f) ∧ ((e.closeTx tx x).count f).txs = e.txs.remove tx ∧
      ((e.closeTx tx x).count f).entropy = e.entropy ∧ ((e.closeTx tx x).count f).cache = e.cache :=
  ⟨.of_scopes rfl rfl, rfl, rfl, rfl⟩

theorem updateTask_same (e : Engine) (id : TaskId) (f : Task → Task) :
    SameRoutes e (e.updateTask id f) :=
  .of_scopes rfl rfl

variable {bytes : Bytes} {M : Message}

theorem Awaits.answers (h : Awaits id q rtype noCache c rest s tx server e)
    (hM : e.matchingResponse tx bytes = some M) (hwhole : M.header.truncated = false)
    (hcode : isAnswer M.rcode = true) (now : Instant) :
    ∃ x t, Answers ⟨e, .received tx bytes now⟩ tx x t M ∧ x.task = id ∧ x.server = server ∧
      t.At q rtype noCache c rest s ∧ t.attempt = 1 := by
  obtain ⟨x, hx, rfl, hserver⟩ := h.query
  obtain ⟨t, ht, hat, hattempt⟩ := h.task
  refine ⟨x, t, ⟨⟨⟨bytes, now, rfl, hM⟩, hx, ht⟩, ?_, hcode⟩, rfl, hserver, hat, hattempt⟩
  rw [Tx.truncated, hwhole, Bool.false_and]

/-- A name that does not exist, when there are more: the answer is stored, and the search goes on
with the attempt given back and room for one more transaction. -/
theorem Awaits.moves_on (h : Awaits id q rtype noCache c rest s tx server e) (hmore : rest ≠ [])
    (hM : e.matchingResponse tx bytes = some M) (hwhole : M.header.truncated = false)
    (hcode : M.rcode = 3) (now : Instant) :
    ∃ e' t now', e.received tx bytes now = nextCandidateLoop id t.rtype t.noCache now' rest e' ∧
      e'.tasks.get id = some t ∧ t.At q rtype noCache c rest s ∧ t.attempt = 0 ∧ SameRoutes e e' ∧
      e'.entropy = e.entropy ∧ e'.txs.len < maxInFlight ∧
      ∀ n s', c.eq n = false → e.cache.entries.get (CacheKey.new n rtype s') = none →
        e'.cache.entries.get (CacheKey.new n rtype s') = none := by
  obtain ⟨x, t, hans, rfl, -, hat, hattempt⟩ :=
    h.answers hM hwhole (isAnswer_iff.mpr (.inr hcode)) now
  obtain ⟨now', heq⟩ := hans.apply_eq
  have hget := hans.get_task (fun c => { c with upstreamAnswered := c.upstreamAnswered + 1 }) now'
  have hget' := get_updateTask_self hget fun t => { t with attempt := t.attempt - 1 }
  have hmoves : outcomeOf M.rcode = .notFound ∧ t.candidates ≠ [] := by
    rw [hcode, hat.candidates]
    exact ⟨rfl, hmore⟩
  have hlen : (e.txs.remove tx).len + 1 = e.txs.len := Table.len_remove hans.live
  have hreceived : e.received tx bytes now = _ := heq
  rw [accept, if_pos hmoves, nextCandidate, hget'] at hreceived
  -- what is true of the state now, so that it need not be looked into again
  obtain ⟨hclosed, htxs, hentropy, hcache⟩ :=
    closeTx_same e x tx fun c => { c with upstreamAnswered := c.upstreamAnswered + 1 }
  generalize (e.closeTx tx x).count _ = e₁ at *
  obtain ⟨hkept, htxs', hentropy'⟩ := keepAnswer_same e₁ t M M.rcode x.server now'
  have habsent : ∀ n s', c.eq n = false → e₁.cache.entries.get (CacheKey.new n rtype s') = none →
      (e₁.keepAnswer t M M.rcode x.server now').cache.entries.get (CacheKey.new n rtype s') =
        none := by
    refine fun n s' hn hnone => keepAnswer_absent (fun hkey => ?_) hnone
    have hname := Name.eq_symm (CacheKey.new_eq_iff.mp hkey).1
    rw [Task.candidate, hat.current, Option.getD_some, hn] at hname
    cases hname
  generalize e₁.keepAnswer t M M.rcode x.server now' = e₂ at *
  refine ⟨_, _, now', hat.candidates ▸ hreceived, hget', ?_, ?_, ?_, hentropy'.trans hentropy, ?_,
    hcache ▸ habsent⟩
  · exact ⟨hat.owner, hat.rtype, hat.noCache, hat.current, hat.candidates, hat.scope⟩
  · show t.attempt - 1 = 0
    rw [hattempt]
  · exact (hclosed.trans hkept).trans (updateTask_same e₂ _ _)
  · show e₂.txs.len < maxInFlight
    rw [htxs', htxs]
    exact hlen.le.trans h.room

/-- **The name does not exist: the next one is asked for**, and the attempt is not charged. -/
theorem Awaits.next {c' : Name} (h : Awaits id q rtype noCache c (c' :: rest) s tx server e)
    (hroutes : SameRoutes e₀ e) (hapart : ∀ n ∈ c' :: rest, c.eq n = false)
    (hM : e.matchingResponse tx bytes = some M) (hwhole : M.header.truncated = false)
    (hcode : M.rcode = 3) (now : Instant) :
    Asks e₀ id q rtype noCache c' rest (e.received tx bytes now) := by
  obtain ⟨e', t, now', heq, ht, hat, hattempt, hsame, hentropy, hroom, habsent⟩ :=
    h.moves_on (cons_ne_nil c' rest) hM hwhole hcode now
  obtain rfl := hat.rtype
  obtain rfl := hat.noCache
  rw [heq]
  refine asks_candidate (hroutes.trans hsame) ht hat.owner hattempt
    (hentropy ▸ h.entropy) hroom ?_ now'
  exact fun n hn => (h.askable n hn).congr hsame fun s' => habsent n s' (hapart n hn)

/-- **Any other answer, and the last one, completes the question.** -/
theorem Awaits.done (h : Awaits id q rtype noCache c rest s tx server e)
    (hM : e.matchingResponse tx bytes = some M) (hwhole : M.header.truncated = false)
    (hcode : isAnswer M.rcode = true) (hlast : M.rcode = 3 → rest = []) (now : Instant) :
    ∃ a, (e.received tx bytes now).2 = [.done q (.answer a)] ∧ a.outcome = outcomeOf M.rcode ∧
      a.rcode = M.rcode ∧
      a.server = some server ∧ a.interface = e.interfaceOf s ∧ a.resolvedName = some c := by
  obtain ⟨x, t, hans, rfl, rfl, hat, hattempt⟩ := h.answers hM hwhole hcode now
  obtain ⟨now', heq⟩ := hans.apply_eq
  have hget := hans.get_task (fun c => { c with upstreamAnswered := c.upstreamAnswered + 1 }) now'
  set e₁ := (e.closeTx tx x).count fun c => { c with upstreamAnswered := c.upstreamAnswered + 1 }
  have hsame : SameRoutes e (e₁.keepAnswer t M M.rcode x.server now') :=
    (closeTx_same e x tx _).1.trans (keepAnswer_same e₁ t M M.rcode x.server now').1
  have hends : ¬ (outcomeOf M.rcode = .notFound ∧ t.candidates ≠ []) := by
    rintro ⟨hout, hmore⟩
    exact hmore (hat.candidates.trans (hlast (code_of_notFound hcode hout)))
  have hreceived : e.received tx bytes now = accept e₁ x.task t M M.rcode x.server now' := heq
  rw [hreceived, accept, if_neg hends, settle_eq hget rfl]
  refine ⟨(e₁.keepAnswer t M M.rcode x.server now').replyAnswer M t M.rcode x.server, ?_, rfl, rfl,
    rfl, ?_, ?_⟩
  · simp only [settled, hat.owner]
  · simp only [replyAnswer, Task.scopeId, hat.scope, Option.getD_some, hsame.interface]
  · simp only [replyAnswer, Task.candidate, hat.current, Option.getD_some]

/-! ### The whole search -/

theorem Asks.query (h : Asks e₀ id q rtype noCache c rest r) :
    ∃ s tx server query, e₀.route c = some s ∧ r.2 = [query] ∧ QueryFor e₀ rtype c query ∧
      query.sent = some tx ∧
      Awaits id q rtype noCache c rest s tx server r.1 ∧
      ∀ a : Answer, a.server = some server → a.interface = e₀.interfaceOf s →
        AnsweredBy a query := by
  obtain ⟨s, tx, server, dnsId, question, hroute, hserver, hname, hrtype, hacts, hwaits⟩ := h.waits
  refine ⟨s, tx, server, _, hroute, hacts, ?_, rfl, hwaits, fun a ha hi =>
    ⟨tx, server, _, false, _, rfl, ha, hi⟩⟩
  exact ⟨s, tx, server, dnsId, question, hroute, hserver, hname, hrtype, rfl⟩

/-- **After as many names that do not exist**, the question has sent one query for each, and is at
the next one. -/
theorem Asks.after_replies {codes : List UInt16} (k : ℕ) (h : Asks e₀ id q rtype noCache c rest r)
    (hnames : ∀ n ∈ rest, n ∈ names) (hapart : (c :: rest).Pairwise fun a b => a.eq b = false)
    (hk : k ≤ rest.length) (ha : Answered id names rtype r (List.replicate k 3 ++ codes) rounds) :
    ∃ sends c' rest' r' rounds', (c :: rest).drop k = c' :: rest' ∧ (∀ n ∈ rest', n ∈ names) ∧
      List.Forall₂ (QueryFor e₀ rtype) ((c :: rest).take k) sends ∧
      rounds = sends.map (fun a => [a]) ++ rounds' ∧
      Asks e₀ id q rtype noCache c' rest' r' ∧ Answered id names rtype r' codes rounds' := by
  induction k generalizing c rest r rounds with
  | zero => exact ⟨[], c, rest, r, rounds, rfl, hnames, .nil, rfl, h, ha⟩
  | succ k ih =>
    obtain ⟨c', rest', rfl⟩ := exists_cons_of_length_pos (Nat.zero_lt_of_lt hk)
    obtain ⟨s, tx, server, query, -, hacts, hquery, hsent, hwaits, -⟩ := h.query
    rw [pairwise_cons] at hapart
    cases ha with
    | @reply _ e tx' bytes now M _ _ rounds' hsent' hmean hM hwhole hcode ha =>
      obtain rfl : tx' = tx := by simpa [hacts, hsent] using hsent'
      have hnext := (hwaits.meanwhile hmean hnames).next
        (h.routes.trans hmean.routes) hapart.1 hM hwhole hcode now
      obtain ⟨sends, c'', rest'', r', rounds'', hdrop, hnames', hsends, rfl, hasks, hleft⟩ :=
        ih hnext (fun n hn => hnames n (mem_cons_of_mem _ hn)) hapart.2
          (Nat.le_of_succ_le_succ hk) ha
      refine ⟨query :: sends, c'', rest'', r', rounds'', hdrop, hnames', .cons hquery hsends, ?_,
        hasks, hleft⟩
      rw [hacts]
      rfl

/-- The rounds of a search that is over: a query for each of the names, and then the completion with
an answer that names the server and the interface of the last of them. -/
def Searched (e : Engine) (rtype : UInt16) (q : Qid) (names : List Name) (a : Answer)
    (rounds : List (List Action)) : Prop :=
  ∃ sends query, rounds = (sends ++ [query]).map (fun x => [x]) ++ [[.done q (.answer a)]] ∧
    List.Forall₂ (QueryFor e rtype) names (sends ++ [query]) ∧ AnsweredBy a query

theorem take_succ_of_drop (h : names.drop k = c :: rest) :
    names.take (k + 1) = names.take k ++ [c] ∧ names[k]? = some c ∧
      names.length = k + 1 + rest.length := by
  have hget : names[k]? = some c := by rw [← List.head?_drop, h, List.head?_cons]
  have hlen := congrArg List.length h
  rw [length_drop, length_cons] at hlen
  exact ⟨by rw [take_add_one, hget, Option.toList_some], hget, by omega⟩

section

variable (h : Asks e₀ id q rtype noCache c rest r) (hnames : ∀ n ∈ rest, n ∈ names)
  (hapart : (c :: rest).Pairwise fun a b => a.eq b = false) (hk : k < (c :: rest).length)
include h hnames hapart hk

/-- **A search that waits after the replies** has sent a query for every name so far. -/
theorem Asks.waiting (ha : Answered id names rtype r (List.replicate k 3) rounds) :
    ∃ sends, rounds = sends.map (fun a => [a]) ∧
      List.Forall₂ (QueryFor e₀ rtype) ((c :: rest).take (k + 1)) sends := by
  rw [← append_nil (List.replicate k 3)] at ha
  obtain ⟨sends, c', rest', r', rounds', hdrop, -, hsends, rfl, hasks, hleft⟩ :=
    h.after_replies k hnames hapart (Nat.le_of_lt_succ hk) ha
  obtain ⟨s, tx, server, query, -, hacts, hquery, -⟩ := hasks.query
  cases hleft
  refine ⟨sends ++ [query], by rw [hacts, map_append]; rfl, ?_⟩
  rw [(take_succ_of_drop hdrop).1]
  exact rel_append hsends (.cons hquery .nil)

/-- **A search that gets its last reply is completed with it.** -/
theorem Asks.completed {code : UInt16} (hcode : isAnswer code = true)
    (hlast : code = 3 → k + 1 = (c :: rest).length)
    (ha : Answered id names rtype r (List.replicate k 3 ++ [code]) rounds) :
    ∃ a, Searched e₀ rtype q ((c :: rest).take (k + 1)) a rounds ∧ a.outcome = outcomeOf code ∧
      a.rcode = code ∧
      a.resolvedName = (c :: rest)[k]? := by
  obtain ⟨sends, c', rest', r', rounds', hdrop, hnames', hsends, rfl, hasks, hleft⟩ :=
    h.after_replies k hnames hapart (Nat.le_of_lt_succ hk) ha
  obtain ⟨htake, hget, hlen⟩ := take_succ_of_drop hdrop
  obtain ⟨s, tx, server, query, -, hacts, hquery, hsent, hwaits, hby⟩ := hasks.query
  cases hleft with
  | @reply _ e tx' bytes now M _ _ rounds' hsent' hmean hM hwhole hcode' hleft =>
    subst hcode'
    obtain rfl : tx' = tx := by simpa [hacts, hsent] using hsent'
    have hrest : M.rcode = 3 → rest' = [] := by
      intro h3
      have := hlast h3
      exact length_eq_zero_iff.mp (by omega)
    obtain ⟨a, hdone, hout, hrcode, hserver, hinterface, hname⟩ :=
      (hwaits.meanwhile hmean hnames').done hM hwhole hcode hrest now
    rw [hmean.routes.interface, hasks.routes.interface] at hinterface
    cases hleft
    refine ⟨a, ⟨sends, query, ?_, ?_, hby a hserver hinterface⟩, hout, hrcode,
      hname.trans hget.symm⟩
    · rw [hacts, hdone, map_append, append_assoc]
      rfl
    · rw [htake]
      exact rel_append hsends (.cons hquery .nil)

end

/-- A question that has no local answer is searched for. -/
theorem resolveName_searches {name : Name} (hsyn : e.synthetic name rtype = none)
    (hne : e.candidates name ≠ []) :
    e.resolveName q name rtype noCache now =
      nextCandidateLoop e.nextId rtype noCache now (e.candidates name)
        ((e.startTask (.resolve q) name rtype noCache).updateTask e.nextId fun t =>
          { t with candidates := e.candidates name }) := by
  have ht : (e.startTask (.resolve q) name rtype noCache).tasks.get e.nextId =
      some { owner := .resolve q, original := name, rtype, noCache } := by
    simp only [startTask, Table.get_insert, if_true]
  have hsyn' : (e.startTask (.resolve q) name rtype noCache).synthetic name rtype = none := hsyn
  have hcs : (e.startTask (.resolve q) name rtype noCache).candidates name = e.candidates name :=
    rfl
  have ht' := get_updateTask_self ht fun t => { t with candidates := e.candidates name }
  simp only [resolveName, advance, ht, and_self, if_true, hsyn', hcs, if_neg hne,
    nextCandidate, ht']

/-- **A question asks for its first candidate.** -/
theorem Op.Resolves.asks_first {op : Op} {name : Name} (hop : op.Resolves q name rtype noCache)
    (hsyn : e.synthetic name rtype = none) (hcs : e.candidates name = c :: rest)
    (hentropy : ∀ n, e.entropy n ≠ none) (hroom : e.txs.len < maxInFlight)
    (hall : ∀ n ∈ c :: rest, Askable e rtype n) :
    Asks e e.nextId q rtype noCache c rest (apply e op) := by
  have hcs' : e.countQuery.candidates name = c :: rest := hcs
  have hsyn' : e.countQuery.synthetic name rtype = none := hsyn
  have hne : e.countQuery.candidates name ≠ [] := hcs' ▸ cons_ne_nil c rest
  have ht : (e.countQuery.startTask (.resolve q) name rtype noCache).tasks.get e.nextId =
      some { owner := .resolve q, original := name, rtype, noCache } := by
    simp only [startTask, countQuery, count, Table.get_insert, if_true]
  have ht' := get_updateTask_self ht fun t => { t with candidates := c :: rest }
  have hsame : SameRoutes e ((e.countQuery.startTask (.resolve q) name rtype noCache).updateTask
      e.nextId fun t =>
      { t with candidates := c :: rest }) := ⟨rfl, rfl, rfl⟩
  rw [hop.apply_eq, resolveName_searches hsyn' hne, hcs']
  exact asks_candidate hsame ht' rfl rfl hentropy hroom hall op.now

end Search

/-- **Every search candidate is asked.**  Let a question be asked for which there is no local
answer, while the entropy source succeeds and there is room for a transaction, and let every
candidate be routed to a scope with servers and not be in the cache.  The candidates differ in more
than their case.  While the names asked for do not exist, the question sends one query after the
other, in order; when none of them exists it is completed once, with the reply to the last; when one
of them exists it is completed with that, and no further name is asked for. -/
theorem asks_every_candidate {e : Engine} {op : Op} {q : Qid} {name : Name} {rtype : UInt16}
    {noCache : Bool} (hop : op.Resolves q name rtype noCache) (hsyn : e.synthetic name rtype = none)
    (hne : e.candidates name ≠ []) (hentropy : ∀ n, e.entropy n ≠ none)
    (hroom : e.txs.len < maxInFlight) (hall : ∀ c ∈ e.candidates name, Askable e rtype c) :
    ((e.candidates name).Pairwise fun a b => a.eq b = false) ∧
    (∀ k rounds, k < (e.candidates name).length →
      Answered e.nextId (e.candidates name) rtype (apply e op) (List.replicate k 3) rounds →
      ∃ sends, rounds = sends.map (fun a => [a]) ∧
        List.Forall₂ (QueryFor e rtype) ((e.candidates name).take (k + 1)) sends) ∧
    (∀ rounds, Answered e.nextId (e.candidates name) rtype (apply e op)
        (List.replicate (e.candidates name).length 3) rounds →
      ∃ a, Searched e rtype q (e.candidates name) a rounds ∧ a.outcome = .notFound ∧ a.rcode = 3) ∧
    ∀ k rounds, k < (e.candidates name).length →
      Answered e.nextId (e.candidates name) rtype (apply e op) (List.replicate k 3 ++ [0]) rounds →
      ∃ a, Searched e rtype q ((e.candidates name).take (k + 1)) a rounds ∧ a.outcome = .found ∧
        a.resolvedName = (e.candidates name)[k]? := by
  have hapart := candidates_distinct e name
  refine ⟨hapart, ?_⟩
  obtain ⟨c, rest, hcs⟩ := exists_cons_of_ne_nil hne
  rw [hcs] at hall hapart ⊢
  have hasks := hop.asks_first hsyn hcs hentropy hroom hall
  have hnames : ∀ n ∈ rest, n ∈ c :: rest := fun n hn => mem_cons_of_mem _ hn
  refine ⟨fun k rounds hk ha => hasks.waiting hnames hapart hk ha, fun rounds ha => ?_,
    fun k rounds hk ha => ?_⟩
  · rw [length_cons, replicate_succ'] at ha
    obtain ⟨a, hrounds, hout, hcode, -⟩ :=
      hasks.completed hnames hapart (Nat.lt_succ_self rest.length) rfl (fun _ => rfl) ha
    rw [take_of_length_le (Nat.le_refl (rest.length + 1))] at hrounds
    exact ⟨a, hrounds, hout, hcode⟩
  · obtain ⟨a, hrounds, hout, -, hname⟩ :=
      hasks.completed hnames hapart hk rfl (fun h => by cases h) ha
    exact ⟨a, hrounds, hout, hname⟩

/-- A single label. -/
def printer : Name := ⟨[ascii "printer"], by decide⟩

/-- The first candidate for it. -/
def printerExample : Name := ⟨[ascii "printer", ascii "example"], by decide⟩

/-- The second. -/
def printerHome : Name := ⟨[ascii "printer", ascii "home"], by decide⟩

/-- Two search domains are configured. -/
def twoDomains : Engine := (ran zeros (searchOnLan.take 1)).2

/-- The label is asked for. -/
def askPrinter : Op := .resolve 7 (ascii "printer") Rtype.a false 1000

/-- A reply to the query for the name: it does not exist. -/
def noSuchName (name : Name) : Message where
  header := { response := true, rcode := 3 }
  questions := [Question.new name Rtype.a]

theorem asks_every_candidate_twoDomains :
    ∃ rounds a, Answered 1 [printerExample, printerHome] Rtype.a (apply twoDomains askPrinter)
      [3, 3] rounds ∧
      Searched twoDomains Rtype.a 7 [printerExample, printerHome] a rounds ∧ a.outcome = .notFound ∧
        a.rcode = 3 := by
  have hop : askPrinter.Resolves 7 printer Rtype.a false := .resolve (by decide +kernel)
  have hcs : twoDomains.candidates printer = [printerExample, printerHome] := by decide +kernel
  have hsyn : twoDomains.synthetic printer Rtype.a = none := by decide +kernel
  have hentropy : ∀ n, twoDomains.entropy n ≠ none := fun n => Option.some_ne_none _
  have hall : ∀ c ∈ twoDomains.candidates printer, Askable twoDomains Rtype.a c := by
    rw [hcs, forall_mem_cons, forall_mem_singleton]
    exact ⟨⟨"lan", by decide +kernel⟩, ⟨"lan", by decide +kernel⟩⟩
  have hresult := asks_every_candidate hop hsyn (by rw [hcs]; decide) hentropy
    (by decide +kernel) hall
  rw [hcs] at hresult
  have hfirst : (apply twoDomains askPrinter).1.matchingResponse 2
      (noSuchName printerExample).wire =
      some (noSuchName printerExample) := by decide +kernel
  have hsecond :
      ((apply twoDomains askPrinter).1.received 2 (noSuchName printerExample).wire
        (secs 1)).1.matchingResponse 3
        (noSuchName printerHome).wire = some (noSuchName printerHome) := by decide +kernel
  have hanswered : Answered 1 [printerExample, printerHome] Rtype.a (apply twoDomains askPrinter)
      [3, 3] _ :=
    .reply (by decide +kernel) (.refl _ _ _ _ _) hfirst rfl rfl
      (.reply (by decide +kernel) (.refl _ _ _ _ _) hsecond rfl rfl
        (.asked (Engine.received _ _ _ (secs 2))))
  obtain ⟨a, ha⟩ := hresult.2.2.1 _ hanswered
  exact ⟨_, a, hanswered, ha⟩

end Resolvd.Engine
