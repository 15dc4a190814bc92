import Resolvd.Engine.Scopes
import Resolvd.Engine.Queries
import Resolvd.Engine.Outcomes

/-!
# Queries and scopes

A query goes to a server of the scope its candidate was routed to, as that scope is configured when
the query is sent, on the scope's interface, and asks for the candidate (`Confined`).  The one
exception is the retry over TCP after a truncated reply, which goes to the server that was asked
before, wherever it is now (`retry_leaves_scope`); by the theorem `Runs.confined` all queries of a
run are confined exactly if that server is still configured whenever such a reply comes to a task
that can be sent again.
-/

namespace Resolvd.Engine

open Lib Dns List

variable {st : Step Engine Op} {tx : Txid}

/-! ### Where queries go -/

/-- The operation brings a truncated reply of this server to a UDP query of a task with this scope.
-/
def Truncates (st : Step Engine Op) (server : IpAddr) (s : String) : Prop :=
  ∃ tx x t M, Reply st tx x t M ∧ x.truncated M = true ∧ x.server = server ∧ t.scopeId = s

/-- A new transaction goes to a configured server of its task's scope, or it is the retry over TCP.
-/
def Aimed (st : Step Engine Op) (m : Mid) : Prop :=
  ∀ tx x t, m.engine.txs.get tx = some x → m.engine.tasks.get x.task = some t →
    st.before.nextId ≤ tx →
    (x.tcp = false ∧ x.server ∈ st.before.configuredServers t.scopeId) ∨
      (x.tcp = true ∧ Truncates st x.server t.scopeId)

theorem Aimed.move {m m' : Mid} (hs : Sound st m) (h : Aimed st m) (hm : Move st m m') :
    Aimed st m' := by
  intro tx x t hx ht hge
  cases hm with
  | tweak hm =>
    have hq := hm.quiet
    rw [hq.txs] at hx
    obtain ⟨t₀, ht₀, -, hst⟩ := hq.task_old ht
    have hscope : t.scopeId = t₀.scopeId := by
      simp only [Task.scopeId, (hst (hs.linked.tx_task tx x hx).1).scope]
    rw [hscope]
    exact h tx x t₀ hx ht₀ hge
  | shift hm =>
    rcases hm.tx_cases hs.linked hx ht with ⟨hx, ht⟩ | ⟨t₀, random, hl⟩
    · exact h tx x t hx ht hge
    · have hscope : t.scopeId = t₀.scopeId := by rw [hl.after]; rfl
      rw [hscope]
      have hop : st.input.isConfig = false := hs.not_config hl.loose
      generalize hserver : x.server = server at *
      generalize htcp : x.tcp = tcp at *
      have htarget := hl.target
      rw [hserver, htcp] at htarget
      cases htarget with
      | listed h =>
        rw [(hs.steady.settings hop).configuredServers_eq] at h
        exact .inl ⟨rfl, h⟩
      | retry hr hid htrunc heq hsrv =>
        exact .inr ⟨rfl, _, _, _, _, hr, htrunc, hsrv.symm, by rw [heq]; rfl⟩

theorem Linked.aimed (hl : Linked [] st.before) : Aimed st (.last st) := by
  have hpath : ∀ m, Path st (.first st) m → Sound st m ∧ Aimed st m := by
    intro m hp
    induction hp with
    | refl =>
      exact ⟨sound_first hl, fun tx x t hx ht hge => absurd (hl.tx_lt tx x hx) (not_lt.mpr hge)⟩
    | tail _ hm ih => exact ⟨ih.1.move hm, ih.2.move ih.1 hm⟩
  exact (hpath _ (apply_path st)).2

/-- A `Send` is that of a transaction the step opened. -/
theorem Sound.send (hs : Sound st (.last st)) {server : IpAddr} {interface : Option String}
    {tcp : Bool} {payload : Bytes} (h : .send tx server interface tcp payload ∈ actions st) :
    st.before.nextId ≤ tx ∧ ∃ x t, (after st).txs.get tx = some x ∧
      (after st).tasks.get x.task = some t ∧
      t.tx = some tx ∧ x.server = server ∧ x.tcp = tcp ∧
      t.scope.bind st.before.interfaceOf = interface ∧
      queryPayload x.dnsId x.question = payload := by
  have hmem : tx ∈ (actions st).filterMap Action.sent := mem_filterMap.mpr ⟨_, h, rfl⟩
  obtain ⟨hge, x, hx⟩ := hs.traffic.sent tx hmem
  obtain ⟨-, t, ht, hsend⟩ := hs.traffic.new_tx tx x hx hge
  obtain ⟨-, t', ht', htx⟩ := hs.linked.tx_task tx x hx
  obtain rfl := Option.mem_unique ht' ht
  have heq := eq_of_nodup_filterMap hs.traffic.sent_once hsend h rfl rfl
  obtain ⟨-, h1, h2, h3, h4⟩ := Action.send.inj heq
  exact ⟨hge, x, _, hx, ht, htx, h1, h3, h2, h4⟩

/-- The query goes to a server of the scope its candidate was routed to, on the interface of that
scope, and asks for the candidate. -/
def Confined (old : EngineLog) (st : Step Engine Op) (tx : Txid) (server : IpAddr)
    (interface : Option String) (payload : Bytes) : Prop :=
  ∃ x t c s, (after st).txs.get tx = some x ∧ (after st).tasks.get x.task = some t ∧
    t.tx = some tx ∧
    t.current = some c ∧ t.scope = some s ∧ RoutedIn (st :: old) c s ∧
    InScope st.before s server interface ∧
    Message.decode payload = .ok (Message.query x.dnsId x.question) ∧ x.question.name.eq c = true ∧
    x.question.rtype = t.rtype

/-- A query of the task can be sent once this transaction is over: the task has an attempt left,
there is room among the transactions, and the entropy source has octets. -/
structure Retries (e : Engine) (tx : Txid) (t : Task) : Prop where
  attempt : t.attempt < maxAttempts
  room : (e.txs.remove tx).len < maxInFlight
  entropy : e.entropy e.draws ≠ none

/-- If the operation brings a truncated reply to a UDP query whose task can be sent again, then the
server of that query is still one of the task's scope. -/
def KeepsServer (st : Step Engine Op) : Prop :=
  ∀ tx x t M, Reply st tx x t M → x.truncated M = true → Retries st.before tx t →
    x.server ∈ st.before.configuredServers t.scopeId

theorem send_notMem_settle {e : Engine} {id : TaskId} {t : Task} (ht : e.tasks.get id = some t)
    (htx : t.tx = none) (a : Answer) {server : IpAddr} {interface : Option String} {tcp : Bool}
    {payload : Bytes} : .send tx server interface tcp payload ∉ (e.settle id a).2 := by
  rw [settle_eq ht htx]
  intro h
  obtain ⟨_, h'⟩ := settled_done h
  cases h'

/-- **A truncated reply is asked for again over TCP exactly if its task can be sent again.** -/
theorem Reply.retried_iff {x : Tx} {t : Task} {M : Message} (h : Reply st tx x t M)
    (htrunc : x.truncated M = true) :
    (∃ tx' interface payload, .send tx' x.server interface true payload ∈ actions st) ↔
      Retries st.before tx t := by
  obtain ⟨bytes, now, hop, hM⟩ := h.input
  -- the engine in which the retry is sent, and its task
  let e := (st.before.closeTx tx x).count fun c =>
    { c with upstreamAnswered := c.upstreamAnswered + 1 }
  have htask : e.tasks.get x.task = some { t with tx := none } := get_updateTask_self h.task _
  have hacts : actions st = (e.send x.task x.server true now).2 := by
    have ht : { st.before with txs := st.before.txs.remove tx }.tasks.get x.task = some t := h.task
    simp only [Tx.truncated] at htrunc
    simp only [actions, hop, apply, received, h.live, hM, ht, handleReply, htrunc, if_true]
    rfl
  rw [hacts, send, htask]
  dsimp only
  split
  · next hlast =>
    refine iff_of_false ?_ fun hr => absurd hr.attempt (not_lt.mpr hlast)
    rintro ⟨tx', interface, payload, hsend⟩
    exact send_notMem_settle htask rfl _ hsend
  · next hattempt =>
    split
    · next hfull =>
      refine iff_of_false ?_ fun hr => absurd hr.room (not_lt.mpr hfull)
      rintro ⟨tx', interface, payload, hsend⟩
      exact send_notMem_settle (e := e.count _) htask rfl _ hsend
    · next hroom =>
      cases hrandom : st.before.entropy st.before.draws with
      | none =>
        refine iff_of_false ?_ fun hr => hr.entropy hrandom
        rintro ⟨tx', interface, payload, hsend⟩
        rw [show e.entropy e.draws = none from hrandom] at hsend
        exact send_notMem_settle (e := { e with draws := e.draws + 1 }.count _) htask rfl _ hsend
      | some random =>
        rw [show e.entropy e.draws = some random from hrandom]
        exact iff_of_true ⟨_, _, _, mem_singleton_self _⟩
          ⟨not_le.mp hattempt, not_le.mp hroom, by simp [hrandom]⟩

theorem Barren.of_closes {x : Tx} {t : Task} {acts : List Action} (h : Closes st tx acts)
    (hx : st.before.txs.get tx = some x) (ht : st.before.tasks.get x.task = some t)
    (hno : ∀ M, ¬ Answers st tx x t M) : Barren st := by
  refine ⟨h.asks, fun q hop => ?_, fun tx' x' t' M hM => ?_⟩
  · cases h with
    | received hop' => cases hop'.symm.trans hop
    | failed hop' => cases hop'.symm.trans hop
    | localFailed hop' => cases hop'.symm.trans hop
    | expired hop' => cases hop'.symm.trans hop
  · obtain rfl := h.reply hM.toReply
    obtain rfl := Option.mem_unique hM.live hx
    obtain rfl := Option.mem_unique hM.task ht
    exact hno M hM

/-- If the retries of a step keep to their scope, so does every transaction it opens. -/
theorem KeepsServer.listed (hk : KeepsServer st) (hs : Sound st (.last st)) {x : Tx} {t : Task}
    (hx : (after st).txs.get tx = some x) (ht : (after st).tasks.get x.task = some t)
    (hge : st.before.nextId ≤ tx) : x.server ∈ st.before.configuredServers t.scopeId := by
  rcases hs.start.aimed tx x t hx ht hge with ⟨-, hlisted⟩ | ⟨htcp, htrunc⟩
  · exact hlisted
  · obtain ⟨-, t', ht', hsend⟩ := hs.traffic.new_tx tx x hx hge
    rw [htcp] at hsend
    obtain ⟨tx₁, x₁, t₁, M₁, hr, htrunc, hserver, hscope⟩ := htrunc
    rw [← hserver] at hsend ⊢
    exact hscope ▸ hk tx₁ x₁ t₁ M₁ hr htrunc ((hr.retried_iff htrunc).mp ⟨tx, _, _, hsend⟩)

/-- If the queries of a step are confined, its retries keep to their scope. -/
theorem KeepsServer.of_confined {old : EngineLog} (hs : Sound st (.last st))
    (hids : (st.before.scopes.map Scope.id).Nodup)
    (hfb : fallbackScope ∉ st.before.scopes.map Scope.id)
    (hconf : ∀ tx server interface tcp payload, .send tx server interface tcp payload ∈ actions st →
      Confined old st tx server interface payload) : KeepsServer st := by
  intro tx₂ x₂ t₂ M₂ hr₂ htrunc hretry
  obtain ⟨tx, interface, payload, hsend⟩ := (hr₂.retried_iff htrunc).mpr hretry
  obtain ⟨x, t, c, s, hx, ht, htx, hc, hscope, -, hin, -⟩ := hconf tx _ interface true payload hsend
  -- the task that sends is the one whose reply was truncated
  obtain ⟨hge, x', t', hx', ht', -, -, htcp, -⟩ := hs.send hsend
  obtain rfl := Option.mem_unique hx' hx
  obtain rfl := Option.mem_unique ht' ht
  rcases hs.start.aimed tx x' t' hx ht hge with ⟨hudp, -⟩ | ⟨-, htx₁, x₁, t₁, M₁, hr₁, -, -, hs₁⟩
  · rw [htcp] at hudp
    cases hudp
  · obtain ⟨-, -, rfl, -⟩ := hr₁.unique hr₂
    rw [hs₁, Task.scopeId, hscope, Option.getD_some]
    exact configured_of_inScope hids hfb hin

/-- A task whose transaction ends without an answer, while its scope has no servers, is over. -/
theorem KeepsServer.told (hk : KeepsServer st) (hs : Sound st (.last st)) {x : Tx} {t : Task}
    {acts : List Action} (hc : Closes st tx acts) (hx : st.before.txs.get tx = some x)
    (ht : st.before.tasks.get x.task = some t) (hno : ∀ M, ¬ Answers st tx x t M)
    (hw : Awaited st.before.lookups x.task t) (hempty : st.before.configuredServers t.scopeId = []) :
    (after st).tasks.get x.task = none ∧
      (∀ tx' x', (after st).txs.get tx' = some x' → x'.task ≠ x.task) ∧
      Told (after st).lookups (actions st) t fun a => a.outcome = .unavailable := by
  rcases (Barren.of_closes hc hx ht hno).told ht hw with ⟨t', ht', -, hscope, -⟩ | ⟨hnone, htold⟩
  · -- the task would have a new transaction, to a server of a scope that has none
    exfalso
    obtain ⟨tx', x', htx', hx', htask⟩ := hs.linked.task_tx x.task t' ht' (by simp [Mid.last])
    have hge : st.before.nextId ≤ tx' := by
      by_contra hlt
      have hx₀ := (hs.traffic.old_tx tx' x' hx' (not_le.mp hlt)).1
      obtain rfl := hs.start.tx_unique hx hx₀ htask
      exact absurd ((hc.gone hs.start).symm.trans hx') (by simp)
    have hserver := hk.listed hs hx' (htask ▸ ht') hge
    rw [Task.scopeId, hscope] at hserver
    rw [Task.scopeId] at hempty
    rw [hempty] at hserver
    cases hserver
  · refine ⟨hnone, fun tx' x' hx' heq => ?_, htold⟩
    obtain ⟨-, t', ht', -⟩ := hs.linked.tx_task tx' x' hx'
    rw [heq] at ht'
    exact absurd (hnone.symm.trans ht') (by simp)

/-- **No query leaves its scope, except over TCP.**  In every run whose snapshots have distinct
scope ids: every query that a step sends is confined, if and only if the TCP retries after truncated
replies go to servers that are still configured.  When that is so, a task whose transaction ends
without an answer while its scope is gone or has no servers is over, sends nothing, and its owner is
told `unavailable`, if no query id was used twice.  The same holds of a first attempt, in any state:
without servers `next_attempt` settles the task. -/
theorem Runs.confined {entropy : Entropy} {log : EngineLog} {e : Engine} (h : Runs entropy log e)
    (hsnap : Snapshots log) :
    ((∀ st ∈ log, KeepsServer st) ↔ ∀ new st old, log = new ++ st :: old →
      ∀ tx server interface tcp payload,
      .send tx server interface tcp payload ∈ actions st →
        Confined old st tx server interface payload) ∧
    ((∀ st ∈ log, KeepsServer st) → (asked log).Nodup →
      ∀ st ∈ log, ∀ tx x t acts, Closes st tx acts →
      st.before.txs.get tx = some x → st.before.tasks.get x.task = some t →
      (∀ M, ¬ Answers st tx x t M) →
      st.before.configuredServers t.scopeId = [] →
      (after st).tasks.get x.task = none ∧
        (∀ tx' x', (after st).txs.get tx' = some x' → x'.task ≠ x.task) ∧
        Told (after st).lookups (actions st) t fun a => a.outcome = .unavailable) ∧
    (∀ (e : Engine) id t now, e.tasks.get id = some t → e.configuredServers t.scopeId = [] →
      ∃ a, a.outcome = .unavailable ∧ e.nextAttempt id now = e.settle id a) := by
  -- every step of the run is sound, and begins with well-formed scopes
  have hstep : ∀ st ∈ log, Sound st (.last st) ∧ (st.before.scopes.map Scope.id).Nodup ∧
      fallbackScope ∉ st.before.scopes.map Scope.id := by
    intro st hst
    obtain ⟨new, old, hlog⟩ := append_of_mem hst
    exact ⟨h.sound hst, (h.reached hlog).scope_ids fun st' hst' =>
      hsnap st' (hlog ▸ mem_append_right _ (mem_cons_of_mem _ hst'))⟩
  refine ⟨⟨fun hk new st old hlog tx server interface tcp payload hsend => ?_,
    fun hconf st hst => ?_⟩,
    fun hk hd st hst tx x t acts hc hx ht hno hempty => ?_, fun e id t now ht hempty => ?_⟩
  · -- the transaction of the query, its task and their scope
    have hst : st ∈ log := hlog ▸ mem_append_right _ mem_cons_self
    obtain ⟨hs, -, hfb⟩ := hstep st hst
    obtain ⟨hge, x, t, hx, ht, htx, rfl, rfl, rfl, rfl⟩ := hs.send hsend
    obtain ⟨e₁, h₁⟩ := Machine.Run.of_suffix (M := machine entropy) (hlog ▸ h)
    obtain ⟨-, -, -, rfl⟩ := h₁.of_cons
    have hask := Runs.asking h₁
    obtain ⟨c, hc⟩ := Option.ne_none_iff_exists'.mp (hask.current x.task t ht (by simp))
    obtain ⟨s, hscope, hrouted⟩ := hask.routed x.task t c ht hc
    have hasks := hask.asks tx x t hx ht
    have hsid : t.scopeId = s := by rw [Task.scopeId, hscope, Option.getD_some]
    have hcand : t.candidate = c := by rw [Task.candidate, hc, Option.getD_some]
    refine ⟨x, t, c, s, hx, ht, htx, hc, hscope, hrouted, ?_, decode_queryPayload _ _,
      hcand ▸ hasks.name, hasks.rtype⟩
    rw [hscope]
    exact inScope_of_configured hfb (hsid ▸ (hk st hst).listed hs hx ht hge)
  · obtain ⟨new, old, hlog⟩ := append_of_mem hst
    obtain ⟨hs, hids, hfb⟩ := hstep st hst
    exact .of_confined hs hids hfb (hconf new st old hlog)
  · obtain ⟨new, old, hlog⟩ := append_of_mem hst
    have hold : (asked old).Nodup := hd.sublist
      (.filterMap _ (hlog ▸ (sublist_cons_self st old).trans (sublist_append_right new _)))
    exact (hk st hst).told (hstep st hst).1 hc hx ht hno ((h.reached hlog).awaited hold ht) hempty
  · unfold nextAttempt
    simp only [ht]
    split
    · exact ⟨_, rfl, rfl⟩
    · rw [serversOf_eq_nil.mpr hempty]
      exact ⟨_, rfl, rfl⟩

/-- The reply to the query of the small run is truncated. -/
def truncateOnLan : List Op :=
  askOnLan ++ [.received 2 (replyOnLan { truncated := true } []) (secs 1)]

theorem keepsServer_truncateOnLan : ∀ st ∈ (ran zeros truncateOnLan).1, KeepsServer st := by
  intro st hst tx x t M hr _ _
  obtain ⟨bytes, now, hop, -⟩ := hr.input
  have hrun : (ran zeros truncateOnLan).1 =
      ⟨(ran zeros askOnLan).2, .received 2 (replyOnLan { truncated := true } []) (secs 1)⟩ ::
        (ran zeros askOnLan).1 := rfl
  rw [hrun] at hst
  rcases mem_cons.mp hst with rfl | hst
  · obtain ⟨rfl, -, -⟩ := Op.received.inj hop
    have hx : ((ran zeros askOnLan).2.txs.get 2).map (fun x => (x.server, x.task)) =
        some (lanServer, 1) := by
      decide +kernel
    have ht : ((ran zeros askOnLan).2.tasks.get 1).map Task.scopeId = some lan.id := by
      decide +kernel
    rw [hr.live] at hx
    obtain ⟨hserver, htask⟩ := Prod.mk.inj (Option.some.inj hx)
    rw [← htask, hr.task] at ht
    rw [hserver, Option.some.inj ht]
    decide +kernel
  · have hin := Machine.exec_input hst
    rw [hop] at hin
    simp [askOnLan] at hin

/-- The query of the small run is sent again over TCP, to the server of its interface. -/
theorem confined_truncateOnLan : ∃ st old, Confined old st 3 (.v4 #v[192, 0, 2, 1]) (some "eth0")
    (queryPayload 0 (Question.new peiosExample Rtype.a)) := by
  have hsnap : Snapshots (ran zeros truncateOnLan).1 := snapshots_ran (by decide)
  have hsend : .send 3 (.v4 #v[192, 0, 2, 1]) (some "eth0") true
      (queryPayload 0 (Question.new peiosExample Rtype.a)) ∈
      actions ⟨(ran zeros askOnLan).2,
        .received 2 (replyOnLan { truncated := true } []) (secs 1)⟩ := by
    decide +kernel
  have hconf := (Runs.confined (runs_ran zeros truncateOnLan) hsnap).1.mp keepsServer_truncateOnLan
  exact ⟨_, _, hconf [] _ _ rfl _ _ _ _ _ hsend⟩

/-! ### The exception -/

/-- The interface goes away while the query is under way, and then the truncated reply comes. -/
def lostScope : List Op :=
  askOnLan ++ [.setScopes [], .received 2 (replyOnLan { truncated := true } []) (secs 1)]

/-- **A retry over TCP leaves its scope**: in a run with well-formed snapshots, a step begins
without scopes and without fallback servers, and sends a query all the same: over TCP, to the server
of the scope that has gone, on no interface. -/
theorem retry_leaves_scope :
    Runs zeros (ran zeros lostScope).1 (ran zeros lostScope).2 ∧ Snapshots (ran zeros lostScope).1 ∧
    ∃ st ∈ (ran zeros lostScope).1, st.before.scopes = [] ∧ st.before.fallbackServers = [] ∧
      ∃ payload, .send 3 (.v4 #v[192, 0, 2, 1]) none true payload ∈ actions st ∧
        ∀ old, ¬ Confined old st 3 (.v4 #v[192, 0, 2, 1]) none payload := by
  refine ⟨runs_ran zeros lostScope, snapshots_ran (by decide), _, mem_cons_self, rfl, rfl,
    queryPayload 0 (Question.new peiosExample Rtype.a), ?_, ?_⟩
  · decide +kernel
  · rintro old ⟨x, t, c, s, -, -, -, -, -, -, ⟨-, hserver, -⟩ | ⟨sc, hsc, -⟩, -⟩
    · cases hserver
    · cases hsc

end Resolvd.Engine
