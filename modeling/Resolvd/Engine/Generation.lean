import Resolvd.Engine.Scopes
import Resolvd.Engine.Queries

/-!
# Generations of the cache

A scope begins a new generation when its servers change, when it comes or goes, and when the cache
is flushed (`Advances`).  A cached answer was stored by a task that chose the answered candidate,
and had it routed to the scope of the entry, in the generation the scope still is in
(`Runs.generation`).

A task remembers by one flag that its scope has begun a new generation.  The flag never goes back,
and a task without it chose its candidate in the current generation of its scope (`UpToDate.tasks`);
the queries of such a task went to servers the scope still has (`UpToDate.txs`).
-/

namespace Resolvd.Engine

open Lib Dns List

variable {log : EngineLog} {st : Step Engine Op}

/-! ### The notions -/

/-- In this step the task chose the candidate, which was routed to the scope. -/
structure ChosenIn (st : Step Engine Op) (id : TaskId) (c : Name) (s : String) : Prop where
  routed : st.before.route c = some s
  chosen : ∃ t, (after st).tasks.get id = some t ∧ t.current = some c ∧ t.scope = some s ∧
    ∀ t₀, st.before.tasks.get id = some t₀ → t.candidates.length < t₀.candidates.length

/-- The task chose the candidate in the current generation of the scope. -/
def ChosenSince (log : EngineLog) (id : TaskId) (c : Name) (s : String) : Prop :=
  ∃ new st old, log = new ++ st :: old ∧ ChosenIn st id c s ∧ ∀ st' ∈ new, ¬ Advances s st'

/-- In this step a reply to the task, which was at the candidate, was stored. -/
def StoredIn (st : Step Engine Op) (id : TaskId) (c : Name) (k : CacheKey) (x : Entry) : Prop :=
  ∃ tx y t M, Answers st tx y t M ∧ y.task = id ∧ t.current = some c ∧ t.scope = some k.scope ∧
    k = CacheKey.new c t.rtype k.scope ∧ x = entryOf M c t.rtype M.rcode y.server st.input.now

/-- The entry was stored by a task that chose the candidate in the current generation of the scope.
-/
def StoredSince (log : EngineLog) (k : CacheKey) (x : Entry) : Prop :=
  ∃ new st old id c, log = new ++ st :: old ∧ ChosenIn st id c k.scope ∧
    (∀ st' ∈ new, ¬ Advances k.scope st') ∧
    ∃ st' ∈ new, StoredIn st' id c k x

theorem ChosenSince.cons {id : TaskId} {c : Name} {s : String}
    (h : ChosenSince log id c s) (hst : ¬ Advances s st) : ChosenSince (st :: log) id c s := by
  obtain ⟨new, st₀, old, rfl, hc, hnew⟩ := h
  exact ⟨st :: new, st₀, old, rfl, hc, forall_mem_cons.mpr ⟨hst, hnew⟩⟩

theorem StoredSince.cons {k : CacheKey} {x : Entry}
    (h : StoredSince log k x) (hst : ¬ Advances k.scope st) : StoredSince (st :: log) k x := by
  obtain ⟨new, st₀, old, id, c, rfl, hc, hnew, st', hst', hx⟩ := h
  exact ⟨st :: new, st₀, old, id, c, rfl, hc, forall_mem_cons.mpr ⟨hst, hnew⟩, st',
    mem_cons_of_mem _ hst', hx⟩

theorem ChosenSince.stored {id : TaskId} {c : Name} {k : CacheKey} {x : Entry}
    (h : ChosenSince log id c k.scope) (hst : ¬ Advances k.scope st) (hx : StoredIn st id c k x) :
    StoredSince (st :: log) k x := by
  obtain ⟨new, st₀, old, rfl, hc, hnew⟩ := h
  exact ⟨st :: new, st₀, old, id, c, rfl, hc, forall_mem_cons.mpr ⟨hst, hnew⟩, st,
    mem_cons_self, hx⟩

/-! ### The invariant -/

/-- What belongs to the current generation: the candidates of the tasks that may store, the servers
their queries went to, and all cached answers. -/
structure UpToDate (log : EngineLog) (e : Engine) : Prop where
  tasks : ∀ id t c s, e.tasks.get id = some t → t.cacheInvalidated = false → t.current = some c →
    t.scope = some s →
    ChosenSince log id c s
  txs : ∀ tx x t, e.txs.get tx = some x → e.tasks.get x.task = some t → t.cacheInvalidated = false →
    x.server ∈ e.configuredServers t.scopeId
  entries : ∀ k x, e.cache.entries.get k = some x → StoredSince log k x ∧
    x.server ∈ e.configuredServers k.scope

/-- Where the candidate of a task with `n` further ones comes from: the operation under way, or the
state before it. -/
inductive Chose (st : Step Engine Op) (id : TaskId) (n : ℕ) (c : Name) (s : String) : Prop
  | now (hroute : st.before.route c = some s)
      (hless : ∀ t₀, st.before.tasks.get id = some t₀ → n < t₀.candidates.length)
  | before {t₀ : Task} (ht₀ : st.before.tasks.get id = some t₀) (hinv : t₀.cacheInvalidated = false)
      (hc : t₀.current = some c) (hs : t₀.scope = some s)

/-- In the middle of an operation that does not change the configuration. -/
structure UpToDateMid (st : Step Engine Op) (m : Mid) : Prop where
  /-- a task only ever has fewer candidates -/
  fewer : ∀ id t t₀, m.engine.tasks.get id = some t → st.before.tasks.get id = some t₀ →
    t.current ≠ none ∧ t.candidates.length ≤ t₀.candidates.length
  tasks : ∀ id t c s, m.engine.tasks.get id = some t → t.cacheInvalidated = false →
    t.current = some c →
    t.scope = some s → Chose st id t.candidates.length c s
  txs : ∀ tx x t, m.engine.txs.get tx = some x → m.engine.tasks.get x.task = some t →
    t.cacheInvalidated = false →
    x.server ∈ st.before.configuredServers t.scopeId

theorem UpToDateMid.first (h : UpToDate log st.before)
    (hask : Asking log [] st.before) : UpToDateMid st (.first st) := by
  refine ⟨fun id t t₀ ht ht₀ => ?_, fun id t c s ht hinv hc hs => .before ht hinv hc hs, h.txs⟩
  obtain rfl := Option.mem_unique ht ht₀
  exact ⟨hask.current id t ht (by simp), le_rfl⟩

theorem UpToDateMid.tweak {m m' : Mid} (hs : Sound st m) (hop : st.input.isConfig = false)
    (h : UpToDateMid st m) (hm : Tweak st m m') : UpToDateMid st m' := by
  have hq := hm.quiet
  refine ⟨fun id t' t₀ ht' ht₀ => ?_, fun id t' c s ht' hinv hc hscope => ?_,
    fun tx x t' hx ht' hinv => ?_⟩
  · cases hm.task_cases ht' with
    | kept ht => exact h.fewer id t' t₀ ht ht₀
    | marked ht hop' hst => exact absurd (hop.symm.trans hop') (by simp)
    | expanded hop' hid ht hnew hnone hne heq => exact absurd hnew (h.fewer id _ t₀ ht ht₀).1
    | chosen hop' hid ht hcs hroute hwhy heq =>
      have hlen := (h.fewer id _ t₀ ht ht₀).2
      rw [hcs, length_cons] at hlen
      subst heq
      exact ⟨Option.some_ne_none _, Nat.le_of_succ_le hlen⟩
    | refunded hM hid ht heq =>
      subst heq
      exact (h.fewer id _ t₀ ht ht₀ :)
    | noted hid ht heq =>
      subst heq
      exact (h.fewer id _ t₀ ht ht₀ :)
  · cases hm.task_cases ht' with
    | kept ht => exact h.tasks id t' c s ht hinv hc hscope
    | marked ht hop' hst => exact absurd (hop.symm.trans hop') (by simp)
    | expanded hop' hid ht hnew hnone hne heq =>
      subst heq
      exact absurd (hnew.symm.trans hc) (by simp)
    | chosen hop' hid ht hcs hroute hwhy heq =>
      subst heq
      obtain rfl := Option.some.inj hc
      obtain rfl := Option.some.inj hscope
      rw [(hs.steady.settings hop).route_eq] at hroute
      refine .now hroute fun t₀ ht₀ => ?_
      have hlen := (h.fewer id _ t₀ ht ht₀).2
      rwa [hcs, length_cons] at hlen
    | refunded hM hid ht heq =>
      subst heq
      exact (h.tasks id _ c s ht hinv hc hscope :)
    | noted hid ht heq =>
      subst heq
      exact (h.tasks id _ c s ht hinv hc hscope :)
  · -- the task of a transaction is not loose, so nothing happened to it
    rw [hq.txs] at hx
    have hloose := (hs.linked.tx_task tx x hx).1
    cases hm.task_cases ht' with
    | kept ht => exact h.txs tx x t' hx ht hinv
    | marked ht hop' hst => exact absurd (hop.symm.trans hop') (by simp)
    | expanded hop' hid ht hnew hnone hne heq => exact absurd hid hloose
    | chosen hop' hid ht hcs hroute hwhy heq => exact absurd hid hloose
    | refunded hM hid ht heq => exact absurd hid hloose
    | noted hid ht heq => exact absurd hid hloose

theorem UpToDateMid.shift {m m' : Mid} (hs : Sound st m) (hop : st.input.isConfig = false)
    (hI : UpToDate log st.before) (h : UpToDateMid st m) (hm : Shift st m m') :
    UpToDateMid st m' := by
  refine ⟨fun id t' t₀ ht' ht₀ => ?_, fun id t' c s ht' hinv hc hscope => ?_,
    fun tx x t' hx ht' hinv => ?_⟩
  · cases hm.task_cases hs.linked ht' with
    | kept ht hl => exact h.fewer id t' t₀ ht ht₀
    | begun hb hge hl =>
      have hlt := hs.start.task_lt id t₀ ht₀
      exact absurd (hs.traffic.nextId_le.trans hge) (not_le.mpr hlt)
    | closed hx hid' ht htx hcl heq hl =>
      subst heq
      exact (h.fewer id _ t₀ ht ht₀ :)
    | launched hmem ht hcur hbudget htarget heq hx hacts hl =>
      subst heq
      exact (h.fewer id _ t₀ ht ht₀ :)
  · cases hm.task_cases hs.linked ht' with
    | kept ht hl => exact h.tasks id t' c s ht hinv hc hscope
    | begun hb hge hl =>
      rw [hb.fresh.current] at hc
      cases hc
    | closed hx hid' ht htx hcl heq hl =>
      subst heq
      exact (h.tasks id _ c s ht hinv hc hscope :)
    | launched hmem ht hcur hbudget htarget heq hx hacts hl =>
      subst heq
      exact (h.tasks id _ c s ht hinv hc hscope :)
  · rcases hm.tx_cases hs.linked hx ht' with ⟨hx, ht⟩ | ⟨t₀, random, hl⟩
    · exact h.txs tx x t' hx ht hinv
    · obtain rfl := hl.after
      have htarget := hl.target
      generalize hserver : x.server = server at *
      generalize x.tcp = tcp at *
      cases htarget with
      | listed hmem =>
        rw [(hs.steady.settings hop).configuredServers_eq] at hmem
        exact (hmem :)
      | retry hr hid htrunc heq hsrv =>
        -- the server of the retry is the one asked before
        subst heq
        rw [hsrv]
        exact (hI.txs _ _ _ hr.live hr.task hinv :)

theorem UpToDateMid.last (hs : Sound st (.last st))
    (hop : st.input.isConfig = false) (hI : UpToDate log st.before) (hask : Asking log [] st.before)
    (h : UpToDateMid st (.last st)) : UpToDate (st :: log) (after st) := by
  have hservers : (after st).configuredServers = st.before.configuredServers :=
    (hs.steady.settings hop).configuredServers_eq
  refine ⟨fun id t c s ht hinv hc hscope => ?_, fun tx x t hx ht hinv => ?_, fun k x hx => ?_⟩
  · rcases h.tasks id t c s ht hinv hc hscope with ⟨hroute, hless⟩ | ⟨ht₀, hinv₀, hc₀, hs₀⟩
    · exact ⟨[], st, log, rfl, ⟨hroute, t, ht, hc, hscope, hless⟩, by simp⟩
    · exact (hI.tasks id _ c s ht₀ hinv₀ hc₀ hs₀).cons (not_advances hop s)
  · rw [hservers]
    exact h.txs tx x t hx ht hinv
  · rw [hservers]
    rcases (apply_path st).cached k x hx with hx | ⟨tx, y, t, M, hM, hstore, rfl, rfl⟩
    · obtain ⟨hstored, hserver⟩ := hI.entries k x hx
      exact ⟨hstored.cons (not_advances hop _), hserver⟩
    · have hinv : t.cacheInvalidated = false := by
        simp only [storable, Bool.and_eq_true, Bool.not_eq_true'] at hstore
        exact hstore.2
      obtain ⟨c, hc⟩ := Option.ne_none_iff_exists'.mp (hask.current y.task t hM.task (by simp))
      obtain ⟨s, hscope, -⟩ := hask.routed y.task t c hM.task hc
      have hcand : t.candidate = c := by rw [Task.candidate, hc, Option.getD_some]
      have hsid : t.scopeId = s := by rw [Task.scopeId, hscope, Option.getD_some]
      refine ⟨?_, hI.txs tx y t hM.live hM.task hinv⟩
      rw [hcand, hsid]
      exact (hI.tasks y.task t c s hM.task hinv hc hscope).stored (not_advances hop _)
        ⟨tx, y, t, M, hM, rfl, hc, hscope, rfl, rfl⟩

theorem UpToDate.configure (hs : Sound st (.last st)) (hop : st.input.isConfig = true)
    (hold : (st.before.scopes.map Scope.id).Nodup) (hnew : ((after st).scopes.map Scope.id).Nodup)
    (h : UpToDate log st.before) (hask : Asking log [] st.before) :
    UpToDate (st :: log) (after st) := by
  obtain ⟨htasks, hentries⟩ := configure_generation hop hold
  refine ⟨fun id t' c s ht' hinv hc hscope => ?_, fun tx x t' hx ht' hinv => ?_, fun k x hx => ?_⟩
  · obtain ⟨t, ht, hst, hkeep⟩ := htasks id t' ht'
    obtain ⟨hinv₀, hadv⟩ := hkeep hinv
    rw [hst.scope] at hscope
    exact (h.tasks id t c s ht hinv₀ (hst.current ▸ hc) hscope).cons (hadv s hscope)
  · obtain ⟨t, ht, hst, hkeep⟩ := htasks x.task t' ht'
    obtain ⟨hinv₀, hadv⟩ := hkeep hinv
    have hx₀ : st.before.txs.get tx = some x := by
      obtain ⟨-, -, -, htxs, -⟩ := configure_tasks st.before hop
      exact htxs ▸ hx
    obtain ⟨c, hc⟩ := Option.ne_none_iff_exists'.mp (hask.current x.task t ht (by simp))
    obtain ⟨s, hscope, -⟩ := hask.routed x.task t c ht hc
    have hserver := h.txs tx x t hx₀ ht hinv₀
    rw [Task.scopeId, hscope, Option.getD_some] at hserver
    rw [Task.scopeId, hst.scope, hscope, Option.getD_some,
      configuredServers_of_not_advances hs hold hnew (hadv s hscope)]
    exact hserver
  · obtain ⟨hx₀, hadv⟩ := (hentries k x).mp hx
    obtain ⟨hstored, hserver⟩ := h.entries k x hx₀
    exact ⟨hstored.cons hadv, configuredServers_of_not_advances hs hold hnew hadv ▸ hserver⟩

theorem Runs.upToDate {entropy : Entropy} {e : Engine} (h : Runs entropy log e)
    (hsnap : Snapshots log) : UpToDate log e := by
  refine Invariant.run (G := Snapshots) (I := UpToDate)
    (J := fun log st m => UpToDate log st.before ∧ Reached entropy log st.before ∧
      (st.input.isConfig = false → UpToDateMid st m))
    ⟨fun st log hg st' hst' => hg st' (mem_cons_of_mem _ hst'), ?_, fun log e e' hI hr => ?_,
      fun log st hg hr hI => ⟨hI, hr, fun _ => .first hI hr.asking⟩,
      fun log st m m' hg hs hJ hm => ⟨hJ.1, hJ.2.1, fun hop => (hJ.2.2 hop).tweak hs hop hm⟩,
      fun log st m m' hg hs hJ hm => ⟨hJ.1, hJ.2.1, fun hop => (hJ.2.2 hop).shift hs hop hJ.1 hm⟩,
      fun log st hg hs hJ => ?_⟩ h hsnap
  · constructor <;> simp [withEntropy]
  · have hservers : e'.configuredServers = e.configuredServers := by
      funext s
      simp only [configuredServers, hr.scopes, hr.fallbackServers]
    exact ⟨fun id t c s ht => hI.tasks id t c s (hr.tasks.get_eq id ▸ ht),
      fun tx x t hx ht => hservers ▸ hI.txs tx x t (hr.txs.get_eq tx ▸ hx)
        (hr.tasks.get_eq x.task ▸ ht),
      fun k x hx => hservers ▸ hI.entries k x (hr.cache.get_eq k ▸ hx)⟩
  · obtain ⟨hI, hr, hmid⟩ := hJ
    have hold := (hr.scope_ids fun st' hst' => hg st' (mem_cons_of_mem _ hst')).1
    cases hop : st.input.isConfig with
    | false => exact (hmid hop).last hs hop hI hr.asking
    | true =>
      obtain ⟨e₀, h₀, hr₀⟩ := hr
      have hnew := (Runs.scope_ids (.step h₀ hr₀ st.input) hg).1
      exact hI.configure hs hop hold hnew (Runs.asking h₀ |>.reorder hr₀)

/-- **Cached answers belong to the current generation of their scope.**  In every run whose
snapshots have distinct scope ids, other than that of the fallback servers: every entry was stored
by a task that chose the answered candidate, and had it routed to the scope of the entry, after the
scope's generation began; its server is one the scope has now.  Conversely a change of the
configuration keeps all entries of the scopes whose generation goes on. -/
theorem Runs.generation {entropy : Entropy} {log : EngineLog} {e : Engine} (h : Runs entropy log e)
    (hsnap : Snapshots log) :
    (∀ k x, e.cache.entries.get k = some x → StoredSince log k x ∧
      x.server ∈ e.configuredServers k.scope) ∧
    ∀ st ∈ log, st.input.isConfig = true → ∀ k x, st.before.cache.entries.get k = some x →
      ¬ Advances k.scope st →
      (after st).cache.entries.get k = some x := by
  refine ⟨(h.upToDate hsnap).entries, fun st hst hop k x hx hadv => ?_⟩
  obtain ⟨new, old, hlog⟩ := append_of_mem hst
  have hids := (h.reached hlog).scope_ids fun st' hst' =>
    hsnap st' (hlog ▸ mem_append_right _ (mem_cons_of_mem _ hst'))
  exact ((configure_generation hop hids.1).2 k x).mpr ⟨hx, hadv⟩

/-- The answer of the small run is cached for its interface, and stays when fallback servers are
configured. -/
theorem generation_answerOnLan : ∃ x,
    (ran zeros (answerOnLan ++ [.setFallback [.v4 #v[192, 0, 2, 9]] []])).2.cache.entries.get
      (CacheKey.new peiosExample Rtype.a "lan") = some x ∧
    StoredSince (ran zeros (answerOnLan ++ [.setFallback [.v4 #v[192, 0, 2, 9]] []])).1
      (CacheKey.new peiosExample Rtype.a "lan") x := by
  have hx : (ran zeros (answerOnLan ++
      [.setFallback [.v4 #v[192, 0, 2, 9]] []])).2.cache.entries.get
      (CacheKey.new peiosExample Rtype.a "lan") =
      some ⟨.found, [Record.new peiosExample 60 (.a #v[192, 0, 2, 7])], 0, .v4 #v[192, 0, 2, 1],
        secs 61⟩ := by
    decide +kernel
  exact ⟨_, hx, ((Runs.generation (runs_ran zeros _) (snapshots_ran (by decide))).1 _ _ hx).1⟩

end Resolvd.Engine
