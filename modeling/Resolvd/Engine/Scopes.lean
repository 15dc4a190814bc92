import Resolvd.Engine.Invariants

/-!
# The configured scopes

What the configuration is in the course of a run, when the scope ids of every snapshot are distinct
(`Snapshots`): which server lists a change of the configuration touches (`Advances`), and that it
touches the cached answers and the tasks of these scopes and no others (`configure_generation`).
-/

namespace Resolvd.Engine

open Lib Dns List

variable {entropy : Entropy} {st : Step Engine Op} {e : Engine} {s : String}

/-! ### Snapshots -/

/-- The scope ids of every snapshot are distinct, and none is that of the fallback servers. -/
def Snapshots (log : EngineLog) : Prop :=
  ∀ st ∈ log, ∀ scopes, st.input = .setScopes scopes →
    (scopes.map Scope.id).Nodup ∧ fallbackScope ∉ scopes.map Scope.id

theorem snapshots_ran {ops : List Op} (h : (ops.all fun
      | .setScopes scopes => (scopes.map Scope.id).Nodup ∧ fallbackScope ∉ scopes.map Scope.id
      | _ => true) = true) : Snapshots (ran entropy ops).1 := by
  intro st hst scopes hop
  have := all_eq_true.mp h _ (Machine.exec_input hst)
  rw [hop] at this
  exact decide_eq_true_eq.mp this

theorem after_scopes (hs : Sound st (.last st)) :
    (after st).scopes = match st.input with
      | .setScopes scopes => scopes
      | _ => st.before.scopes := by
  cases hop : st.input with
  | setScopes scopes => simp only [after, hop, apply, setScopes]
  | setFallback servers domains =>
    simp only [after, hop, apply, setFallback]
    split <;> rfl
  | setHosts hosts => simp only [after, hop, apply, setHosts]
  | setHostname hostname => simp only [after, hop, apply, setHostname]
  | flush => simp only [after, hop, apply, flush]
  | _ => exact (hs.steady.settings (by rw [hop]; rfl)).scopes

theorem Runs.scope_ids {log : EngineLog} (h : Runs entropy log e) (hsnap : Snapshots log) :
    (e.scopes.map Scope.id).Nodup ∧ fallbackScope ∉ e.scopes.map Scope.id := by
  refine Invariant.run (G := Snapshots)
    (I := fun _ e => (e.scopes.map Scope.id).Nodup ∧ fallbackScope ∉ e.scopes.map Scope.id)
    (J := fun _ st _ => (st.before.scopes.map Scope.id).Nodup ∧
      fallbackScope ∉ st.before.scopes.map Scope.id)
    ⟨fun st log hg st' hst' => hg st' (mem_cons_of_mem _ hst'), by simp [withEntropy],
      fun log e e' hI hr => hr.scopes ▸ hI, fun _ _ _ _ hI => hI, fun _ _ _ _ _ _ hJ _ => hJ,
      fun _ _ _ _ _ _ hJ _ => hJ, fun log st hg hs hJ => ?_⟩ h hsnap
  rw [after_scopes hs]
  split
  · next scopes hop => exact hg st mem_cons_self scopes hop
  · exact hJ

theorem Reached.scope_ids {log : EngineLog} (h : Reached entropy log e) (hsnap : Snapshots log) :
    (e.scopes.map Scope.id).Nodup ∧ fallbackScope ∉ e.scopes.map Scope.id := by
  obtain ⟨e₀, h₀, hr⟩ := h
  rw [hr.scopes]
  exact h₀.scope_ids hsnap

theorem find_scope {scopes : List Scope} (hids : (scopes.map Scope.id).Nodup) {sc : Scope}
    (hsc : sc ∈ scopes) : scopes.find? (fun s => s.id == sc.id) = some sc := by
  cases hf : scopes.find? fun s => s.id == sc.id with
  | none =>
    have := List.find?_eq_none.mp hf sc hsc
    simp at this
  | some sc' =>
    have heq : sc'.id = sc.id := by simpa using List.find?_some hf
    rw [inj_on_of_nodup_map hids (mem_of_find?_eq_some hf) hsc heq]

theorem find_scope_none {scopes : List Scope} :
    scopes.find? (fun sc => sc.id == s) = none ↔ s ∉ scopes.map Scope.id := by
  simp only [List.find?_eq_none, mem_map, not_exists, not_and, beq_iff_eq]

/-- The server is one of the scope's, which has this interface. -/
def InScope (e : Engine) (s : String) (server : IpAddr) (interface : Option String) : Prop :=
  (s = fallbackScope ∧ server ∈ e.fallbackServers ∧ interface = none) ∨
    ∃ scope ∈ e.scopes, scope.id = s ∧ server ∈ scope.servers ∧ interface = some scope.interface

theorem inScope_of_configured (hno : fallbackScope ∉ e.scopes.map Scope.id) {server : IpAddr}
    (h : server ∈ e.configuredServers s) : InScope e s server (e.interfaceOf s) := by
  unfold configuredServers at h
  unfold interfaceOf
  split at h
  · next hs =>
    subst hs
    refine .inl ⟨rfl, h, ?_⟩
    rw [List.find?_eq_none.mpr, Option.map_none]
    intro sc hsc heq
    exact hno (mem_map.mpr ⟨sc, hsc, beq_iff_eq.mp heq⟩)
  · cases hf : e.scopes.find? fun sc => sc.id == s with
    | none =>
      rw [hf] at h
      cases h
    | some sc =>
      rw [hf, Option.map_some, Option.getD_some] at h
      refine .inr ⟨sc, mem_of_find?_eq_some hf, ?_, h, rfl⟩
      simpa using List.find?_some hf

theorem configured_of_inScope (hids : (e.scopes.map Scope.id).Nodup)
    (hno : fallbackScope ∉ e.scopes.map Scope.id) {server : IpAddr} {interface : Option String}
    (h : InScope e s server interface) : server ∈ e.configuredServers s := by
  unfold configuredServers
  rcases h with ⟨rfl, h, -⟩ | ⟨sc, hsc, rfl, h, -⟩
  · rwa [if_pos rfl]
  · have hne : sc.id ≠ fallbackScope := fun heq => hno (mem_map.mpr ⟨sc, hsc, heq⟩)
    rwa [if_neg hne, find_scope hids hsc]

/-! ### Generations -/

/-- The id is in only one of the two lists, or its servers differ. -/
def Changed (s : String) (old new : List Scope) : Prop :=
  (s ∈ old.map Scope.id ∧ s ∉ new.map Scope.id) ∨ (s ∉ old.map Scope.id ∧ s ∈ new.map Scope.id) ∨
    ∃ o ∈ old, ∃ n ∈ new, o.id = s ∧ n.id = s ∧ o.servers ≠ n.servers

/-- A new generation of the scope begins with the step. -/
def Advances (s : String) (st : Step Engine Op) : Prop :=
  match st.input with
  | .flush => True
  | .setScopes scopes => Changed s st.before.scopes scopes
  | .setFallback servers _ => s = fallbackScope ∧ servers ≠ st.before.fallbackServers
  | _ => False

theorem not_advances (hop : st.input.isConfig = false) (s : String) : ¬ Advances s st := by
  intro h
  unfold Advances at h
  cases hin : st.input <;> rw [hin] at h hop <;> first | exact h | cases hop

/-- `set_scopes` invalidates the scopes that have changed. -/
theorem mem_invalidated {old new : List Scope} (hids : (old.map Scope.id).Nodup) :
    s ∈ invalidated old new ↔ Changed s old new := by
  simp only [invalidated, mem_append, mem_map, mem_filter, Changed]
  constructor
  · rintro (⟨n, ⟨hn, hcond⟩, rfl⟩ | ⟨o, ⟨ho, hcond⟩, rfl⟩)
    · split at hcond
      · next hnone =>
        have := find_scope_none.mp hnone
        exact .inr (.inl ⟨by simpa using this, n, hn, rfl⟩)
      · next o hsome =>
        have ho : o.id = n.id := by simpa using List.find?_some hsome
        exact .inr (.inr ⟨o, mem_of_find?_eq_some hsome, n, hn, ho, rfl, by simpa using hcond⟩)
    · refine .inl ⟨⟨o, ho, rfl⟩, ?_⟩
      rintro ⟨n, hn, heq⟩
      simp only [Bool.not_eq_true', any_eq_false, beq_iff_eq] at hcond
      exact hcond n hn heq
  · rintro (⟨⟨o, ho, rfl⟩, hno⟩ | ⟨hno, n, hn, rfl⟩ | ⟨o, ho, n, hn, rfl, heq, hne⟩)
    · refine .inr ⟨o, ⟨ho, ?_⟩, rfl⟩
      simp only [Bool.not_eq_true', any_eq_false, beq_iff_eq]
      exact fun n hn heq => hno ⟨n, hn, heq⟩
    · refine .inl ⟨n, ⟨hn, ?_⟩, rfl⟩
      rw [find_scope_none.mpr (by simpa using hno)]
    · refine .inl ⟨n, ⟨hn, ?_⟩, heq⟩
      rw [heq, find_scope hids ho]
      simpa using hne

/-- A scope that has not changed has the servers it had. -/
theorem servers_of_not_changed {old new : List Scope} (hold : (old.map Scope.id).Nodup)
    (hnew : (new.map Scope.id).Nodup) (h : ¬ Changed s old new) :
    (new.find? fun sc => sc.id == s).map Scope.servers = (old.find? fun sc =>
      sc.id == s).map Scope.servers := by
  simp only [Changed, not_or, not_and, not_not] at h
  obtain ⟨h1, h2, h3⟩ := h
  by_cases hs : s ∈ old.map Scope.id
  · obtain ⟨o, ho, rfl⟩ := mem_map.mp hs
    obtain ⟨n, hn, heq⟩ := mem_map.mp (h1 hs)
    have hn' := find_scope hnew hn
    rw [heq] at hn'
    rw [hn', find_scope hold ho, Option.map_some, Option.map_some]
    by_contra hne
    exact h3 ⟨o, ho, n, hn, rfl, heq, fun hservers => hne (by rw [hservers])⟩
  · rw [find_scope_none.mpr hs, find_scope_none.mpr (h2 hs)]

/-- A step that does not begin a new generation of a scope leaves its servers. -/
theorem configuredServers_of_not_advances (hs : Sound st (.last st))
    (hold : (st.before.scopes.map Scope.id).Nodup) (hnew : ((after st).scopes.map Scope.id).Nodup)
    (h : ¬ Advances s st) : (after st).configuredServers s = st.before.configuredServers s := by
  unfold Advances at h
  cases hop : st.input with
  | setScopes scopes =>
    simp only [after, hop, apply, setScopes] at h hnew ⊢
    unfold configuredServers
    split
    · rw [(foldl_invalidateScopeCache _ _).2.2]
    · rw [servers_of_not_changed hold hnew h]
  | setFallback servers domains =>
    simp only [hop, not_and, not_not] at h
    simp only [after, hop, apply, setFallback]
    unfold configuredServers
    split
    · next heq => exact h heq
    · split <;> rfl
  | setHosts hosts => simp only [after, hop, apply, setHosts, configuredServers]
  | setHostname hostname => simp only [after, hop, apply, setHostname, configuredServers]
  | flush => simp only [after, hop, apply, flush, configuredServers]
  | _ => exact congrFun (hs.steady.settings (by rw [hop]; rfl)).configuredServers_eq s

/-- **What a change of the configuration does to cached answers and tasks**: the entries of the
scopes that begin a new generation go and all others stay, and the tasks that are still allowed to
store are at a scope that does not. -/
theorem configure_generation (hop : st.input.isConfig = true)
    (hids : (st.before.scopes.map Scope.id).Nodup) :
    (∀ id t', (after st).tasks.get id = some t' → ∃ t, st.before.tasks.get id = some t ∧
      t.Still t' ∧
      (t'.cacheInvalidated = false → t.cacheInvalidated = false ∧ ∀ s, t.scope = some s →
        ¬ Advances s st)) ∧
    ∀ k x, (after st).cache.entries.get k = some x ↔
      st.before.cache.entries.get k = some x ∧ ¬ Advances k.scope st := by
  obtain ⟨e, op⟩ := st
  cases op with
  | setScopes scopes =>
    obtain ⟨h1, h2, -⟩ := foldl_invalidateScopeCache (invalidated e.scopes scopes) e
    refine ⟨fun id t' ht' => ?_, fun k x => ?_⟩
    · simp only [after, apply, setScopes] at ht'
      rw [h1, Option.map_eq_some_iff] at ht'
      obtain ⟨t, ht, rfl⟩ := ht'
      refine ⟨t, ht, Task.still_invalidate _ t, fun hinv => ?_⟩
      simp only [Task.invalidate, Bool.or_eq_false_iff, any_eq_false, decide_eq_true_eq] at hinv
      exact ⟨hinv.1, fun s hs hadv => hinv.2 s ((mem_invalidated hids).mpr hadv) hs⟩
    · simp only [after, apply, setScopes]
      rw [h2, mem_invalidated hids]
      rfl
  | setFallback servers domains =>
    simp only [after, apply, setFallback, Advances]
    split
    · next hne =>
      obtain ⟨h1, h2, -⟩ := foldl_invalidateScopeCache [fallbackScope] e
      refine ⟨fun id t' ht' => ?_, fun k x => ?_⟩
      · simp only [foldl_cons, foldl_nil] at h1
        rw [h1, Option.map_eq_some_iff] at ht'
        obtain ⟨t, ht, rfl⟩ := ht'
        refine ⟨t, ht, Task.still_invalidate _ t, fun hinv => ?_⟩
        simp only [Task.invalidate, Bool.or_eq_false_iff, any_eq_false, decide_eq_true_eq] at hinv
        exact ⟨hinv.1, fun s hs hadv => hinv.2 s (by simp [hadv.1]) hs⟩
      · simp only [foldl_cons, foldl_nil, mem_singleton] at h2
        rw [h2]
        simp only [ne_eq, hne, not_false_iff, and_true]
    · next heq =>
      exact ⟨fun id t ht => ⟨t, ht, Task.Still.refl t, fun hinv =>
        ⟨hinv, fun s _ hadv => heq hadv.2⟩⟩,
        fun k x => ⟨fun hx => ⟨hx, fun hadv => heq hadv.2⟩, And.left⟩⟩
  | setHosts hosts =>
    exact ⟨fun id t ht => ⟨t, ht, Task.Still.refl t, fun hinv => ⟨hinv, fun _ _ h => h⟩⟩,
      fun k x => ⟨fun hx => ⟨hx, id⟩, And.left⟩⟩
  | setHostname hostname =>
    exact ⟨fun id t ht => ⟨t, ht, Task.Still.refl t, fun hinv => ⟨hinv, fun _ _ h => h⟩⟩,
      fun k x => ⟨fun hx => ⟨hx, id⟩, And.left⟩⟩
  | flush =>
    refine ⟨fun id t' ht' => ?_, fun k x => ?_⟩
    · simp only [after, apply, flush, Table.get_map, Option.map_eq_some_iff] at ht'
      obtain ⟨t, ht, rfl⟩ := ht'
      exact ⟨t, ht, ⟨⟨⟨rfl, rfl, rfl, rfl⟩, rfl⟩, rfl, rfl, rfl, rfl⟩, fun hinv => by cases hinv⟩
    · simp [after, apply, flush, Cache.clear, Advances]
  | _ => cases hop

end Resolvd.Engine
