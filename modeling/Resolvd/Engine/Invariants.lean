import Resolvd.Engine.Traffic

/-!
# Invariants of runs

* `Invariant`: how to show that something holds of every run (`Invariant.run`) and of every moment of its steps
  (`Invariant.mid`), by looking at single changes;
* `Path.cached`: along an operation the cache only gets the answer of the reply the operation brings;
* `Closes.gone`, `Runs.since`, `Runs.sentIn`: the life of an id;
* `Runs.bijection`: the tables of tasks and transactions agree between any two operations.
-/

namespace Resolvd.Engine

open Lib Dns List

variable {entropy : Entropy} {log : EngineLog} {e : Engine} {st : Step Engine Op} {m m' : Mid}

/-! ### The states of a run -/

theorem Runs.linked (h : Runs entropy log e) : Linked [] e :=
  Machine.Run.invariant (M := machine entropy) (I := fun _ e => Linked [] e)
    (fun _ hs => hs ▸ linked_withEntropy entropy)
    (fun _ _ _ hI hr => hI.reorder hr) (fun _ e i hI =>
      (Path.sound hI (apply_path ⟨e, i⟩)).linked) h

theorem Runs.reached {new old : EngineLog}
    (h : Runs entropy log e) (hlog : log = new ++ st :: old) : Reached entropy old st.before := by
  subst hlog
  obtain ⟨e₁, h₁⟩ := h.of_suffix
  obtain ⟨e₀, h₀, hidle, -⟩ := h₁.of_cons
  exact ⟨e₀, h₀, hidle⟩

theorem Reached.linked (h : Reached entropy log e) : Linked [] e := by
  obtain ⟨e₀, h₀, hr⟩ := h
  exact (Runs.linked h₀).reorder hr

theorem Reached.reorder {e' : Engine} (h : Reached entropy log e)
    (hr : Reorder e e') : Reached entropy log e' := by
  obtain ⟨e₀, h₀, hr₀⟩ := h
  exact ⟨e₀, h₀, hr₀.trans hr⟩

theorem Reached.after
    (h : Reached entropy log st.before) : Reached entropy (st :: log) (after st) := by
  obtain ⟨e₀, h₀, hr₀⟩ := h
  exact ⟨_, .step h₀ hr₀ st.input, .refl _⟩

theorem Runs.sound (h : Runs entropy log e) (hst : st ∈ log) : Sound st (.last st) := by
  obtain ⟨new, old, hlog⟩ := append_of_mem hst
  exact Path.sound (h.reached hlog).linked (apply_path st)

/-! ### Invariants -/

/-- An invariant of runs with good logs, by way of one of the moments of an operation: it holds of a
fresh engine, survives another order of visits, and is kept by every change of an operation whose
books are in order. -/
structure Invariant (entropy : Entropy) (G : EngineLog → Prop) (I : EngineLog → Engine → Prop)
    (J : EngineLog → Step Engine Op → Mid → Prop) : Prop where
  good : ∀ st log, G (st :: log) → G log
  start : I [] (withEntropy entropy)
  idle : ∀ log e e', I log e → Reorder e e' → I log e'
  first : ∀ log st, G (st :: log) → Reached entropy log st.before → I log st.before →
    J log st (.first st)
  tweak : ∀ log st m m', G (st :: log) → Sound st m → J log st m → Tweak st m m' → J log st m'
  shift : ∀ log st m m', G (st :: log) → Sound st m → J log st m → Shift st m m' → J log st m'
  last : ∀ log st, G (st :: log) → Sound st (.last st) → J log st (.last st) →
    I (st :: log) (after st)

section Invariant

variable {entropy : Entropy} {G : EngineLog → Prop} {I : EngineLog → Engine → Prop}
  {J : EngineLog → Step Engine Op → Mid → Prop} {log : EngineLog} {e : Engine}

section

variable (inv : Invariant entropy G I J)
include inv

theorem Invariant.move {st : Step Engine Op} {m m' : Mid} (hg : G (st :: log))
    (hs : Sound st m) (hJ : J log st m) (hm : Move st m m') : J log st m' := by
  cases hm with
  | tweak hm => exact inv.tweak log st m m' hg hs hJ hm
  | shift hm => exact inv.shift log st m m' hg hs hJ hm

/-- **What every change keeps holds of every run.** -/
theorem Invariant.run (h : Runs entropy log e) (hg : G log) : I log e := by
  have hboth : Reached entropy log e ∧ I log e := by
    refine Machine.Run.invariant_of_path (M := machine entropy) Move Mid.first Mid.last
      apply_path inv.good
      (I := fun log e => Reached entropy log e ∧ I log e)
      (J := fun log st m => Reached entropy log st.before ∧ Sound st m ∧ J log st m)
      (fun s hs => ?_) (fun log e e' hI hr => ⟨hI.1.reorder hr, inv.idle log e e' hI.2 hr⟩)
      (fun log st hg hI => ⟨hI.1, sound_first hI.1.linked, inv.first log st hg hI.1 hI.2⟩)
      (fun log st m m' hg hJ hm => ⟨hJ.1, hJ.2.1.move hm, inv.move hg hJ.2.1 hJ.2.2 hm⟩)
      (fun log st hg hJ => ⟨hJ.1.after, inv.last log st hg hJ.2.1 hJ.2.2⟩) h hg
    obtain rfl : s = withEntropy entropy := hs
    exact ⟨⟨_, .start rfl, .refl _⟩, inv.start⟩
  exact hboth.2

theorem Invariant.good_of_suffix {new old : EngineLog} (hg : G (new ++ old)) : G old := by
  induction new with
  | nil => exact hg
  | cons st new ih => exact ih (inv.good _ _ hg)

/-- **What every change keeps holds of every moment of every run.** -/
theorem Invariant.mid (h : Runs entropy log e) (hg : G log) {new old : EngineLog}
    {st : Step Engine Op} (hlog : log = new ++ st :: old) {m : Mid} (hp : Path st (.first st) m) :
    Sound st m ∧ J old st m := by
  obtain ⟨e₀, h₀, hr⟩ := h.reached hlog
  have hg' : G (st :: old) := inv.good_of_suffix (hlog ▸ hg)
  induction hp with
  | refl =>
    have hI := inv.idle old e₀ _ (inv.run h₀ (inv.good _ _ hg')) hr
    exact ⟨sound_first (h₀.linked.reorder hr), inv.first old st hg' ⟨e₀, h₀, hr⟩ hI⟩
  | tail _ hm ih => exact ⟨ih.1.move hm, inv.move hg' ih.1 ih.2 hm⟩

end

theorem Runs.step_invariant (hstart : I [] (withEntropy entropy))
    (hidle : ∀ log e e', I log e → Reorder e e' → I log e')
    (hstep : ∀ log st, Reached entropy log st.before → Sound st (.last st) → I log st.before →
      I (st :: log) (after st)) (h : Runs entropy log e) : I log e :=
  Invariant.run (G := fun _ => True) (J := fun log st _ => Reached entropy log st.before ∧
    I log st.before)
    ⟨fun _ _ _ => trivial, hstart, hidle, fun _ _ _ hr hI => ⟨hr, hI⟩, fun _ _ _ _ _ _ hI _ => hI,
      fun _ _ _ _ _ _ hI _ => hI, fun log st _ hs hI => hstep log st hI.1 hs hI.2⟩ h trivial

end Invariant

/-! ### The cache along an operation -/

/-- A cached answer is one of the state before the operation, or the answer of the reply that it
brings. -/
def Cached (st : Step Engine Op) (m : Mid) : Prop :=
  ∀ k x, m.engine.cache.entries.get k = some x → st.before.cache.entries.get k = some x ∨
    ∃ tx y t M, Answers st tx y t M ∧ storable M t M.rcode = true ∧
      k = CacheKey.new t.candidate t.rtype t.scopeId ∧
      x = entryOf M t.candidate t.rtype M.rcode y.server st.input.now

theorem Cached.tweak (h : Cached st m) (hm : Tweak st m m') : Cached st m' := by
  intro k x hx
  cases hm with
  | book c d n => exact h k x hx
  | configure hop hm => exact h k x (configure_cache hop hx)
  | expand hop hid ht hnew hnone h' => exact h k x hx
  | choose hop hid ht hc hs hwhy => exact h k x hx
  | forget hx₀ hexp =>
    simp only [Table.get_remove] at hx
    split at hx
    · cases hx
    · exact h k x hx
  | store hM hstore =>
    rcases Cache.insert_entries hx with ⟨rfl, rfl⟩ | ⟨-, hx⟩
    · exact .inr ⟨_, _, _, _, hM, hstore, rfl, rfl⟩
    · exact h k x hx
  | refund hM hid => exact h k x hx
  | ask server hid => exact h k x hx

/-- **An operation caches the answer of the reply it brings, and nothing else.** -/
theorem Path.cached (hp : Path st (.first st) m) : Cached st m := by
  induction hp with
  | refl => exact fun k x hx => .inl hx
  | tail _ hm ih =>
    cases hm with
    | tweak hm => exact ih.tweak hm
    | shift hm => exact fun k x hx => ih k x (hm.cache ▸ hx)

/-! ### A transaction that ends is gone -/

/-- Only a tick and the end of a question cancel transactions. -/
theorem Path.no_cancel (htick : ∀ now, st.input ≠ .tick now) (habandon : ∀ q, st.input ≠ .abandon q)
    (hp : Path st (.first st) m) (tx : Txid) : .cancel tx ∉ m.acts := by
  have hcloses : ∀ {tx' acts}, Closes st tx' acts → .cancel tx ∉ acts := by
    intro tx' acts hc
    cases hc with
    | received => simp
    | failed => simp
    | localFailed => simp
    | expired hop => exact absurd hop (htick _)
  induction hp with
  | refl => simp [Mid.first]
  | tail _ hm ih =>
    cases hm with
    | tweak hm => rwa [hm.quiet.acts]
    | shift hm =>
      cases hm with
      | refuse h hb => simpa using ih
      | start h hb => exact ih
      | startAll h hb => exact ih
      | abandon h hm => exact absurd h (habandon _)
      | close hx ht h => exact fun hmem => (mem_append.mp hmem).elim ih (hcloses h)
      | orphan hx ht h => exact fun hmem => (mem_append.mp hmem).elim ih (hcloses h)
      | stray h hx hold => exact absurd h (htick _)
      | launch random hid ht htx hcur hbudget hroom h =>
        refine fun hmem => (mem_append.mp hmem).elim ih fun hmem => ?_
        simp [Engine.launch] at hmem
      | settle hid ht htx h =>
        refine fun hmem => (mem_append.mp hmem).elim ih fun hmem => ?_
        rw [settle_eq ht htx] at hmem
        obtain ⟨c, hc⟩ := settled_done hmem
        cases hc

theorem Move.nextId_le (hm : Move st m m') : m.engine.nextId ≤ m'.engine.nextId := by
  cases hm with
  | tweak hm => exact le_of_eq hm.quiet.nextId.symm
  | shift hm =>
    cases hm with
    | start h hb => exact Nat.le_succ _
    | startAll h hb =>
      dsimp only
      rw [openLookup_eq]
      exact Nat.le_add_right _ _
    | abandon h hm =>
      dsimp only
      rw [(abandon_spec _ _).2.2.2.2]
    | launch random => exact Nat.le_succ _
    | settle hid ht htx h => rw [Mid.finish, settle_eq ht htx]
    | _ => exact le_refl _

/-- Along a sequence of changes no old id gets a transaction. -/
theorem Path.tx_old (hp : Path st m m') {tx : Txid} {x : Tx} (hlt : tx < m.engine.nextId)
    (hx : m'.engine.txs.get tx = some x) : m.engine.txs.get tx = some x := by
  have hboth : m.engine.nextId ≤ m'.engine.nextId ∧
      ∀ x, m'.engine.txs.get tx = some x → m.engine.txs.get tx = some x := by
    clear hx
    induction hp with
    | refl => exact ⟨le_refl _, fun x hx => hx⟩
    | tail _ hm ih =>
      refine ⟨ih.1.trans hm.nextId_le, fun x hx => ih.2 x ?_⟩
      cases hm with
      | tweak hm => exact hm.quiet.txs ▸ hx
      | shift hm => exact hm.tx_old hx (ne_of_lt (hlt.trans_le ih.1))
  exact hboth.2 x hx

/-- **A transaction whose end the operation brings is gone after it.** -/
theorem Closes.gone {tx : Txid} {acts : List Action} (h : Closes st tx acts)
    (hl : Linked [] st.before) : (after st).txs.get tx = none := by
  obtain ⟨x, hx⟩ := h.live
  obtain ⟨-, t, ht, -⟩ := hl.tx_task tx x hx
  have hlt := hl.tx_lt tx x hx
  -- the rest of the operation starts without it, and does not bring it back
  have hrest : ∀ {m : Mid} {r : Engine × List Action}, Path st m (m.finish x.task r) →
      m.engine.nextId = st.before.nextId → m.engine.txs = st.before.txs.remove tx →
        r.1.txs.get tx = none := by
    intro m r hp hnext htxs
    cases hx' : r.1.txs.get tx with
    | none => rfl
    | some x' =>
      have hold := Path.tx_old hp (hnext ▸ hlt) hx'
      rw [htxs, Table.get_remove, if_pos rfl] at hold
      cases hold
  cases h with
  | @expired x' now hop hx' hd =>
    have hmem : tx ∈ st.before.txs.select fun _ t => t.deadline ≤ now :=
      Table.mem_select.mpr ⟨x', hx', by simpa using hd⟩
    have hs := Path.sound hl (apply_path st)
    refine (hs.traffic.cancelled tx ?_).2
    simp only [Mid.last, actions, hop, apply, tick]
    exact mem_each_expire hmem _
  | @received x' M bytes now hop hx' hM =>
    obtain ⟨e, op⟩ := st
    subst hop
    have hreply : Reply ⟨e, .received tx bytes now⟩ tx x t M := ⟨⟨bytes, now, rfl, hM⟩, hx, ht⟩
    have hafter : after ⟨e, .received tx bytes now⟩ = (handleReply ((e.closeTx tx x).count fun c =>
        { c with upstreamAnswered := c.upstreamAnswered + 1 }) x t M now).1 := by
      have ht' : { e with txs := e.txs.remove tx }.tasks.get x.task = some t := ht
      simp only [after, apply, Engine.received, hx, hM, ht']
      rfl
    have hlegs : Legs ⟨e, .received tx bytes now⟩ _ _ := handleReply_legs
      (m := { engine := (e.closeTx tx x).count fun c => { c with upstreamAnswered := c.upstreamAnswered + 1 }
              loose := [x.task] }) hreply (by simp) (get_closeTx_self ht)
    rw [hafter]
    exact hrest hlegs.path rfl rfl
  | @failed x' now hop hx' =>
    obtain ⟨e, op⟩ := st
    subst hop
    have hpath : Path ⟨e, .failed tx now⟩ _ _ := nextAttempt_path
      (m := { engine := (e.closeFailed tx x).demote x.server (((e.tasks.get x.task).bind Task.scope).getD "") now
              loose := [x.task] }) (by simp) (get_updateTask_self ht _) rfl (.inr rfl)
    simp only [after, apply, Engine.failed, hx]
    exact hrest hpath rfl rfl
  | @localFailed x' now hop hx' =>
    obtain ⟨e, op⟩ := st
    subst hop
    have hpath : Path ⟨e, .localFailed tx now⟩ _ _ := nextAttempt_path
      (m := { engine := e.closeFailed tx x, loose := [x.task] }) (by simp)
        (get_updateTask_self ht _) rfl (.inr rfl)
    simp only [after, apply, Engine.localFailed, hx]
    exact hrest hpath rfl rfl

/-! ### The life of an id -/

/-- What has an id that `e₀` had already given away is what had it in `e₀`. -/
structure Since (e₀ e : Engine) : Prop where
  nextId_le : e₀.nextId ≤ e.nextId
  task : ∀ id t, e.tasks.get id = some t → id < e₀.nextId →
    ∃ t₀, e₀.tasks.get id = some t₀ ∧ t₀.Kin t
  tx : ∀ tx x, e.txs.get tx = some x → tx < e₀.nextId → e₀.txs.get tx = some x

theorem Since.after {e₀ : Engine} (h : Since e₀ st.before) (hs : Sound st (.last st)) :
    Since e₀ (after st) := by
  obtain ⟨h1, h2, h3, -⟩ := hs.traffic
  refine ⟨h.nextId_le.trans h1, fun id t ht hlt => ?_, fun tx x hx hlt => ?_⟩
  · obtain ⟨t₁, ht₁, hkin⟩ := h2 id t ht (hlt.trans_le h.nextId_le)
    obtain ⟨t₀, ht₀, hkin₀⟩ := h.task id t₁ ht₁ hlt
    exact ⟨t₀, ht₀, hkin₀.trans hkin⟩
  · exact h.tx tx x (h3 tx x hx (hlt.trans_le h.nextId_le)).1 hlt

theorem Since.reorder {e₀ e' : Engine} (h : Since e₀ e) (hr : Reorder e e') : Since e₀ e' := by
  refine ⟨hr.nextId ▸ h.nextId_le, fun id t ht => ?_, fun tx x hx => ?_⟩
  · exact h.task id t (hr.tasks.get_eq id ▸ ht)
  · exact h.tx tx x (hr.txs.get_eq tx ▸ hx)

theorem Runs.since (h : Runs entropy log e) :
    ∀ st ∈ log, Since st.before e := by
  refine Runs.step_invariant (I := fun log e => ∀ st ∈ log, Since st.before e) (by simp)
    (fun log e e' hI hr st hst => (hI st hst).reorder hr) (fun log st _ hs hI st' hst' => ?_) h
  rcases mem_cons.mp hst' with rfl | hst'
  · exact Since.after ⟨le_refl _, fun _ t ht _ => ⟨t, ht, .refl t⟩, fun _ _ hx _ => hx⟩ hs
  · exact (hI st' hst').after hs

/-- The step sent the transaction, when its task had this scope. -/
def SentIn (st : Step Engine Op) (tx : Txid) (x : Tx) (scope : Option String) : Prop :=
  .send tx x.server (scope.bind st.before.interfaceOf) x.tcp (queryPayload x.dnsId x.question) ∈
    actions st ∧
    ∃ t, (after st).tasks.get x.task = some t ∧ t.tx = some tx ∧ t.scope = scope

theorem Runs.sentIn (h : Runs entropy log e) :
    ∀ tx x t, e.txs.get tx = some x → e.tasks.get x.task = some t →
      ∃ st ∈ log, SentIn st tx x t.scope := by
  refine Runs.step_invariant
    (I := fun log e => ∀ tx x t, e.txs.get tx = some x → e.tasks.get x.task = some t →
      ∃ st ∈ log, SentIn st tx x t.scope) (by simp [withEntropy])
        (fun log e e' hI hr tx x t hx ht => ?_)
    (fun log st _ hs hI tx x t hx ht => ?_) h
  · exact hI tx x t (hr.txs.get_eq tx ▸ hx) (hr.tasks.get_eq x.task ▸ ht)
  · rcases lt_or_ge tx st.before.nextId with hlt | hge
    · obtain ⟨hx₀, t₀, t', ht₀, ht', hst⟩ := hs.traffic.old_tx tx x hx hlt
      obtain rfl := Option.mem_unique ht' ht
      obtain ⟨st', hst', hsent⟩ := hI tx x t₀ hx₀ ht₀
      exact ⟨st', mem_cons_of_mem _ hst', hst.scope ▸ hsent⟩
    · obtain ⟨-, t', ht', hsend⟩ := hs.traffic.new_tx tx x hx hge
      obtain rfl := Option.mem_unique ht' ht
      obtain ⟨-, t'', ht'', htx⟩ := hs.linked.tx_task tx x hx
      obtain rfl := Option.mem_unique ht'' ht
      exact ⟨st, mem_cons_self, hsend, _, ht, htx, rfl⟩

/-- **Tasks and transactions are in bijection**: between two operations every transaction belongs to
a task that has it, and every task has a transaction that belongs to it.  Their ids are below
`next_id` and are never given away again, not even across the two tables: what has an old id now had
it all the time.  The scope of a task is the one it had when its transaction was sent.  `settle`
never met a live transaction, and a transaction has only gone when the operation brought its end or
emitted a `Cancel` for it. -/
theorem Runs.bijection {entropy : Entropy} {log : EngineLog} {e : Engine} (h : Runs entropy log e) :
    (∀ tx x, e.txs.get tx = some x → tx < e.nextId ∧ ∃ t, e.tasks.get x.task = some t ∧
      t.tx = some tx) ∧
    (∀ id t, e.tasks.get id = some t → id < e.nextId ∧ e.txs.get id = none ∧
      ∃ tx x, t.tx = some tx ∧ e.txs.get tx = some x ∧ x.task = id) ∧
    (∀ st ∈ log, st.before.nextId ≤ e.nextId ∧ ∀ id < st.before.nextId,
      (∀ t, e.tasks.get id = some t → ∃ t₀, st.before.tasks.get id = some t₀ ∧ t₀.Kin t) ∧
      (∀ x, e.txs.get id = some x → st.before.txs.get id = some x)) ∧
    (∀ tx x t, e.txs.get tx = some x → e.tasks.get x.task = some t →
      ∃ st ∈ log, SentIn st tx x t.scope) ∧
    e.leaked = [] ∧
    (∀ st ∈ log, ∀ tx x, st.before.txs.get tx = some x → (after st).txs.get tx = none →
      st.input.Ends st.before tx ∨ .cancel tx ∈ actions st) := by
  have hl := h.linked
  refine ⟨fun tx x hx => ⟨hl.tx_lt tx x hx, (hl.tx_task tx x hx).2⟩,
    fun id t ht => ⟨hl.task_lt id t ht, hl.apart id t ht, hl.task_tx id t ht (by simp)⟩,
    fun st hst => ?_, h.sentIn, hl.leaked, fun st hst => (h.sound hst).traffic.gone⟩
  have hsince := h.since st hst
  exact ⟨hsince.nextId_le, fun id hlt =>
    ⟨fun t ht => hsince.task id t ht hlt, fun x hx => hsince.tx id x hx hlt⟩⟩

/-- On a small run: the query under way has its task. -/
theorem bijection_askOnLan : ∃ x t, (ran zeros askOnLan).2.txs.get 2 = some x ∧
    (ran zeros askOnLan).2.tasks.get x.task = some t ∧ t.tx = some 2 := by
  have hlive : ((ran zeros askOnLan).2.txs.get 2).isSome = true := by decide +kernel
  obtain ⟨x, hx⟩ := Option.isSome_iff_exists.mp hlive
  obtain ⟨-, t, ht, htx⟩ := (Runs.bijection (runs_ran zeros askOnLan)).1 2 x hx
  exact ⟨x, t, hx, ht, htx⟩

end Resolvd.Engine
