import Resolvd.Engine.Once

/-!
# Questions do not disturb each other

All questions share the tables of tasks, transactions and lookups, the counter their ids come from,
and the cache.  An operation that acts on one question (`ActsOn`) leaves the tasks, transactions and
lookups of all others exactly as they were (`Undisturbed`); along the operation this is `Aside`,
kept by every change.

* `Runs.undisturbed`: the result, with what a change of the configuration does to tasks and what becomes of a reply to a
  question that was abandoned.
-/

namespace Resolvd.Engine

open Lib Dns List

variable {st : Step Engine Op} {q : Qid} {m m' : Mid}

/-! ### What an operation acts on -/

/-- The transaction is live, and its task is the question's. -/
def TxOf (e : Engine) (tx : Txid) (q : Qid) : Prop :=
  ∃ x t, e.txs.get tx = some x ∧ e.tasks.get x.task = some t ∧ t.owner.qid = q

/-- The transaction an operation brings a reply or a failure for. -/
def Op.onTx : Op → Option Txid
  | .received tx _ _ | .failed tx _ | .localFailed tx _ => some tx
  | _ => none

theorem Op.asks_of_onTx {op : Op} {tx : Txid} (h : op.onTx = some tx) : op.asks = none := by
  cases op <;> first | rfl | cases h

/-- The operation acts on the question: it asks it, abandons it, or brings the reply or failure of a
transaction of it. -/
inductive ActsOn (st : Step Engine Op) (q : Qid) : Prop
  | asks (h : st.input.asks = some q)
  | abandon (h : st.input = .abandon q)
  | brings {tx : Txid} (h : st.input.onTx = some tx) (htx : st.before.TxOf tx q)

/-- The task is another question's. -/
def TaskOfOther (e : Engine) (id : TaskId) (q : Qid) : Prop :=
  ∃ t, e.tasks.get id = some t ∧ t.owner.qid ≠ q

/-- Whatever the step did was for the question: the tasks, transactions and lookups of others are
what they were, and every action is for the question. -/
structure Undisturbed (st : Step Engine Op) (q : Qid) : Prop where
  task : ∀ id t, t.owner.qid ≠ q →
    ((after st).tasks.get id = some t ↔ st.before.tasks.get id = some t)
  tx : ∀ tx x, st.before.TaskOfOther x.task q →
    ((after st).txs.get tx = some x ↔ st.before.txs.get tx = some x)
  lookup : ∀ q', q' ≠ q → (after st).lookups.get q' = st.before.lookups.get q'
  sent : ∀ tx server interface tcp payload, .send tx server interface tcp payload ∈ actions st →
    (after st).TxOf tx q
  cancelled : ∀ tx, .cancel tx ∈ actions st → st.before.TxOf tx q
  done : ∀ q' c, .done q' c ∈ actions st → q' = q

/-! ### Along an operation -/

/-- At a moment of an operation: what others have is what it was, and the loose tasks are the
question's. -/
structure Aside (st : Step Engine Op) (q : Qid) (m : Mid) : Prop where
  task : ∀ id t, t.owner.qid ≠ q →
    (m.engine.tasks.get id = some t ↔ st.before.tasks.get id = some t)
  tx : ∀ tx x, st.before.TaskOfOther x.task q →
    (m.engine.txs.get tx = some x ↔ st.before.txs.get tx = some x)
  lookup : ∀ q', q' ≠ q → m.engine.lookups.get q' = st.before.lookups.get q'
  loose : ∀ id ∈ m.loose, ∃ t, m.engine.tasks.get id = some t ∧ t.owner.qid = q
  done : ∀ q' c, .done q' c ∈ m.acts → q' = q

section ActsOn

variable {st : Step Engine Op} {q : Qid}

section

variable (h : ActsOn st q)
include h

theorem ActsOn.asks_eq {q' : Qid} (hq' : st.input.asks = some q') : q' = q := by
  cases h with
  | asks h => exact Option.mem_unique hq' h
  | abandon h => rw [h] at hq'; cases hq'
  | brings h htx => rw [Op.asks_of_onTx h] at hq'; cases hq'

theorem ActsOn.abandon_eq {q' : Qid} (hop : st.input = .abandon q') : q' = q := by
  cases h with
  | asks h => rw [hop] at h; cases h
  | abandon h => exact Op.abandon.inj (hop.symm.trans h)
  | brings h htx => rw [hop] at h; cases h

theorem ActsOn.not_config : st.input.isConfig = false := by
  cases h with
  | asks h => exact Op.not_config_of_asks h
  | abandon h => rw [h]; rfl
  | brings h htx => cases hop : st.input <;> rw [hop] at h <;> first | rfl | cases h

theorem ActsOn.not_tick (now : Instant) : st.input ≠ .tick now := by
  intro hop
  cases h with
  | asks h => rw [hop] at h; cases h
  | abandon h => rw [hop] at h; cases h
  | brings h htx => rw [hop] at h; cases h

/-- The transaction that the operation ends is the question's. -/
theorem ActsOn.closes {tx : Txid} {acts : List Action} (hc : Closes st tx acts) :
    st.before.TxOf tx q := by
  have honTx : st.input.onTx = some tx := by
    cases hc with
    | received hop hx hM => rw [hop]; rfl
    | failed hop hx => rw [hop]; rfl
    | localFailed hop hx => rw [hop]; rfl
    | expired hop hx hd => exact absurd hop (h.not_tick _)
  cases h with
  | asks h => rw [hc.asks] at h; cases h
  | abandon h => rw [h] at honTx; cases honTx
  | brings h htx =>
    obtain rfl := Option.mem_unique h honTx
    exact htx

end

end ActsOn

theorem Aside.not_loose (h : Aside st q m) {id : TaskId}
    (hother : st.before.TaskOfOther id q) : id ∉ m.loose := by
  intro hid
  obtain ⟨t, ht, hq⟩ := h.loose id hid
  obtain ⟨t₀, ht₀, hq₀⟩ := hother
  obtain rfl := Option.some.inj (ht.symm.trans ((h.task id t₀ hq₀).mpr ht₀))
  exact hq₀ hq

/-- The tasks of the other questions are the same: those that change are the question's before and
after. -/
theorem other_tasks_iff {e e' : Engine} (h : ∀ id, e'.tasks.get id = e.tasks.get id ∨
      (∀ t, e.tasks.get id = some t → t.owner.qid = q) ∧ ∀ t, e'.tasks.get id = some t →
        t.owner.qid = q) (id : TaskId) (t : Task) (hq : t.owner.qid ≠ q) :
    e'.tasks.get id = some t ↔ e.tasks.get id = some t := by
  rcases h id with heq | ⟨hold, hnew⟩
  · rw [heq]
  · exact ⟨fun ht => absurd (hnew t ht) hq, fun ht => absurd (hold t ht) hq⟩

/-- A change of tasks that are the question's before and after it. -/
theorem Aside.tasks (h : Aside st q m)
    (htasks : ∀ id, m'.engine.tasks.get id = m.engine.tasks.get id ∨
      (∀ t, m.engine.tasks.get id = some t → t.owner.qid = q) ∧
        ∀ t, m'.engine.tasks.get id = some t → t.owner.qid = q)
    (htxs : ∀ tx x, st.before.TaskOfOther x.task q →
      (m'.engine.txs.get tx = some x ↔ m.engine.txs.get tx = some x))
    (hlookups : ∀ q', q' ≠ q → m'.engine.lookups.get q' = m.engine.lookups.get q')
    (hloose : ∀ id ∈ m'.loose, ∃ t, m'.engine.tasks.get id = some t ∧ t.owner.qid = q)
    (hdone : ∀ q' c, .done q' c ∈ m'.acts → .done q' c ∈ m.acts ∨ q' = q) : Aside st q m' where
  task id t hq := (other_tasks_iff htasks id t hq).trans (h.task id t hq)
  tx tx x hother := (htxs tx x hother).trans (h.tx tx x hother)
  lookup q' hq' := (hlookups q' hq').trans (h.lookup q' hq')
  loose := hloose
  done q' c hc := (hdone q' c hc).elim (h.done q' c) fun hq => hq

/-- A tweak of the operation moves loose tasks only. -/
theorem Tweak.tasks_ne (hm : Tweak st m m') (hop : st.input.isConfig = false)
    {id : TaskId} (hid : id ∉ m.loose) : m'.engine.tasks.get id = m.engine.tasks.get id := by
  have hne : ∀ {i}, i ∈ m.loose → id ≠ i := fun hi heq => hid (heq ▸ hi)
  cases hm with
  | book c d n => rfl
  | configure h hm => rw [hop] at h; cases h
  | expand hop hi ht hnew hnone h => exact updateTask_tasks_ne (hne hi) _
  | choose hop hi ht hc hs hwhy => exact updateTask_tasks_ne (hne hi) _
  | forget hx hexp => rfl
  | store h hstore => rfl
  | refund h hi => exact updateTask_tasks_ne (hne hi) _
  | ask server hi => exact updateTask_tasks_ne (hne hi) _

theorem Aside.tweak (h : Aside st q m) (hacts : ActsOn st q)
    (hm : Tweak st m m') : Aside st q m' := by
  have hquiet := hm.quiet
  have hloose : ∀ id ∈ m.loose, ∃ t, m'.engine.tasks.get id = some t ∧ t.owner.qid = q := by
    intro id hid
    obtain ⟨t, ht, hq⟩ := h.loose id hid
    obtain ⟨t', ht', hlike, -⟩ := hquiet.task id t ht
    exact ⟨t', ht', hlike.owner ▸ hq⟩
  refine h.tasks (fun id => ?_) (fun _ _ _ => by rw [hquiet.txs])
    (fun q' _ => by rw [hquiet.lookups])
    (hquiet.loose ▸ hloose) fun q' c hc => .inl (hquiet.acts ▸ hc)
  by_cases hid : id ∈ m.loose
  · obtain ⟨t₀, ht₀, hq₀⟩ := h.loose id hid
    obtain ⟨t₁, ht₁, hq₁⟩ := hloose id hid
    exact .inr ⟨fun t ht => Option.mem_unique ht₀ ht ▸ hq₀, fun t ht =>
      Option.mem_unique ht₁ ht ▸ hq₁⟩
  · exact .inl (hm.tasks_ne hacts.not_config hid)

section Shift

variable {st : Step Engine Op} {q : Qid} {m : Mid} {id : TaskId} {t : Task}

theorem aside_first : Aside st q (.first st) :=
  ⟨fun _ _ _ => Iff.rfl, fun _ _ _ => Iff.rfl, fun _ _ =>
    rfl, by simp [Mid.first], by simp [Mid.first]⟩

theorem Aside.startTask (h : Aside st q m) (hl : Linked m.loose m.engine) (name : Name)
    (rtype : UInt16) (noCache : Bool) :
    Aside st q { m with
      engine := m.engine.startTask (.resolve q) name rtype noCache
      loose := m.loose ++ [m.engine.nextId]
      begun := true } := by
  refine h.tasks (fun id => ?_) (fun _ _ _ => Iff.rfl) (fun _ _ => rfl)
    (fun id hid => ?_) fun q' c hc => .inl hc
  · simp only [Engine.startTask, Table.get_insert]
    split
    · next hid =>
      subst hid
      rw [hl.task_fresh (le_refl _)]
      exact .inr ⟨by simp, by rintro t ⟨⟩; rfl⟩
    · exact .inl rfl
  · simp only [Engine.startTask, Table.get_insert]
    split
    · exact ⟨_, rfl, rfl⟩
    · next hne => exact h.loose id (by simpa [hne] using hid)

theorem Aside.openLookup (h : Aside st q m) (hl : Linked m.loose m.engine) (name : Name)
    (family : Family) :
    Aside st q { m with
      engine := m.engine.openLookup q name family
      loose := m.loose ++ (m.engine.startTasks q name family.types).2
      begun := true } := by
  have hnew : ∀ id, m.engine.nextId ≤ id ∧ id < m.engine.nextId + family.types.length →
      ∃ t, (m.engine.openLookup q name family).tasks.get id = some t ∧ t.owner.qid = q := by
    rintro id ⟨hlo, hhi⟩
    obtain ⟨rtype, -, ht⟩ := openLookup_new m.engine q name family hlo hhi
    exact ⟨_, ht, rfl⟩
  refine h.tasks (fun id => ?_) (fun _ _ _ => by dsimp only; rw [openLookup_eq]) (fun q' hq' => ?_)
    (fun id hid => ?_)
    fun q' c hc => .inl hc
  · by_cases hid : m.engine.nextId ≤ id ∧ id < m.engine.nextId + family.types.length
    · obtain ⟨t', ht', hq'⟩ := hnew id hid
      refine .inr ⟨fun t ht => ?_, fun t ht => Option.mem_unique ht' ht ▸ hq'⟩
      rw [hl.task_fresh hid.1] at ht
      cases ht
    · exact .inl (openLookup_old _ _ _ _ hid)
  · dsimp only
    rw [openLookup_eq]
    simp only [Table.get_insert, if_neg hq']
  · rw [(startTasks_spec _ _ _ _).1, mem_append, mem_range'_1] at hid
    rcases hid with hid | hid
    · obtain ⟨t, ht, hq⟩ := h.loose id hid
      refine ⟨t, ?_, hq⟩
      dsimp only
      rw [openLookup_old _ _ _ _ fun hge => absurd (hl.task_lt id t ht) (not_lt.mpr hge.1), ht]
    · exact hnew id hid

theorem aside_abandon (hl : Linked [] st.before) :
    Aside st q { engine := (st.before.abandon q).1, acts := (st.before.abandon q).2 } := by
  obtain ⟨a1, a2, a3, a4, a5⟩ := abandon_spec st.before q
  refine ⟨fun id t hq => ?_, fun tx x hother => ?_, fun q' hq' => ?_, by simp, fun q' c hc => ?_⟩
  · simp only [a1, Option.filter_eq_some_iff, bne_iff_ne]
    exact ⟨And.left, fun ht => ⟨ht, hq⟩⟩
  · -- a transaction of another question is not one of those that are cancelled
    by_cases hc : .cancel tx ∈ (st.before.abandon q).2
    · obtain ⟨tx', id, t, heq, ht, hq, htx⟩ := (a4 _).mp hc
      obtain rfl := Action.cancel.inj heq
      simp only [a2 tx hc, reduceCtorEq, false_iff]
      intro hx
      obtain ⟨tx', x', htx', hx', rfl⟩ := hl.task_tx id t ht (by simp)
      obtain rfl := Option.mem_unique htx htx'
      obtain rfl := Option.mem_unique hx hx'
      obtain ⟨t', ht', hq'⟩ := hother
      obtain rfl := Option.mem_unique ht ht'
      exact hq' hq
    · rw [a3 tx hc]
  · dsimp only
    rw [a5]
    simp only [Table.get_remove, if_neg hq']
  · obtain ⟨tx, -, -, heq, -⟩ := (a4 _).mp hc
    cases heq

theorem one_task_changes {e e' : Engine} (ht : e.tasks.get id = some t) (hq : t.owner.qid = q)
    (hne : ∀ i, i ≠ id → e'.tasks.get i = e.tasks.get i)
    (hself : ∀ t', e'.tasks.get id = some t' → t'.owner = t.owner) (i : TaskId) :
    e'.tasks.get i = e.tasks.get i ∨
      (∀ t, e.tasks.get i = some t → t.owner.qid = q) ∧ ∀ t, e'.tasks.get i = some t →
        t.owner.qid = q := by
  by_cases hi : i = id
  · subst hi
    exact .inr ⟨fun t' ht' => Option.mem_unique ht ht' ▸ hq, fun t' ht' => by rw [hself t' ht', hq]⟩
  · exact .inl (hne i hi)

theorem Aside.closeTx (h : Aside st q m) {tx : Txid} {x : Tx} {acts : List Action}
    (hx : m.engine.txs.get tx = some x) (ht : m.engine.tasks.get x.task = some t)
    (hq : t.owner.qid = q) (hacts : ∀ q' c, .done q' c ∉ acts) :
    Aside st q { m with
      engine := m.engine.closeTx tx x
      loose := m.loose ++ [x.task]
      acts := m.acts ++ acts } := by
  have hself : (m.engine.closeTx tx x).tasks.get x.task = _ := get_closeTx_self ht
  refine h.tasks (one_task_changes ht hq (fun i hi => closeTx_tasks_ne hi) fun t' ht' => ?_)
    (fun tx' x' hother => ?_)
    (fun _ _ => rfl) (fun i hi => ?_) fun q' c hc => ?_
  · obtain rfl := Option.mem_unique hself ht'
    rfl
  · dsimp only
    rw [closeTx_txs]
    split
    · next htx =>
      subst htx
      simp only [reduceCtorEq, false_iff]
      intro hx'
      obtain rfl := Option.mem_unique hx hx'
      obtain ⟨t', ht', hq'⟩ := hother
      obtain rfl := Option.some.inj (ht.symm.trans ((h.task _ t' hq').mpr ht'))
      exact hq' hq
    · rfl
  · by_cases hi' : i = x.task
    · subst hi'
      exact ⟨_, hself, hq⟩
    · obtain ⟨t', ht', hq'⟩ := h.loose i (by simpa [hi'] using hi)
      exact ⟨t', (closeTx_tasks_ne hi').trans ht', hq'⟩
  · exact (mem_append.mp hc).elim .inl fun hc => absurd hc (hacts q' c)

section

variable (h : Aside st q m) (hs : Sound st m)
include h hs

theorem Aside.launch {server : IpAddr} {tcp : Bool} (random) (hid : id ∈ m.loose)
    (ht : m.engine.tasks.get id = some t) :
    Aside st q (m.finish id (m.engine.launch id t server tcp random st.input.now)) := by
  have hself := launch_tasks_self server tcp random st.input.now ht
  obtain ⟨t₀, ht₀, hq⟩ := h.loose id hid
  obtain rfl := Option.mem_unique ht ht₀
  refine h.tasks (one_task_changes ht hq (fun i hi => launch_tasks_ne _ _ _ _ hi) fun t' ht' => ?_)
    (fun tx x hother => ?_)
    (fun _ _ => rfl) (fun i hi => ?_) fun q' c hc => .inl ?_
  · obtain rfl := Option.mem_unique hself ht'
    rfl
  · by_cases htx : tx = m.engine.nextId
    · -- the new transaction is not another question's, and there was none of this id
      subst htx
      rw [hs.linked.tx_fresh (le_refl _)]
      simp only [Mid.finish, launch_txs_self, Option.some.injEq, reduceCtorEq, iff_false]
      rintro rfl
      exact h.not_loose hother hid
    · simp only [Mid.finish, launch_txs_ne _ _ _ _ htx]
  · obtain ⟨hne, hi⟩ := hs.linked.nodup.mem_erase_iff.mp hi
    obtain ⟨t', ht', hq'⟩ := h.loose i hi
    exact ⟨t', (launch_tasks_ne _ _ _ _ hne).trans ht', hq'⟩
  · exact (mem_append.mp hc).resolve_right fun hc => by simp [Engine.launch] at hc

theorem Aside.settle (a : Answer) (hid : id ∈ m.loose) (ht : m.engine.tasks.get id = some t)
    (htx : t.tx = none) : Aside st q (m.finish id (m.engine.settle id a)) := by
  obtain ⟨t₀, ht₀, hq⟩ := h.loose id hid
  obtain rfl := Option.mem_unique ht ht₀
  refine h.tasks (one_task_changes ht hq (fun i hi => settle_tasks_ne hi a) fun t' ht' => ?_)
    (fun tx x _ => ?_)
    (fun q' hq' => ?_) (fun i hi => ?_) fun q' c hc => ?_
  · simp only [Mid.finish, settle_eq ht htx, Table.get_remove, if_true] at ht'
    cases ht'
  · simp only [Mid.finish, settle_eq ht htx]
  · exact (sameFor_settle ht htx a (hq.trans_ne hq'.symm)).lookup
  · obtain ⟨hne, hi⟩ := hs.linked.nodup.mem_erase_iff.mp hi
    obtain ⟨t', ht', hq'⟩ := h.loose i hi
    exact ⟨t', (settle_tasks_ne hne a).trans ht', hq'⟩
  · rcases mem_append.mp hc with hc | hc
    · exact .inl hc
    · rw [settle_eq ht htx] at hc
      obtain ⟨c', heq⟩ := settled_done hc
      exact .inr ((Action.done.inj heq).1.trans hq)

theorem Aside.shift {m' : Mid} (hacts : ActsOn st q) (hm : Shift st m m') : Aside st q m' := by
  have hl := hs.linked
  cases hm with
  | refuse h' hb =>
    obtain rfl := hacts.asks_eq h'.asks
    refine h.tasks (fun _ => .inl rfl) (fun _ _ _ => Iff.rfl)
      (fun _ _ => rfl) h.loose fun q' c hc => ?_
    exact (mem_append.mp hc).imp_right fun hc => (Action.done.inj (mem_singleton.mp hc)).1
  | start h' hb =>
    obtain rfl := hacts.asks_eq h'.asks
    exact h.startTask hl _ _ _
  | startAll h' hb =>
    obtain rfl := hacts.asks_eq h'.asks
    exact h.openLookup hl _ _
  | abandon h' hm =>
    subst hm
    obtain rfl := hacts.abandon_eq h'
    exact aside_abandon hs.start
  | close hx ht h' =>
    obtain ⟨x₀, t₀, hx₀, ht₀, hq⟩ := hacts.closes h'
    -- the transaction and the owner of its task are what they were when the operation began
    obtain ⟨hx', t₁, t', ht₁, ht', hstill⟩ := hs.traffic.old_tx _ _ hx (hs.start.tx_lt _ _ hx₀)
    obtain rfl := Option.mem_unique hx₀ hx'
    obtain rfl := Option.mem_unique ht₀ ht₁
    obtain rfl := Option.mem_unique ht ht'
    refine h.closeTx hx ht (hstill.owner ▸ hq) fun q' c hc => ?_
    rcases h'.acts with rfl | rfl <;> simp at hc
  | orphan hx ht h' =>
    obtain ⟨-, t, ht', -⟩ := hl.tx_task _ _ hx
    rw [ht] at ht'
    cases ht'
  | stray h' hx hold => exact absurd h' (hacts.not_tick _)
  | launch random hid ht htx hcur hbudget hroom h' => exact h.launch hs random hid ht
  | settle hid ht htx h' => exact h.settle hs _ hid ht htx

end

theorem ActsOn.aside (hacts : ActsOn st q) (hl : Linked [] st.before) (hp : Path st (.first st) m) :
    Aside st q m := by
  induction hp with
  | refl => exact aside_first
  | tail hp hm ih =>
    cases hm with
    | tweak hm => exact ih.tweak hacts hm
    | shift hm => exact ih.shift (Path.sound hl hp) hacts hm

end Shift

/-! ### Whole operations -/

section Undisturbed

variable {st : Step Engine Op} {q : Qid}

/-- **An operation on a question concerns no other question.** -/
theorem ActsOn.concerns (hacts : ActsOn st q) (hl : Linked [] st.before) : Undisturbed st q := by
  have haside := hacts.aside hl (apply_path st)
  have hs := Path.sound hl (apply_path st)
  refine ⟨haside.task, haside.tx, haside.lookup, fun tx server interface tcp payload hsend => ?_,
    fun tx hcancel => ?_,
    haside.done⟩
  · obtain ⟨hge, x, hx⟩ := hs.traffic.sent tx (mem_filterMap.mpr ⟨_, hsend, rfl⟩)
    obtain ⟨-, t, ht, -⟩ := hs.linked.tx_task tx x hx
    refine ⟨x, t, hx, ht, not_not.mp fun hq => ?_⟩
    -- another question's transaction would have been there before
    have hx₀ := (haside.tx tx x ⟨t, (haside.task _ t hq).mp ht, hq⟩).mp hx
    exact absurd (hl.tx_lt tx x hx₀) (not_lt.mpr hge)
  · obtain ⟨x, hx⟩ := (hs.traffic.cancelled tx hcancel).1
    obtain ⟨-, t, ht, -⟩ := hl.tx_task tx x hx
    refine ⟨x, t, hx, ht, not_not.mp fun hq => ?_⟩
    have hx' := (haside.tx tx x ⟨t, ht, hq⟩).mpr hx
    rw [(hs.traffic.cancelled tx hcancel).2] at hx'
    cases hx'

/-- The transactions of a question are gone once it is abandoned. -/
theorem abandon_tx_gone (hl : Linked [] st.before) (hop : st.input = .abandon q) {tx : Txid}
    (htx : st.before.TxOf tx q) : (after st).txs.get tx = none := by
  obtain ⟨x, t, hx, ht, hq⟩ := htx
  obtain ⟨-, t', ht', htx'⟩ := hl.tx_task tx x hx
  obtain rfl := Option.mem_unique ht ht'
  obtain ⟨-, a2, -, a4, -⟩ := abandon_spec st.before q
  simp only [after, hop, apply]
  exact a2 tx ((a4 _).mpr ⟨tx, x.task, t, rfl, ht, hq, htx'⟩)

end Undisturbed

/-! ### Runs -/

section Run

variable {entropy : Entropy} {log : EngineLog} {e : Engine} {tx : Txid}

/-- A transaction that is gone after a step is gone for good. -/
theorem Runs.gone_for_good (h : Runs entropy log e) {st : Step Engine Op} (hst : st ∈ log)
    (hlt : tx < st.before.nextId) (hgone : (after st).txs.get tx = none) : e.txs.get tx = none := by
  refine (Runs.step_invariant (I := fun log e => ∀ st ∈ log, tx < st.before.nextId →
    (after st).txs.get tx = none →
    tx < e.nextId ∧ e.txs.get tx = none) (by simp) (fun log e e' hI hr st hst hlt hgone => ?_)
    (fun log st _ hs hI st' hst' hlt hgone => ?_) h st hst hlt hgone).2
  · rw [hr.nextId, hr.txs.get_eq]
    exact hI st hst hlt hgone
  · rcases mem_cons.mp hst' with rfl | hst'
    · exact ⟨hlt.trans_le hs.traffic.nextId_le, hgone⟩
    · obtain ⟨hlt', hnone⟩ := hI st' hst' hlt hgone
      refine ⟨hlt'.trans_le hs.traffic.nextId_le, ?_⟩
      cases hx : (after st).txs.get tx with
      | none => rfl
      | some x =>
        have hx₀ := (hs.traffic.old_tx tx x hx hlt').1
        rw [hnone] at hx₀
        cases hx₀

theorem received_of_gone (h : e.txs.get tx = none) (bytes : Bytes) (now : Instant) :
    e.received tx bytes now = (e, []) := by
  simp only [received, h]

/-- A transaction that the question had in an earlier state and still is there is the question's. -/
theorem Since.txOf {e₀ : Engine} {q : Qid} (h : Since e₀ e) (hl₀ : Linked [] e₀) (hl : Linked [] e)
    (htx : e₀.TxOf tx q) {x : Tx} (hx : e.txs.get tx = some x) : e.TxOf tx q := by
  obtain ⟨x₀, t₀, hx₀, ht₀, hq⟩ := htx
  obtain rfl := Option.some.inj (hx₀.symm.trans (h.tx tx x hx (hl₀.tx_lt tx x₀ hx₀)))
  obtain ⟨-, t, ht, -⟩ := hl.tx_task tx x₀ hx
  obtain ⟨t₁, ht₁, hkin⟩ := h.task _ t ht (hl₀.task_lt _ t₀ ht₀)
  obtain rfl := Option.mem_unique ht₀ ht₁
  exact ⟨x₀, t, hx, ht, hkin.owner ▸ hq⟩

/-- **Questions do not disturb each other.**  In every run: a step that acts on one question leaves
the tasks, transactions and lookups of all others exactly as they were, and each of its actions is
for that question.  A step that changes the configuration marks tasks, and changes nothing else in
them, in a transaction or in a lookup.  Once a question was abandoned, a reply on a transaction that
it had at any time changes no part of the state. -/
theorem Runs.undisturbed (h : Runs entropy log e) :
    (∀ st ∈ log, ∀ q, ActsOn st q → Undisturbed st q) ∧
    (∀ st ∈ log, st.input.isConfig = true → (after st).txs = st.before.txs ∧
      (after st).lookups = st.before.lookups ∧
      actions st = [] ∧ ∃ marked : Task →
        Bool, ∀ id, (after st).tasks.get id = (st.before.tasks.get id).map fun t =>
        { t with cacheInvalidated := t.cacheInvalidated || marked t }) ∧
    (∀ new st old q, log = new ++ st :: old → st.input = .abandon q →
      ∀ st₀ ∈ st :: old, ∀ tx, st₀.before.TxOf tx q →
      ∀ bytes now, e.received tx bytes now = (e, [])) := by
  refine ⟨fun st hst q hacts => hacts.concerns (h.sound hst).start, fun st hst hop => ?_,
    fun new st old q hlog hop st₀ hst₀ tx htx bytes now => received_of_gone ?_ bytes now⟩
  · obtain ⟨marked, htasks, htxs, hlookups, -, -, hacts⟩ := configure_marks st.before hop
    exact ⟨htxs, hlookups, hacts, marked, htasks⟩
  · have hmem : ∀ st' ∈ st :: old, st' ∈ log := fun st' hst' => hlog ▸ mem_append_right _ hst'
    have hl := (h.sound (hmem st mem_cons_self)).start
    have hl₀ := (h.sound (hmem st₀ hst₀)).start
    obtain ⟨x₀, t₀, hx₀, -⟩ := id htx
    have hlt₀ := hl₀.tx_lt tx x₀ hx₀
    obtain ⟨e₁, h₁, hr₁⟩ := h.reached hlog
    have hsince : Since st₀.before st.before := by
      rcases mem_cons.mp hst₀ with rfl | hst₀
      · exact ⟨le_refl _, fun _ t ht _ => ⟨t, ht, .refl t⟩, fun _ _ hx _ => hx⟩
      · exact (h₁.since st₀ hst₀).reorder hr₁
    refine h.gone_for_good (hmem st mem_cons_self) (hlt₀.trans_le hsince.nextId_le) ?_
    cases hx : st.before.txs.get tx with
    | some x => exact abandon_tx_gone hl hop (hsince.txOf hl₀ hl htx hx)
    | none =>
      cases hx' : (after st).txs.get tx with
      | none => rfl
      | some x =>
        have hs := Path.sound hl (apply_path st)
        rw [(hs.traffic.old_tx tx x hx' (hlt₀.trans_le hsince.nextId_le)).1] at hx
        cases hx

end Run

/-- Two questions are under way. -/
def askTwice : List Op := askOnLan ++ [.resolve 8 (ascii "other.example") Rtype.a false 2000]

/-- When the first is abandoned, the query of the second stays. -/
theorem undisturbed_askTwice :
    ∃ x, (ran zeros (askTwice ++ [.abandon 7])).2.txs.get 4 = some x ∧ x.task = 3 := by
  have hlive : ((ran zeros askTwice).2.txs.get 4).map Tx.task = some 3 := by decide +kernel
  have howner : ((ran zeros askTwice).2.tasks.get 3).map (fun t => t.owner.qid) = some 8 := by
    decide +kernel
  obtain ⟨x, hx, htask⟩ := Option.map_eq_some_iff.mp hlive
  obtain ⟨t, ht, hq⟩ := Option.map_eq_some_iff.mp howner
  have hund := (Runs.undisturbed (runs_ran zeros (askTwice ++ [.abandon 7]))).1
    ⟨(ran zeros askTwice).2, .abandon 7⟩ mem_cons_self 7 (.abandon rfl)
  exact ⟨x, (hund.tx 4 x ⟨t, htask ▸ ht, by simp [hq]⟩).mpr hx, htask⟩

end Resolvd.Engine
