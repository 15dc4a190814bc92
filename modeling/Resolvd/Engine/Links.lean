import Resolvd.Engine.Paths

/-!
# Tasks and transactions

Between two operations tasks and transactions are in bijection; in the middle of one the loose tasks
are the exception (`Linked`).  Where they are linked, it can be told what a shift has done to a task
or a transaction that is there after it (`Shift.task_cases`, `Shift.tx_cases`).
-/

namespace Resolvd.Engine

open Lib Dns

variable {m m' : Mid} {st : Step Engine Op} {t : Task}

/-- Tasks and transactions point to each other, except that a loose task has no transaction. -/
structure Linked (loose : List TaskId) (e : Engine) : Prop where
  tx_task : ∀ tx x, e.txs.get tx = some x → x.task ∉ loose ∧ ∃ t, e.tasks.get x.task = some t ∧
    t.tx = some tx
  task_tx : ∀ id t, e.tasks.get id = some t → id ∉ loose → ∃ tx x, t.tx = some tx ∧
    e.txs.get tx = some x ∧ x.task = id
  loose_task : ∀ id ∈ loose, ∃ t, e.tasks.get id = some t ∧ t.tx = none
  nodup : loose.Nodup
  task_lt : ∀ id t, e.tasks.get id = some t → id < e.nextId
  tx_lt : ∀ tx x, e.txs.get tx = some x → tx < e.nextId
  /-- tasks and transactions take their ids from one counter -/
  apart : ∀ id t, e.tasks.get id = some t → e.txs.get id = none
  /-- `settle` dropped no transaction -/
  leaked : e.leaked = []

theorem linked_withEntropy (entropy : Entropy) : Linked [] (withEntropy entropy) := by
  constructor <;> simp [withEntropy]

theorem Linked.reorder {e e' : Engine} (h : Linked [] e) (hr : Reorder e e') : Linked [] e' := by
  have htasks := hr.tasks.get_eq
  have htxs := hr.txs.get_eq
  have hnext := hr.nextId
  have hleaked := hr.leaked
  obtain ⟨h1, h2, h3, h4, h5, h6, h7, h8⟩ := h
  constructor <;> grind

theorem Linked.quiet (h : Linked m.loose m.engine) (hq : Quiet m m') :
    Linked m'.loose m'.engine := by
  have htask := hq.task
  have hold := @Quiet.task_old _ _ hq
  obtain ⟨h1, h2, h3, h4, h5, h6, h7, h8⟩ := h
  rw [hq.loose]
  constructor
  case nodup => exact h4
  case leaked => exact hq.leaked.trans h8
  case tx_lt =>
    rw [hq.txs, hq.nextId]
    exact h6
  case tx_task =>
    rw [hq.txs]
    intro tx x hx
    obtain ⟨hnot, t, ht, htx⟩ := h1 tx x hx
    obtain ⟨t', ht', hlike, -⟩ := htask _ t ht
    exact ⟨hnot, t', ht', hlike.tx ▸ htx⟩
  case task_tx =>
    rw [hq.txs]
    intro id t' ht' hid
    obtain ⟨t, ht, hlike, -⟩ := hold ht'
    rw [hlike.tx]
    exact h2 id t ht hid
  case loose_task =>
    intro id hid
    obtain ⟨t, ht, htx⟩ := h3 id hid
    obtain ⟨t', ht', hlike, -⟩ := htask _ t ht
    exact ⟨t', ht', hlike.tx ▸ htx⟩
  case task_lt =>
    intro id t' ht'
    obtain ⟨t, ht, -⟩ := hold ht'
    rw [hq.nextId]
    exact h5 id t ht
  case apart =>
    intro id t' ht'
    obtain ⟨t, ht, -⟩ := hold ht'
    rw [hq.txs]
    exact h7 id t ht

section Linked

variable {loose : List TaskId} {e : Engine} {id : TaskId} {t : Task}

theorem Linked.task_fresh (h : Linked loose e) (hid : e.nextId ≤ id) : e.tasks.get id = none := by
  cases ht : e.tasks.get id with
  | none => rfl
  | some t => exact absurd (h.task_lt id t ht) (not_lt.mpr hid)

theorem Linked.tx_fresh {tx : Txid} (h : Linked loose e) (htx : e.nextId ≤ tx) :
    e.txs.get tx = none := by
  cases hx : e.txs.get tx with
  | none => rfl
  | some x => exact absurd (h.tx_lt tx x hx) (not_lt.mpr htx)

theorem Linked.startTask (h : Linked loose e) (owner : Owner) (name : Name) (rtype : UInt16)
    (noCache : Bool) : Linked (loose ++ [e.nextId]) (e.startTask owner name rtype noCache) := by
  have hfresh := h.task_fresh (le_refl _)
  have hfresh' := h.tx_fresh (le_refl _)
  obtain ⟨h1, h2, h3, h4, h5, h6, h7, h8⟩ := h
  constructor
  case nodup => grind
  case leaked => exact h8
  case loose_task =>
    intro i hi
    simp only [Engine.startTask, Table.get_insert]
    by_cases hid : i = e.nextId
    · exact ⟨_, if_pos hid, rfl⟩
    · rw [if_neg hid]
      exact h3 i (by grind)
  all_goals
    simp only [Engine.startTask, Table.get_insert]
    grind

theorem Linked.openLookup (h : Linked loose e) (qid : Qid) (name : Name) (family : Family) :
    Linked (loose ++ List.range' e.nextId family.types.length) (e.openLookup qid name family) := by
  have hfresh : ∀ id, e.nextId ≤ id → e.tasks.get id = none := fun id => h.task_fresh
  have hfresh' : ∀ tx, e.nextId ≤ tx → e.txs.get tx = none := fun tx => h.tx_fresh
  have hnew : ∀ id, e.nextId ≤ id → id < e.nextId + family.types.length →
      ∃ t, (e.openLookup qid name family).tasks.get id = some t ∧ t.tx = none := by
    intro id hlo hhi
    obtain ⟨rtype, -, hr⟩ := openLookup_new e qid name family hlo hhi
    exact ⟨_, hr, rfl⟩
  have hold : ∀ id, ¬ (e.nextId ≤ id ∧ id < e.nextId + family.types.length) →
      (e.openLookup qid name family).tasks.get id = e.tasks.get id :=
        fun id => openLookup_old e qid name family
  have hmem : ∀ i, i ∈ loose ++ List.range' e.nextId family.types.length ↔
      i ∈ loose ∨ e.nextId ≤ i ∧ i < e.nextId + family.types.length := by simp
  obtain ⟨h1, h2, h3, h4, h5, h6, h7, h8⟩ := h
  constructor
  case nodup =>
    refine List.nodup_append.mpr ⟨h4, List.nodup_range', ?_⟩
    rintro a ha b hb rfl
    obtain ⟨t, ht, -⟩ := h3 a ha
    exact absurd (h5 a t ht) (not_lt.mpr (List.mem_range'_1.mp hb).1)
  all_goals
    rw [openLookup_eq]
    grind

theorem Linked.abandon (h : Linked [] e) (qid : Qid) : Linked [] (e.abandon qid).1 := by
  obtain ⟨a1, a2, a3, a4, a5⟩ := abandon_spec e qid
  obtain ⟨h1, h2, h3, h4, h5, h6, h7, h8⟩ := h
  have hnext : (e.abandon qid).1.nextId = e.nextId := by rw [a5]
  have htasks : ∀ id t, (e.abandon qid).1.tasks.get id = some t ↔ e.tasks.get id = some t ∧
      t.owner.qid ≠ qid := by
    intro id t
    simp only [a1, Option.filter_eq_some_iff, bne_iff_ne]
  have htxs : ∀ tx x, (e.abandon qid).1.txs.get tx = some x → e.txs.get tx = some x ∧
      .cancel tx ∉ (e.abandon qid).2 := by
    intro tx x hx
    have hc : .cancel tx ∉ (e.abandon qid).2 := fun hc => by rw [a2 tx hc] at hx; cases hx
    exact ⟨a3 tx hc ▸ hx, hc⟩
  constructor
  case loose_task => simp
  case nodup => exact h4
  case leaked =>
    rw [a5]
    exact h8
  case tx_task =>
    intro tx x hx
    obtain ⟨hx₀, hc⟩ := htxs tx x hx
    obtain ⟨-, t, ht, htx⟩ := h1 tx x hx₀
    exact ⟨by simp, t, (htasks _ _).mpr ⟨ht, fun hq => hc ((a4 _).mpr ⟨tx, _, t, rfl, ht, hq, htx⟩)⟩, htx⟩
  case task_tx =>
    intro id t ht hid
    obtain ⟨ht₀, hq⟩ := (htasks id t).mp ht
    obtain ⟨tx, x, htx, hx, rfl⟩ := h2 id t ht₀ hid
    -- another task with this transaction would be the same one
    have hc : .cancel tx ∉ (e.abandon qid).2 := by
      intro hc
      obtain ⟨tx', id', t', heq, ht', hq', htx'⟩ := (a4 _).mp hc
      obtain rfl := Action.cancel.inj heq
      obtain ⟨tx'', x', htx'', hx', rfl⟩ := h2 id' t' ht' (by simp)
      grind
    exact ⟨tx, x, htx, by rw [a3 tx hc, hx], rfl⟩
  case task_lt =>
    intro id t ht
    rw [hnext]
    exact h5 id t ((htasks id t).mp ht).1
  case tx_lt =>
    intro tx x hx
    rw [hnext]
    exact h6 tx x (htxs tx x hx).1
  case apart =>
    intro id t ht
    have hnone := h7 id t ((htasks id t).mp ht).1
    cases hx : (e.abandon qid).1.txs.get id with
    | none => rfl
    | some x => rw [(htxs id x hx).1] at hnone; cases hnone

theorem Linked.closeTx {tx : Txid} {x : Tx} (h : Linked loose e) (hx : e.txs.get tx = some x) :
    Linked (loose ++ [x.task]) (e.closeTx tx x) := by
  obtain ⟨h1, h2, h3, h4, h5, h6, h7, h8⟩ := h
  constructor
  case nodup => grind
  all_goals simp only [Engine.closeTx, updateTask, Table.get_remove, Table.get_modify]
  all_goals grind

theorem Linked.launch {server : IpAddr} {tcp : Bool} (random : Vector UInt8 34) (now : Instant)
    (h : Linked loose e) (hid : id ∈ loose) (ht : e.tasks.get id = some t) :
    Linked (loose.erase id) (e.launch id t server tcp random now).1 := by
  have hfresh := h.task_fresh (le_refl _)
  have hfresh' := h.tx_fresh (le_refl _)
  obtain ⟨h1, h2, h3, h4, h5, h6, h7, h8⟩ := h
  have hmem : ∀ i, i ∈ loose.erase id ↔ i ≠ id ∧ i ∈ loose := fun i => h4.mem_erase_iff
  constructor
  case nodup => exact h4.erase id
  case leaked => exact h8
  case task_tx =>
    simp only [Engine.launch, count, updateTask, Table.get_insert, Table.get_modify, hmem]
    intro i t' ht' hi
    by_cases hid' : i = id
    · rw [if_pos hid', ht] at ht'
      obtain rfl := Option.some.inj ht'
      exact ⟨e.nextId, _, rfl, if_pos rfl, hid'.symm⟩
    · rw [if_neg hid'] at ht'
      obtain ⟨tx, x, htx, hx, rfl⟩ := h2 i t' ht' fun h => hi ⟨hid', h⟩
      exact ⟨tx, x, htx, by rw [if_neg (ne_of_lt (h6 tx x hx)), hx], rfl⟩
  all_goals
    simp only [Engine.launch, count, updateTask, Table.get_insert, Table.get_modify, hmem]
    grind

theorem Linked.settle (a : Answer) (h : Linked loose e) (hid : id ∈ loose)
    (ht : e.tasks.get id = some t) (htx : t.tx = none) :
    Linked (loose.erase id) (e.settle id a).1 := by
  obtain ⟨h1, h2, h3, h4, h5, h6, h7, h8⟩ := h
  have hmem : ∀ i, i ∈ loose.erase id ↔ i ≠ id ∧ i ∈ loose := fun i => h4.mem_erase_iff
  rw [settle_eq ht htx]
  constructor
  case nodup => exact h4.erase id
  all_goals simp only [Table.get_remove, hmem]
  all_goals grind

end Linked

theorem Linked.move (h : Linked m.loose m.engine) (hm : Move st m m') :
    Linked m'.loose m'.engine := by
  cases hm with
  | tweak hm => exact h.quiet hm.quiet
  | shift hm =>
    cases hm with
    | refuse h' hb => exact h
    | start h' hb => exact h.startTask _ _ _ _
    | startAll h' hb =>
      rw [(startTasks_spec _ _ _ _).1]
      exact h.openLookup _ _ _
    | abandon h' hm =>
      subst hm
      exact h.abandon _
    | close hx ht h' => exact h.closeTx hx
    | orphan hx ht h' =>
      obtain ⟨-, t, ht', -⟩ := h.tx_task _ _ hx
      rw [ht] at ht'
      cases ht'
    | stray h' hx hold => exact h
    | launch random hid ht htx hcur hbudget hroom h' => exact h.launch random _ hid ht
    | settle hid ht htx h' => exact h.settle _ hid ht htx

/-! ### What a shift does to a task -/

/-- The task has just begun, for the question the operation asks. -/
inductive Begun (st : Step Engine Op) : Task → Prop
  | resolve {q : Qid} {name : Name} {rtype : UInt16} {noCache : Bool}
      (h : st.input.Resolves q name rtype noCache) :
      Begun st { owner := .resolve q, original := name, rtype, noCache }
  | lookup {q : Qid} {name : Name} {family : Family} {rtype : UInt16}
      (h : st.input.LooksUp q name family) (hr : rtype ∈ family.types) :
      Begun st (lookupTask q name rtype)

theorem Begun.fresh (h : Begun st t) : t.Fresh := by
  cases h <;> exact ⟨rfl, rfl, rfl, rfl⟩

theorem Begun.asks (h : Begun st t) : st.input.asks = some t.owner.qid := by
  cases h with
  | resolve h => exact h.asks
  | lookup h hr => exact h.asks

/-- What a shift can have done to a task that is there after it. -/
inductive Shifted (st : Step Engine Op) (m m' : Mid) (id : TaskId) (t' : Task) : Prop
  | kept (h : m.engine.tasks.get id = some t') (hl : id ∈ m'.loose ↔ id ∈ m.loose)
  | begun (h : Begun st t') (hid : m.engine.nextId ≤ id) (hl : id ∈ m'.loose)
  | closed {tx : Txid} {x : Tx} {t : Task} {acts : List Action} (hx : m.engine.txs.get tx = some x)
      (hid : x.task = id) (ht : m.engine.tasks.get id = some t) (htx : t.tx = some tx)
      (h : Closes st tx acts) (heq : t' = { t with tx := none }) (hl : id ∈ m'.loose)
  | launched {t : Task} {server : IpAddr} {tcp : Bool} {random : Vector UInt8 34}
      (hid : id ∈ m.loose) (ht : m.engine.tasks.get id = some t)
      (hcur : t.current ≠ none ∨ st.input.asks = none) (hbudget : t.attempt < maxAttempts)
      (h : Target st m.engine id t server tcp)
      (heq : t' = { t with attempt := t.attempt + 1, tx := some m.engine.nextId })
      (hx : m'.engine.txs.get m.engine.nextId =
        some ⟨id, idOf random, t.question random, server, tcp, st.input.now + serverTimeout⟩)
      (hacts : m'.acts = m.acts ++ (m.engine.launch id t server tcp random st.input.now).2)
      (hl : id ∉ m'.loose)

/-- **What a shift does to a task.** -/
theorem Shift.task_cases (hlinked : Linked m.loose m.engine) (hm : Shift st m m')
    {i : TaskId} {t' : Task} (ht' : m'.engine.tasks.get i = some t') : Shifted st m m' i t' := by
  have herase : ∀ {i id : TaskId}, i ∈ m.loose.erase id ↔ i ≠ id ∧ i ∈ m.loose :=
    hlinked.nodup.mem_erase_iff
  cases hm with
  | refuse h hb => exact .kept ht' Iff.rfl
  | start h hb =>
    simp only [Engine.startTask, Table.get_insert] at ht'
    split at ht'
    · next hi =>
      obtain rfl := Option.some.inj ht'
      exact .begun (.resolve h) (le_of_eq hi.symm) (by simp [hi])
    · next hi => exact .kept ht' (by simp [hi])
  | @startAll q name family h hb =>
    have hloose : ∀ i, i ∈ m.loose ++ (m.engine.startTasks q name family.types).2 ↔
        i ∈ m.loose ∨ m.engine.nextId ≤ i ∧ i < m.engine.nextId + family.types.length := by
      intro i
      rw [(startTasks_spec _ _ _ _).1, List.mem_append, List.mem_range'_1]
    by_cases hi : m.engine.nextId ≤ i ∧ i < m.engine.nextId + family.types.length
    · obtain ⟨rtype, hmem, hr⟩ := openLookup_new m.engine q name family hi.1 hi.2
      obtain rfl := Option.mem_unique hr ht'
      exact .begun (.lookup h hmem) hi.1 ((hloose i).mpr (.inr hi))
    · rw [openLookup_old _ _ _ _ hi] at ht'
      exact .kept ht' ((hloose i).trans (by simp [hi]))
  | abandon h hm =>
    rw [(abandon_spec _ _).1, Option.filter_eq_some_iff] at ht'
    exact .kept ht'.1 Iff.rfl
  | @close tx x t acts hx ht h =>
    by_cases hi : i = x.task
    · subst hi
      rw [get_closeTx_self ht] at ht'
      obtain rfl := Option.some.inj ht'
      obtain ⟨-, t₁, ht₁, htx⟩ := hlinked.tx_task tx x hx
      obtain rfl := Option.mem_unique ht₁ ht
      exact .closed hx rfl ht htx h rfl (by simp)
    · exact .kept (closeTx_tasks_ne hi ▸ ht') (by simp [hi])
  | orphan hx ht h => exact .kept ht' Iff.rfl
  | stray h hx hold => exact .kept ht' Iff.rfl
  | @launch id t server tcp random hid ht htx hcur hbudget hroom h =>
    by_cases hi : i = id
    · subst hi
      have hself := launch_tasks_self server tcp random st.input.now ht
      obtain rfl := Option.mem_unique hself ht'
      exact .launched hid ht hcur hbudget h rfl (launch_txs_self _ _ _ _) rfl
        (by simp [Mid.finish, herase])
    · exact .kept (launch_tasks_ne _ _ _ _ hi ▸ ht') (by simp [Mid.finish, herase, hi])
  | @settle id t a hid ht htx h =>
    simp only [Mid.finish, settle_eq ht htx, Table.get_remove] at ht'
    split at ht'
    · cases ht'
    · next hi => exact .kept ht' (by simp [Mid.finish, herase, hi])

/-- The query that a shift has sent: the transaction `tx` for the task that is `t` since then. -/
structure Launched (st : Step Engine Op) (m m' : Mid) (tx : Txid) (x : Tx) (t : Task) (t₀ : Task)
    (random : Vector UInt8 34) : Prop where
  tx_eq : tx = m.engine.nextId
  loose : x.task ∈ m.loose
  before : m.engine.tasks.get x.task = some t₀
  current : t₀.current ≠ none ∨ st.input.asks = none
  target : Target st m.engine x.task t₀ x.server x.tcp
  dnsId : x.dnsId = idOf random
  question : x.question = t₀.question random
  after : t = { t₀ with attempt := t₀.attempt + 1, tx := some tx }
  acts : m'.acts = m.acts ++ (m.engine.launch x.task t₀ x.server x.tcp random st.input.now).2

theorem Shift.tx_old (hm : Shift st m m') {tx : Txid} {x : Tx} (hx : m'.engine.txs.get tx = some x)
    (hne : tx ≠ m.engine.nextId) : m.engine.txs.get tx = some x := by
  cases hm with
  | refuse h hb => exact hx
  | start h hb => exact hx
  | startAll h hb =>
    dsimp only at hx
    rwa [openLookup_eq] at hx
  | @abandon q h hm =>
    obtain ⟨-, a2, a3, -, -⟩ := abandon_spec m.engine q
    by_cases hc : .cancel tx ∈ (m.engine.abandon q).2
    · dsimp only at hx
      rw [a2 tx hc] at hx
      cases hx
    · exact a3 tx hc ▸ hx
  | close hx₀ ht h =>
    simp only [closeTx_txs] at hx
    split at hx
    · cases hx
    · exact hx
  | orphan hx₀ ht h =>
    simp only [Table.get_remove] at hx
    split at hx
    · cases hx
    · exact hx
  | stray h hx₀ hold => exact hx
  | launch random hid ht htx hcur hbudget hroom h => exact launch_txs_ne _ _ _ _ hne ▸ hx
  | settle hid ht htx h =>
    rw [Mid.finish, settle_eq ht htx] at hx
    exact hx

theorem Shift.cache (hm : Shift st m m') : m'.engine.cache = m.engine.cache := by
  cases hm with
  | refuse h hb => rfl
  | start h hb => rfl
  | startAll h hb =>
    dsimp only
    rw [openLookup_eq]
  | abandon h hm =>
    dsimp only
    rw [(abandon_spec _ _).2.2.2.2]
  | close hx ht h => rfl
  | orphan hx ht h => rfl
  | stray h hx hold => rfl
  | launch random hid ht htx hcur hbudget hroom h => rfl
  | settle hid ht htx h =>
    rw [Mid.finish, settle_eq ht htx]

/-- **A transaction that is there after a shift**, with its task, was there before it or has just
been sent. -/
theorem Shift.tx_cases (hl : Linked m.loose m.engine) (hm : Shift st m m') {tx : Txid}
    {x : Tx} (hx : m'.engine.txs.get tx = some x) (ht : m'.engine.tasks.get x.task = some t) :
    (m.engine.txs.get tx = some x ∧ m.engine.tasks.get x.task = some t) ∨
      ∃ t₀ random, Launched st m m' tx x t t₀ random := by
  have hl' := hl.move (.shift hm)
  obtain ⟨hnot', t₁, ht₁, htx⟩ := hl'.tx_task tx x hx
  obtain rfl := Option.mem_unique ht₁ ht
  cases hm.task_cases hl ht with
  | kept h hloose =>
    obtain ⟨tx', x', htx', hx', htask⟩ := hl.task_tx _ _ h fun hmem => hnot' (hloose.mpr hmem)
    obtain rfl := Option.mem_unique htx htx'
    exact .inl ⟨hm.tx_old hx (ne_of_lt (hl.tx_lt tx x' hx')), h⟩
  | begun hb hid hloose => exact absurd hloose hnot'
  | closed hx₀ hid ht₀ htx₀ hc heq hloose => exact absurd hloose hnot'
  | @launched t₀ server tcp random hid ht₀ hcur hbudget htarget heq hx₀ hacts hloose =>
    subst heq
    obtain rfl := Option.some.inj htx
    have hx₁ := Option.mem_unique hx₀ hx
    obtain ⟨task, dnsId, question, server', tcp', deadline⟩ := x
    simp only [Tx.mk.injEq, true_and] at hx₁
    obtain ⟨rfl, rfl, rfl, rfl, rfl⟩ := hx₁
    exact .inr ⟨t₀, random, ⟨rfl, hid, ht₀, hcur, htarget, rfl, rfl, rfl, hacts⟩⟩

end Resolvd.Engine
