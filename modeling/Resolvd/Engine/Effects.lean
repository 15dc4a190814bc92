import Resolvd.Engine.Run

/-!
# What the methods do to the tables

One lemma for each method of the engine, from which the later modules read off its effect without
unfolding it: `settle_eq`, `startTasks_spec`, `abandon_spec`, `configure_tasks`, the two turns of
`next_candidate`, and the frame lemmas, which say that a task is not touched by a method that moves
another one.
-/

namespace Resolvd.Engine

open Lib Dns List

variable {e : Engine} {id : TaskId} {t : Task} {tx : Txid} {now : Instant}

/-! ### One task -/

/-- A task that has just begun. -/
structure Task.Fresh (t : Task) : Prop where
  current : t.current = none
  candidates : t.candidates = []
  attempt : t.attempt = 0
  tx : t.tx = none

/-- A task gets its next candidate and the scope that is routed to. -/
def Task.choose (t : Task) (c : Name) (rest : List Name) (s : String) : Task :=
  { t with candidates := rest, current := some c, tried := [], scope := some s }

/-- A transaction is taken out of the tables. -/
def closeTx (e : Engine) (tx : Txid) (x : Tx) : Engine :=
  { e with txs := e.txs.remove tx }.updateTask x.task fun t => { t with tx := none }

theorem get_updateTask_self (ht : e.tasks.get id = some t) (f : Task → Task) :
    (e.updateTask id f).tasks.get id = some (f t) := by
  simp only [updateTask, Table.get_modify, if_true, ht, Option.map_some]

theorem get_closeTx_self {x : Tx} (ht : e.tasks.get x.task = some t) :
    (e.closeTx tx x).tasks.get x.task = some { t with tx := none } := get_updateTask_self ht _

theorem closeTx_tasks_ne {x : Tx} {i : TaskId} (h : i ≠ x.task) :
    (e.closeTx tx x).tasks.get i = e.tasks.get i := by
  simp only [closeTx, updateTask, Table.get_modify, if_neg h]

theorem closeTx_txs (e : Engine) (tx : Txid) (x : Tx) (i : Txid) :
    (e.closeTx tx x).txs.get i = if i = tx then none else e.txs.get i := by
  simp only [closeTx, updateTask, Table.get_remove]

section Launch

variable {e : Engine} {id : TaskId} {t : Task} (server : IpAddr) (tcp : Bool)

theorem launch_tasks_self (random) (now : Instant) (ht : e.tasks.get id = some t) :
    (e.launch id t server tcp random now).1.tasks.get id =
      some { t with attempt := t.attempt + 1, tx := some e.nextId } := get_updateTask_self ht _

theorem launch_tasks_ne (random) (now : Instant) {i : TaskId} (h : i ≠ id) :
    (e.launch id t server tcp random now).1.tasks.get i = e.tasks.get i := by
  simp only [launch, count, updateTask, Table.get_modify, if_neg h]

theorem launch_txs_self (random) (now : Instant) :
    (e.launch id t server tcp random now).1.txs.get e.nextId =
      some ⟨id, idOf random, t.question random, server, tcp, now + serverTimeout⟩ := by
  simp only [launch, count, updateTask, Table.get_insert, if_true]

theorem launch_txs_ne (random) (now : Instant) {tx : Txid} (h : tx ≠ e.nextId) :
    (e.launch id t server tcp random now).1.txs.get tx = e.txs.get tx := by
  simp only [launch, count, updateTask, Table.get_insert, if_neg h]

end Launch

theorem settle_updateTask (e : Engine) (id : TaskId) (f : Task → Task) (a : Answer)
    (hf : ∀ t, (f t).owner = t.owner ∧ (f t).rtype = t.rtype ∧ (f t).tx = t.tx) :
    (e.updateTask id f).settle id a = e.settle id a := by
  cases ht : e.tasks.get id with
  | none => simp only [updateTask, Table.modify_of_none ht]
  | some t =>
    obtain ⟨h1, h2, h3⟩ := hf t
    have hget : (e.updateTask id f).tasks.get id = some (f t) := by
      simp only [updateTask, Table.get_modify, if_true, ht, Option.map_some]
    have hdrop : (e.updateTask id f).dropTask id (f t) = e.dropTask id t := by
      simp only [dropTask, updateTask, h3, Table.remove_modify]
    simp only [settle, hget, ht, hdrop, h1, h2]

/-- The lookups and the actions after a task without a transaction is settled. -/
def settled (e : Engine) (id : TaskId) (t : Task) (a : Answer) : Table Qid Lookup × List Action :=
  match t.owner with
  | .resolve qid => (e.lookups, [.done qid (.answer a)])
  | .lookup qid =>
    match e.lookups.get qid with
    | none => (e.lookups, [])
    | some l =>
      if (l.push id t.rtype a).pending ≠ [] then (e.lookups.insert qid (l.push id t.rtype a), [])
      else (e.lookups.remove qid, [.done qid (.addresses (combine (l.push id t.rtype a)))])

theorem settled_done {a : Answer} {x : Action} (h : x ∈ (e.settled id t a).2) :
    ∃ c, x = .done t.owner.qid c := by
  unfold settled at h
  split at h
  · next qid ho => exact ⟨_, by rw [ho]; exact mem_singleton.mp h⟩
  · next qid ho =>
    split at h
    · cases h
    · split at h
      · cases h
      · exact ⟨_, by rw [ho]; exact mem_singleton.mp h⟩

theorem settle_eq (ht : e.tasks.get id = some t) (htx : t.tx = none) (a : Answer) :
    e.settle id a =
      ({ e with tasks := e.tasks.remove id, lookups := (e.settled id t a).1 },
        (e.settled id t a).2) := by
  have hdrop : e.dropTask id t = { e with tasks := e.tasks.remove id } := by
    simp only [dropTask, htx]
  simp only [settle, ht, hdrop, settled]
  cases t.owner with
  | resolve qid => rfl
  | lookup qid =>
    dsimp only
    cases e.lookups.get qid with
    | none => rfl
    | some l =>
      dsimp only
      split <;> rfl

theorem pickServer_mem (tried rest : List IpAddr) (first : IpAddr) :
    pickServer tried (first :: rest) first ∈ first :: rest := by
  unfold pickServer
  cases h : (first :: rest).find? fun s => !tried.contains s with
  | some s => exact mem_of_find?_eq_some h
  | none =>
    have hlt : tried.length % (first :: rest).length < (first :: rest).length :=
      Nat.mod_lt _ (by simp)
    rw [Option.getD_none, getD_eq_getElem?_getD, List.getElem?_eq_getElem hlt]
    exact getElem_mem hlt

/-- One turn of `next_candidate` on a candidate that has a scope. -/
theorem nextCandidateLoop_cons {rtype : UInt16} {noCache : Bool} {c : Name}
    {rest : List Name} {s : String} (hs : e.route c = some s) :
    nextCandidateLoop id rtype noCache now (c :: rest) e =
      let e' := e.updateTask id fun t => t.choose c rest s
      if noCache then e'.nextAttempt id now
      else
        match (e.cache.get (CacheKey.new c rtype s) now).1 with
        | none =>
          { e' with cache := (e.cache.get (CacheKey.new c rtype s) now).2 }.nextAttempt id now
        | some entry =>
          let e' := { e' with cache := (e.cache.get (CacheKey.new c rtype s) now).2 }.count fun k =>
            { k with cacheHits := k.cacheHits + 1 }
          if entry.outcome = .notFound ∧ rest ≠ []
            then nextCandidateLoop id rtype noCache now rest e'
          else e'.settle id (e'.cachedAnswer entry c s now) := by
  have htwice : ((e.updateTask id fun t =>
      { t with candidates := rest, current := some c, tried := [] }).updateTask id
      fun t => { t with scope := some s }) = e.updateTask id fun t => t.choose c rest s := by
    simp only [updateTask, Table.modify_modify, Task.choose]
  have hs' : (e.updateTask id fun t =>
      { t with candidates := rest, current := some c, tried := [] }).route c =
    some s := hs
  rw [nextCandidateLoop]
  simp only [hs', htwice]
  rfl

theorem nextCandidateLoop_unroutable {rtype : UInt16} {noCache : Bool} {c : Name}
    {rest : List Name} (hs : e.route c = none) :
    nextCandidateLoop id rtype noCache now (c :: rest) e = e.settle id unavailable := by
  have hs' : (e.updateTask id fun t =>
      { t with candidates := rest, current := some c, tried := [] }).route c =
    none := hs
  rw [nextCandidateLoop]
  simp only [hs']
  exact settle_updateTask _ _ _ _ fun _ => ⟨rfl, rfl, rfl⟩

theorem keepAnswer_tasks (e : Engine) (t : Task) (M : Message) (code : UInt16) (server : IpAddr)
    (now : Instant) : (e.keepAnswer t M code server now).tasks = e.tasks := by
  unfold keepAnswer
  split <;> rfl

/-! ### The tasks that are not moved -/

section Frame

variable {e : Engine} {id id' : TaskId} (h : id' ≠ id)

include h

theorem settle_tasks_ne (a : Answer) : (e.settle id a).1.tasks.get id' = e.tasks.get id' := by
  unfold settle
  cases ht : e.tasks.get id with
  | none => rfl
  | some t =>
    have hdrop : (e.dropTask id t).tasks.get id' = e.tasks.get id' := by
      unfold dropTask
      split <;> simp only [Table.get_remove, if_neg h]
    dsimp only
    split
    · exact hdrop
    · split
      · exact hdrop
      · split <;> exact hdrop

theorem updateTask_tasks_ne (f : Task → Task) :
    (e.updateTask id f).tasks.get id' = e.tasks.get id' := by
  simp only [updateTask, Table.get_modify, if_neg h]

theorem send_tasks_ne (server : IpAddr) (tcp : Bool) (now : Instant) :
    (e.send id server tcp now).1.tasks.get id' = e.tasks.get id' := by
  unfold send
  split
  · rfl
  · split
    · exact settle_tasks_ne h _
    · split
      · exact settle_tasks_ne h _
      · split
        · exact settle_tasks_ne h _
        · exact updateTask_tasks_ne h _

theorem nextAttempt_tasks_ne (now : Instant) :
    (e.nextAttempt id now).1.tasks.get id' = e.tasks.get id' := by
  unfold nextAttempt
  split
  · rfl
  · split
    · exact settle_tasks_ne h _
    · split
      · exact settle_tasks_ne h _
      · exact (send_tasks_ne h _ _ _).trans (updateTask_tasks_ne h _)

theorem nextCandidateLoop_tasks_ne (rtype : UInt16) (noCache : Bool) (now : Instant)
    (cs : List Name) :
    (nextCandidateLoop id rtype noCache now cs e).1.tasks.get id' = e.tasks.get id' := by
  induction cs generalizing e with
  | nil => exact settle_tasks_ne h _
  | cons c rest ih =>
    cases hs : e.route c with
    | none =>
      rw [nextCandidateLoop_unroutable hs]
      exact settle_tasks_ne h _
    | some s =>
      rw [nextCandidateLoop_cons hs]
      have hchoose : (e.updateTask id fun t => t.choose c rest s).tasks.get id' = e.tasks.get id' :=
        updateTask_tasks_ne h _
      dsimp only
      split
      · exact (nextAttempt_tasks_ne h _).trans hchoose
      · split
        · exact (nextAttempt_tasks_ne h _).trans hchoose
        · split
          · exact ih.trans hchoose
          · exact (settle_tasks_ne h _).trans hchoose

theorem advance_tasks_ne (now : Instant) :
    (e.advance id now).1.tasks.get id' = e.tasks.get id' := by
  have hnext : ∀ e : Engine, (e.nextCandidate id now).1.tasks.get id' = e.tasks.get id' := by
    intro e
    unfold nextCandidate
    split
    · rfl
    · exact nextCandidateLoop_tasks_ne h _ _ _ _
  unfold advance
  split
  · rfl
  · split
    · split
      · exact settle_tasks_ne h _
      · split
        · exact settle_tasks_ne h _
        · exact (hnext _).trans (updateTask_tasks_ne h _)
    · exact hnext e

end Frame

/-! ### Several tasks -/

/-- The task of a lookup for one record type, when it begins. -/
def lookupTask (qid : Qid) (name : Name) (rtype : UInt16) : Task :=
  { owner := .lookup qid, original := name, rtype, noCache := false }

/-- The ids are the next ones, and the tasks begin with them. -/
theorem startTasks_spec (e : Engine) (qid : Qid) (name : Name) (ts : List UInt16) :
    (e.startTasks qid name ts).2 = List.range' e.nextId ts.length ∧
    (∀ id, (e.startTasks qid name ts).1.tasks.get id =
      if e.nextId ≤ id then (ts[id - e.nextId]?.map (lookupTask qid name)).or (e.tasks.get id)
        else e.tasks.get id) ∧
    (e.startTasks qid name ts).1 =
      { e with nextId := e.nextId + ts.length, tasks := (e.startTasks qid name ts).1.tasks } := by
  induction ts generalizing e with
  | nil => exact ⟨rfl, fun id => by simp [startTasks], rfl⟩
  | cons t ts ih =>
    obtain ⟨ih1, ih2, ih3⟩ := ih (e.startTask (.lookup qid) name t false)
    refine ⟨?_, fun id => ?_, ?_⟩
    · simp only [startTasks, ih1]
      rfl
    · simp only [startTasks]
      rw [ih2]
      simp only [startTask, Table.get_insert]
      by_cases h0 : id = e.nextId
      · subst h0
        simp [lookupTask]
      · by_cases h1 : e.nextId ≤ id
        · have h2 : e.nextId + 1 ≤ id := by lia
          have h3 : id - e.nextId = (id - (e.nextId + 1)) + 1 := by lia
          simp only [h1, h2, if_true, h0, if_false, h3, List.getElem?_cons_succ]
        · have h2 : ¬ e.nextId + 1 ≤ id := by lia
          simp only [h1, h2, if_false, h0]
    · simp only [startTasks]
      rw [ih3]
      simp [startTask, Nat.add_comm, Nat.add_left_comm]

/-- The tasks of a lookup and its entry. -/
def openLookup (e : Engine) (qid : Qid) (name : Name) (family : Family) : Engine :=
  let r := e.startTasks qid name family.types
  { r.1 with lookups := r.1.lookups.insert qid { name, pending := r.2, results := [] } }

section OpenLookup

variable (e : Engine) (qid : Qid) (name : Name) (family : Family)

theorem openLookup_eq :
    e.openLookup qid name family =
      { e with
        nextId := e.nextId + family.types.length
        tasks := (e.openLookup qid name family).tasks
        lookups := e.lookups.insert qid
          { name, pending := List.range' e.nextId family.types.length, results := [] } } := by
  obtain ⟨h1, -, h3⟩ := startTasks_spec e qid name family.types
  simp only [openLookup, h1]
  rw [h3]

theorem openLookup_new {id : TaskId} (hlo : e.nextId ≤ id)
    (hhi : id < e.nextId + family.types.length) :
    ∃ rtype ∈ family.types, (e.openLookup qid name family).tasks.get id =
      some (lookupTask qid name rtype) := by
  have hlt : id - e.nextId < family.types.length := by lia
  refine ⟨family.types[id - e.nextId], getElem_mem hlt, ?_⟩
  rw [openLookup]
  simp [(startTasks_spec e qid name family.types).2.1, hlo, hlt]

theorem openLookup_tasks :
    List.Forall₂ (fun id rtype =>
      (e.openLookup qid name family).tasks.get id = some (lookupTask qid name rtype))
      (List.range' e.nextId family.types.length) family.types := by
  refine forall₂_iff_get.mpr ⟨length_range', fun i hi hi' => ?_⟩
  rw [openLookup]
  simp [(startTasks_spec e qid name family.types).2.1, List.getElem?_eq_getElem hi']

theorem openLookup_old {id : TaskId} (h : ¬ (e.nextId ≤ id ∧ id < e.nextId + family.types.length)) :
    (e.openLookup qid name family).tasks.get id = e.tasks.get id := by
  rw [openLookup]
  simp only [(startTasks_spec e qid name family.types).2.1]
  by_cases hlo : e.nextId ≤ id
  · have hge : family.types.length ≤ id - e.nextId := by lia
    simp [hge]
  · rw [if_neg hlo]

end OpenLookup

/-- The task has the transaction, and is one of these. -/
def Holds (e : Engine) (ids : List TaskId) (tx : Txid) : Prop :=
  ∃ id ∈ ids, ∃ t, e.tasks.get id = some t ∧ t.tx = some tx

theorem abandonTask_spec (e : Engine) (id : TaskId) :
    (∀ i, (e.abandonTask id).1.tasks.get i = if i = id then none else e.tasks.get i) ∧
    (∀ tx, e.Holds [id] tx → (e.abandonTask id).1.txs.get tx = none) ∧
    (∀ tx, ¬ e.Holds [id] tx → (e.abandonTask id).1.txs.get tx = e.txs.get tx) ∧
    (∀ a, a ∈ (e.abandonTask id).2 ↔ ∃ tx, a = .cancel tx ∧ e.Holds [id] tx) ∧
    (e.abandonTask id).1 =
      { e with tasks := (e.abandonTask id).1.tasks, txs := (e.abandonTask id).1.txs } := by
  cases ht : e.tasks.get id with
  | none =>
    have hh : ∀ tx, ¬ e.Holds [id] tx := by simp [Holds, ht]
    simp only [abandonTask, ht]
    refine ⟨fun i => ?_, fun tx h => absurd h (hh tx), fun _ _ => trivial, by simp [hh], trivial⟩
    by_cases hi : i = id
    · rw [if_pos hi, hi, ht]
    · rw [if_neg hi]
  | some t =>
    have hh : ∀ tx, e.Holds [id] tx ↔ t.tx = some tx := by simp [Holds, ht]
    simp only [abandonTask, ht, hh]
    cases htx : t.tx with
    | none => simp [Table.get_remove]
    | some tx =>
      simp only [Option.some.injEq, Table.get_remove]
      refine ⟨fun _ => trivial, fun tx' h => if_pos h.symm, fun tx' h => if_neg (Ne.symm h),
        ?_, trivial⟩
      simp

/-- The loop of `abandon`. -/
theorem each_abandonTask (ids : List TaskId) (e : Engine) :
    (∀ id, (each abandonTask ids e).1.tasks.get id = if id ∈ ids then none else e.tasks.get id) ∧
    (∀ tx, e.Holds ids tx → (each abandonTask ids e).1.txs.get tx = none) ∧
    (∀ tx, ¬ e.Holds ids tx → (each abandonTask ids e).1.txs.get tx = e.txs.get tx) ∧
    (∀ a, a ∈ (each abandonTask ids e).2 ↔ ∃ tx, a = .cancel tx ∧ e.Holds ids tx) ∧
    (each abandonTask ids e).1 =
      { e with tasks := (each abandonTask ids e).1.tasks, txs := (each abandonTask ids e).1.txs } := by
  induction ids generalizing e with
  | nil => simp [each, Holds]
  | cons id ids ih =>
    obtain ⟨h1, h2, h3, h4, h5⟩ := abandonTask_spec e id
    obtain ⟨ih1, ih2, ih3, ih4, ih5⟩ := ih (e.abandonTask id).1
    simp only [each]
    -- a transaction of the tasks is that of the first one, or one of the others after it is gone
    have hh : ∀ tx, e.Holds (id :: ids) tx ↔ e.Holds [id] tx ∨
        (e.abandonTask id).1.Holds ids tx := by
      intro tx
      simp only [Holds, mem_cons, not_mem_nil, or_false, exists_eq_or_imp, exists_eq_left, h1]
      constructor
      · rintro (h | ⟨i, hi, t, ht, htx⟩)
        · exact .inl h
        · by_cases hid : i = id
          · exact .inl ⟨t, hid ▸ ht, htx⟩
          · exact .inr ⟨i, hi, t, by rw [if_neg hid, ht], htx⟩
      · rintro (h | ⟨i, hi, t, ht, htx⟩)
        · exact .inl h
        · by_cases hid : i = id
          · simp [hid] at ht
          · exact .inr ⟨i, hi, t, by rwa [if_neg hid] at ht, htx⟩
    refine ⟨fun i => ?_, fun tx h => ?_, fun tx h => ?_, fun a => ?_, ?_⟩
    · rw [ih1, h1]
      by_cases hi : i ∈ ids <;> by_cases hid : i = id <;> simp [hi, hid]
    · by_cases hrest : (e.abandonTask id).1.Holds ids tx
      · exact ih2 tx hrest
      · rw [ih3 tx hrest]
        exact h2 tx (((hh tx).mp h).resolve_right hrest)
    · rw [hh, not_or] at h
      rw [ih3 tx h.2, h3 tx h.1]
    · simp only [mem_append, h4, ih4, hh, and_or_left, exists_or]
    · rw [ih5, h5]

/-- **What `abandon` does**: the tasks of the question go, with a `Cancel` for every transaction
they have, and so does its lookup. -/
theorem abandon_spec (e : Engine) (qid : Qid) :
    (∀ id, (e.abandon qid).1.tasks.get id = (e.tasks.get id).filter fun t => t.owner.qid != qid) ∧
    (∀ tx, (.cancel tx ∈ (e.abandon qid).2) → (e.abandon qid).1.txs.get tx = none) ∧
    (∀ tx, (.cancel tx ∉ (e.abandon qid).2) → (e.abandon qid).1.txs.get tx = e.txs.get tx) ∧
    (∀ a, a ∈ (e.abandon qid).2 ↔
      ∃ tx id t, a = .cancel tx ∧ e.tasks.get id = some t ∧ t.owner.qid = qid ∧ t.tx = some tx) ∧
    (e.abandon qid).1 =
      { e with
        tasks := (e.abandon qid).1.tasks
        txs := (e.abandon qid).1.txs
        lookups := e.lookups.remove qid } := by
  obtain ⟨h1, h2, h3, h4, h5⟩ := each_abandonTask (e.tasks.select fun _ t => t.owner.qid == qid) e
  have hmem : ∀ id, id ∈ (e.tasks.select fun _ t => t.owner.qid == qid) ↔
      ∃ t, e.tasks.get id = some t ∧ t.owner.qid = qid := by
    intro id
    simp only [Table.mem_select, beq_iff_eq]
  have hcancel : ∀ tx, .cancel tx ∈ (e.abandon qid).2 ↔
      e.Holds (e.tasks.select fun _ t => t.owner.qid == qid) tx := by
    intro tx
    simp only [abandon, h4, Action.cancel.injEq, exists_eq_left']
  refine ⟨fun id => ?_, fun tx h => h2 tx ((hcancel tx).mp h), fun tx h =>
    h3 tx (mt (hcancel tx).mpr h), fun a => ?_, ?_⟩
  · simp only [abandon, h1, hmem]
    cases ht : e.tasks.get id with
    | none => simp
    | some t =>
      by_cases hq : t.owner.qid = qid <;> simp [hq, Option.filter]
  · simp only [abandon, h4, Holds, hmem]
    constructor
    · rintro ⟨tx, rfl, id, ⟨t, ht, hq⟩, t', ht', htx⟩
      rw [ht] at ht'
      obtain rfl := Option.some.inj ht'
      exact ⟨tx, id, t, rfl, ht, hq, htx⟩
    · rintro ⟨tx, id, t, rfl, ht, hq, htx⟩
      exact ⟨tx, rfl, id, ⟨t, ht, hq⟩, t, ht, htx⟩
  · simp only [abandon]
    rw [h5]

/-- Every transaction that `tick` expires is cancelled. -/
theorem mem_each_expire {txs : List Txid} (h : tx ∈ txs) (e : Engine) :
    .cancel tx ∈ (each (expire now) txs e).2 := by
  induction txs generalizing e with
  | nil => cases h
  | cons tx' txs ih =>
    simp only [each, expire]
    rcases mem_cons.mp h with rfl | h
    · exact mem_append_left _ mem_cons_self
    · exact mem_append_right _ (ih h _)

/-! ### The configuration -/

/-- The tasks ask the same for the same owner. -/
structure Task.Kin (t t' : Task) : Prop where
  owner : t'.owner = t.owner
  original : t'.original = t.original
  rtype : t'.rtype = t.rtype
  noCache : t'.noCache = t.noCache

theorem Task.Kin.refl (t : Task) : t.Kin t := ⟨rfl, rfl, rfl, rfl⟩

theorem Task.Kin.trans {t' t'' : Task} (h : t.Kin t') (h' : t'.Kin t'') : t.Kin t'' :=
  ⟨h'.owner.trans h.owner, h'.original.trans h.original, h'.rtype.trans h.rtype,
    h'.noCache.trans h.noCache⟩

/-- The tasks ask the same and have the same transaction. -/
structure Task.Like (t t' : Task) : Prop extends Task.Kin t t' where
  tx : t'.tx = t.tx

/-- The tasks differ at most in the permission to store answers. -/
structure Task.Still (t t' : Task) : Prop extends Task.Like t t' where
  candidates : t'.candidates = t.candidates
  current : t'.current = t.current
  scope : t'.scope = t.scope
  attempt : t'.attempt = t.attempt

theorem Task.Still.refl (t : Task) : t.Still t := ⟨⟨⟨rfl, rfl, rfl, rfl⟩, rfl⟩, rfl, rfl, rfl, rfl⟩

theorem Task.Still.trans {t' t'' : Task} (h : t.Still t') (h' : t'.Still t'') : t.Still t'' :=
  ⟨⟨h.toKin.trans h'.toKin, h'.tx.trans h.tx⟩, h'.candidates.trans h.candidates,
    h'.current.trans h.current, h'.scope.trans h.scope, h'.attempt.trans h.attempt⟩

/-- The task may no longer store answers if it is marked. -/
def Task.mark (t : Task) (marked : Bool) :
    Task := { t with cacheInvalidated := t.cacheInvalidated || marked }

theorem Task.still_mark (t : Task) (marked : Bool) : t.Still (t.mark marked) :=
  ⟨⟨⟨rfl, rfl, rfl, rfl⟩, rfl⟩, rfl, rfl, rfl, rfl⟩

theorem Task.still_invalidate (ids : List String) (t : Task) : t.Still (t.invalidate ids) :=
  t.still_mark _

/-- **A change of the configuration marks tasks, and leaves them alone otherwise**; transactions and
lookups stay. -/
theorem configure_marks (e : Engine) {op : Op} (h : op.isConfig = true) :
    ∃ marked : Task → Bool, (∀ id, (e.apply op).1.tasks.get id = (e.tasks.get id).map fun t =>
      t.mark (marked t)) ∧
      (e.apply op).1.txs = e.txs ∧ (e.apply op).1.lookups = e.lookups ∧
      (e.apply op).1.nextId = e.nextId ∧
      (e.apply op).1.leaked = e.leaked ∧ (e.apply op).2 = [] := by
  have hnone : ∀ t : Task, t.mark false = t := fun t => by simp [Task.mark]
  have hsame : ∀ id, e.tasks.get id = (e.tasks.get id).map fun t => t.mark false :=
    fun id => by simp [hnone]
  cases op with
  | setScopes scopes =>
    obtain ⟨h1, -, h3⟩ := foldl_invalidateScopeCache (invalidated e.scopes scopes) e
    refine ⟨fun t => (invalidated e.scopes scopes).any fun s => t.scope = some s, h1, ?_, ?_, ?_,
      ?_, rfl⟩ <;>
      simp only [apply, setScopes] <;> rw [h3]
  | setFallback servers domains =>
    simp only [apply, setFallback]
    split
    · obtain ⟨h1, -, h3⟩ := foldl_invalidateScopeCache [fallbackScope] e
      exact ⟨fun t => [fallbackScope].any fun s => t.scope = some s, h1, rfl, rfl, rfl,
        rfl, trivial⟩
    · exact ⟨fun _ => false, hsame, rfl, rfl, rfl, rfl, trivial⟩
  | setHosts hosts => exact ⟨fun _ => false, hsame, rfl, rfl, rfl, rfl, rfl⟩
  | setHostname hostname => exact ⟨fun _ => false, hsame, rfl, rfl, rfl, rfl, rfl⟩
  | flush =>
    refine ⟨fun _ => true, fun id => ?_, rfl, rfl, rfl, rfl, rfl⟩
    simp only [apply, flush, Table.get_map, Task.mark, Bool.or_true]
  | _ => cases h

/-- What a change of the configuration does to the tasks: it may take from them the permission to
store. -/
theorem configure_tasks (e : Engine) {op : Op} (h : op.isConfig = true) :
    ∃ f : Task → Task, (∀ t : Task, t.Still (f t)) ∧
      (∀ id, (e.apply op).1.tasks.get id = (e.tasks.get id).map f) ∧
      (e.apply op).1.txs = e.txs ∧ (e.apply op).1.lookups = e.lookups ∧
      (e.apply op).1.nextId = e.nextId ∧
      (e.apply op).1.leaked = e.leaked ∧ (e.apply op).2 = [] := by
  obtain ⟨marked, hrest⟩ := configure_marks e h
  exact ⟨fun t => t.mark (marked t), fun t => t.still_mark _, hrest⟩

theorem configure_cache {op : Op} (h : op.isConfig = true) {k : CacheKey} {x : Entry}
    (hx : (e.apply op).1.cache.entries.get k = some x) : e.cache.entries.get k = some x := by
  cases op with
  | setScopes scopes =>
    exact (((foldl_invalidateScopeCache (invalidated e.scopes scopes) e).2.1 k x).mp hx).1
  | setFallback servers domains =>
    simp only [apply, setFallback] at hx
    split at hx
    · exact (Cache.flushScope_entries.mp hx).1
    · exact hx
  | setHosts hosts => exact hx
  | setHostname hostname => exact hx
  | flush => simp [apply, flush, Cache.clear] at hx
  | _ => cases h

/-- The states have the same configuration. -/
structure SameSettings (e e' : Engine) : Prop where
  scopes : e'.scopes = e.scopes
  fallbackServers : e'.fallbackServers = e.fallbackServers
  fallbackDomains : e'.fallbackDomains = e.fallbackDomains
  hostname : e'.hostname = e.hostname
  hosts : e'.hosts = e.hosts

namespace SameSettings

theorem refl (e : Engine) : e.SameSettings e := ⟨rfl, rfl, rfl, rfl, rfl⟩

variable {e e' : Engine}

section

variable (h : e.SameSettings e')
include h

theorem trans {e'' : Engine} (h' : e'.SameSettings e'') : e.SameSettings e'' :=
  ⟨h'.scopes.trans h.scopes, h'.fallbackServers.trans h.fallbackServers,
    h'.fallbackDomains.trans h.fallbackDomains, h'.hostname.trans h.hostname,
      h'.hosts.trans h.hosts⟩

theorem interfaceOf_eq : e'.interfaceOf = e.interfaceOf := by
  funext s
  simp only [interfaceOf, h.scopes]

theorem configuredServers_eq : e'.configuredServers = e.configuredServers := by
  funext s
  simp only [configuredServers, h.scopes, h.fallbackServers]

theorem route_eq : e'.route = e.route := by
  funext n
  simp only [route, exclusiveScope, upScopes, h.scopes, h.fallbackServers]

theorem candidates_eq : e'.candidates = e.candidates := by
  funext n
  simp only [candidates, exclusiveScope, upScopes, h.scopes, h.fallbackDomains]

theorem synthetic_eq : e'.synthetic = e.synthetic := by
  funext n rtype
  have hown : e'.ownAddresses = e.ownAddresses := by simp only [ownAddresses, h.scopes]
  simp only [synthetic, syntheticReverse, hown, h.hostname, h.hosts]

end

end SameSettings

end Resolvd.Engine
