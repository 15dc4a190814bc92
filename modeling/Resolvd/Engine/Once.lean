import Resolvd.Engine.Invariants

/-!
# Every question is answered once

At every point of a run a question that was asked is in exactly one situation (`Situation`): it was
answered and nothing of it remains, it is under way and was not answered, or it was abandoned while
it was under way, is gone, and is never answered.

The invariant is `Ledger`, kept question by question; a change concerns one question, and for the
others `SameFor` says that nothing happened.
-/

namespace Resolvd.Engine

open Lib Dns List

variable {q q' : Qid} {e e' : Engine} {op : Op} {n : ℕ} {log : EngineLog} {st : Step Engine Op}
    {name : Name} {rtype : UInt16} {noCache : Bool} {family : Family}

/-! ### Questions and their state -/

/-- The questions asked in a run. -/
def asked (log : EngineLog) : List Qid := log.filterMap fun st => st.input.asks

/-- The actions of a run. -/
def emitted (log : EngineLog) : List Action := log.flatMap actions

/-- The question an action answers. -/
def Action.answered : Action → Option Qid
  | .done qid _ => some qid
  | _ => none

/-- How many of the actions answer the question. -/
def doneCount (q : Qid) (acts : List Action) : ℕ := (acts.filterMap Action.answered).count q

theorem doneCount_append (q : Qid) (as bs : List Action) :
    doneCount q (as ++ bs) = doneCount q as + doneCount q bs := by
  simp only [doneCount, filterMap_append, count_append]

/-- Who gets the answer of a task. -/
def ownerOf (e : Engine) (id : TaskId) : Option Owner := (e.tasks.get id).map Task.owner

/-- No task and no lookup of the question remains. -/
def Gone (e : Engine) (q : Qid) : Prop :=
  (∀ id o, e.ownerOf id = some o → o.qid ≠ q) ∧ e.lookups.get q = none

/-- The lookup has tasks to wait for, and these are the question's tasks. -/
def UnderwayLookup (e : Engine) (q : Qid) : Prop :=
  (∃ l, e.lookups.get q = some l ∧ l.pending ≠ [] ∧ ∀ id, id ∈ l.pending ↔
    e.ownerOf id = some (.lookup q)) ∧
    ∀ id, e.ownerOf id ≠ some (.resolve q)

/-- The question has exactly one task. -/
def UnderwayResolve (e : Engine) (q : Qid) : Prop :=
  (∃ id, e.ownerOf id = some (.resolve q) ∧ ∀ id' o, e.ownerOf id' = some o → o.qid = q →
    id' = id) ∧
    e.lookups.get q = none

/-- The operation asks for the addresses of a name. -/
def Op.isLookup : Op → Bool
  | .lookup .. => true
  | _ => false

/-- The question that the operation asked is under way. -/
def Underway (op : Op) (e : Engine) (q : Qid) : Prop :=
  if op.isLookup then e.UnderwayLookup q else e.UnderwayResolve q

/-- The question was abandoned when something of it was there. -/
def Abandoned (log : EngineLog) (q : Qid) : Prop :=
  ∃ st ∈ log, st.input = .abandon q ∧ ¬ st.before.Gone q

/-- What is known about a question after `n` answers. -/
def Standing (op : Op) (e : Engine) (q : Qid) (n : ℕ) (abandoned : Prop) : Prop :=
  (n = 0 ∧ ¬ abandoned ∧ Underway op e q) ∨ (n = 1 ∧ ¬ abandoned ∧ e.Gone q) ∨
    (n = 0 ∧ abandoned ∧ e.Gone q)

/-- The question was not asked, and nothing of it is there; or it was asked, and it stands in some
way. -/
def Ledger (log : EngineLog) (e : Engine) (n : ℕ) (q : Qid) : Prop :=
  (q ∉ asked log ∧ ¬ Abandoned log q ∧ n = 0 ∧ e.Gone q) ∨
    ∃ st ∈ log, st.input.asks = some q ∧ Standing st.input e q n (Abandoned log q)

/-! ### What happens to other questions -/

/-- Nothing happened to the question. -/
structure SameFor (q : Qid) (e e' : Engine) : Prop where
  owner : ∀ id o, o.qid = q → (e'.ownerOf id = some o ↔ e.ownerOf id = some o)
  lookup : e'.lookups.get q = e.lookups.get q

theorem SameFor.gone (h : SameFor q e e') (hg : e.Gone q) : e'.Gone q := by
  refine ⟨fun id o ho hq => ?_, h.lookup.trans hg.2⟩
  exact hg.1 id o ((h.owner id o hq).mp ho) hq

theorem SameFor.underway (h : SameFor q e e') (hu : Underway op e q) : Underway op e' q := by
  have hlookup : e.UnderwayLookup q → e'.UnderwayLookup q := by
    rintro ⟨⟨l, hl, hne, hp⟩, hr⟩
    refine ⟨⟨l, h.lookup.trans hl, hne, fun id => ?_⟩, fun id hid => ?_⟩
    · rw [h.owner id (.lookup q) rfl]
      exact hp id
    · exact hr id ((h.owner id (.resolve q) rfl).mp hid)
  have hresolve : e.UnderwayResolve q → e'.UnderwayResolve q := by
    rintro ⟨⟨id, hid, hone⟩, hl⟩
    refine ⟨⟨id, (h.owner id (.resolve q) rfl).mpr hid, fun id' o ho hq => ?_⟩, h.lookup.trans hl⟩
    exact hone id' o ((h.owner id' o hq).mp ho) hq
  unfold Underway at hu ⊢
  split
  · next hop => exact hlookup (by rwa [if_pos hop] at hu)
  · next hop => exact hresolve (by rwa [if_neg hop] at hu)

theorem SameFor.standing (h : SameFor q e e') {p : Prop}
    (hs : Standing op e q n p) : Standing op e' q n p := by
  rcases hs with ⟨hn, hp, hu⟩ | ⟨hn, hp, hg⟩ | ⟨hn, hp, hg⟩
  · exact .inl ⟨hn, hp, h.underway hu⟩
  · exact .inr (.inl ⟨hn, hp, h.gone hg⟩)
  · exact .inr (.inr ⟨hn, hp, h.gone hg⟩)

theorem SameFor.ledger (h : SameFor q e e') (hl : Ledger log e n q) : Ledger log e' n q := by
  rcases hl with ⟨hq, hab, hn, hg⟩ | ⟨st, hst, hask, hs⟩
  · exact .inl ⟨hq, hab, hn, h.gone hg⟩
  · exact .inr ⟨st, hst, hask, h.standing hs⟩

theorem sameFor_of_eq (howner : ∀ id, e'.ownerOf id = e.ownerOf id)
    (hlookups : e'.lookups = e.lookups) (q : Qid) : SameFor q e e' :=
  ⟨fun id o _ => by rw [howner id], by rw [hlookups]⟩

theorem ownerOf_updateTask (e : Engine) (id : TaskId) {f : Task → Task}
    (hf : ∀ t, (f t).owner = t.owner) (i : TaskId) :
    (e.updateTask id f).ownerOf i = e.ownerOf i := by
  simp only [ownerOf, updateTask, Table.get_modify]
  split
  · simp only [Option.map_map, Function.comp_def, hf]
    congr 1
    simp [*]
  · rfl

theorem ownerOf_closeTx (e : Engine) (tx : Txid) (x : Tx) (i : TaskId) :
    (e.closeTx tx x).ownerOf i = e.ownerOf i :=
  ownerOf_updateTask e x.task (f := fun t => { t with tx := none }) (fun _ => rfl) i

theorem ownerOf_launch (e : Engine) (id : TaskId) (t : Task) (server : IpAddr) (tcp : Bool)
    (random) (now : Instant) (i : TaskId) :
    (e.launch id t server tcp random now).1.ownerOf i = e.ownerOf i :=
  ownerOf_updateTask e id (f := fun t => { t with attempt := t.attempt + 1, tx := some e.nextId })
    (fun _ => rfl) i

theorem Closes.doneCount {tx : Txid} {acts : List Action} (h : Closes st tx acts) (q : Qid) :
    doneCount q acts = 0 := by
  rcases h.acts with rfl | rfl <;> rfl

theorem Reorder.sameFor (h : Reorder e e') (q : Qid) : SameFor q e e' :=
  ⟨fun id o _ => by simp only [ownerOf, h.tasks.get_eq], h.lookups.get_eq q⟩

theorem Quiet.sameFor {m m' : Mid} (h : Quiet m m') (q : Qid) : SameFor q m.engine m'.engine := by
  refine sameFor_of_eq (fun id => ?_) h.lookups q
  cases ht : m.engine.tasks.get id with
  | none =>
    cases ht' : m'.engine.tasks.get id with
    | none => simp only [ownerOf, ht, ht']
    | some t' =>
      obtain ⟨t, ht₀⟩ := h.old id t' ht'
      rw [ht] at ht₀
      cases ht₀
  | some t =>
    obtain ⟨t', ht', hlike, -⟩ := h.task id t ht
    simp only [ownerOf, ht, ht', Option.map_some, hlike.owner]

/-! ### A task is settled -/

section Settle

variable {e : Engine} {id : TaskId} {t : Task} {q : Qid}

section

variable (ht : e.tasks.get id = some t)
include ht

theorem ownerOf_eq : e.ownerOf id = some t.owner := by
  simp only [ownerOf, ht, Option.map_some]

theorem ownerOf_settle (htx : t.tx = none) (a : Answer) (i : TaskId) :
    (e.settle id a).1.ownerOf i = if i = id then none else e.ownerOf i := by
  simp only [ownerOf, settle_eq ht htx, Table.get_remove]
  split <;> rfl

theorem sameFor_settle (htx : t.tx = none) (a : Answer) (hq : t.owner.qid ≠ q) :
    SameFor q e (e.settle id a).1 := by
  constructor
  · intro i o ho
    rw [ownerOf_settle ht htx]
    split
    · next hi =>
      subst hi
      rw [ownerOf_eq ht]
      simp only [reduceCtorEq, Option.some.injEq, false_iff]
      rintro rfl
      exact hq ho
    · rfl
  · rw [settle_eq ht htx]
    simp only [settled]
    split
    · rfl
    · next qid howner =>
      have hne : q ≠ qid := fun h => hq (by rw [howner, h]; rfl)
      split
      · rfl
      · split
        · simp only [Table.get_insert, if_neg hne]
        · simp only [Table.get_remove, if_neg hne]

theorem doneCount_settle_ne (htx : t.tx = none) (a : Answer) (hq : t.owner.qid ≠ q) :
    doneCount q (e.settle id a).2 = 0 := by
  rw [settle_eq ht htx]
  refine count_eq_zero.mpr fun hmem => ?_
  obtain ⟨x, hx, heq⟩ := mem_filterMap.mp hmem
  obtain ⟨c, rfl⟩ := settled_done hx
  exact hq (Option.some.inj heq)

/-- The only task of a question is settled: it is answered and gone. -/
theorem settle_resolve (htx : t.tx = none) (a : Answer) (ho : t.owner = .resolve q)
    (hu : e.UnderwayResolve q) : doneCount q (e.settle id a).2 = 1 ∧ (e.settle id a).1.Gone q := by
  obtain ⟨⟨id₀, hid₀, hone⟩, hl⟩ := hu
  obtain rfl := hone id t.owner (ownerOf_eq ht) (by rw [ho]; rfl)
  refine ⟨?_, fun i o hi hq => ?_, ?_⟩
  · simp [settle_eq ht htx, settled, ho, doneCount, Action.answered]
  · rw [ownerOf_settle ht htx] at hi
    split at hi
    · cases hi
    · next hne => exact hne (hone i o hi hq)
  · simpa [settle_eq ht htx, settled, ho] using hl

/-- A task of a lookup is settled: others are waited for, or it was the last one. -/
theorem settle_lookup (htx : t.tx = none) (a : Answer) (ho : t.owner = .lookup q)
    (hu : e.UnderwayLookup q) :
    (doneCount q (e.settle id a).2 = 0 ∧ (e.settle id a).1.UnderwayLookup q) ∨
      (doneCount q (e.settle id a).2 = 1 ∧ (e.settle id a).1.Gone q) := by
  obtain ⟨⟨l, hl, hne, hp⟩, hr⟩ := hu
  have hpending : ∀ i, i ∈ (l.push id t.rtype a).pending ↔ i ≠ id ∧
      e.ownerOf i = some (.lookup q) := by
    intro i
    simp only [Lookup.push, mem_filter, bne_iff_ne, hp, and_comm]
  by_cases hlast : (l.push id t.rtype a).pending = []
  · refine .inr ⟨?_, fun i o hi hq => ?_, ?_⟩
    · simp [settle_eq ht htx, settled, ho, hl, hlast, doneCount, Action.answered]
    · rw [ownerOf_settle ht htx] at hi
      split at hi
      · cases hi
      · next hi' =>
        cases o with
        | resolve q' => exact hr i (by rw [hi, ← hq]; rfl)
        | lookup q' =>
          have hmem := (hpending i).mpr ⟨hi', by rw [hi, ← hq]; rfl⟩
          rw [hlast] at hmem
          cases hmem
    · simp [settle_eq ht htx, settled, ho, hl, hlast, Table.get_remove]
  · refine .inl ⟨?_, ⟨l.push id t.rtype a, ?_, hlast, fun i => ?_⟩, fun i hi => ?_⟩
    · simp [settle_eq ht htx, settled, ho, hl, hlast, doneCount]
    · simp [settle_eq ht htx, settled, ho, hl, hlast, Table.get_insert]
    · rw [hpending, ownerOf_settle ht htx]
      split
      · next hi => simp [hi]
      · next hi => simp [hi]
    · rw [ownerOf_settle ht htx] at hi
      split at hi
      · cases hi
      · exact hr i hi

theorem Standing.settle (htx : t.tx = none) (a : Answer) (hq : t.owner.qid = q)
    {op : Op} {n : ℕ} {p : Prop} (hs : Standing op e q n p) :
    Standing op (e.settle id a).1 q (n + doneCount q (e.settle id a).2) p := by
  -- a question with a task is neither answered nor abandoned
  have hgone : ¬ e.Gone q := fun hg => hg.1 id t.owner (ownerOf_eq ht) hq
  rcases hs with ⟨rfl, hp, hu⟩ | ⟨hn, hp, hg⟩ | ⟨hn, hp, hg⟩
  · unfold Underway at hu
    cases ho : t.owner with
    | resolve q' =>
      obtain rfl : q' = q := by rw [← hq, ho]; rfl
      cases hop : op.isLookup with
      | true =>
        rw [if_pos hop] at hu
        exact absurd ((ownerOf_eq ht).trans (congrArg some ho)) (hu.2 id)
      | false =>
        rw [hop, if_neg Bool.false_ne_true] at hu
        obtain ⟨h1, h2⟩ := settle_resolve ht htx a ho hu
        exact .inr (.inl ⟨by rw [h1], hp, h2⟩)
    | lookup q' =>
      obtain rfl : q' = q := by rw [← hq, ho]; rfl
      cases hop : op.isLookup with
      | true =>
        rw [if_pos hop] at hu
        rcases settle_lookup ht htx a ho hu with ⟨h1, h2⟩ | ⟨h1, h2⟩
        · exact .inl ⟨by rw [h1], hp, by rwa [Underway, if_pos hop]⟩
        · exact .inr (.inl ⟨by rw [h1], hp, h2⟩)
      | false =>
        rw [hop, if_neg Bool.false_ne_true] at hu
        obtain ⟨⟨id₀, hid₀, hone⟩, -⟩ := hu
        obtain rfl := hone id t.owner (ownerOf_eq ht) hq
        rw [ownerOf_eq ht, ho] at hid₀
        cases hid₀
  · exact absurd hg hgone
  · exact absurd hg hgone

theorem Ledger.settle (htx : t.tx = none) (a : Answer) {log : EngineLog} {n : ℕ}
    (h : Ledger log e n q) :
    Ledger log (e.settle id a).1 (n + doneCount q (e.settle id a).2) q := by
  by_cases hq : t.owner.qid = q
  · rcases h with ⟨-, -, -, hg⟩ | ⟨st, hst, hask, hs⟩
    · exact absurd hq (hg.1 id t.owner (ownerOf_eq ht))
    · exact .inr ⟨st, hst, hask, hs.settle ht htx a hq⟩
  · rw [doneCount_settle_ne ht htx a hq]
    exact (sameFor_settle ht htx a hq).ledger h

end

end Settle

/-! ### A question begins -/

theorem mem_asked : q ∈ asked log ↔ ∃ st ∈ log, st.input.asks = some q := by
  simp only [asked, mem_filterMap]

theorem asked_cons_of_asks (h : st.input.asks = some q) : asked (st :: log) = q :: asked log := by
  simp only [asked, filterMap_cons, h]

/-- Before it is asked, nothing is there of a question. -/
theorem Ledger.unasked (h : Ledger log e n q) (hq : q ∉ asked log) :
    ¬ Abandoned log q ∧ n = 0 ∧ e.Gone q := by
  rcases h with ⟨-, h⟩ | ⟨st, hst, hask, -⟩
  · exact h
  · exact absurd (mem_asked.mpr ⟨st, hst, hask⟩) hq

theorem abandoned_cons (h : st.input ≠ .abandon q) : Abandoned (st :: log) q ↔ Abandoned log q := by
  simp only [Abandoned, mem_cons, exists_eq_or_imp, h, false_and, false_or]

theorem Ledger.cons (h : Ledger log e n q) (hask : st.input.asks ≠ some q)
    (hab : Abandoned (st :: log) q ↔ Abandoned log q) : Ledger (st :: log) e n q := by
  rcases h with ⟨hq, hno, hn, hg⟩ | ⟨st', hst', hask', hs⟩
  · refine .inl ⟨fun hmem => ?_, hab.not.mpr hno, hn, hg⟩
    obtain ⟨st', hst', hask'⟩ := mem_asked.mp hmem
    rcases mem_cons.mp hst' with rfl | hst'
    · exact hask hask'
    · exact hq (mem_asked.mpr ⟨st', hst', hask'⟩)
  · refine .inr ⟨st', mem_cons_of_mem _ hst', hask', ?_⟩
    rwa [hab]

theorem Ledger.ask {n' : ℕ} (h : Ledger log e n q)
    (hask : st.input.asks = some q) (hd : (asked (st :: log)).Nodup)
    (hnew : n = 0 → e.Gone q → (n' = 0 ∧ Underway st.input e' q) ∨ (n' = 1 ∧ e'.Gone q)) :
    Ledger (st :: log) e' n' q := by
  rw [asked_cons_of_asks hask] at hd
  obtain ⟨hno, hn, hg⟩ := h.unasked (nodup_cons.mp hd).1
  have hab : st.input ≠ .abandon q := fun heq => by rw [heq] at hask; cases hask
  have hno' : ¬ Abandoned (st :: log) q := (abandoned_cons hab).not.mpr hno
  refine .inr ⟨st, mem_cons_self, hask, ?_⟩
  rcases hnew hn hg with ⟨hn', hu⟩ | ⟨hn', hg'⟩
  · exact .inl ⟨hn', hno', hu⟩
  · exact .inr (.inl ⟨hn', hno', hg'⟩)

theorem Op.Resolves.not_lookup {qid : Qid}
    (h : op.Resolves qid name rtype noCache) : op.isLookup = false := by
  cases h <;> rfl

theorem Op.LooksUp.is_lookup {qid : Qid} (h : op.LooksUp qid name family) : op.isLookup = true := by
  cases h; rfl

theorem ownerOf_startTask (e : Engine) (owner : Owner) (name : Name) (rtype : UInt16)
    (noCache : Bool) (i : TaskId) :
    (e.startTask owner name rtype noCache).ownerOf i = if i = e.nextId then some owner
      else e.ownerOf i := by
  simp only [ownerOf, startTask, Table.get_insert]
  split <;> rfl

theorem sameFor_startTask (hfresh : e.ownerOf e.nextId = none) (hq : q' ≠ q) :
    SameFor q' e (e.startTask (.resolve q) name rtype noCache) := by
  refine ⟨fun i o ho => ?_, rfl⟩
  rw [ownerOf_startTask]
  split
  · next hi =>
    rw [hi, hfresh]
    simp only [Option.some.injEq, reduceCtorEq, iff_false]
    rintro rfl
    exact hq ho.symm
  · rfl

theorem underway_startTask (hg : e.Gone q) :
    (e.startTask (.resolve q) name rtype noCache).UnderwayResolve q := by
  refine ⟨⟨e.nextId, by rw [ownerOf_startTask, if_pos rfl], fun i o hi ho => ?_⟩, hg.2⟩
  rw [ownerOf_startTask] at hi
  split at hi
  · assumption
  · exact absurd ho (hg.1 i o hi)

theorem ownerOf_openLookup (e : Engine) (qid : Qid) (name : Name) (family : Family) (i : TaskId) :
    (e.openLookup qid name family).ownerOf i =
      if e.nextId ≤ i ∧ i < e.nextId + family.types.length then some (.lookup qid)
        else e.ownerOf i := by
  split
  · next h =>
    obtain ⟨rtype, -, hr⟩ := openLookup_new e qid name family h.1 h.2
    simp only [ownerOf, hr, Option.map_some, lookupTask]
  · next h => simp only [ownerOf, openLookup_old e qid name family h]

theorem sameFor_openLookup (hfresh : ∀ i, e.nextId ≤ i → e.ownerOf i = none) (hq : q' ≠ q) :
    SameFor q' e (e.openLookup q name family) := by
  refine ⟨fun i o ho => ?_, ?_⟩
  · rw [ownerOf_openLookup]
    split
    · next hi =>
      rw [hfresh i hi.1]
      simp only [Option.some.injEq, reduceCtorEq, iff_false]
      rintro rfl
      exact hq ho.symm
    · rfl
  · rw [openLookup_eq]
    simp only [Table.get_insert, if_neg hq]

theorem underway_openLookup (hg : e.Gone q) : (e.openLookup q name family).UnderwayLookup q := by
  have hne : List.range' e.nextId family.types.length ≠ [] := by
    cases family <;> simp [Family.types]
  refine ⟨⟨⟨name, List.range' e.nextId family.types.length, []⟩, ?_, hne, fun i => ?_⟩,
    fun i hi => ?_⟩
  · rw [openLookup_eq]
    simp only [Table.get_insert, if_true]
  · rw [ownerOf_openLookup, mem_range'_1]
    split
    · next hi => simp [hi]
    · next hi =>
      simp only [hi, false_iff]
      exact fun ho => hg.1 i _ ho rfl
  · rw [ownerOf_openLookup] at hi
    split at hi
    · cases hi
    · exact hg.1 i _ hi rfl

/-! ### A question is abandoned -/

theorem ownerOf_abandon (e : Engine) (q : Qid) (i : TaskId) :
    (e.abandon q).1.ownerOf i = (e.ownerOf i).filter fun o => o.qid != q := by
  simp only [ownerOf, (abandon_spec e q).1]
  cases e.tasks.get i with
  | none => rfl
  | some t =>
    simp only [Option.filter, Option.map_some]
    split <;> simp

theorem gone_abandon (e : Engine) (q : Qid) : (e.abandon q).1.Gone q := by
  refine ⟨fun i o ho => ?_, ?_⟩
  · rw [ownerOf_abandon, Option.filter_eq_some_iff] at ho
    simpa using ho.2
  · rw [(abandon_spec e q).2.2.2.2]
    simp only [Table.get_remove, if_true]

theorem sameFor_abandon (e : Engine) (hq : q' ≠ q) : SameFor q' e (e.abandon q).1 := by
  refine ⟨fun i o ho => ?_, ?_⟩
  · rw [ownerOf_abandon, Option.filter_eq_some_iff]
    simp [ho, hq]
  · rw [(abandon_spec e q).2.2.2.2]
    simp only [Table.get_remove, if_neg hq]

theorem doneCount_abandon (e : Engine) (q q' : Qid) : doneCount q' (e.abandon q).2 = 0 := by
  refine count_eq_zero.mpr fun hmem => ?_
  obtain ⟨x, hx, heq⟩ := mem_filterMap.mp hmem
  obtain ⟨tx, id, t, rfl, -⟩ := ((abandon_spec e q).2.2.2.1 x).mp hx
  cases heq

theorem sameFor_of_gone (h : e.Gone q) (h' : e'.Gone q) : SameFor q e e' :=
  ⟨fun i o ho => ⟨fun hi => absurd ho (h'.1 i o hi), fun hi => absurd ho (h.1 i o hi)⟩,
    h'.2.trans h.2.symm⟩

theorem Ledger.abandon (h : Ledger log st.before n q') (hop : st.input = .abandon q) :
    Ledger (st :: log) (st.before.abandon q).1 n q' := by
  have hask : st.input.asks ≠ some q' := by rw [hop]; simp [Op.asks]
  by_cases hq : q' = q
  · subst hq
    by_cases hg : st.before.Gone q'
    · -- nothing was there to abandon
      refine (sameFor_of_gone hg (gone_abandon _ _)).ledger (h.cons hask ?_)
      simp only [Abandoned, mem_cons, exists_eq_or_imp, hg, not_true, and_false, false_or]
    · have hab : Abandoned (st :: log) q' := ⟨st, mem_cons_self, hop, hg⟩
      rcases h with ⟨-, -, -, hg'⟩ | ⟨st', hst', hask', ⟨hn, -, -⟩ | ⟨-, -, hg'⟩ | ⟨-, -, hg'⟩⟩
      · exact absurd hg' hg
      · exact .inr ⟨st', mem_cons_of_mem _ hst', hask', .inr (.inr ⟨hn, hab, gone_abandon _ _⟩)⟩
      · exact absurd hg' hg
      · exact absurd hg' hg
  · refine (sameFor_abandon _ hq).ledger (h.cons hask (abandoned_cons ?_))
    rw [hop]
    exact fun heq => hq (Op.abandon.inj heq).symm

/-! ### Along a run -/

/-- The invariant in the middle of an operation that abandons nothing. -/
def Kept (log : EngineLog) (st : Step Engine Op) (m : Mid) : Prop :=
  (∀ q, Ledger log st.before (doneCount q (emitted log)) q) ∧
    ((∀ q, st.input ≠ .abandon q) → ∀ q,
      Ledger (if m.begun then st :: log else log) m.engine
        (doneCount q (emitted log) + doneCount q m.acts) q)

theorem Kept.shift {m m' : Mid} (hd : (asked (st :: log)).Nodup)
    (hs : Sound st m) (hk : Kept log st m) (hm : Shift st m m') : Kept log st m' := by
  refine ⟨hk.1, fun hno q => ?_⟩
  have hq := hk.2 hno q
  have hfresh : ∀ i, m.engine.nextId ≤ i → m.engine.ownerOf i = none := fun i hi => by
    simp only [ownerOf, hs.linked.task_fresh hi, Option.map_none]
  cases hm with
  | @refuse q' c h hb =>
    rw [hb, if_neg Bool.false_ne_true] at hq
    simp only [if_true, doneCount_append, ← Nat.add_assoc]
    by_cases heq : q = q'
    · subst heq
      refine hq.ask h.asks hd fun hn hg => .inr ⟨?_, hg⟩
      rw [hn]
      simp [doneCount, Action.answered]
    · have hcount : doneCount q [.done q' c] = 0 := by
        simp [doneCount, Action.answered, Ne.symm heq]
      rw [hcount]
      exact hq.cons (by rw [h.asks]; simpa using Ne.symm heq) (abandoned_cons (hno q))
  | @start q' name rtype noCache h hb =>
    rw [hb, if_neg Bool.false_ne_true] at hq
    simp only [if_true]
    by_cases heq : q = q'
    · subst heq
      refine hq.ask h.asks hd fun hn hg => .inl ⟨hn, ?_⟩
      rw [Underway, h.not_lookup, if_neg Bool.false_ne_true]
      exact underway_startTask hg
    · refine (sameFor_startTask (hfresh _ (le_refl _)) heq).ledger
        (hq.cons ?_ (abandoned_cons (hno q)))
      rw [h.asks]
      simpa using Ne.symm heq
  | @startAll q' name family h hb =>
    rw [hb, if_neg Bool.false_ne_true] at hq
    simp only [if_true]
    by_cases heq : q = q'
    · subst heq
      refine hq.ask h.asks hd fun hn hg => .inl ⟨hn, ?_⟩
      rw [Underway, if_pos h.is_lookup]
      exact underway_openLookup hg
    · refine (sameFor_openLookup hfresh heq).ledger (hq.cons ?_ (abandoned_cons (hno q)))
      rw [h.asks]
      simpa using Ne.symm heq
  | abandon h hm => exact absurd h (hno _)
  | close hx ht h =>
    simp only [doneCount_append, ← Nat.add_assoc, h.doneCount]
    exact (sameFor_of_eq (ownerOf_closeTx _ _ _) rfl q).ledger hq
  | orphan hx ht h =>
    obtain ⟨-, t, ht', -⟩ := hs.linked.tx_task _ _ hx
    rw [ht] at ht'
    cases ht'
  | stray h hx hold =>
    simp only [doneCount_append, ← Nat.add_assoc]
    exact hq
  | launch random hid ht htx hcur hbudget hroom h =>
    simp only [Mid.finish, doneCount_append, ← Nat.add_assoc]
    exact (sameFor_of_eq (ownerOf_launch _ _ _ _ _ _ _) rfl q).ledger hq
  | settle hid ht htx h =>
    simp only [Mid.finish, doneCount_append, ← Nat.add_assoc]
    exact hq.settle ht htx _

theorem Runs.ledger {entropy : Entropy} (h : Runs entropy log e)
    (hd : (asked log).Nodup) (q : Qid) : Ledger log e (doneCount q (emitted log)) q := by
  refine Invariant.run (G := fun log => (asked log).Nodup)
    (I := fun log e => ∀ q, Ledger log e (doneCount q (emitted log)) q) (J := Kept)
    ⟨fun st log hd => ?_, fun q => ?_, fun log e e' hI hr q => (hr.sameFor q).ledger (hI q),
      fun log st _ _ hI => ⟨hI, fun _ => hI⟩, fun log st m m' _ _ hk hm => ?_,
      fun log st m m' hd hs hk hm => hk.shift hd hs hm, fun log st hd _ hk q => ?_⟩ h hd q
  · exact hd.sublist (List.Sublist.filterMap _ (sublist_cons_self _ _))
  · exact .inl ⟨by simp [asked], by simp [Abandoned], rfl, by simp [ownerOf, withEntropy], by simp [withEntropy]⟩
  · refine ⟨hk.1, fun hno q => ?_⟩
    have hq := hm.quiet
    rw [hq.begun, hq.acts]
    exact (hq.sameFor q).ledger (hk.2 hno q)
  · have hcount : doneCount q (emitted (st :: log)) = doneCount q (emitted log) +
        doneCount q (actions st) := by
      rw [emitted, flatMap_cons, doneCount_append, Nat.add_comm]
      rfl
    rw [hcount]
    by_cases hab : ∃ q', st.input = .abandon q'
    · obtain ⟨q', hop⟩ := hab
      have hafter : after st = (st.before.abandon q').1 ∧
          actions st = (st.before.abandon q').2 := by
        simp only [after, actions, hop, apply, and_self]
      rw [hafter.1, hafter.2, doneCount_abandon, Nat.add_zero]
      exact (hk.1 q).abandon hop
    · have hno : ∀ q', st.input ≠ .abandon q' := not_exists.mp hab
      have hq := hk.2 hno q
      cases hask : st.input.asks with
      | some q' => simpa [Mid.last, hask] using hq
      | none =>
        simp only [Mid.last, hask, Option.isSome_none, Bool.false_eq_true, if_false] at hq
        exact hq.cons (by simp [hask]) (abandoned_cons (hno q))

theorem Reached.ledger {entropy : Entropy} (h : Reached entropy log e)
    (hd : (asked log).Nodup) (q : Qid) : Ledger log e (doneCount q (emitted log)) q := by
  obtain ⟨e₀, h₀, hr⟩ := h
  exact (hr.sameFor q).ledger (h₀.ledger hd q)

/-! ### The situations of a question -/

/-- Where a question can be. -/
inductive Situation where
  | answered
  | live
  | abandoned

/-- The question, asked by the operation `op`, is in the situation. -/
def Situation.Holds (log : EngineLog) (op : Op) (e : Engine) (q : Qid) : Situation → Prop
  | .answered => doneCount q (emitted log) = 1 ∧ e.Gone q
  | .live => doneCount q (emitted log) = 0 ∧ Underway op e q
  | .abandoned =>
    Abandoned log q ∧ doneCount q (emitted log) = 0 ∧ e.Gone q ∧
      ∀ tx x, e.txs.get tx = some x → ∃ t, e.tasks.get x.task = some t ∧ t.owner.qid ≠ q

theorem Underway.not_gone (h : Underway op e q) : ¬ e.Gone q := by
  intro hg
  unfold Underway at h
  split at h
  · obtain ⟨⟨l, hl, -⟩, -⟩ := h
    rw [hg.2] at hl
    cases hl
  · obtain ⟨⟨id, hid, -⟩, -⟩ := h
    exact hg.1 id _ hid rfl

theorem asked_unique (hd : (asked log).Nodup) {st' : Step Engine Op} (hst : st ∈ log)
    (hst' : st' ∈ log) (h : st.input.asks = some q) (h' : st'.input.asks = some q) : st = st' :=
  eq_of_nodup_filterMap hd hst hst' h h'

/-- **Every question is answered once.**  In every run whose questions have distinct ids, whatever
the operations, the replies and the entropy source are, every question that was asked is in exactly
one of three situations: answered once and gone; not answered and under way; or abandoned while
something of it was there, not answered, and gone.  A question that was abandoned stays so: it has
no answer in any longer run either.  Nothing else is ever answered. -/
theorem Runs.answered_once {entropy : Entropy} {log : EngineLog} {e : Engine}
    (h : Runs entropy log e) (hd : (asked log).Nodup) :
    (∀ st ∈ log, ∀ q, st.input.asks = some q → ∃! s : Situation, s.Holds log st.input e q) ∧
    (∀ q, Abandoned log q → doneCount q (emitted log) = 0 ∧ e.Gone q) ∧
    (∀ q, q ∉ asked log → doneCount q (emitted log) = 0) := by
  refine ⟨fun st hst q hask => ?_, fun q hab => ?_, fun q hq => ((h.ledger hd q).unasked hq).2.1⟩
  · rcases h.ledger hd q with ⟨hq, -⟩ | ⟨st', hst', hask', hs⟩
    · exact absurd (mem_asked.mpr ⟨st, hst, hask⟩) hq
    · obtain rfl := asked_unique hd hst hst' hask hask'
      rcases hs with ⟨hn, hno, hu⟩ | ⟨hn, hno, hg⟩ | ⟨hn, hab, hg⟩
      · refine ⟨.live, ⟨hn, hu⟩, fun s hs => ?_⟩
        cases s with
        | live => rfl
        | answered => exact absurd hs.2 hu.not_gone
        | abandoned => exact absurd hs.1 hno
      · refine ⟨.answered, ⟨hn, hg⟩, fun s hs => ?_⟩
        cases s with
        | live => exact absurd hg hs.2.not_gone
        | answered => rfl
        | abandoned => exact absurd hs.1 hno
      · refine ⟨.abandoned, ⟨hab, hn, hg, fun tx x hx => ?_⟩, fun s hs => ?_⟩
        · obtain ⟨-, t, ht, -⟩ := h.linked.tx_task tx x hx
          exact ⟨t, ht, hg.1 _ _ (ownerOf_eq ht)⟩
        · cases s with
          | live => exact absurd hg hs.2.not_gone
          | answered =>
            have h1 := hs.1
            rw [hn] at h1
            cases h1
          | abandoned => rfl
  · rcases h.ledger hd q with ⟨-, hno, -⟩ | ⟨-, -, -, ⟨-, hno, -⟩ | ⟨-, hno, -⟩ | ⟨hn, -, hg⟩⟩
    · exact absurd hab hno
    · exact absurd hab hno
    · exact absurd hab hno
    · exact ⟨hn, hg⟩

/-- On a small run: the question is under way, and is in no other situation. -/
theorem answered_once_askOnLan : (asked (ran zeros askOnLan).1).Nodup ∧
    ∃! s : Situation, s.Holds (ran zeros askOnLan).1
      (.resolve 7 (ascii "peios.example") Rtype.a false 1000)
      (ran zeros askOnLan).2 7 := by
  have hd : (asked (ran zeros askOnLan).1).Nodup := by
    simp [ran, askOnLan, Machine.exec, asked, Op.asks]
  refine ⟨hd, ?_⟩
  have hst : (⟨(withEntropy zeros).setScopes [lan],
      .resolve 7 (ascii "peios.example") Rtype.a false 1000⟩ :
      Step Engine Op) ∈ (ran zeros askOnLan).1 := mem_cons_self
  exact (Runs.answered_once (runs_ran zeros askOnLan) hd).1 _ hst 7 rfl

end Resolvd.Engine
