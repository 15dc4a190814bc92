import Resolvd.Engine.Invariants

/-!
# Where answers come from

Every completion the engine emits has its reasons (`Verdict`): the text asked for was not a name, a
task was settled (`Gave`), or all tasks of a lookup were, in this step or in earlier ones (`Given`),
one for each record type of the family.  `Runs.verdict` says so for every `Done` of every run,
whatever the question ids are.
-/

namespace Resolvd.Engine

open Lib Dns Relation List

variable {log : EngineLog} {st : Step Engine Op} {m m' : Mid}

/-! ### The notions -/

/-- In the course of the step, the task was settled with the answer. -/
def Gave (st : Step Engine Op) (t : Task) (a : Answer) : Prop :=
  ∃ m id, Path st (.first st) m ∧ id ∈ m.loose ∧ m.engine.tasks.get id = some t ∧
    Why st m.engine id t a

/-- A task of the owner, for the record type, was settled with the answer by one of the steps. -/
def Given (log : EngineLog) (owner : Owner) (rtype : UInt16) (a : Answer) : Prop :=
  ∃ new st old t, log = new ++ st :: old ∧ t.owner = owner ∧ t.rtype = rtype ∧ Gave st t a

/-- The lookup was asked for; it has the answer, or still waits for the task, of every record type;
and the answers it has were given. -/
structure Tallied (log : EngineLog) (e : Engine) (q : Qid) (l : Lookup) : Prop where
  asked : ∃ st ∈ log, ∃ family, st.input.LooksUp q l.name family ∧ ∀ rtype ∈ family.types,
    (∃ a, (rtype, a) ∈ l.results) ∨
      ∃ id ∈ l.pending, ∃ t, e.tasks.get id = some t ∧ t.owner = .lookup q ∧ t.rtype = rtype
  given : ∀ r ∈ l.results, Given log (.lookup q) r.1 r.2

/-- Why the step completes the question. -/
inductive Verdict (old : EngineLog) (st : Step Engine Op) (q : Qid) : Completion → Prop
  | refused {c : Completion} (h : st.input.Refused q c) : Verdict old st q c
  | answer {t : Task} {a : Answer} (ho : t.owner = .resolve q) (h : Gave st t a) :
    Verdict old st q (.answer a)
  | addresses {l : Lookup} {st₀ : Step Engine Op} {family : Family} (hst₀ : st₀ ∈ st :: old)
      (hask : st₀.input.LooksUp q l.name family)
      (hall : ∀ rtype ∈ family.types, ∃ a, (rtype, a) ∈ l.results)
      (h : ∀ r ∈ l.results, Given (st :: old) (.lookup q) r.1 r.2) :
      Verdict old st q (.addresses (combine l))

/-! ### Lookups -/

theorem Given.cons {owner : Owner} {rtype : UInt16} {a : Answer} (h : Given log owner rtype a)
    (st : Step Engine Op) : Given (st :: log) owner rtype a := by
  obtain ⟨new, st₀, old, t, rfl, h⟩ := h
  exact ⟨st :: new, st₀, old, t, rfl, h⟩

section Tallied

variable {log : EngineLog} {e e' : Engine} {q : Qid} {l : Lookup}

theorem Tallied.cons (h : Tallied log e q l) (st : Step Engine Op) : Tallied (st :: log) e q l := by
  obtain ⟨st₀, hst₀, hrest⟩ := h.asked
  exact ⟨⟨st₀, mem_cons_of_mem _ hst₀, hrest⟩, fun r hr => (h.given r hr).cons st⟩

theorem Tallied.of_tasks (h : Tallied log e q l)
    (hkeep : ∀ id t, e.tasks.get id = some t → t.owner = .lookup q →
      ∃ t', e'.tasks.get id = some t' ∧ t.Kin t') : Tallied log e' q l := by
  obtain ⟨st₀, hst₀, family, hask, hall⟩ := h.asked
  refine ⟨⟨st₀, hst₀, family, hask, fun rtype hr => (hall rtype hr).imp_right ?_⟩, h.given⟩
  rintro ⟨id, hid, t, ht, ho, hr⟩
  obtain ⟨t', ht', hk⟩ := hkeep id t ht ho
  exact ⟨id, hid, t', ht', hk.owner.trans ho, hk.rtype.trans hr⟩

theorem Tallied.push {id : TaskId} {t : Task} {a : Answer} (h : Tallied log e q l)
    (ht : e.tasks.get id = some t) (hgiven : Given log (.lookup q) t.rtype a)
    (htasks : e'.tasks = e.tasks.remove id) : Tallied log e' q (l.push id t.rtype a) := by
  obtain ⟨st₀, hst₀, family, hask, hall⟩ := h.asked
  refine ⟨⟨st₀, hst₀, family, hask, fun rtype hr => ?_⟩, fun r hr => ?_⟩
  · rcases hall rtype hr with ⟨b, hb⟩ | ⟨i, hi, t', ht', ho, hr'⟩
    · exact .inl ⟨b, mem_append_left _ hb⟩
    · by_cases hid : i = id
      · subst hid
        obtain rfl := Option.mem_unique ht ht'
        exact .inl ⟨a, by simp [Lookup.push, hr']⟩
      · refine .inr ⟨i, ?_, t', ?_, ho, hr'⟩
        · simp only [Lookup.push, mem_filter, bne_iff_ne]
          exact ⟨hi, hid⟩
        · rw [htasks, Table.get_remove, if_neg hid, ht']
  · rcases mem_append.mp hr with hr | hr
    · exact h.given r hr
    · obtain rfl := mem_singleton.mp hr
      exact hgiven

end Tallied

theorem tallied_openLookup {e : Engine} {q : Qid} {name : Name}
    {family : Family} (h : st.input.LooksUp q name family) :
    Tallied (st :: log) (e.openLookup q name family) q
      { name, pending := List.range' e.nextId family.types.length, results := [] } := by
  refine ⟨⟨st, mem_cons_self, family, h, fun rtype hr => .inr ?_⟩, by simp⟩
  obtain ⟨i, hi, rfl⟩ := mem_iff_getElem.mp hr
  refine ⟨e.nextId + i, by rw [mem_range'_1]; lia, lookupTask q name family.types[i], ?_, rfl, rfl⟩
  rw [openLookup]
  simp [(startTasks_spec e q name family.types).2.1, hi]

/-! ### The invariant -/

/-- At every moment of a step: how it was reached, that the lookups are tallied, and why questions
were completed. -/
structure Accounted (log : EngineLog) (st : Step Engine Op) (m : Mid) : Prop where
  path : Path st (.first st) m
  lookups : ∀ q l, m.engine.lookups.get q = some l → Tallied (st :: log) m.engine q l
  acts : ∀ q c, .done q c ∈ m.acts → Verdict log st q c

theorem Accounted.tweak (h : Accounted log st m) (hm : Tweak st m m') : Accounted log st m' := by
  have hq := hm.quiet
  refine ⟨h.path.tail (.tweak hm), fun q l hl => ?_, fun q c hc => h.acts q c (hq.acts ▸ hc)⟩
  refine (h.lookups q l (hq.lookups ▸ hl)).of_tasks fun id t ht _ => ?_
  obtain ⟨t', ht', hlike, -⟩ := hq.task id t ht
  exact ⟨t', ht', hlike.toKin⟩

/-- A shift that leaves the lookups alone, keeps the tasks and completes nothing. -/
theorem Accounted.of_tasks (h : Accounted log st m) (hm : Shift st m m')
    (hlookups : m'.engine.lookups = m.engine.lookups)
    (hkeep : ∀ id t, m.engine.tasks.get id = some t → ∃ t', m'.engine.tasks.get id = some t' ∧
      t.Kin t') (hacts : ∀ q c, .done q c ∈ m'.acts → .done q c ∈ m.acts ∨ Verdict log st q c) :
    Accounted log st m' :=
  ⟨h.path.tail (.shift hm), fun q l hl => (h.lookups q l (hlookups ▸ hl)).of_tasks fun id t ht _ =>
    hkeep id t ht, fun q c hc => (hacts q c hc).elim (h.acts q c) id⟩

theorem Accounted.settle {id : TaskId} {t : Task} {a : Answer} (h : Accounted log st m)
    (hid : id ∈ m.loose) (ht : m.engine.tasks.get id = some t) (htx : t.tx = none)
    (hwhy : Why st m.engine id t a) : Accounted log st (m.finish id (m.engine.settle id a)) := by
  have hgave : Gave st t a := ⟨m, id, h.path, hid, ht, hwhy⟩
  have hpath := h.path.tail (.shift (.settle m hid ht htx hwhy))
  -- a lookup that the task does not belong to keeps its tasks
  have hother : ∀ q l, m.engine.lookups.get q = some l → t.owner ≠ .lookup q →
      Tallied (st :: log) (m.engine.settle id a).1 q l := by
    intro q l hl hne
    refine (h.lookups q l hl).of_tasks fun i t' ht' ho => ⟨t', ?_, .refl t'⟩
    have hi : i ≠ id := by
      rintro rfl
      obtain rfl := Option.mem_unique ht ht'
      exact hne ho
    rw [settle_tasks_ne hi, ht']
  have hpush : ∀ q l, m.engine.lookups.get q = some l → t.owner = .lookup q →
      Tallied (st :: log) (m.engine.settle id a).1 q (l.push id t.rtype a) := by
    intro q l hl ho
    refine (h.lookups q l hl).push ht ⟨[], st, log, t, rfl, ho, rfl, hgave⟩ ?_
    rw [settle_eq ht htx]
  have hlookups : (m.engine.settle id a).1.lookups = (m.engine.settled id t a).1 := by
    rw [settle_eq ht htx]
  have hacts : (m.engine.settle id a).2 = (m.engine.settled id t a).2 := by rw [settle_eq ht htx]
  refine ⟨hpath, fun q l hl => ?_, fun q c hc => ?_⟩
  · simp only [Mid.finish, hlookups] at hl
    unfold settled at hl
    split at hl
    · next q' ho => exact hother q l hl (by simp [ho])
    · next q' ho =>
      by_cases hq : q = q'
      · subst hq
        split at hl
        · next hnone => exact absurd (hnone.symm.trans hl) (by simp)
        · next l₀ hl₀ =>
          split at hl
          · simp only [Table.get_insert, if_true] at hl
            obtain rfl := Option.some.inj hl
            exact hpush q l₀ hl₀ ho
          · simp [Table.get_remove] at hl
      · have hl₀ : m.engine.lookups.get q = some l := by
          split at hl
          · exact hl
          · split at hl
            · simpa only [Table.get_insert, if_neg hq] using hl
            · simpa only [Table.get_remove, if_neg hq] using hl
        exact hother q l hl₀ (by rw [ho]; simpa using Ne.symm hq)
  · rcases mem_append.mp hc with hc | hc
    · exact h.acts q c hc
    · rw [hacts] at hc
      unfold settled at hc
      split at hc
      · next q' ho =>
        simp only [mem_singleton, Action.done.injEq] at hc
        obtain ⟨rfl, rfl⟩ := hc
        exact .answer ho hgave
      · next q' ho =>
        split at hc
        · cases hc
        · next l₀ hl₀ =>
          split at hc
          · cases hc
          · next hempty =>
            simp only [mem_singleton, Action.done.injEq] at hc
            obtain ⟨rfl, rfl⟩ := hc
            have htally := hpush q l₀ hl₀ ho
            obtain ⟨st₀, hst₀, family, hask, hall⟩ := htally.asked
            refine .addresses hst₀ hask (fun rtype hr => (hall rtype hr).resolve_right ?_)
              htally.given
            rintro ⟨i, hi, -⟩
            rw [not_not.mp hempty] at hi
            cases hi

theorem Accounted.shift (hs : Sound st m) (h : Accounted log st m)
    (hm : Shift st m m') : Accounted log st m' := by
  have hall := hm
  have hsame : ∀ id t, m.engine.tasks.get id = some t → ∃ t', m.engine.tasks.get id = some t' ∧
      t.Kin t' :=
    fun id t ht => ⟨t, ht, .refl t⟩
  cases hm with
  | refuse h' hb =>
    refine h.of_tasks hall rfl hsame fun q c hc => ?_
    rcases mem_append.mp hc with hc | hc
    · exact .inl hc
    · simp only [mem_singleton, Action.done.injEq] at hc
      obtain ⟨rfl, rfl⟩ := hc
      exact .inr (.refused h')
  | start h' hb =>
    refine h.of_tasks hall rfl (fun id t ht => ⟨t, ?_, .refl t⟩) fun q c hc => .inl hc
    simp only [startTask, Table.get_insert, if_neg (ne_of_lt (hs.linked.task_lt id t ht)), ht]
  | @startAll q₀ name family h' hb =>
    refine ⟨h.path.tail (.shift hall), fun q l hl => ?_, h.acts⟩
    dsimp only at hl ⊢
    rw [openLookup_eq] at hl
    simp only [Table.get_insert] at hl
    split at hl
    · next hq =>
      subst hq
      obtain rfl := Option.some.inj hl
      exact tallied_openLookup h'
    · refine (h.lookups q l hl).of_tasks fun id t ht _ => ⟨t, ?_, .refl t⟩
      have hlt := hs.linked.task_lt id t ht
      rw [openLookup_old _ _ _ _ fun hge => absurd hge.1 (not_le.mpr hlt), ht]
  | @abandon q₀ h' hm =>
    refine ⟨h.path.tail (.shift hall), fun q l hl => ?_, fun q c hc => ?_⟩
    · obtain ⟨htasks, -, -, -, heq⟩ := abandon_spec m.engine q₀
      dsimp only at hl ⊢
      have hlookups : (m.engine.abandon q₀).1.lookups = m.engine.lookups.remove q₀ := by rw [heq]
      rw [hlookups, Table.get_remove] at hl
      split at hl
      · cases hl
      · next hq =>
        refine (h.lookups q l hl).of_tasks fun id t ht ho => ⟨t, ?_, .refl t⟩
        rw [htasks, ht]
        simp [ho, Owner.qid, hq]
    · rcases mem_append.mp hc with hc | hc
      · exact h.acts q c hc
      · obtain ⟨-, -, -, hcancels, -⟩ := abandon_spec m.engine q₀
        obtain ⟨tx, id, t, heq, -⟩ := (hcancels _).mp hc
        cases heq
  | @close tx x t acts hx ht h' =>
    refine h.of_tasks hall rfl (fun id t' ht' => ?_) fun q c hc => ?_
    · by_cases hid : id = x.task
      · subst hid
        exact ⟨_, get_closeTx_self ht', ⟨rfl, rfl, rfl, rfl⟩⟩
      · exact ⟨t', (closeTx_tasks_ne hid).trans ht', .refl t'⟩
    · rcases mem_append.mp hc with hc | hc
      · exact .inl hc
      · rcases h'.acts with rfl | rfl <;> simp at hc
  | orphan hx ht h' =>
    refine h.of_tasks hall rfl hsame fun q c hc => ?_
    rcases mem_append.mp hc with hc | hc
    · exact .inl hc
    · rcases h'.acts with rfl | rfl <;> simp at hc
  | stray h' hx hold =>
    refine h.of_tasks hall rfl hsame fun q c hc => ?_
    rcases mem_append.mp hc with hc | hc
    · exact .inl hc
    · simp at hc
  | @launch id t server tcp random hid ht htx hcur hbudget hroom htarget =>
    refine h.of_tasks hall rfl (fun i t' ht' => ?_) fun q c hc => ?_
    · by_cases hi : i = id
      · subst hi
        obtain rfl := Option.mem_unique ht ht'
        exact ⟨_, launch_tasks_self server tcp random st.input.now ht, ⟨rfl, rfl, rfl, rfl⟩⟩
      · exact ⟨t', (launch_tasks_ne server tcp random st.input.now hi).trans ht', .refl t'⟩
    · rcases mem_append.mp hc with hc | hc
      · exact .inl hc
      · simp [Engine.launch] at hc
  | settle hid ht htx hwhy => exact h.settle hid ht htx hwhy

/-- The lookups of a run are tallied, and its questions completed for a reason. -/
theorem accounted (entropy : Entropy) : Invariant entropy (fun _ => True)
    (fun log e => ∀ q l, e.lookups.get q = some l → Tallied log e q l) Accounted where
  good := fun _ _ _ => trivial
  start := by simp [withEntropy]
  idle := fun log e e' hI hr q l hl =>
    (hI q l (hr.lookups.get_eq q ▸ hl)).of_tasks fun id t ht _ =>
      ⟨t, hr.tasks.get_eq id ▸ ht, .refl t⟩
  first := fun log st _ _ hI => ⟨.refl, fun q l hl => (hI q l hl).cons st, by simp [Mid.first]⟩
  tweak := fun _ _ _ _ _ _ hJ hm => hJ.tweak hm
  shift := fun _ _ _ _ _ hs hJ hm => hJ.shift hs hm
  last := fun _ _ _ _ hJ => hJ.lookups

/-- **Every question is completed for a reason.** -/
theorem Runs.verdict {entropy : Entropy} {e : Engine} (h : Runs entropy log e) {new old : EngineLog}
    (hlog : log = new ++ st :: old) {q : Qid} {c : Completion} (hc : .done q c ∈ actions st) :
    Verdict old st q c :=
  ((accounted entropy).mid h trivial hlog (apply_path st)).2.acts q c hc

end Resolvd.Engine
