import Resolvd.Engine.Outcomes

/-!
# Time alone empties the engine

A task under way has used at least one of its three attempts and at most all of them
(`Runs.attempts`).  A `tick` closes every transaction whose deadline has passed, and a task that
goes on after it has used one attempt more (`Barren.charged`).  So three ticks, each late enough to
meet every deadline, leave no task; and a lookup waits for tasks that are there (`Runs.waiting`), so
none of those is left either.
-/

namespace Resolvd.Engine

open Lib Dns List

variable {st : Step Engine Op} {m m' : Mid} {entropy : Entropy} {log : EngineLog} {e e' : Engine}
    {n : ℕ} {til : Instant}

/-! ### Attempts -/

/-- A task under way has used an attempt, and no task has used more than there are. -/
def Attempts (loose : List TaskId) (e : Engine) : Prop :=
  ∀ id t, e.tasks.get id = some t → (id ∉ loose → 1 ≤ t.attempt) ∧ t.attempt ≤ maxAttempts

theorem Attempts.tweak (h : Attempts m.loose m.engine) (hm : Tweak st m m') :
    Attempts m'.loose m'.engine := by
  rw [hm.quiet.loose]
  intro id t' ht'
  cases hm.task_cases ht' with
  | kept ht => exact h id t' ht
  | marked ht hop hst =>
    rw [hst.attempt]
    exact h id _ ht
  | expanded hop' hid ht hnew hnone hne heq =>
    exact heq ▸ ⟨fun hnot => absurd hid hnot, (h id _ ht).2⟩
  | chosen hop' hid ht hc hs hwhy heq => exact heq ▸ ⟨fun hnot => absurd hid hnot, (h id _ ht).2⟩
  | refunded hM hid ht heq =>
    exact heq ▸ ⟨fun hnot => absurd hid hnot, (Nat.sub_le _ _).trans (h id _ ht).2⟩
  | noted hid ht heq => exact heq ▸ ⟨fun hnot => absurd hid hnot, (h id _ ht).2⟩

theorem Attempts.shift (hs : Sound st m) (h : Attempts m.loose m.engine)
    (hm : Shift st m m') : Attempts m'.loose m'.engine := by
  intro id t' ht'
  cases hm.task_cases hs.linked ht' with
  | kept ht hl =>
    rw [hl]
    exact h id t' ht
  | begun hb hid hl => exact ⟨fun hnot => absurd hl hnot, hb.fresh.attempt ▸ Nat.zero_le _⟩
  | closed hx hid ht htx hc heq hl => exact heq ▸ ⟨fun hnot => absurd hl hnot, (h id _ ht).2⟩
  | launched hid ht hcur hbudget htarget heq hx hacts hl =>
    exact heq ▸ ⟨fun _ => Nat.le_add_left _ _, hbudget⟩

theorem Runs.attempts (h : Runs entropy log e) : Attempts [] e := by
  refine Invariant.run (G := fun _ => True) (I := fun _ e => Attempts [] e)
    (J := fun _ _ m => Attempts m.loose m.engine)
    ⟨fun _ _ _ => trivial, ?_, fun log e e' hI hr id t ht => ?_, fun _ _ _ _ hI => hI,
      fun _ _ _ _ _ _ hJ hm => hJ.tweak hm, fun _ _ _ _ _ hs hJ hm =>
        hJ.shift hs hm, fun _ _ _ _ hJ => hJ⟩ h trivial
  · simp [Attempts, withEntropy]
  · exact hI id t (hr.tasks.get_eq id ▸ ht)

theorem Reached.attempts (h : Reached entropy log e) : Attempts [] e := by
  obtain ⟨e₀, h₀, hr⟩ := h
  exact fun id t ht => h₀.attempts id t (hr.tasks.get_eq id ▸ ht)

/-! ### An operation that brings no answer -/

/-- The task has a transaction that the step sent. -/
def Task.Resent (t : Task) (st : Step Engine Op) : Prop :=
  ∃ tx, t.tx = some tx ∧ st.before.nextId ≤ tx

/-- In the course of an operation that brings no answer, a task with a new transaction has used one
attempt more, the others as many as before. -/
def Charged (st : Step Engine Op) (e : Engine) : Prop :=
  ∀ id t, e.tasks.get id = some t → ∃ t₀, st.before.tasks.get id = some t₀ ∧
    (t.Resent st → t.attempt = t₀.attempt + 1) ∧ (¬ t.Resent st → t.attempt = t₀.attempt)

theorem Charged.tweak (hb : Barren st) (h : Charged st m.engine)
    (hm : Tweak st m m') : Charged st m'.engine := by
  intro id t' ht'
  cases hm.task_cases ht' with
  | kept ht => exact h id t' ht
  | marked ht hop' hst =>
    obtain ⟨t₀, ht₀, hmore, hsame⟩ := h id _ ht
    refine ⟨t₀, ht₀, ?_⟩
    simp only [Task.Resent, hst.tx, hst.attempt]
    exact ⟨hmore, hsame⟩
  | expanded hop' => exact absurd hop' hb.not_searches
  | chosen hop' => exact absurd hop' hb.not_searches
  | refunded hM => exact absurd hM (hb.answers _ _ _ _)
  | noted hid ht heq =>
    subst heq
    exact (h id _ ht :)

theorem Charged.shift (hb : Barren st) (hs : Sound st m) (h : Charged st m.engine)
    (hm : Shift st m m') : Charged st m'.engine := by
  intro id t' ht'
  cases hm.task_cases hs.linked ht' with
  | kept ht hl => exact h id t' ht
  | begun hbegun hid hl => exact absurd (hb.asks.symm.trans hbegun.asks) (by simp)
  | closed hx hid ht htx hc heq hl =>
    subst heq
    -- the transaction was there when the operation began, so the task had not gone on yet
    obtain ⟨t₀, ht₀, -, hsame⟩ := h id _ ht
    obtain ⟨x₀, hx₀⟩ := hc.live
    have hlt := hs.start.tx_lt _ _ hx₀
    refine ⟨t₀, ht₀, ?_, fun _ => hsame ?_⟩
    · rintro ⟨tx', htx', -⟩
      cases htx'
    rintro ⟨tx', htx', hge⟩
    rw [htx] at htx'
    obtain rfl := Option.some.inj htx'
    exact absurd hlt (not_lt.mpr hge)
  | launched hid ht hcur hbudget htarget heq hx hacts hl =>
    subst heq
    obtain ⟨t₀, ht₀, -, hsame⟩ := h id _ ht
    obtain ⟨t₁, ht₁, hnone⟩ := hs.linked.loose_task id hid
    obtain rfl := Option.mem_unique ht₁ ht
    refine ⟨t₀, ht₀, fun _ => ?_, fun hnot => absurd ⟨_, rfl, hs.traffic.nextId_le⟩ hnot⟩
    have hno : ¬ t₁.Resent st := by
      rintro ⟨tx, htx, -⟩
      rw [hnone] at htx
      cases htx
    exact congrArg (· + 1) (hsame hno)

/-- **A query that is sent again is charged.** -/
theorem Barren.charged (hb : Barren st) (hl : Linked [] st.before) : Charged st (after st) := by
  have hpath : ∀ m, Path st (.first st) m → Sound st m ∧ Charged st m.engine := by
    intro m hp
    induction hp with
    | refl =>
      refine ⟨sound_first hl, fun id t ht => ⟨t, ht, ?_, fun _ => rfl⟩⟩
      rintro ⟨tx, htx, hge⟩
      obtain ⟨tx', x, htx', hx, -⟩ := hl.task_tx id t ht (by simp)
      obtain rfl := Option.mem_unique htx htx'
      exact absurd (hl.tx_lt _ x hx) (not_lt.mpr hge)
    | tail _ hm ih =>
      refine ⟨ih.1.move hm, ?_⟩
      cases hm with
      | tweak hm => exact ih.2.tweak hb hm
      | shift hm => exact ih.2.shift hb ih.1 hm
  exact (hpath _ (apply_path st)).2

/-! ### One tick -/

/-- **No deadline is past after a tick.** -/
theorem Sound.tick_deadline (hs : Sound st (.last st)) {now : Instant} (hop : st.input = .tick now)
    {tx : Txid} {x : Tx} (hx : (after st).txs.get tx = some x) : now < x.deadline := by
  rcases lt_or_ge tx st.before.nextId with hlt | hge
  · -- an old transaction that is past its deadline is cancelled
    obtain ⟨hx₀, -⟩ := hs.traffic.old_tx tx x hx hlt
    by_contra hd
    have hmem : tx ∈ st.before.txs.select fun _ t => t.deadline ≤ now :=
      Table.mem_select.mpr ⟨x, hx₀, by simpa using hd⟩
    have hcancel : .cancel tx ∈ actions st := by
      simp only [actions, hop, apply, tick]
      exact mem_each_expire hmem _
    have hnone : (after st).txs.get tx = none := (hs.traffic.cancelled tx hcancel).2
    rw [hx] at hnone
    cases hnone
  · obtain ⟨hd, -⟩ := hs.traffic.new_tx tx x hx hge
    rw [hd, hop]
    exact Nat.lt_add_of_pos_right (by decide)

/-! ### What lookups wait for -/

/-- A lookup waits for at least one task, and these are its tasks. -/
def Waiting (e : Engine) : Prop :=
  ∀ q l, e.lookups.get q = some l → l.pending ≠ [] ∧
    ∀ id ∈ l.pending, e.ownerOf id = some (.lookup q)

theorem Waiting.of_sameFor (h : Waiting e) (hs : ∀ q, SameFor q e e') : Waiting e' := by
  intro q l hl
  rw [(hs q).lookup] at hl
  obtain ⟨hne, hp⟩ := h q l hl
  exact ⟨hne, fun id hid => ((hs q).owner id (.lookup q) rfl).mpr (hp id hid)⟩

theorem Waiting.settle {id : TaskId} {t : Task} (h : Waiting e) (ht : e.tasks.get id = some t)
    (htx : t.tx = none) (a : Answer) : Waiting (e.settle id a).1 := by
  -- the lookups that do not change wait for other tasks
  have hother : ∀ q l, e.lookups.get q = some l → t.owner ≠ .lookup q →
      l.pending ≠ [] ∧ ∀ i ∈ l.pending, (e.settle id a).1.ownerOf i = some (.lookup q) := by
    intro q l hl ho
    obtain ⟨hne, hp⟩ := h q l hl
    refine ⟨hne, fun i hi => ?_⟩
    rw [ownerOf_settle ht htx, if_neg, hp i hi]
    rintro rfl
    exact ho (Option.some.inj ((ownerOf_eq ht).symm.trans (hp i hi)))
  intro q l' hl'
  have hlookups : (e.settle id a).1.lookups = (e.settled id t a).1 := by rw [settle_eq ht htx]
  rw [hlookups] at hl'
  cases ho : t.owner with
  | resolve q' =>
    simp only [settled, ho] at hl'
    exact hother q l' hl' (by simp [ho])
  | lookup q' =>
    simp only [settled, ho] at hl'
    by_cases hq : q = q'
    · subst hq
      cases hl : e.lookups.get q with
      | none => simp [hl] at hl'
      | some l =>
        by_cases hlast : (l.push id t.rtype a).pending = []
        · simp [hl, hlast, Table.get_remove] at hl'
        · simp only [hl, ne_eq, hlast, not_false_iff, if_true, Table.get_insert,
            Option.some.injEq] at hl'
          subst hl'
          refine ⟨hlast, fun i hi => ?_⟩
          simp only [Lookup.push, mem_filter, bne_iff_ne] at hi
          rw [ownerOf_settle ht htx, if_neg hi.2]
          exact (h q l hl).2 i hi.1
    · have hsame : e.lookups.get q = some l' := by
        split at hl'
        · exact hl'
        · split at hl'
          · simpa only [Table.get_insert, if_neg hq] using hl'
          · simpa only [Table.get_remove, if_neg hq] using hl'
      exact hother q l' hsame (by rw [ho]; exact fun heq => hq (Owner.lookup.inj heq).symm)

theorem Waiting.shift (hs : Sound st m) (h : Waiting m.engine) (hm : Shift st m m') :
    Waiting m'.engine := by
  have hfresh : ∀ i, m.engine.nextId ≤ i → m.engine.ownerOf i = none := fun i hi => by
    simp only [ownerOf, hs.linked.task_fresh hi, Option.map_none]
  cases hm with
  | refuse h' hb => exact h
  | start h' hb =>
    intro q l hl
    obtain ⟨hne, hp⟩ := h q l hl
    refine ⟨hne, fun i hi => ?_⟩
    rw [ownerOf_startTask, if_neg, hp i hi]
    rintro rfl
    have hnone := hfresh _ (le_refl _)
    rw [hp _ hi] at hnone
    cases hnone
  | @startAll q' name family h' hb =>
    intro q l hl
    dsimp only at hl ⊢
    rw [openLookup_eq] at hl
    simp only [Table.get_insert] at hl
    split at hl
    · next hq =>
      obtain rfl := Option.some.inj hl
      refine ⟨by cases family <;> simp [Family.types], fun i hi => ?_⟩
      rw [ownerOf_openLookup, if_pos (mem_range'_1.mp hi), hq]
    · obtain ⟨hne, hp⟩ := h q l hl
      refine ⟨hne, fun i hi => ?_⟩
      rw [ownerOf_openLookup, if_neg, hp i hi]
      rintro ⟨hge, -⟩
      have hnone := hfresh i hge
      rw [hp i hi] at hnone
      cases hnone
  | @abandon q' h' hm =>
    intro q l hl
    dsimp only at hl ⊢
    rw [(abandon_spec _ _).2.2.2.2] at hl
    simp only [Table.get_remove] at hl
    split at hl
    · cases hl
    · next hq =>
      obtain ⟨hne, hp⟩ := h q l hl
      refine ⟨hne, fun i hi => ?_⟩
      rw [ownerOf_abandon, hp i hi, Option.filter_some, if_pos]
      simpa [Owner.qid] using hq
  | close hx ht h' => exact h.of_sameFor fun q => sameFor_of_eq (ownerOf_closeTx _ _ _) rfl q
  | orphan hx ht h' => exact h
  | stray h' hx hold => exact h
  | launch random hid ht htx hcur hbudget hroom h' =>
    exact h.of_sameFor fun q => sameFor_of_eq (ownerOf_launch _ _ _ _ _ _ _) rfl q
  | settle hid ht htx h' => exact h.settle ht htx _

theorem Runs.waiting (h : Runs entropy log e) : Waiting e := by
  refine Invariant.run (G := fun _ => True) (I := fun _ e => Waiting e)
    (J := fun _ _ m => Waiting m.engine)
    ⟨fun _ _ _ => trivial, ?_, fun log e e' hI hr => hI.of_sameFor hr.sameFor, fun _ _ _ _ hI => hI,
      fun _ _ _ _ _ _ hJ hm => hJ.of_sameFor hm.quiet.sameFor, fun _ _ _ _ _ hs hJ hm =>
        hJ.shift hs hm,
      fun _ _ _ _ hJ => hJ⟩ h trivial
  simp [Waiting, withEntropy]

/-! ### Three ticks -/

/-- Every transaction is due at `til`, and its task has used `n` attempts. -/
def Due (n : ℕ) (til : Instant) (e : Engine) : Prop :=
  ∀ tx x t, e.txs.get tx = some x → e.tasks.get x.task = some t → x.deadline ≤ til ∧ n ≤ t.attempt

theorem Due.reorder (h : Due n til e) (hr : Reorder e e') : Due n til e' :=
  fun tx x t hx ht => h tx x t (hr.txs.get_eq tx ▸ hx) (hr.tasks.get_eq x.task ▸ ht)

theorem Due.config {n : ℕ} {til : Instant} {st : Step Engine Op} (h : Due n til st.before)
    (hop : st.input.isConfig = true) : Due n til (after st) := by
  obtain ⟨f, hf, htasks, htxs, -⟩ := configure_tasks st.before hop
  intro tx x t' hx ht'
  simp only [after, htasks, htxs, Option.map_eq_some_iff] at hx ht'
  obtain ⟨t, ht, rfl⟩ := ht'
  rw [(hf t).attempt]
  exact h tx x t hx ht

theorem Due.tick {now : Instant} (hs : Sound st (.last st))
    (h : Due n til st.before) (hop : st.input = .tick now) (hle : til ≤ now) :
    Due (n + 1) (now + serverTimeout) (after st) := by
  intro tx x t hx ht
  have hdl := hs.tick_deadline hop hx
  rcases lt_or_ge tx st.before.nextId with hlt | hge
  · -- an old one would have been due
    obtain ⟨hx₀, t₀, -, ht₀, -⟩ := hs.traffic.old_tx tx x hx hlt
    exact absurd ((h tx x t₀ hx₀ ht₀).1.trans hle) (not_le.mpr hdl)
  · obtain ⟨hd, -⟩ := hs.traffic.new_tx tx x hx hge
    refine ⟨by rw [hd, hop]; exact le_refl _, ?_⟩
    have hfails : Fails st := by simp [Fails, hop]
    obtain ⟨t₀, ht₀, hone, -⟩ := hfails.barren.charged hs.start x.task t ht
    obtain ⟨-, t₁, ht₁, htx⟩ := hs.linked.tx_task tx x hx
    obtain rfl := Option.mem_unique ht₁ ht
    rw [hone ⟨tx, htx, hge⟩]
    obtain ⟨tx₀, x₀, -, hx₀, htask⟩ := hs.start.task_tx _ t₀ ht₀ (by simp)
    exact Nat.succ_le_succ (h tx₀ x₀ t₀ hx₀ (htask ▸ ht₀)).2

/-- The instants follow each other late enough: the first at `til`, each of the others when a query
sent at the one before is due. -/
def Spaced : Instant → List Instant → Prop
  | _, [] => True
  | til, now :: rest => til ≤ now ∧ Spaced (now + serverTimeout) rest

/-- The operations of some steps that do not only change the configuration, oldest first. -/
def busy (steps : EngineLog) : List Op :=
  (steps.reverse.map Step.input).filter fun op => !op.isConfig

theorem busy_append (new : EngineLog) (st : Step Engine Op) :
    busy (new ++ [st]) = if st.input.isConfig then busy new else st.input :: busy new := by
  cases hop : st.input.isConfig <;> simp [busy, hop]

theorem Runs.due {new : EngineLog} {times : List Instant}
    (hdue : ∀ e, Runs entropy log e → Due n til e) (hops : busy new = times.map Op.tick)
    (hsp : Spaced til times) (h : Runs entropy (new ++ log) e) :
    ∃ til', Due (n + times.length) til' e := by
  -- on the steps, oldest first
  induction new using List.reverseRecOn generalizing log n til times with
  | nil =>
    obtain rfl : times = [] := map_eq_nil_iff.mp hops.symm
    exact ⟨til, hdue e h⟩
  | append_singleton new st ih =>
    rw [append_assoc, singleton_append] at h
    obtain ⟨e₁, h₁⟩ := h.of_suffix
    have hs : Sound st (.last st) := Runs.sound h₁ mem_cons_self
    have hbefore : Due n til st.before := by
      obtain ⟨e₀, h₀, hidle, -⟩ := h₁.of_cons
      exact (hdue e₀ h₀).reorder hidle
    have hafter : ∀ e, Runs entropy (st :: log) e → e = after st := by
      intro e he
      obtain ⟨-, -, -, heq⟩ := he.of_cons
      exact heq
    rw [busy_append] at hops
    split at hops
    · next hop => exact ih (fun e he => hafter e he ▸ hbefore.config hop) hops hsp h
    · cases times with
      | nil => cases hops
      | cons now rest =>
        obtain ⟨hop, hrest⟩ := List.cons.inj hops
        obtain ⟨til', hd⟩ := ih (fun e he => hafter e he ▸ hbefore.tick hs hop hsp.1) hrest hsp.2 h
        have hlen : n + 1 + rest.length = n + (now :: rest).length := by
          rw [length_cons, Nat.add_assoc, Nat.add_comm 1]
        exact ⟨til', hlen ▸ hd⟩

theorem mem_busy {steps : EngineLog} (h : st ∈ steps) :
    st.input.isConfig = true ∨ st.input ∈ busy steps := by
  cases hop : st.input.isConfig with
  | true => exact .inl rfl
  | false =>
    refine .inr (mem_filter.mpr ⟨mem_map_of_mem (mem_reverse.mpr h), ?_⟩)
    rw [hop]
    rfl

theorem emitted_append (new log : EngineLog) : emitted (new ++ log) = emitted new ++ emitted log :=
  flatMap_append

/-- In steps that neither ask nor abandon, a question that ends under way before them and is gone
after them was answered once. -/
theorem Runs.answered_between {new : EngineLog} (h : Runs entropy log e)
    (h' : Runs entropy (new ++ log) e') (hask : ∀ st ∈ new, st.input.asks = none)
    (hab : ∀ st ∈ new, ∀ q, st.input ≠ .abandon q) (hd : (asked log).Nodup) {q : Qid}
    (hq : ¬ e.Gone q) (hq' : e'.Gone q) : doneCount q (emitted new) = 1 := by
  have hasked : asked (new ++ log) = asked log := by
    have hnew : new.filterMap (fun st => st.input.asks) = [] := filterMap_eq_nil_iff.mpr hask
    rw [asked, filterMap_append, hnew]
    rfl
  have hiff : Abandoned (new ++ log) q ↔ Abandoned log q := by
    constructor
    · rintro ⟨st, hst, hop, hg⟩
      rcases mem_append.mp hst with hst | hst
      · exact absurd hop (hab st hst q)
      · exact ⟨st, hst, hop, hg⟩
    · rintro ⟨st, hst, hop⟩
      exact ⟨st, mem_append_right _ hst, hop⟩
  rcases h.ledger hd q with ⟨-, -, -, hg⟩ | ⟨st, hst, hask, ⟨hn, hno, -⟩ | ⟨-, -, hg⟩ | ⟨-, -, hg⟩⟩
  · exact absurd hg hq
  · have hcount : doneCount q (emitted (new ++ log)) = doneCount q (emitted new) := by
      rw [emitted_append, doneCount_append, hn, Nat.add_zero]
    have hmem : q ∈ asked (new ++ log) := hasked ▸ mem_asked.mpr ⟨st, hst, hask⟩
    rcases h'.ledger (hasked ▸ hd) q with
      ⟨hnot, -⟩ | ⟨st', -, -, ⟨-, -, hu⟩ | ⟨hn', -, -⟩ | ⟨-, hab', -⟩⟩
    · exact absurd hmem hnot
    · exact absurd hq' hu.not_gone
    · rw [← hcount, hn']
    · exact absurd (hiff.mp hab') hno
  · exact absurd hg hq
  · exact absurd hg hq

/-- **Time alone drains the engine in three ticks.**  From any state of a run, after ticks at `t₁`,
when every transaction is due, `t₂` and `t₃`, each a server timeout later than the one before, and
whatever happens to the configuration meanwhile, nothing is under way; with distinct questions, each
one that was outstanding got exactly one answer.  After any tick every deadline lies ahead. -/
theorem Runs.drains {entropy : Entropy} {log new : EngineLog} {e e' : Engine} {t₁ t₂ t₃ : Instant}
    (h : Runs entropy log e) (h' : Runs entropy (new ++ log) e')
    (hops : busy new = [.tick t₁, .tick t₂, .tick t₃])
    (h₁ : ∀ tx x, e.txs.get tx = some x → x.deadline ≤ t₁) (h₂ : t₁ + serverTimeout ≤ t₂)
    (h₃ : t₂ + serverTimeout ≤ t₃) :
    (∀ id, e'.tasks.get id = none) ∧ (∀ tx, e'.txs.get tx = none) ∧ (∀ q, e'.lookups.get q = none) ∧
    ((asked log).Nodup → ∀ q, ¬ e.Gone q → doneCount q (emitted new) = 1) ∧
    (∀ st ∈ new ++ log, ∀ now, st.input = .tick now → ∀ tx x, (after st).txs.get tx = some x →
      now < x.deadline) := by
  have hstart : ∀ e₀, Runs entropy log e₀ → Due 1 t₁ e₀ := by
    intro e₀ h₀
    obtain rfl : e₀ = e := Machine.Run.unique (M := machine entropy)
      (fun s s' hs hs' => hs.trans hs'.symm) h₀ h
    exact fun tx x t hx ht => ⟨h₁ tx x hx, (h.attempts x.task t ht).1 (by simp)⟩
  have hticks : busy new = [t₁, t₂, t₃].map Op.tick := hops
  obtain ⟨til, hdue⟩ := Runs.due hstart hticks ⟨le_refl _, h₂, h₃, trivial⟩ h'
  have hl := h'.linked
  -- a task under way would have used four attempts
  have htasks : ∀ id, e'.tasks.get id = none := by
    intro id
    cases ht : e'.tasks.get id with
    | none => rfl
    | some t =>
      obtain ⟨tx, x, -, hx, rfl⟩ := hl.task_tx id t ht (by simp)
      exact absurd ((hdue tx x t hx ht).2.trans (h'.attempts x.task t ht).2) (by simp)
  have howner : ∀ id, e'.ownerOf id = none :=
    fun id => by simp only [ownerOf, htasks, Option.map_none]
  have hlookups : ∀ q, e'.lookups.get q = none := by
    intro q
    cases hq : e'.lookups.get q with
    | none => rfl
    | some l =>
      obtain ⟨hne, hp⟩ := h'.waiting q l hq
      obtain ⟨id, hid⟩ := exists_mem_of_ne_nil _ hne
      have howned := hp id hid
      rw [howner] at howned
      cases howned
  refine ⟨htasks, fun tx => ?_, hlookups, fun hd q hq => ?_, fun st hst now hop tx x hx => ?_⟩
  · cases hx : e'.txs.get tx with
    | none => rfl
    | some x =>
      obtain ⟨-, t, ht, -⟩ := hl.tx_task tx x hx
      rw [htasks] at ht
      cases ht
  · have hnew : ∀ st ∈ new, st.input.isConfig = true ∨ ∃ now, st.input = .tick now := by
      intro st hst
      refine (mem_busy hst).imp_right fun hmem => ?_
      rw [hops] at hmem
      simp only [mem_cons, not_mem_nil, or_false] at hmem
      rcases hmem with hop | hop | hop <;> exact ⟨_, hop⟩
    refine h.answered_between h' (fun st hst => ?_) (fun st hst q' hop => ?_) hd hq
      ⟨fun id o ho => absurd ((howner id).symm.trans ho) (by simp), hlookups q⟩
    · rcases hnew st hst with hop | ⟨now, hop⟩
      · cases hask : st.input.asks with
        | none => rfl
        | some q' => rw [Op.not_config_of_asks hask] at hop; cases hop
      · rw [hop]
        rfl
    · rcases hnew st hst with hop' | ⟨now, hop'⟩
      · rw [hop] at hop'
        cases hop'
      · rw [hop] at hop'
        cases hop'
  · exact (h'.sound hst).tick_deadline hop hx

/-- Time passes on the small run, and the servers of the scope change meanwhile. -/
def waitOnLan : List Op :=
  [.tick (secs 10), .setScopes [{ lan with servers := [.v4 #v[192, 0, 2, 2]] }], .tick (secs 12),
    .tick (secs 14)]

/-- The query of the small run is sent three times and then given up. -/
theorem drains_askOnLan :
    (∀ id, ((machine zeros).exec (ran zeros askOnLan).2 waitOnLan).2.tasks.get id = none) ∧
      doneCount 7 (emitted ((machine zeros).exec (ran zeros askOnLan).2 waitOnLan).1) = 1 := by
  have h := runs_ran zeros askOnLan
  have h' := Machine.Run.exec (M := machine zeros) Reorder.refl h waitOnLan
  have hlate : ((ran zeros askOnLan).2.txs.select fun _ x => secs 10 < x.deadline) = [] := by
    decide +kernel
  have h₁ : ∀ tx x, (ran zeros askOnLan).2.txs.get tx = some x → x.deadline ≤ secs 10 := by
    intro tx x hx
    by_contra hd
    have hmem : tx ∈ (ran zeros askOnLan).2.txs.select fun _ x => secs 10 < x.deadline :=
      Table.mem_select.mpr ⟨x, hx, by simpa using hd⟩
    rw [hlate] at hmem
    cases hmem
  obtain ⟨htasks, -, -, hdone, -⟩ := Runs.drains h h' rfl h₁ (by decide) (by decide)
  have howner : (ran zeros askOnLan).2.ownerOf 1 = some (.resolve 7) := by decide +kernel
  refine ⟨htasks, hdone ?_ 7 fun hg => hg.1 1 _ howner rfl⟩
  simp [ran, askOnLan, Machine.exec, asked, Op.asks]

end Resolvd.Engine
