import Resolvd.Engine.Queries
import Resolvd.Engine.Verdicts
import Resolvd.Engine.Outcomes

/-!
# Failure and absence

A question is answered `notFound` only when there is nothing to find (`Runs.absence`): its name is
under `.local`, it has no candidates, or every candidate is known not to exist (`Nonexistent`), by
an NXDOMAIN to a query of the same task or by a cached one.  A timeout, a failure or another
response code never leads there; the answer is then `unavailable`.

The candidates of a task are tracked from the step that asks the question: those it has left behind,
the current one and those to come are together the list made then (`Trail`), and a candidate is left
behind for a reason (`Absent`).
-/

namespace Resolvd.Engine

open Lib Dns List

variable {st st₀ : Step Engine Op} {m : Mid} {id : TaskId} {t : Task} {new log : EngineLog}
    {entropy : Entropy}

/-! ### Why a task is loose -/

/-- A loose task has begun in the operation, or the operation ends its transaction. -/
def Loosened (st : Step Engine Op) (m : Mid) : Prop :=
  ∀ id ∈ m.loose, (st.input.asks ≠ none ∧ st.before.nextId ≤ id) ∨
    ∃ tx x acts, Closes st tx acts ∧ st.before.txs.get tx = some x ∧ x.task = id

theorem Loosened.shift {m' : Mid} (hs : Sound st m) (h : Loosened st m) (hm : Shift st m m') :
    Loosened st m' := by
  intro id hid
  cases hm with
  | refuse h' hb => exact h id hid
  | start h' hb =>
    rcases mem_append.mp hid with hid | hid
    · exact h id hid
    · obtain rfl := mem_singleton.mp hid
      exact .inl ⟨by simp [h'.asks], hs.traffic.nextId_le⟩
  | startAll h' hb =>
    rcases mem_append.mp hid with hid | hid
    · exact h id hid
    · rw [(startTasks_spec _ _ _ _).1, mem_range'_1] at hid
      exact .inl ⟨by simp [h'.asks], hs.traffic.nextId_le.trans hid.1⟩
  | abandon h' hm => exact h id hid
  | @close tx x t acts hx ht hc =>
    rcases mem_append.mp hid with hid | hid
    · exact h id hid
    · obtain rfl := mem_singleton.mp hid
      obtain ⟨x₀, hx₀⟩ := hc.live
      exact .inr ⟨tx, x, acts, hc, (hs.traffic.old_tx tx x hx (hs.start.tx_lt tx x₀ hx₀)).1, rfl⟩
  | orphan hx ht hc => exact h id hid
  | stray h' hx hold => exact h id hid
  | launch random hid' ht htx hcur hbudget hroom htarget => exact h id (mem_of_mem_erase hid)
  | settle hid' ht htx hwhy => exact h id (mem_of_mem_erase hid)

theorem Path.loosened (hl : Linked [] st.before) (hp : Path st (.first st) m) : Loosened st m := by
  induction hp with
  | refl => exact fun id hid => absurd hid (not_mem_nil)
  | tail hp hm ih =>
    cases hm with
    | tweak hm => exact fun id hid => ih id (hm.quiet.loose ▸ hid)
    | shift hm => exact ih.shift (Path.sound hl hp) hm

/-- The loose task of an operation that brings a reply is the one the reply is for. -/
theorem Loosened.of_reply (h : Loosened st m) (hid : id ∈ m.loose)
    {tx : Txid} {x : Tx} {M : Message} (hM : Reply st tx x t M) : x.task = id := by
  rcases h id hid with ⟨hask, -⟩ | ⟨tx', x', acts, hc, hx', rfl⟩
  · exact absurd hM.asks hask
  · obtain rfl := hc.reply hM
    rw [Option.mem_unique hM.live hx']

/-! ### Evidence -/

/-- The step brings an NXDOMAIN to a query of the task. -/
def NxFor (st : Step Engine Op) (id : TaskId) : Prop :=
  ∃ tx x t M, Answers st tx x t M ∧ x.task = id ∧ M.rcode = 3

/-- What shows that a candidate of the task `id`, which began as `b` in the step `st₀`, does not
exist: one of the steps brought an NXDOMAIN to its query for the candidate, or moved the task on
when the cache had one, live, under the scope the candidate was routed to. -/
inductive Nonexistent (st₀ : Step Engine Op) (steps : EngineLog) (id : TaskId) (b : Task)
    (c : Name) : Prop
  | replied {st : Step Engine Op} {tx : Txid} {x : Tx} {t : Task} {M : Message} (hst : st ∈ steps)
      (h : Answers st tx x t M) (hid : x.task = id) (hb : t.asked = b)
      (hname : x.question.name.eq c = true) (hcode : M.rcode = 3)
  | cached {st : Step Engine Op} {s : String} {x : Entry} (hst : st ∈ steps)
      (hsearch : st = st₀ ∨ NxFor st id) (hroute : st.before.route c = some s)
      (hx : st.before.cache.entries.get (CacheKey.new c b.rtype s) = some x)
      (hlive : st.input.now < x.expires) (hout : x.outcome = .notFound)

theorem Nonexistent.mono {steps steps' : EngineLog} {b : Task} {c : Name}
    (h : Nonexistent st₀ steps id b c) (hsub : steps ⊆ steps') : Nonexistent st₀ steps' id b c := by
  cases h with
  | replied hst h hid hb hname hcode => exact .replied (hsub hst) h hid hb hname hcode
  | cached hst hsearch hroute hx hlive hout => exact .cached (hsub hst) hsearch hroute hx hlive hout

/-- How far a task has come with the candidates of its question, in the steps `new` after the one
that asked it. -/
inductive Trail (st₀ : Step Engine Op) (new : EngineLog) (id : TaskId) (t : Task) : Prop
  /-- it has none yet -/
  | fresh (hnew : new = []) (hc : t.current = none) (hcs : t.candidates = [])
  /-- it has all before it -/
  | ready (hnew : new = []) (hc : t.current = none)
    (hcs : t.candidates = st₀.before.candidates t.original)
  /-- it is at one, and those before it do not exist -/
  | under (visited : List Name) {c : Name} (hc : t.current = some c)
      (hcs : st₀.before.candidates t.original = visited ++ c :: t.candidates)
      (h : ∀ v ∈ visited, Nonexistent st₀ (new ++ [st₀]) id t.asked v)

theorem Trail.of_eq {t' : Task} (h : Trail st₀ new id t) (hcur : t'.current = t.current)
    (hcs' : t'.candidates = t.candidates) (hb : t'.asked = t.asked) : Trail st₀ new id t' := by
  have horig : t'.original = t.original := (congrArg Task.original hb :)
  cases h with
  | fresh hnew hc hcs => exact .fresh hnew (hcur.trans hc) (hcs'.trans hcs)
  | ready hnew hc hcs => exact .ready hnew (hcur.trans hc) (by rw [hcs', horig, hcs])
  | under visited hc hcs h =>
    exact .under visited (hcur.trans hc) (by rw [horig, hcs', hcs]) (hb ▸ h)

theorem Trail.cons (h : Trail st₀ new id t)
    (hcur : t.current ≠ none) (st : Step Engine Op) : Trail st₀ (st :: new) id t := by
  cases h with
  | fresh hnew hc hcs => exact absurd hc hcur
  | ready hnew hc hcs => exact absurd hc hcur
  | under visited hc hcs h =>
    exact .under visited hc hcs fun v hv => (h v hv).mono (subset_cons_self _ _)

/-! ### Following the candidates -/

/-- The task's question was asked by a step of the log, and its candidates were followed since. -/
def Tracked (log : EngineLog) (id : TaskId) (t : Task) : Prop :=
  ∃ new st₀ old, log = new ++ st₀ :: old ∧ Begun st₀ t.asked ∧ Trail st₀ new id t

/-- In the middle of an operation, a task whose question the operation has not asked was there
before. -/
def TrackedMid (log : EngineLog) (st : Step Engine Op) (id : TaskId) (t : Task) : Prop :=
  ∃ new st₀ old, st :: log = new ++ st₀ :: old ∧ Begun st₀ t.asked ∧
    (new = [] ∨ id < st.before.nextId) ∧
    Trail st₀ new id t

theorem TrackedMid.of_eq {t' : Task} (h : TrackedMid log st id t) (hcur : t'.current = t.current)
    (hcs : t'.candidates = t.candidates) (hb : t'.asked = t.asked) : TrackedMid log st id t' := by
  obtain ⟨new, st₀, old, hlog, hbegun, hnew, htrail⟩ := h
  exact ⟨new, st₀, old, hlog, hb ▸ hbegun, hnew, htrail.of_eq hcur hcs hb⟩

/-- The newest step is one of those since the question was asked. -/
theorem mem_steps {old : EngineLog} (hlog : st :: log = new ++ st₀ :: old) : st ∈ new ++ [st₀] := by
  cases new with
  | nil => simp [(List.cons.inj hlog).1]
  | cons st' new => simp [(List.cons.inj hlog).1]

section Evidence

variable {entropy : Entropy} {log : EngineLog} {st : Step Engine Op} {m : Mid} {id : TaskId}
  {t : Task}
  {new old : EngineLog} {st₀ : Step Engine Op} {c : Name}

section

variable (hs : Sound st m) (hr : Reached entropy log st.before)
include hs hr

theorem nonexistent_of_reply (ht : m.engine.tasks.get id = some t)
    (hlog : st :: log = new ++ st₀ :: old) {tx : Txid} {x : Tx} {t₁ : Task} {M : Message}
    (hM : Answers st tx x t₁ M) (hid : x.task = id) (hout : outcomeOf M.rcode = .notFound)
    (hc : t₁.candidate.eq c = true) : Nonexistent st₀ (new ++ [st₀]) id t.asked c := by
  subst hid
  obtain ⟨t₂, ht₂, hk⟩ := hs.traffic.old_task x.task t ht (hs.start.task_lt x.task t₁ hM.task)
  obtain rfl := Option.mem_unique hM.task ht₂
  exact .replied (mem_steps hlog) hM rfl hk.asked.symm
    (Name.eq_trans (hr.asking.asks tx x t₁ hM.live hM.task).name hc) (code_of_notFound hM.code hout)

section

variable (hp : Path st (.first st) m) (hop : Searches st) (hid : id ∈ m.loose)
  (ht : m.engine.tasks.get id = some t) (hlog : st :: log = new ++ st₀ :: old)
  (hnew : new = [] ∨ id < st.before.nextId)
include hp hop hid ht hlog hnew

/-- An absence in the cache, when the task looks for its next candidate. -/
theorem nonexistent_of_cached {s : String} {x : Entry} (hroute : m.engine.route c = some s)
    (hx : m.engine.cache.entries.get (CacheKey.new c t.rtype s) = some x)
    (hlive : st.input.now < x.expires) (hout : x.outcome = .notFound) :
    Nonexistent st₀ (new ++ [st₀]) id t.asked c := by
  have hloose := hp.loosened hs.start
  rw [(hs.steady.settings (hs.not_config hid)).route_eq] at hroute
  rcases hp.cached _ x hx with hx | ⟨tx, y, t₁, M, hM, -, hkey, rfl⟩
  · refine .cached (mem_steps hlog) ?_ hroute hx hlive hout
    cases hop with
    | asked hq =>
      -- the task has begun in this very operation
      rcases hloose id hid with ⟨-, hge⟩ | ⟨tx, y, acts, hc, -⟩
      · have hempty : new = [] := hnew.resolve_right (not_lt.mpr hge)
        subst hempty
        exact .inl (List.cons.inj hlog).1
      · exact absurd (hc.asks.symm.trans hq) (by simp)
    | answered hM hnx =>
      exact .inr ⟨_, _, _, _, hM, hloose.of_reply hid hM.toReply, code_of_notFound hM.code hnx⟩
  · -- the entry was made of the reply of this operation, which is for this task
    have hname := (CacheKey.new_eq_iff.mp hkey).1
    exact nonexistent_of_reply hs hr ht hlog hM (hloose.of_reply hid hM.toReply) hout
      (Name.eq_symm hname)

theorem Absent.nonexistent
    (h : Absent st m.engine id t c) : Nonexistent st₀ (new ++ [st₀]) id t.asked c := by
  cases h with
  | cached hscope hroute hx hlive hout =>
    exact nonexistent_of_cached hs hr hp hop hid ht hlog hnew hroute hx hlive hout
  | replied hM htask hc hout =>
    exact nonexistent_of_reply hs hr ht hlog hM htask hout (hc ▸ Name.eq_refl _)

end

end

end Evidence

/-- At every moment of a step: how it was reached, and how far every task has come. -/
structure Following (entropy : Entropy) (log : EngineLog) (st : Step Engine Op) (m : Mid) :
    Prop where
  reached : Reached entropy log st.before
  path : Path st (.first st) m
  tasks : ∀ id t, m.engine.tasks.get id = some t → TrackedMid log st id t

section Following

variable {entropy : Entropy} {log : EngineLog} {st : Step Engine Op} {m m' : Mid}

theorem Following.tweak (hs : Sound st m) (h : Following entropy log st m) (hm : Tweak st m m') :
    Following entropy log st m' := by
  refine ⟨h.reached, h.path.tail (.tweak hm), fun id t' ht' => ?_⟩
  cases hm.task_cases ht' with
  | kept ht => exact h.tasks id t' ht
  | marked ht hop hst => exact (h.tasks id _ ht).of_eq hst.current hst.candidates hst.asked
  | expanded hop hid ht hnew hnone hne heq =>
    subst heq
    obtain ⟨new, st₀, old, hlog, hbegun, hnew', htrail⟩ := h.tasks id _ ht
    refine ⟨new, st₀, old, hlog, hbegun, hnew', ?_⟩
    have hempty : new = [] := by
      cases htrail with
      | fresh hnew hc hcs => exact hnew
      | ready hnew hc hcs => exact hnew
      | under visited hc hcs h => exact absurd (hnew.symm.trans hc) (by simp)
    subst hempty
    obtain rfl := (List.cons.inj hlog).1
    refine .ready rfl hnew ?_
    rw [(hs.steady.settings (hs.not_config hid)).candidates_eq]
  | @chosen t c rest s hop hid ht hcs hroute hwhy heq =>
    subst heq
    obtain ⟨new, st₀, old, hlog, hbegun, hnew, htrail⟩ := h.tasks id t ht
    refine ⟨new, st₀, old, hlog, hbegun, hnew, ?_⟩
    cases htrail with
    | fresh _ hc hnone => exact absurd (hnone.symm.trans hcs) (by simp)
    | ready _ hc hall => exact .under [] rfl (hall.symm.trans hcs) (by simp)
    | @under visited c₀ hc hall hvisited =>
      obtain hnone | ⟨c₁, hc₁, habsent⟩ := hwhy
      · exact absurd (hnone.symm.trans hc) (by simp)
      · obtain rfl := Option.mem_unique hc hc₁
        -- the candidate is left behind
        refine .under (visited ++ [c₀]) rfl ?_ fun v hv => ?_
        · simp only [hall, hcs, append_assoc, cons_append, nil_append, Task.choose]
        · rcases mem_append.mp hv with hv | hv
          · exact hvisited v hv
          · obtain rfl := mem_singleton.mp hv
            exact (habsent.nonexistent hs h.reached h.path hop hid ht hlog hnew :)
  | refunded hM hid ht heq =>
    subst heq
    exact (h.tasks id _ ht).of_eq rfl rfl rfl
  | noted hid ht heq =>
    subst heq
    exact (h.tasks id _ ht).of_eq rfl rfl rfl

theorem Following.shift (hs : Sound st m) (h : Following entropy log st m) (hm : Shift st m m') :
    Following entropy log st m' := by
  refine ⟨h.reached, h.path.tail (.shift hm), fun id t' ht' => ?_⟩
  cases hm.task_cases hs.linked ht' with
  | kept ht hl => exact h.tasks id t' ht
  | begun hb hge hl =>
    exact ⟨[], st, log, rfl, hb.asked_eq.symm ▸ hb, .inl rfl,
      .fresh rfl hb.fresh.current hb.fresh.candidates⟩
  | closed hx hid ht htx hc heq hl =>
    subst heq
    exact (h.tasks id _ ht).of_eq rfl rfl rfl
  | launched hid ht hcur hbudget htarget heq hx hacts hl =>
    subst heq
    exact (h.tasks id _ ht).of_eq rfl rfl rfl

theorem following (entropy : Entropy) : Invariant entropy (fun _ => True)
    (fun log e => ∀ id t, e.tasks.get id = some t → Tracked log id t) (Following entropy) where
  good := fun _ _ _ => trivial
  start := by simp [withEntropy]
  idle := fun log e e' hI hr id t ht => hI id t (hr.tasks.get_eq id ▸ ht)
  first := by
    refine fun log st _ hr hI => ⟨hr, .refl, fun id t ht => ?_⟩
    obtain ⟨new, st₀, old, hlog, hbegun, htrail⟩ := hI id t ht
    exact ⟨st :: new, st₀, old, by rw [hlog, cons_append], hbegun, .inr (hr.linked.task_lt id t ht),
      htrail.cons (hr.asking.current id t ht (by simp)) st⟩
  tweak := fun _ _ _ _ _ hs hJ hm => hJ.tweak hs hm
  shift := fun _ _ _ _ _ hs hJ hm => hJ.shift hs hm
  last := by
    intro log st _ _ hJ id t ht
    obtain ⟨new, st₀, old, hlog, hbegun, -, htrail⟩ := hJ.tasks id t ht
    exact ⟨new, st₀, old, hlog, hbegun, htrail⟩

end Following

/-! ### Why a name is said not to exist -/

/-- Why the task `id`, which began as `b` in the step `st₀`, may say that its name does not exist.
-/
inductive Denied (st₀ : Step Engine Op) (steps : EngineLog) (id : TaskId) (b : Task) : Prop
  | underLocal (hname : b.original.endsWith localDomain = true)
      (h : st₀.before.synthetic b.original b.rtype = some localAnswer)
  | empty (h : st₀.before.candidates b.original = [])
  | all (h : ∀ c ∈ st₀.before.candidates b.original, Nonexistent st₀ steps id b c)

/-- One of the steps asked the question of such a task. -/
def DeniedIn (log : EngineLog) (b : Task) : Prop :=
  ∃ new st₀ old id, log = new ++ st₀ :: old ∧ Begun st₀ b ∧ Denied st₀ (new ++ [st₀]) id b

section

variable (h : Following entropy log st m) (ht : m.engine.tasks.get id = some t)
include h ht

/-- A task that has no candidate yet belongs to the question of this operation. -/
theorem Following.asked_now (hc : t.current = none) : Begun st t.asked := by
  obtain ⟨new, st₀, old, hlog, hbegun, -, htrail⟩ := h.tasks id t ht
  have hempty : new = [] := by
    cases htrail with
    | fresh hnew _ _ => exact hnew
    | ready hnew _ _ => exact hnew
    | under visited hc' _ _ => exact absurd (hc.symm.trans hc') (by simp)
  subst hempty
  rw [(List.cons.inj hlog).1]
  exact hbegun

/-- At the last candidate of a task, all of them do not exist as soon as this one does not. -/
theorem Following.all {c : Name} (hc : t.current = some c) (hlast : t.candidates = [])
    (hev : ∀ new st₀ old, st :: log = new ++ st₀ :: old → (new = [] ∨ id < st.before.nextId) →
      Nonexistent st₀ (new ++ [st₀]) id t.asked c) : DeniedIn (st :: log) t.asked := by
  obtain ⟨new, st₀, old, hlog, hbegun, hnew, htrail⟩ := h.tasks id t ht
  refine ⟨new, st₀, old, id, hlog, hbegun, .all fun v hv => ?_⟩
  cases htrail with
  | fresh _ hc' _ => exact absurd (hc'.symm.trans hc) (by simp)
  | ready _ hc' _ => exact absurd (hc'.symm.trans hc) (by simp)
  | @under visited c₀ hc' hcs hvisited =>
    obtain rfl := Option.mem_unique hc hc'
    rw [show t.asked.original = t.original from rfl, hcs, hlast, mem_append, mem_singleton] at hv
    rcases hv with hv | rfl
    · exact hvisited v hv
    · exact hev new st₀ old hlog hnew

end

/-- A task that is settled with an absence has reason to. -/
theorem Why.denied {a : Answer} (h : Why st m.engine id t a) (hs : Sound st m)
    (hf : Following entropy log st m) (hid : id ∈ m.loose) (ht : m.engine.tasks.get id = some t)
    (hout : a.outcome = .notFound) : DeniedIn (st :: log) t.asked := by
  have hsettings := hs.steady.settings (hs.not_config hid)
  cases h with
  | synthetic hop hnew h =>
    rcases (synthetic_cases h).1 with hfound | ⟨hname, rfl⟩
    · exact absurd (hfound.symm.trans hout) (by simp)
    · rw [hsettings.synthetic_eq] at h
      exact ⟨[], st, log, id, rfl, hf.asked_now ht hnew, .underLocal hname h⟩
  | noCandidates hop hnew h =>
    rw [hsettings.candidates_eq] at h
    exact ⟨[], st, log, id, rfl, hf.asked_now ht hnew, .empty h⟩
  | unroutable hop hc h => cases hout
  | cached hop hc hscope hroute hx hlive hlast =>
    have hx₀ : _ = Outcome.notFound := hout
    have hempty : t.candidates = [] := not_not.mp fun hne => hlast ⟨hx₀, hne⟩
    exact hf.all ht hc hempty fun new st₀ old hlog hnew =>
      nonexistent_of_cached hs hf.reached hf.path hop hid ht hlog hnew hroute hx hlive hx₀
  | @replied tx x t₀ M hM htask heq hlast =>
    have hnx : outcomeOf M.rcode = .notFound := hout
    have hempty : t.candidates = [] := not_not.mp fun hne => hlast ⟨hnx, hne⟩
    obtain ⟨c, hc⟩ := Option.ne_none_iff_exists'.mp
      (hf.reached.asking.current x.task t₀ hM.task (by simp))
    have hcur : t.current = some c := by rw [heq]; exact hc
    refine hf.all ht hcur hempty fun new st₀ old hlog _ =>
      nonexistent_of_reply hs hf.reached ht hlog hM htask hnx ?_
    rw [Task.candidate, hc, Option.getD_some]
    exact Name.eq_refl c
  | budget h => cases hout
  | noServers h => cases hout
  | ceiling h => cases hout
  | entropy h => cases hout

theorem Runs.gave_denied {e : Engine} (h : Runs entropy log e)
    {old : EngineLog} (hlog : log = new ++ st :: old) {a : Answer}
    (hgave : Gave st t a) (hout : a.outcome = .notFound) : DeniedIn (st :: old) t.asked := by
  obtain ⟨m, id, hp, hid, ht, hwhy⟩ := hgave
  obtain ⟨hs, hf⟩ := (following entropy).mid h trivial hlog hp
  exact hwhy.denied hs hf hid ht hout

/-! ### Failures -/

/-- The task is over, and its owner was told `unavailable`. -/
def GivesUp (r : Engine × List Action) (id : TaskId) (t : Task) : Prop :=
  r.1.tasks.get id = none ∧ Told r.1.lookups r.2 t fun a => a.outcome = .unavailable

section GivesUp

variable {e : Engine} {id : TaskId} {t : Task}

section

variable (ht : e.tasks.get id = some t) (htx : t.tx = none) (hw : Awaited e.lookups id t)
include ht htx hw

theorem settle_givesUp {a : Answer}
    (ha : a.outcome = .unavailable) : GivesUp (e.settle id a) id t := by
  refine ⟨by rw [settle_eq ht htx, Table.get_remove, if_pos rfl], ?_⟩
  have htold : Told (e.settle id a).1.lookups ([] ++ (e.settle id a).2) t fun a =>
      a.outcome = .unavailable :=
    told_settle ht htx ha hw
  exact htold

/-- Out of attempts, at the ceiling, or without entropy. -/
theorem send_givesUp
    (h : maxAttempts ≤ t.attempt ∨ maxInFlight ≤ e.txs.len ∨ e.entropy e.draws = none)
    (server : IpAddr) (tcp : Bool) (now : Instant) : GivesUp (e.send id server tcp now) id t := by
  unfold send
  rw [ht]
  dsimp only
  split
  · exact settle_givesUp ht htx hw rfl
  · next hbudget =>
    split
    · exact settle_givesUp (e := e.count _) ht htx hw rfl
    · next hroom =>
      rw [(h.resolve_left hbudget).resolve_left hroom]
      exact settle_givesUp (e := ({ e with draws := e.draws + 1 } : Engine).count _) ht htx hw rfl

theorem nextAttempt_givesUp (h : e.configuredServers t.scopeId = []) (now : Instant) :
    GivesUp (e.nextAttempt id now) id t := by
  unfold nextAttempt
  rw [ht]
  dsimp only
  split
  · exact settle_givesUp ht htx hw rfl
  · rw [serversOf_eq_nil.mpr h]
    exact settle_givesUp ht htx hw rfl

theorem nextCandidate_givesUp {c : Name} {rest : List Name} (hc : t.candidates = c :: rest)
    (h : e.route c = none) (now : Instant) : GivesUp (e.nextCandidate id now) id t := by
  unfold nextCandidate
  rw [ht]
  dsimp only
  rw [hc, nextCandidateLoop_unroutable h]
  exact settle_givesUp ht htx hw rfl

end

end GivesUp

/-! ### The result -/

theorem DeniedIn.append {b : Task} (h : DeniedIn log b) (newer : EngineLog) :
    DeniedIn (newer ++ log) b := by
  obtain ⟨new, st₀, old, id, rfl, hbegun, hdenied⟩ := h
  refine ⟨newer ++ new, st₀, old, id, (append_assoc ..).symm, hbegun, ?_⟩
  cases hdenied with
  | underLocal hname h => exact .underLocal hname h
  | empty h => exact .empty h
  | all h =>
    refine .all fun c hc => (h c hc).mono ?_
    rw [append_assoc]
    exact subset_append_right _ _

/-- **Failure is never reported as absence.**  In every run:
* a question whose name parsed is answered `notFound` only if its name is under `.local`, or its list of candidates was
  empty when it was asked, or every candidate of that list was found not to exist since;
* a step that brings a timeout, a failure, another response code or a truncated reply answers nothing but `unavailable`;
  and, in any state, so do the attempt budget, the ceiling, a failure of the entropy source, a scope without servers and
  an unroutable candidate;
* the addresses of a lookup are made of the answers of its tasks, one at least for each record type of the family: they
  are not found exactly when all answers say so, for a reason each, and found exactly when one is. -/
theorem Runs.absence {entropy : Entropy} {log : EngineLog} {e : Engine} (h : Runs entropy log e) :
    (∀ new st old, log = new ++ st :: old → ∀ q a, .done q (.answer a) ∈ actions st →
      a.outcome = .notFound →
      st.input.Refused q (.answer a) ∨ ∃ name rtype noCache new' st₀ old' id,
        st :: old = new' ++ st₀ :: old' ∧
        st₀.input.Resolves q name rtype noCache ∧
        Denied st₀ (new' ++ [st₀]) id { owner := .resolve q, original := name, rtype, noCache }) ∧
    (∀ st ∈ log, Fails st → (∀ t a, Gave st t a → a.outcome = .unavailable) ∧
      ∀ q a, .done q (.answer a) ∈ actions st → a.outcome = .unavailable) ∧
    (∀ (e : Engine) id t now, e.tasks.get id = some t → t.tx = none → Awaited e.lookups id t →
      (maxAttempts ≤ t.attempt ∨ maxInFlight ≤ e.txs.len ∨ e.entropy e.draws = none →
        ∀ server tcp, GivesUp (e.send id server tcp now) id t) ∧
      (e.configuredServers t.scopeId = [] → GivesUp (e.nextAttempt id now) id t) ∧
      ∀ c rest, t.candidates = c :: rest → e.route c = none →
        GivesUp (e.nextCandidate id now) id t) ∧
    ∀ new st old, log = new ++ st :: old → ∀ q A, .done q (.addresses A) ∈ actions st →
      st.input.Refused q (.addresses A) ∨ ∃ l st₀ family, A = combine l ∧ st₀ ∈ st :: old ∧
        st₀.input.LooksUp q l.name family ∧ (∀ rtype ∈ family.types, ∃ a, (rtype, a) ∈ l.results) ∧
        (∀ r ∈ l.results, Given (st :: old) (.lookup q) r.1 r.2 ∧
          (r.2.outcome = .notFound → ∃ b : Task, b.owner = .lookup q ∧ b.rtype = r.1 ∧
            DeniedIn (st :: old) b)) ∧
        (A.outcome = .notFound ↔ ∀ r ∈ l.results, r.2.outcome = .notFound) ∧
        (A.outcome = .found ↔ ∃ r ∈ l.results, r.2.outcome = .found) := by
  refine ⟨fun new st old hlog q a hdone hout => ?_, fun st hst hfails => ?_,
    fun e id t now ht htx hw => ⟨fun hno server tcp => ?_, fun hno => ?_, fun c rest hc hno => ?_⟩,
    fun new st old hlog q A hdone => ?_⟩
  · cases h.verdict hlog hdone with
    | refused hr => exact .inl hr
    | @answer t _ ho hgave =>
      obtain ⟨new', st₀, old', id, hlog', hbegun, hdenied⟩ := h.gave_denied hlog hgave hout
      refine .inr ⟨t.original, t.rtype, t.noCache, new', st₀, old', id, hlog',
        hbegun.resolves ho, ?_⟩
      rw [← ho]
      exact hdenied
  · have hgave : ∀ t a, Gave st t a → a.outcome = .unavailable := by
      rintro t a ⟨m, id, -, -, -, hwhy⟩
      exact hwhy.unavailable hfails.barren
    refine ⟨hgave, fun q a hdone => ?_⟩
    obtain ⟨new, old, hlog⟩ := append_of_mem hst
    cases h.verdict hlog hdone with
    | refused hr => exact absurd (hfails.barren.asks.symm.trans hr.asks) (by simp)
    | answer ho hgave' => exact hgave _ _ hgave'
  · exact send_givesUp ht htx hw hno server tcp now
  · exact nextAttempt_givesUp ht htx hw hno now
  · exact nextCandidate_givesUp ht htx hw hc hno now
  · cases h.verdict hlog hdone with
    | refused hr => exact .inl hr
    | @addresses l st₀ family hst₀ hask hall hgiven =>
      obtain ⟨hfound, hnot⟩ := combine_outcome l
      refine .inr ⟨l, st₀, family, rfl, hst₀, hask, hall, fun r hr => ⟨hgiven r hr, fun hout => ?_⟩,
        hnot, hfound⟩
      obtain ⟨new', st', old', t, hlog', ho, hrtype, hgave⟩ := hgiven r hr
      have hlog'' : log = (new ++ new') ++ st' :: old' := by rw [hlog, hlog', append_assoc]
      rw [hlog']
      exact ⟨t.asked, ho, hrtype, (h.gave_denied hlog'' hgave hout).append new'⟩

/-- The server says that the name does not exist. -/
def denyOnLan : List Op := askOnLan ++ [.received 2 (replyOnLan { rcode := 3 } []) (secs 1)]

/-- The name of the small run is said not to exist since its only candidate, itself, does not. -/
theorem absence_denyOnLan :
    ∃ st old a, (ran zeros denyOnLan).1 = st :: old ∧ .done 7 (.answer a) ∈ actions st ∧
    a.outcome = .notFound ∧ ∃ name rtype noCache new' st₀ old' id, st :: old = new' ++ st₀ :: old' ∧
      st₀.input.Resolves 7 name rtype noCache ∧
      Denied st₀ (new' ++ [st₀]) id { owner := .resolve 7, original := name, rtype, noCache } := by
  have hdone : .done 7 (.answer ⟨.notFound, [], .dns, some (.v4 #v[192, 0, 2, 1]), some "eth0", 3,
      some peiosExample, 0⟩) ∈
      actions ⟨(ran zeros askOnLan).2, .received 2 (replyOnLan { rcode := 3 } []) (secs 1)⟩ := by
    decide +kernel
  refine ⟨_, _, _, rfl, hdone, rfl, ?_⟩
  refine ((Runs.absence (runs_ran zeros denyOnLan)).1 [] _ _ rfl 7 _ hdone rfl).resolve_left
    fun hr => ?_
  cases hr

end Resolvd.Engine
