import Resolvd.Engine.Invariants

/-!
# What is asked

A task under way has a current candidate, which was routed to the scope of the task, and its
transaction asks for that candidate, spelled in some way (`Asking`).
-/

namespace Resolvd.Engine

open Lib Dns

variable {t : Task} {st : Step Engine Op} {log : EngineLog} {e : Engine}

theorem decode_queryPayload (dnsId : UInt16) (q : Question) :
    Message.decode (queryPayload dnsId q) = .ok (Message.query dnsId q) := by
  simp only [queryPayload, Message.encode_query]
  exact Message.decode_query dnsId q

/-- The transaction asks what the task wants to know. -/
structure Tx.Asks (x : Tx) (t : Task) : Prop where
  name : x.question.name.eq t.candidate = true
  rtype : x.question.rtype = t.rtype
  class_ : x.question.class_ = Class.IN

theorem Tx.Asks.still {x : Tx} {t' : Task} (h : x.Asks t) (hs : t.Still t') : x.Asks t' := by
  have hc : t'.candidate = t.candidate := by simp only [Task.candidate, hs.current, hs.original]
  exact ⟨hc ▸ h.name, hs.rtype ▸ h.rtype, h.class_⟩

/-- The candidate was routed to the scope by one of the steps. -/
def RoutedIn (log : EngineLog) (c : Name) (s : String) : Prop :=
  ∃ st ∈ log, st.before.route c = some s

/-- The task as it began. -/
def Task.asked (t : Task) : Task :=
  { owner := t.owner, original := t.original, rtype := t.rtype, noCache := t.noCache }

theorem Task.Kin.asked {t' : Task} (h : t.Kin t') : t'.asked = t.asked := by
  simp only [Task.asked, h.owner, h.original, h.rtype, h.noCache]

theorem Begun.asked_eq (h : Begun st t) : t.asked = t := by
  cases h <;> rfl

theorem Begun.resolves {q : Qid} (h : Begun st t.asked) (ho : t.owner = .resolve q) :
    st.input.Resolves q t.original t.rtype t.noCache := by
  generalize hb : t.asked = b at h
  cases h with
  | resolve h =>
    simp only [Task.asked, Task.mk.injEq, ho, Owner.resolve.injEq] at hb
    obtain ⟨rfl, rfl, rfl, rfl, -⟩ := hb
    exact h
  | lookup h hr =>
    simp [Task.asked, lookupTask, ho] at hb

/-- What is known about the questions of tasks and transactions. -/
structure Asking (log : EngineLog) (loose : List TaskId) (e : Engine) : Prop where
  begun : ∀ id t, e.tasks.get id = some t → ∃ st ∈ log, Begun st t.asked
  current : ∀ id t, e.tasks.get id = some t → id ∉ loose → t.current ≠ none
  routed : ∀ id t c, e.tasks.get id = some t → t.current = some c → ∃ s, t.scope = some s ∧
    RoutedIn log c s
  asks : ∀ tx x t, e.txs.get tx = some x → e.tasks.get x.task = some t → x.Asks t

/-- In the middle of an operation that asks nothing, every task has a candidate. -/
structure AskingMid (log : EngineLog) (st : Step Engine Op) (m : Mid) : Prop extends
    Asking (st :: log) m.loose m.engine where
  all : st.input.asks = none → ∀ id t, m.engine.tasks.get id = some t → t.current ≠ none

theorem AskingMid.tweak {m m' : Mid} (hs : Sound st m)
    (h : AskingMid log st m) (hm : Tweak st m m') : AskingMid log st m' := by
  have hq := hm.quiet
  refine ⟨⟨fun id t' ht' => ?_, fun id t' ht' hid => ?_, fun id t' c ht' hc => ?_,
    fun tx x t' hx ht' => ?_⟩,
    fun hop id t' ht' => ?_⟩
  · obtain ⟨t, ht, hlike, -⟩ := hq.task_old ht'
    rw [hlike.asked]
    exact h.begun id t ht
  · rw [hq.loose] at hid
    obtain ⟨t, ht, -, hst⟩ := hq.task_old ht'
    rw [(hst hid).current]
    exact h.current id t ht hid
  · cases hm.task_cases ht' with
    | kept ht => exact h.routed id t' c ht hc
    | marked ht hop hst =>
      rw [hst.scope]
      exact h.routed id _ c ht (hst.current ▸ hc)
    | expanded hop hid ht hnew hnone hne heq =>
      subst heq
      exact (h.routed id _ c ht hc :)
    | chosen hop hid ht hcs hroute hwhy heq =>
      subst heq
      obtain rfl := Option.some.inj hc
      rw [(hs.steady.settings (hs.not_config hid)).route_eq] at hroute
      exact ⟨_, rfl, st, List.mem_cons_self, hroute⟩
    | refunded hM hid ht heq =>
      subst heq
      exact (h.routed id _ c ht hc :)
    | noted hid ht heq =>
      subst heq
      exact (h.routed id _ c ht hc :)
  · rw [hq.txs] at hx
    obtain ⟨t, ht, -, hst⟩ := hq.task_old ht'
    exact (h.asks tx x t hx ht).still (hst (hs.linked.tx_task tx x hx).1)
  · cases hm.task_cases ht' with
    | kept ht => exact h.all hop id t' ht
    | marked ht hop' hst =>
      rw [hst.current]
      exact h.all hop id _ ht
    | expanded hop' hid ht hnew hnone hne heq => exact absurd hnew (h.all hop id _ ht)
    | chosen hop' hid ht hcs hroute hwhy heq =>
      subst heq
      exact Option.some_ne_none _
    | refunded hM hid ht heq =>
      subst heq
      exact (h.all hop id _ ht :)
    | noted hid ht heq =>
      subst heq
      exact (h.all hop id _ ht :)

theorem AskingMid.shift {m m' : Mid} (hs : Sound st m)
    (h : AskingMid log st m) (hm : Shift st m m') : AskingMid log st m' := by
  refine ⟨⟨fun id t' ht' => ?_, fun id t' ht' hid => ?_, fun id t' c ht' hc => ?_,
    fun tx x t' hx ht' => ?_⟩,
    fun hop id t' ht' => ?_⟩
  · cases hm.task_cases hs.linked ht' with
    | kept ht hl => exact h.begun id t' ht
    | begun hb hge hl => exact ⟨st, List.mem_cons_self, hb.asked_eq.symm ▸ hb⟩
    | closed hx hid' ht htx hc heq hl =>
      subst heq
      exact (h.begun id _ ht :)
    | launched hmem ht hcur hbudget htarget heq hx hacts hl =>
      subst heq
      exact (h.begun id _ ht :)
  · cases hm.task_cases hs.linked ht' with
    | kept ht hl => exact h.current id t' ht (hl.not.mp hid)
    | begun hb hge hl => exact absurd hl hid
    | closed hx hid' ht htx hc heq hl => exact absurd hl hid
    | launched hmem ht hcur hbudget htarget heq hx hacts hl =>
      subst heq
      exact hcur.elim (fun hne => hne) fun hop => (h.all hop id _ ht :)
  · cases hm.task_cases hs.linked ht' with
    | kept ht hl => exact h.routed id t' c ht hc
    | begun hb hge hl =>
      rw [hb.fresh.current] at hc
      cases hc
    | closed hx hid' ht htx hcl heq hl =>
      subst heq
      exact (h.routed id _ c ht hc :)
    | launched hmem ht hcur hbudget htarget heq hx hacts hl =>
      subst heq
      exact (h.routed id _ c ht hc :)
  · rcases hm.tx_cases hs.linked hx ht' with ⟨hx, ht⟩ | ⟨t₀, random, hl⟩
    · exact h.asks tx x t' hx ht
    · rw [hl.after]
      refine ⟨?_, ?_, ?_⟩
      · rw [hl.question]
        exact Name.randomiseCase_eq _ _
      · rw [hl.question]
        rfl
      · rw [hl.question]
        rfl
  · cases hm.task_cases hs.linked ht' with
    | kept ht hl => exact h.all hop id t' ht
    | begun hb hge hl =>
      have hask := hb.asks
      rw [hop] at hask
      cases hask
    | closed hx hid' ht htx hcl heq hl =>
      subst heq
      exact (h.all hop id _ ht :)
    | launched hmem ht hcur hbudget htarget heq hx hacts hl =>
      subst heq
      exact (h.all hop id _ ht :)

theorem Asking.reorder {loose : List TaskId} {e' : Engine} (h : Asking log loose e)
    (hr : Reorder e e') : Asking log loose e' := by
  have htasks := hr.tasks.get_eq
  have htxs := hr.txs.get_eq
  exact ⟨fun id t ht => h.begun id t (htasks id ▸ ht), fun id t ht =>
    h.current id t (htasks id ▸ ht), fun id t c ht => h.routed id t c (htasks id ▸ ht),
    fun tx x t hx ht => h.asks tx x t (htxs tx ▸ hx) (htasks x.task ▸ ht)⟩

/-- A task under way asks for its candidate, at every moment. -/
theorem asking (entropy : Entropy) :
    Invariant entropy (fun _ => True) (fun log e => Asking log [] e) AskingMid where
  good := fun _ _ _ => trivial
  start := by constructor <;> simp [withEntropy]
  idle := fun log e e' hI hr => hI.reorder hr
  first := by
    intro log st _ _ hI
    refine ⟨⟨fun id t ht => ?_, hI.current, fun id t c ht hc => ?_, hI.asks⟩,
      fun _ id t ht => hI.current id t ht (by simp)⟩
    · obtain ⟨st', hst', hb⟩ := hI.begun id t ht
      exact ⟨st', List.mem_cons_of_mem _ hst', hb⟩
    · obtain ⟨s, hs, st', hst', hroute⟩ := hI.routed id t c ht hc
      exact ⟨s, hs, st', List.mem_cons_of_mem _ hst', hroute⟩
  tweak := fun _ _ _ _ _ hs hJ hm => hJ.tweak hs hm
  shift := fun _ _ _ _ _ hs hJ hm => hJ.shift hs hm
  last := fun _ _ _ _ hJ => hJ.toAsking

/-- **A task under way asks for its candidate.** -/
theorem Runs.asking {entropy : Entropy} (h : Runs entropy log e) : Asking log [] e :=
  (Engine.asking entropy).run h trivial

theorem Reached.asking {entropy : Entropy} (h : Reached entropy log e) : Asking log [] e := by
  obtain ⟨e₀, h₀, hr⟩ := h
  exact (Runs.asking h₀).reorder hr

end Resolvd.Engine
