import Resolvd.Engine.Confined
import Resolvd.Engine.Absence

/-!
# Single labels stay at home

A name of a single label is never asked for as it is: it stands for the names it makes with the
search domains that apply when the question is asked (`SearchDomain`).  `Runs.never_bare` follows
this to the octets of every query: whatever the spelling, whatever was retried and whatever the
configuration has become since, the name in the query is the name that was asked for, or such a name
under a search domain.
-/

namespace Resolvd.Engine

open Lib Dns List

variable {e : Engine} {c : Name}

/-! ### The search domains -/

/-- The scope is exclusive, and up far enough to be. -/
def Scope.Exclusive (s : Scope) : Prop := s.exclusive = true ∧ Level.addressed ≤ s.level

/-- The domain is a search domain that applies: of the exclusive scope of least metric, if there is
an exclusive scope; otherwise of a scope whose link is up, or one of the extra ones. -/
inductive SearchDomain (e : Engine) (d : Name) : Prop
  | exclusive {s : Scope} (hs : s ∈ e.scopes) (hx : s.Exclusive)
      (hleast : ∀ s' ∈ e.scopes, s'.Exclusive → s.metric ≤ s'.metric) (hd : d ∈ s.domains)
  | scope {s : Scope} (hnone : ∀ s' ∈ e.scopes, ¬ s'.Exclusive) (hs : s ∈ e.scopes)
      (hup : Level.link ≤ s.level) (hd : d ∈ s.domains)
  | extra (hnone : ∀ s' ∈ e.scopes, ¬ s'.Exclusive) (hd : d ∈ e.fallbackDomains)

theorem Scope.Exclusive.up {s : Scope} (h : s.Exclusive) : Level.link ≤ s.level := by
  obtain ⟨-, h⟩ := h
  exact Nat.le_of_succ_le h

theorem mem_exclusive {s : Scope} :
    s ∈ (e.upScopes.filter fun s => s.exclusive && Level.addressed ≤ s.level) ↔ s ∈ e.scopes ∧
      s.Exclusive := by
  simp only [upScopes, mem_filter, Bool.and_eq_true, decide_eq_true_eq, and_assoc]
  constructor
  · rintro ⟨hs, -, hx⟩
    exact ⟨hs, hx⟩
  · rintro ⟨hs, hx⟩
    exact ⟨hs, hx.up, hx⟩

/-- **What `exclusive` returns.** -/
theorem exclusiveScope_spec (e : Engine) :
    (∀ s, e.exclusiveScope = some s → s ∈ e.scopes ∧ s.Exclusive ∧ ∀ s' ∈ e.scopes, s'.Exclusive →
      s.metric ≤ s'.metric) ∧
      (e.exclusiveScope = none → ∀ s ∈ e.scopes, ¬ s.Exclusive) := by
  refine ⟨fun s hs => ?_, fun hnone s hs hx => ?_⟩
  · obtain ⟨hmem, hx⟩ := mem_exclusive.mp (argmin_mem hs)
    refine ⟨hmem, hx, fun s' hs' hx' => ?_⟩
    have hle : s.metric.toNat ≤ s'.metric.toNat :=
      le_of_mem_argmin (f := fun s : Scope => s.metric.toNat) (mem_exclusive.mpr ⟨hs', hx'⟩) hs
    exact UInt32.le_iff_toNat_le.mpr hle
  · have hnil := argmin_eq_none.mp hnone
    exact absurd (mem_exclusive.mpr ⟨hs, hx⟩) (by rw [hnil]; exact not_mem_nil)

/-! ### The candidates -/

theorem mem_foldl_addCandidate {name : Name} {ds out : List Name}
    (h : c ∈ ds.foldl (addCandidate name) out) : c ∈ out ∨ ∃ d ∈ ds, name.join d = .ok c := by
  induction ds generalizing out with
  | nil => exact .inl h
  | cons d ds ih =>
    rcases ih h with hout | ⟨d', hd', hjoin⟩
    · unfold addCandidate at hout
      split at hout
      · next full hfull =>
        split at hout
        · exact .inl hout
        · rcases mem_append.mp hout with hout | hnew
          · exact .inl hout
          · obtain rfl := mem_singleton.mp hnew
            exact .inr ⟨d, mem_cons_self, hfull⟩
      · exact .inl hout
    · exact .inr ⟨d', mem_cons_of_mem _ hd', hjoin⟩

/-- **What a question may stand for**: its own name, or a single label under a search domain. -/
theorem mem_candidates {name : Name} (h : c ∈ e.candidates name) :
    (name.labelCount ≠ 1 ∧ c = name) ∨
      (name.labelCount = 1 ∧ ∃ d, SearchDomain e d ∧ name.join d = .ok c) := by
  obtain ⟨hsome, hnone⟩ := exclusiveScope_spec e
  unfold candidates at h
  split at h
  · next hcount => exact .inl ⟨hcount, mem_singleton.mp h⟩
  · next hcount =>
    refine .inr ⟨not_ne_iff.mp hcount, ?_⟩
    obtain hnil | ⟨d, hd, hjoin⟩ := mem_foldl_addCandidate h
    · cases hnil
    refine ⟨d, ?_, hjoin⟩
    split at hd
    · next s hs =>
      obtain ⟨hmem, hx, hleast⟩ := hsome s hs
      exact .exclusive hmem hx hleast hd
    · next hs =>
      rcases mem_append.mp hd with hd | hd
      · obtain ⟨s, hmem, hd⟩ := mem_flatMap.mp hd
        rw [mem_insertionSort, upScopes, mem_filter, decide_eq_true_eq] at hmem
        exact .scope (hnone hs) hmem.1 hmem.2 hd
      · exact .extra (hnone hs) hd

/-! ### Domains that are not the root -/

/-- The configuration the operation brings has no search domain that is the root. -/
def Op.Rootless : Op → Prop
  | .setScopes scopes => ∀ s ∈ scopes, ∀ d ∈ s.domains, d.isRoot = false
  | .setFallback _ domains => ∀ d ∈ domains, d.isRoot = false
  | _ => True

/-- No configured search domain is the root. -/
def Rootless (e : Engine) : Prop :=
  (∀ s ∈ e.scopes, ∀ d ∈ s.domains, d.isRoot = false) ∧ ∀ d ∈ e.fallbackDomains, d.isRoot = false

theorem Rootless.searchDomain (h : Rootless e) {d : Name} (hd : SearchDomain e d) :
    d.isRoot = false := by
  cases hd with
  | exclusive hs hx hleast hd => exact h.1 _ hs d hd
  | scope hnone hs hup hd => exact h.1 _ hs d hd
  | extra hnone hd => exact h.2 d hd

theorem Rootless.settings {e' : Engine} (h : Rootless e) (hset : e.SameSettings e') :
    Rootless e' := by
  rw [Rootless, hset.scopes, hset.fallbackDomains]
  exact h

theorem Rootless.step {st : Step Engine Op} (h : Rootless st.before) (hs : Sound st (.last st))
    (hop : st.input.Rootless) : Rootless (after st) := by
  cases hconfig : st.input.isConfig with
  | false => exact h.settings (hs.steady.settings hconfig)
  | true =>
    obtain ⟨e, op⟩ := st
    cases op with
    | setScopes scopes =>
      refine ⟨hop, ?_⟩
      simp only [after, apply, setScopes]
      rw [(foldl_invalidateScopeCache (invalidated e.scopes scopes) e).2.2]
      exact h.2
    | setFallback servers domains =>
      refine ⟨?_, hop⟩
      simp only [after, apply, setFallback]
      split <;> exact h.1
    | setHosts hosts => exact h
    | setHostname hostname => exact h
    | flush => exact h
    | _ => cases hconfig

theorem Runs.rootless {entropy : Entropy} {log : EngineLog} (h : Runs entropy log e)
    (hroot : ∀ st ∈ log, st.input.Rootless) : ∀ st ∈ log, Rootless st.before := by
  refine (Runs.step_invariant (I := fun log e => (∀ st ∈ log, st.input.Rootless) →
    Rootless e ∧ ∀ st ∈ log, Rootless st.before) ?_ ?_ ?_ h hroot).2
  · exact fun _ => ⟨⟨by simp [withEntropy], by simp [withEntropy]⟩, by simp⟩
  · intro log e e' hI hr hops
    obtain ⟨he, hlog⟩ := hI hops
    refine ⟨?_, hlog⟩
    rw [Rootless, hr.scopes, hr.fallbackDomains]
    exact he
  · intro log st _ hs hI hops
    obtain ⟨hst, hold⟩ := forall_mem_cons.mp hops
    obtain ⟨he, hlog⟩ := hI hold
    exact ⟨he.step hs hst, forall_mem_cons.mpr ⟨he, hlog⟩⟩

/-! ### What leaves the machine -/

theorem labelCount_of_eq {a b : Name} (h : a.eq b = true) : a.labelCount = b.labelCount := by
  rw [Name.eq, Bool.and_eq_true, beq_iff_eq] at h
  exact h.1

theorem labelCount_join {n d : Name} (h : n.join d = .ok c) :
    c.labelCount = n.labelCount + d.labelCount := by
  rw [Name.labelCount, Name.join_labels h, length_append]
  rfl

/-- The name in a query: the one that was asked for, unless that is a single label, which is then
under a domain that was a search domain when it was asked. -/
def AsksFor (e : Engine) (original name : Name) : Prop :=
  (original.labelCount ≠ 1 ∧ name.eq original = true) ∨
    (original.labelCount = 1 ∧ ∃ d c, SearchDomain e d ∧ original.join d = .ok c ∧ name.eq c = true)

/-- **A single label never leaves the machine bare.**  As long as no configured search domain is the
root, every query that is sent asks one question, of class IN, whose name is not a single label:
ignoring case, it is the name that the task's question was asked with, or that single label under a
domain that was a search domain when it was asked. -/
theorem Runs.never_bare {entropy : Entropy} {log : EngineLog} {e : Engine} (h : Runs entropy log e)
    (hroot : ∀ st ∈ log, st.input.Rootless) :
    ∀ new st old, log = new ++ st :: old → ∀ tx server interface tcp payload,
      .send tx server interface tcp payload ∈ actions st →
      ∃ M q x t, Message.decode payload = .ok M ∧ M.questions = [q] ∧ q.class_ = Class.IN ∧
        q.name.labelCount ≠ 1 ∧
        (after st).txs.get tx = some x ∧ (after st).tasks.get x.task = some t ∧
        ∃ st₀ ∈ st :: old, Begun st₀ t.asked ∧ AsksFor st₀.before t.original q.name := by
  intro new st old hlog tx server interface tcp payload hsend
  have hreached := h.reached hlog
  have hs := h.sound (hlog ▸ mem_append_right _ mem_cons_self : st ∈ log)
  obtain ⟨-, x, t, hx, ht, htx, -, -, -, hpayload⟩ := hs.send hsend
  have hasking := hreached.after.asking
  have hasks := hasking.asks tx x t hx ht
  -- the candidate is one of those the question had when it was asked
  obtain ⟨e₁, h₁, hr₁⟩ := hreached.after
  obtain ⟨new', st₀, old', hlog', hbegun, htrail⟩ :=
    (following entropy).run h₁ trivial x.task t (hr₁.tasks.get_eq _ ▸ ht)
  have hst₀ : st₀ ∈ st :: old := hlog' ▸ mem_append_right _ mem_cons_self
  have hst₀' : st₀ ∈ log := hlog ▸ mem_append_right _ hst₀
  have hcur := hasking.current x.task t ht (by simp)
  have hcandidate : t.candidate ∈ st₀.before.candidates t.original := by
    cases htrail with
    | fresh _ hc => exact absurd hc hcur
    | ready _ hc => exact absurd hc hcur
    | under visited hc hcs _ =>
      rw [hcs, Task.candidate, hc]
      exact mem_append_right _ mem_cons_self
  have hname : AsksFor st₀.before t.original x.question.name := by
    rcases mem_candidates hcandidate with ⟨hcount, heq⟩ | ⟨hcount, d, hd, hjoin⟩
    · exact .inl ⟨hcount, heq ▸ hasks.name⟩
    · exact .inr ⟨hcount, d, _, hd, hjoin, hasks.name⟩
  have hlabels : x.question.name.labelCount ≠ 1 := by
    rcases hname with ⟨hcount, heq⟩ | ⟨hcount, d, c, hd, hjoin, heq⟩
    · rw [labelCount_of_eq heq]
      exact hcount
    · have hpos : d.labelCount ≠ 0 := by
        have hroot' := (h.rootless hroot st₀ hst₀').searchDomain hd
        rw [Name.isRoot, isEmpty_eq_false_iff] at hroot'
        exact fun hzero => hroot' (length_eq_zero_iff.mp hzero)
      rw [labelCount_of_eq heq, labelCount_join hjoin, hcount]
      omega
  exact ⟨Message.query x.dnsId x.question, x.question, x, t, hpayload ▸ decode_queryPayload _ _,
    rfl, hasks.class_, hlabels, hx, ht, st₀, hst₀, hbegun, hname⟩

theorem rootless_searchOnLan : ∀ st ∈ (ran zeros searchOnLan).1, st.input.Rootless := by
  intro st hst
  have hmem := Machine.exec_input hst
  simp only [searchOnLan, mem_cons, not_mem_nil, or_false] at hmem
  rcases hmem with h | h | h
  · rw [h]
    simp [Op.Rootless, lan, exampleDomain, Name.isRoot]
  · rw [h]
    trivial
  · rw [h]
    trivial

/-- A query of the run in which a single label is searched for. -/
theorem never_bare_searchOnLan :
    ∃ st ∈ (ran zeros searchOnLan).1, ∃ tx server interface tcp payload M q,
    .send tx server interface tcp payload ∈ actions st ∧ Message.decode payload = .ok M ∧
      M.questions = [q] ∧
      q.name.labelCount ≠ 1 := by
  have hsends : (ran zeros searchOnLan).1.any (fun st =>
      !((actions st).filterMap Action.sent).isEmpty) = true := by
    decide +kernel
  obtain ⟨st, hst, hsent⟩ := any_eq_true.mp hsends
  rw [Bool.not_eq_true', isEmpty_eq_false_iff] at hsent
  obtain ⟨tx, htx⟩ := exists_mem_of_ne_nil _ hsent
  obtain ⟨a, ha, htx⟩ := mem_filterMap.mp htx
  obtain ⟨new, old, hlog⟩ := append_of_mem hst
  cases a with
  | send tx' server interface tcp payload =>
    obtain ⟨M, q, x, t, hM, hq, -, hlabels, -⟩ :=
      Runs.never_bare (runs_ran zeros searchOnLan) rootless_searchOnLan new st old hlog tx' server
        interface tcp payload ha
    exact ⟨st, hst, tx', server, interface, tcp, payload, M, q, ha, hM, hq, hlabels⟩
  | cancel _ => cases htx
  | done _ _ => cases htx

end Resolvd.Engine
