import Resolvd.Engine.Chains
import Resolvd.Engine.Lifetimes
import Resolvd.Engine.Search

/-!
# The spelling of answers

A found answer names the name it was found at (`resolved_name`), spelled as its asker spelled it,
with a search domain spelled as it is configured.  The records at that name are given this spelling
when a reply comes in, and local answers have it from the start.  The cache is asked without regard
to case, and `next_candidate` returns what it holds as it was stored: with the spelling of the asker
whose question brought the entry.  By `Runs.spelled_iff` an answer is spelled as it should be when
the questions before, whose answers were stored, spelled its name alike; `cached_in_other_spelling`
is a run in which one is not.
-/

namespace Resolvd.Engine

open Lib Dns List

variable {name : Name} {rtype : UInt16} {a : Answer} {st : Step Engine Op}

/-! ### Records at a name -/

/-- The records at the name are spelled like it. -/
def Spelled (c : Name) (records : List Record) : Prop :=
  ∀ r ∈ records, r.name.eq c = true → r.name = c

theorem spelled_recase (c : Name) (records : List Record) : Spelled c (records.map (recase c)) := by
  intro r hr heq
  obtain ⟨r₀, -, rfl⟩ := mem_map.mp hr
  unfold recase at heq ⊢
  split
  · rfl
  · next hne =>
    rw [if_neg hne] at heq
    exact absurd heq hne

/-- Records at a name in one spelling, looked at from another one. -/
theorem Spelled.iff_of_eq {c c' : Name} {records : List Record} (h : Spelled c' records)
    (heq : c'.eq c = true) : Spelled c records ↔ c' = c ∨ ∀ r ∈ records, r.name.eq c = false := by
  constructor
  · intro hc
    by_cases hat : ∃ r ∈ records, r.name.eq c = true
    · obtain ⟨r, hr, hname⟩ := hat
      have hthere := h r hr (Name.eq_trans hname (Name.eq_symm heq))
      exact .inl (hthere.symm.trans (hc r hr hname))
    · exact .inr fun r hr => Bool.eq_false_iff.mpr fun hname => hat ⟨r, hr, hname⟩
  · rintro (rfl | hnone)
    · exact h
    · intro r hr hname
      rw [hnone r hr] at hname
      cases hname

/-- Local answers are spelled as the name that was asked for. -/
theorem synthetic_spelled {e : Engine} (h : e.synthetic name rtype = some a) :
    Spelled name a.records := by
  intro r hr _
  rcases synthetic_forms h with ⟨-, rfl⟩ | ⟨source, -, ⟨addrs, rfl⟩ | ⟨-, target, rfl⟩⟩
  · cases hr
  · obtain ⟨addr, -, hr⟩ := mem_filterMap.mp hr
    cases addr with
    | v4 x =>
      obtain rfl := Option.some.inj (Option.ite_none_right_eq_some.mp hr).2
      rfl
    | v6 x =>
      obtain rfl := Option.some.inj (Option.ite_none_right_eq_some.mp hr).2
      rfl
  · obtain rfl := mem_singleton.mp hr
    rfl

theorem spelled_aged {c : Name} {x : Entry} {now : Instant} :
    Spelled c (Cache.aged x now).records ↔ Spelled c x.records := by
  simp only [Spelled, Cache.aged, forall_mem_map]

/-! ### What the cache had before -/

/-- **What a search finds in the cache was there before the step**, unless it says that a name does
not exist. -/
theorem Searches.cached {m : Mid} (h : Searches st) (hp : Path st (.first st) m) {k : CacheKey}
    {x : Entry} (hx : m.engine.cache.entries.get k = some x) (hout : x.outcome = .found) :
    st.before.cache.entries.get k = some x := by
  rcases hp.cached k x hx with hx | ⟨tx, y, t, M, hM, -, -, rfl⟩
  · exact hx
  · cases h with
    | asked hasks =>
      rw [hM.asks] at hasks
      cases hasks
    | answered hM' hnone =>
      obtain ⟨-, -, -, rfl⟩ := hM.toReply.unique hM'.toReply
      exact absurd (hout.symm.trans hnone) (by decide)

/-! ### The name an answer was found at -/

/-- The name is the one that was asked for, or that single label under a search domain, each spelled
as it was given. -/
def SpelledFrom (st₀ : Step Engine Op) (name c : Name) : Prop :=
  c = name ∨ name.labelCount = 1 ∧ ∃ d, SearchDomain st₀.before d ∧
    c.labels = name.labels ++ d.labels

theorem StandsFor.spelledFrom {st₀ : Step Engine Op} {c : Name} (h : StandsFor st₀ name c) :
    SpelledFrom st₀ name c := by
  rcases h with rfl | hc
  · exact .inl rfl
  · rcases mem_candidates hc with ⟨-, rfl⟩ | ⟨hone, d, hd, hjoin⟩
    · exact .inl rfl
    · exact .inr ⟨hone, d, hd, Name.join_labels hjoin⟩

/-! ### Answers -/

/-- A reply of this type was stored, to a query for a name that is spelled so. -/
def StoredAs (log : EngineLog) (rtype : UInt16) (c : Name) : Prop :=
  ∃ st ∈ log, ∃ k x t M, Stores st k x t M ∧ t.rtype = rtype ∧ t.candidate = c

/-- The names that the question stands for are spelled like those for which replies were stored. -/
def SpelledAlike (old : EngineLog) (st₀ : Step Engine Op) (name : Name) (rtype : UInt16) : Prop :=
  ∀ c c', StandsFor st₀ name c → StoredAs old rtype c' → c'.eq c = true → c' = c

section Runs

variable {entropy : Entropy} {log new old : EngineLog} {e : Engine} {st : Step Engine Op}

/-- The spelling of a task's answer, by where it comes from. -/
theorem Gave.spelling (h : Runs entropy log e) (hlog : log = new ++ st :: old) {t : Task}
    {a : Answer} {c : Name} (hgave : Gave st t a) (hfound : a.outcome = .found)
    (hname : a.resolvedName = some c) :
    (a.source ≠ .cache → Spelled c a.records) ∧
      (a.source = .cache → ∃ c', StoredAs old t.rtype c' ∧ c'.eq c = true ∧
        (Spelled c a.records ↔ c' = c ∨ ∀ r ∈ a.records, r.name.eq c = false)) := by
  obtain ⟨m, id, hp, hid, ht, hwhy⟩ := hgave
  cases hwhy with
  | synthetic hop hnew hsyn =>
    have hc : c = t.original := Option.some.inj (hname.symm.trans (synthetic_chain hsyn hfound).1)
    exact ⟨fun _ => hc ▸ synthetic_spelled hsyn, fun hsource =>
      absurd hsource (synthetic_cases hsyn).2.1⟩
  | @replied tx x t₀ M hM htask heq hlast =>
    obtain rfl : t₀.candidate = c := Option.some.inj hname
    exact ⟨fun _ => spelled_recase _ _, fun hsource => by cases hsource⟩
  | @cached c' s x hop hc hscope hroute hx hlive hlast =>
    obtain rfl : c' = c := Option.some.inj hname
    -- the entry was stored by a step before, under the name that its own question asked for
    obtain ⟨e₀, h₀, hidle⟩ := h.reached hlog
    obtain ⟨st', hst', t', M, hstores⟩ :=
      h₀.allStored _ x (hidle.cache.get_eq _ ▸ hop.cached hp hx hfound)
    obtain ⟨hcase, hrtype, -⟩ := CacheKey.new_eq_iff.mp hstores.key
    obtain ⟨tx, y, hM, hentry⟩ := hstores.reply
    have hspelled : Spelled t'.candidate (Cache.aged x st.input.now).records :=
      spelled_aged.mpr (hentry ▸ spelled_recase _ _)
    exact ⟨fun hsource => absurd rfl hsource, fun _ =>
      ⟨t'.candidate, ⟨st', hst', _, x, t', M, hstores, hrtype.symm, rfl⟩, Name.eq_symm hcase,
      hspelled.iff_of_eq (Name.eq_symm hcase)⟩⟩
  | noCandidates => cases hfound
  | unroutable => cases hfound
  | budget => cases hfound
  | noServers => cases hfound
  | ceiling => cases hfound
  | entropy => cases hfound

/-- **When an answer is spelled as its asker spelled it.**  In every run, every found answer to a
question names the name it was found at: the one that was asked for, or that single label under a
search domain of the time, each spelled as it was given.  Its records at this name are spelled like
it if the names that the question stands for are spelled like those for which replies were stored
before.  An answer from elsewhere than the cache always is; one from the cache is, if it has a
record at this name, exactly if the question whose reply was stored spelled the name in the same
way. -/
theorem Runs.spelled_iff (h : Runs entropy log e) : ∀ new st old, log = new ++ st :: old →
    ∀ q a, .done q (.answer a) ∈ actions st → a.outcome = .found →
    ∃ st₀ ∈ st :: old, ∃ name rtype noCache c, st₀.input.Resolves q name rtype noCache ∧
      a.resolvedName = some c ∧
      SpelledFrom st₀ name c ∧ (SpelledAlike old st₀ name rtype → Spelled c a.records) ∧
      (a.source ≠ .cache → Spelled c a.records) ∧
      (a.source = .cache → ∃ c', StoredAs old rtype c' ∧ c'.eq c = true ∧
        (Spelled c a.records ↔ c' = c ∨ ∀ r ∈ a.records, r.name.eq c = false)) := by
  intro new st old hlog q a hdone hfound
  cases h.verdict hlog hdone with
  | refused hr =>
    rw [hr.answer] at hfound
    cases hfound
  | answer ho hgave =>
    obtain ⟨c, hname, -, st₀, hst₀, hbegun, hstands⟩ := h.gave_chain hlog hgave hfound
    obtain ⟨helse, hcache⟩ := hgave.spelling h hlog hfound hname
    refine ⟨st₀, hst₀, _, _, _, c, hbegun.resolves ho, hname, hstands.spelledFrom, fun halike => ?_,
      helse, hcache⟩
    by_cases hsource : a.source = .cache
    · obtain ⟨c', hstored, heq, hiff⟩ := hcache hsource
      exact hiff.mpr (.inl (halike c c' hstands hstored heq))
    · exact helse hsource

end Runs

/-- The replies of the small run are stored under the name that is asked for in it. -/
theorem storedAs_answerOnLan {rtype : UInt16} {c : Name}
    (h : StoredAs (ran zeros answerOnLan).1 rtype c) : c = peiosExample := by
  obtain ⟨st, hst, k, x, t, M, hstores, -, rfl⟩ := h
  obtain ⟨tx, y, hM, -⟩ := hstores.reply
  obtain ⟨bytes, now, hop, -⟩ := hM.input
  have hrun : (ran zeros answerOnLan).1 = ⟨(ran zeros askOnLan).2,
      .received 2 (replyOnLan {} [lanRecord]) (secs 1)⟩ ::
      (ran zeros askOnLan).1 := rfl
  rw [hrun] at hst
  rcases mem_cons.mp hst with rfl | hst
  · obtain ⟨rfl, -, -⟩ := Op.received.inj hop
    have hy : ((ran zeros askOnLan).2.txs.get 2).map Tx.task = some 1 := by decide +kernel
    have ht : ((ran zeros askOnLan).2.tasks.get 1).map Task.candidate = some peiosExample := by
      decide +kernel
    rw [hM.live] at hy
    rw [← Option.some.inj hy, hM.task] at ht
    exact Option.some.inj ht
  · have hin := Machine.exec_input hst
    rw [hop] at hin
    simp [askOnLan] at hin

/-- The name of the small run is asked for again in the same spelling, and found in the cache. -/
theorem spelled_iff_askAgain : ∃ a c, .done 8 (.answer a) ∈
      actions ⟨(ran zeros answerOnLan).2,
        .resolve 8 (ascii "peios.example") Rtype.a false (secs 31)⟩ ∧
    a.source = .cache ∧ a.resolvedName = some c ∧ Spelled c a.records := by
  have hdone : .done 8 (.answer ⟨.found, [Record.new peiosExample 30 lanRecord.rdata], .cache,
      some lanServer, some "eth0", 0, some peiosExample, 0⟩) ∈
        actions ⟨(ran zeros answerOnLan).2,
          .resolve 8 (ascii "peios.example") Rtype.a false (secs 31)⟩ := by
    decide +kernel
  obtain ⟨st₀, hst₀, name, rtype, noCache, c, hask, hname, -, halike, -⟩ := Runs.spelled_iff
    (runs_ran zeros (answerOnLan ++ [.resolve 8 (ascii "peios.example") Rtype.a false (secs 31)]))
      [] _ _ rfl 8 _ hdone rfl
  refine ⟨_, _, hdone, rfl, hname, halike fun c₁ c' hstands hstored _ => ?_⟩
  rw [storedAs_answerOnLan hstored]
  -- question 8 was asked once, and has one candidate
  rcases mem_cons.mp hst₀ with rfl | hst₀
  · cases hask with
    | resolve hparse =>
      have hname : Name.parse (ascii "peios.example") = .ok peiosExample := by decide +kernel
      obtain rfl := Except.ok.inj (hparse.symm.trans hname)
      have hcands : (ran zeros answerOnLan).2.candidates peiosExample = [peiosExample] := by
        decide +kernel
      rcases hstands with rfl | hc
      · rfl
      · exact (mem_singleton.mp (hcands ▸ hc)).symm
  · have hin : st₀.input ∈ answerOnLan := Machine.exec_input hst₀
    simp only [answerOnLan, askOnLan, cons_append, nil_append, mem_cons, not_mem_nil,
      or_false] at hin
    rcases hin with hop | hop | hop <;> rw [hop] at hask <;> cases hask

/-! ### The exception -/

/-- The name of the small run with capitals. -/
def peiosCapitals : Name := ⟨[ascii "Peios", ascii "Example"], by decide⟩

/-- The name is asked for and answered, and then asked for with capitals. -/
def askInCapitals : List Op :=
  answerOnLan ++ [.resolve 8 (ascii "Peios.Example") Rtype.a false (secs 31)]

/-- **A cached answer comes in the spelling of another asker**: question 8 asks for `Peios.Example`,
its answer was found at `Peios.Example`, and has a record at `peios.example`. -/
theorem cached_in_other_spelling :
    Runs zeros (ran zeros askInCapitals).1 (ran zeros askInCapitals).2 ∧
    ∃ st ∈ (ran zeros askInCapitals).1,
      st.input = .resolve 8 (ascii "Peios.Example") Rtype.a false (secs 31) ∧
      ∃ a, .done 8 (.answer a) ∈ actions st ∧ a.outcome = .found ∧
        a.resolvedName = some peiosCapitals ∧
        ∃ r ∈ a.records, r.name.eq peiosCapitals = true ∧ r.name = peiosExample ∧
          r.name ≠ peiosCapitals := by
  refine ⟨runs_ran zeros askInCapitals, _, mem_cons_self, rfl,
    ⟨.found, [Record.new peiosExample 30 lanRecord.rdata], .cache, some lanServer, some "eth0", 0,
      some peiosCapitals, 0⟩,
    ?_, rfl, rfl, _, mem_cons_self, ?_, rfl, ?_⟩
  · decide +kernel
  · decide
  · decide

end Resolvd.Engine
