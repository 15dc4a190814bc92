import Resolvd.Engine.Absence
import Resolvd.Engine.Provenance
import Resolvd.Lib.Lists

/-!
# Answers are chains

The records of a found answer hang together: starting at the name the answer is for, their own
aliases lead to the owner of every one of them, and those that are no alias are of the type that was
asked for (`Chain`).  The filter makes such a chain out of a reply (`chain_relevantRecords`); the
cache and the spelling of names leave it one (`Chain.recast`); and what is answered without the
network is one already (`synthetic_chain`).
-/

namespace Resolvd.Engine

open Lib Dns List

variable {records : List Record} {log : EngineLog} {rtype : UInt16} {e : Engine} {a : Answer}
    {st₀ : Step Engine Op}

/-- The records make a chain from the name: their aliases lead from it to the owner of each of them,
ignoring case, and each that is not a CNAME has the type, or any when that is ANY. -/
structure Chain (start : Name) (qtype : UInt16) (records : List Record) : Prop where
  reached : ∀ r ∈ records, ∃ n, Reach records start n ∧ r.name.eq n = true
  typed : ∀ r ∈ records, r.rtype = Rtype.cname ∨ r.rtype = qtype ∨ qtype = Rtype.any

theorem chain_nil (start : Name) (qtype : UInt16) : Chain start qtype [] := ⟨by simp, by simp⟩

theorem chain_of_owner {start : Name} {qtype : UInt16}
    (h : ∀ r ∈ records, r.name = start ∧ (r.rtype = qtype ∨ qtype = Rtype.any)) :
    Chain start qtype records :=
  ⟨fun r hr => ⟨start, .refl, (h r hr).1 ▸ Name.eq_refl _⟩, fun r hr => .inr (h r hr).2⟩

section Leads

variable {records records' : List Record} {n n' t : Name}

theorem Leads.mono (h : Leads records n t) (hsub : records ⊆ records') : Leads records' n t := by
  obtain ⟨r, hr, ht⟩ := h
  exact ⟨r, hsub hr, ht⟩

/-- It does not matter how the name is spelled from which an alias leads. -/
theorem Leads.congr (h : Leads records n t) (hn : n.eq n' = true) : Leads records n' t := by
  obtain ⟨r, hr, ht⟩ := h
  obtain ⟨hclass, hname, hdata⟩ := aliasTarget_eq_some.mp ht
  exact ⟨r, hr, aliasTarget_eq_some.mpr ⟨hclass, Name.eq_trans hname hn, hdata⟩⟩

theorem Leads.recast {R : UInt32 → UInt32 → Prop} (h : Leads records n t)
    (hr : List.Forall₂ (Recast R) records records') : Leads records' n t := by
  obtain ⟨r, hmem, ht⟩ := h
  obtain ⟨hclass, hname, hdata⟩ := aliasTarget_eq_some.mp ht
  obtain ⟨r', hmem', hrec⟩ := forall₂_left hr r hmem
  exact ⟨r', hmem', aliasTarget_eq_some.mpr
    ⟨hrec.class_.trans hclass, Name.eq_trans hrec.name hname, hrec.rdata.trans hdata⟩⟩

end Leads

section Chain

variable {start start' : Name} {qtype : UInt16} {records records' : List Record}

theorem Chain.congr (h : Chain start qtype records) (hs : start.eq start' = true) :
    Chain start' qtype records := by
  refine ⟨fun r hr => ?_, h.typed⟩
  obtain ⟨n, hn, hname⟩ := h.reached r hr
  -- only the first step of the path sees the spelling
  rcases hn.cases_head with rfl | ⟨m, hm, hrest⟩
  · exact ⟨start', .refl, Name.eq_trans hname hs⟩
  · exact ⟨n, .head (hm.congr hs) hrest, hname⟩

/-- **The case of owners and the times to live make no difference.** -/
theorem Chain.recast {R : UInt32 → UInt32 → Prop} (h : Chain start qtype records)
    (hr : List.Forall₂ (Recast R) records records') : Chain start qtype records' := by
  have hback := forall₂_right hr
  refine ⟨fun r' hr' => ?_, fun r' hr' => ?_⟩
  · obtain ⟨r, hmem, hrec⟩ := hback r' hr'
    obtain ⟨n, hn, hname⟩ := h.reached r hmem
    exact ⟨n, hn.lift id fun _ _ hl => hl.recast hr, Name.eq_trans hrec.name hname⟩
  · obtain ⟨r, hmem, hrec⟩ := hback r' hr'
    rw [hrec.rtype]
    exact h.typed r hmem

/-- **An alias before the chain** leads to where it starts. -/
theorem Chain.cons (h : Chain start qtype records) {name : Name} {link : Record}
    (hlink : aliasTarget name link = some start) (htype : link.rtype = Rtype.cname) :
    Chain name qtype (link :: records) := by
  have hstep : Leads (link :: records) name start := ⟨link, mem_cons_self, hlink⟩
  refine ⟨forall_mem_cons.mpr ⟨⟨name, .refl, (aliasTarget_eq_some.mp hlink).2.1⟩, fun r hr => ?_⟩,
    forall_mem_cons.mpr ⟨.inl htype, h.typed⟩⟩
  obtain ⟨n, hn, hname⟩ := h.reached r hr
  have hrest : Reach (link :: records) start n := hn.lift id fun _ _ hl =>
    hl.mono (subset_cons_self _ _)
  exact ⟨n, .head hstep hrest, hname⟩

end Chain

/-! ### Where chains come from -/

/-- **The relevant records of a reply make a chain from the candidate.** -/
theorem chain_relevantRecords (h : ∀ r ∈ records, r.rdata.Agrees r.rtype) (candidate : Name)
    (qtype : UInt16) : Chain candidate qtype (relevantRecords records candidate qtype).1 := by
  refine ⟨fun r hr => ?_, fun r hr => ?_⟩ <;> obtain ⟨n, hn, ha | ⟨target, ht⟩⟩ :=
    relevantRecords_onPath hr
  · simp only [isAsked, Bool.and_eq_true] at ha
    exact ⟨n, hn, ha.1.2⟩
  · exact ⟨n, hn, (aliasTarget_eq_some.mp ht).2.1⟩
  · simp only [isAsked, Bool.and_eq_true, Bool.or_eq_true, beq_iff_eq] at ha
    exact .inr ha.2
  · -- the data of an alias are those of a CNAME
    have hagrees := h r (relevantRecords_subset hr)
    rw [(aliasTarget_eq_some.mp ht).2.2] at hagrees
    exact .inl hagrees

theorem Origin.chain {n : Name} {R : UInt32 → UInt32 → Prop} {server : IpAddr}
    {outcome : Outcome} {rcode : UInt16}
    (h : Origin log n rtype R server outcome rcode records) : Chain n rtype records := by
  obtain ⟨new, st, old, tx, x, bytes, M, -, ha, -, -, -, hc⟩ := h
  refine Chain.recast ?_ hc.relevant
  split
  · refine chain_relevantRecords (fun r hr => (Message.decode_wellFormed ha.decoded r ?_).1) n rtype
    simp [Message.records, hr]
  · exact chain_nil n rtype

/-- What is answered without the network stands at the name itself. -/
theorem synthetic_chain {name : Name} (h : e.synthetic name rtype = some a)
    (hfound : a.outcome = .found) : a.resolvedName = some name ∧ Chain name rtype a.records := by
  rcases synthetic_forms h with ⟨-, rfl⟩ | ⟨source, -, ⟨addrs, rfl⟩ | ⟨hptr, target, rfl⟩⟩
  · cases hfound
  · refine ⟨rfl, chain_of_owner fun r hr => ?_⟩
    simp only [addressAnswer, foundLocally, mem_filterMap] at hr
    obtain ⟨addr, -, hr⟩ := hr
    cases addr with
    | v4 x =>
      obtain ⟨htype, hr⟩ := Option.ite_none_right_eq_some.mp hr
      obtain rfl := Option.some.inj hr
      exact ⟨rfl, htype.imp_left Eq.symm⟩
    | v6 x =>
      obtain ⟨htype, hr⟩ := Option.ite_none_right_eq_some.mp hr
      obtain rfl := Option.some.inj hr
      exact ⟨rfl, htype.imp_left Eq.symm⟩
  · refine ⟨rfl, chain_of_owner fun r hr => ?_⟩
    obtain rfl := mem_singleton.mp hr
    exact ⟨rfl, hptr.imp_left Eq.symm⟩

/-! ### Every found answer -/

/-- The name is what the question, asked in the step, is for: its own name or one of its candidates.
-/
def StandsFor (st₀ : Step Engine Op) (original c : Name) : Prop :=
  c = original ∨ c ∈ st₀.before.candidates original

/-- The candidate of a task is one of those its question had when it was asked. -/
theorem Trail.standsFor {new : EngineLog} {id : TaskId} {t : Task} (h : Trail st₀ new id t) :
    StandsFor st₀ t.original t.candidate := by
  cases h with
  | fresh _ hc _ => exact .inl (by rw [Task.candidate, hc, Option.getD_none])
  | ready _ hc _ => exact .inl (by rw [Task.candidate, hc, Option.getD_none])
  | under visited hc hcs _ =>
    rw [StandsFor, hcs, Task.candidate, hc, Option.getD_some]
    exact .inr (mem_append_right _ mem_cons_self)

/-- **A found answer is a chain from its resolved name.** -/
theorem Runs.gave_chain {entropy : Entropy} (h : Runs entropy log e)
    {new old : EngineLog} {st : Step Engine Op} (hlog : log = new ++ st :: old) {t : Task}
    (hgave : Gave st t a) (hfound : a.outcome = .found) :
    ∃ c, a.resolvedName = some c ∧ Chain c t.rtype a.records ∧
      ∃ st₀ ∈ st :: old, Begun st₀ t.asked ∧ StandsFor st₀ t.original c := by
  have hgenuine := (h.gave_genuine hlog hgave).1
  obtain ⟨m, id, hp, hid, ht, hwhy⟩ := hgave
  obtain ⟨new', st₀, old', hlog', hbegun, -, htrail⟩ :=
    ((following entropy).mid h trivial hlog hp).2.tasks id t ht
  have hst₀ : st₀ ∈ st :: old := hlog' ▸ mem_append_right _ mem_cons_self
  cases hwhy with
  | synthetic hop hnew hsyn =>
    obtain ⟨hname, hchain⟩ := synthetic_chain hsyn hfound
    exact ⟨t.original, hname, hchain, st₀, hst₀, hbegun, .inl rfl⟩
  | @cached c s x hop hc hscope hroute hx hlive hlast =>
    obtain ⟨n, server, hname, -, horigin⟩ := hgenuine.cache rfl
    obtain rfl : c = n := Option.some.inj hname
    refine ⟨c, rfl, horigin.chain, st₀, hst₀, hbegun, ?_⟩
    have hstands := htrail.standsFor
    rwa [Task.candidate, hc, Option.getD_some] at hstands
  | @replied tx x t₀ M hM htask heq hlast =>
    obtain ⟨n, server, hname, -, horigin⟩ := hgenuine.dns rfl
    obtain rfl : t₀.candidate = n := Option.some.inj hname
    have hstands := htrail.standsFor
    rw [heq] at hstands
    exact ⟨t₀.candidate, rfl, horigin.chain, st₀, hst₀, hbegun, heq ▸ hstands⟩
  | noCandidates => cases hfound
  | unroutable => cases hfound
  | budget => cases hfound
  | noServers => cases hfound
  | ceiling => cases hfound
  | entropy => cases hfound

/-- **Every found answer to a question is a chain from the name the question stands for.** -/
theorem Runs.answer_chain {entropy : Entropy} (h : Runs entropy log e) (hd : (asked log).Nodup)
    {st : Step Engine Op} (hst₀ : st₀ ∈ log) (hst : st ∈ log) {qid : Qid} {name : Name}
    {noCache : Bool} (hask : st₀.input.Resolves qid name rtype noCache)
    (hdone : .done qid (.answer a) ∈ actions st) (hfound : a.outcome = .found) :
    ∃ c, a.resolvedName = some c ∧ Chain c rtype a.records ∧ StandsFor st₀ name c := by
  obtain ⟨new, old, hlog⟩ := append_of_mem hst
  cases h.verdict hlog hdone with
  | refused hr =>
    rw [hr.answer] at hfound
    cases hfound
  | answer ho hgave =>
    obtain ⟨c, hname, hchain, st₁, hst₁, hbegun, hstands⟩ := h.gave_chain hlog hgave hfound
    have hask₁ := hbegun.resolves ho
    -- the question was asked once
    have hst₁' : st₁ ∈ log := hlog ▸ mem_append_right _ hst₁
    obtain rfl : st₀ = st₁ := eq_of_nodup_filterMap hd hst₀ hst₁' hask.asks hask₁.asks
    obtain ⟨rfl, rfl⟩ := hask.unique hask₁
    exact ⟨c, hname, hchain, hstands⟩

end Resolvd.Engine
