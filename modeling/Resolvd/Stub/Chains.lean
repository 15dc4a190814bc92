import Resolvd.Engine.Chains
import Resolvd.Engine.Lifetimes
import Resolvd.Stub.Render

/-!
# The stub listener: replies are chains

The answer section that `build_reply` makes of a found answer is a chain from the name in the
question, as the client spelled it.  When the answer is for another name, a search domain having
been added, a CNAME record in front leads there.
-/

namespace Resolvd.Stub

open Lib Dns Engine

/-- **Replies are complete chains from the question.**  In every run of the engine, for the question
of any query, be it one `parse_query` accepts or not, and any found answer to it: the aliases of the
reply's answer section lead from the name in the question to the owner of every record in it,
ignoring case, and every record that is not a CNAME has the type that was asked for, or any for ANY.
The answer is for one of the names the question stands for; if that is another one, the section
begins with a CNAME record from the name in the question, in the client's spelling, to it, which
lasts no longer than any other record. -/
theorem reply_is_chain {entropy : Entropy} {log : EngineLog} {e : Engine} (h : Runs entropy log e)
    (hd : (asked log).Nodup) {query : Message} {q : Question} (hq : query.question = some q)
    {st₀ : Step Engine Op} (hst₀ : st₀ ∈ log) {qid : Qid} {now : Instant}
    (hask : st₀.input = .resolveQuestion qid q now) {st : Step Engine Op} (hst : st ∈ log)
    {a : Answer} (hdone : .done qid (.answer a) ∈ actions st) (hfound : a.outcome = .found) :
    (∀ r ∈ (buildReply query a).answers, ∃ n, Reach (buildReply query a).answers q.name n ∧
      r.name.eq n = true) ∧
    (∀ r ∈ (buildReply query a).answers, r.rtype = Rtype.cname ∨ r.rtype = q.rtype ∨
      q.rtype = Rtype.any) ∧
    ∃ c, a.resolvedName = some c ∧ (c = q.name ∨ c ∈ st₀.before.candidates q.name) ∧
      if q.name.eq c then (buildReply query a).answers = a.records
      else ∃ link, (buildReply query a).answers = link :: a.records ∧ link.name = q.name ∧
        link.rtype = Rtype.cname ∧
        link.class_ = Class.IN ∧ link.rdata = .cname c ∧ ∀ r ∈ a.records, link.ttl ≤ r.ttl := by
  have hresolves : st₀.input.Resolves qid q.name q.rtype false := hask ▸ .resolveQuestion
  obtain ⟨c, hname, hchain, hstands⟩ := h.answer_chain hd hst₀ hst hresolves hdone hfound
  have hanswers : (buildReply query a).answers = expansion query a ++ a.records := by
    rw [buildReply_eq]
    exact if_pos hfound
  by_cases heq : q.name.eq c = true
  · have hrecords : (buildReply query a).answers = a.records := by
      rw [hanswers, expansion, hq, hname]
      simp [heq]
    have hchain' := hchain.congr (Name.eq_symm heq)
    rw [hrecords]
    exact ⟨hchain'.reached, hchain'.typed, c, hname, hstands, by rw [if_pos heq]⟩
  · have hrecords : (buildReply query a).answers =
        Record.new q.name (minTtl a.records a.negativeTtl) (.cname c) :: a.records := by
      rw [hanswers, expansion, hq, hname]
      simp [heq]
    have hlink : aliasTarget q.name
        (Record.new q.name (minTtl a.records a.negativeTtl) (.cname c)) = some c :=
      aliasTarget_eq_some.mpr ⟨rfl, Name.eq_refl _, rfl⟩
    have hchain' := hchain.cons hlink rfl
    rw [hrecords]
    refine ⟨hchain'.reached, hchain'.typed, c, hname, hstands, ?_⟩
    rw [if_neg heq]
    exact ⟨_, rfl, rfl, rfl, rfl, rfl, fun r hr => minTtl_le hr _⟩

/-- A single label. -/
def peiosLabel : Name := ⟨[ascii "peios"], by decide⟩

/-- The records of the server's reply. -/
def aliasRecords : List Record :=
  [Record.new peiosExample 60 (.cname hostExample),
    { lanRecord with name := hostExample, ttl := 30 }]

/-- A single label is asked for, and its name under the search domain is an alias. -/
def aliasOnLan : List Op :=
  [.setScopes [{ lan with domains := [exampleDomain] }],
    .resolveQuestion 7 (Question.new peiosLabel Rtype.a) 1000,
      .received 2 (replyOnLan {} aliasRecords) (secs 1)]

/-- The answer to the question. -/
def aliasAnswer : Answer := { lanAnswer with records := aliasRecords }

/-- The reply has the alias that was followed, the address, and the CNAME from the single label in
front. -/
theorem reply_is_chain_aliasOnLan :
    (buildReply (Message.query 9 (Question.new peiosLabel Rtype.a)) aliasAnswer).answers =
        Record.new peiosLabel 30 (.cname peiosExample) :: aliasRecords ∧
      ∀ r ∈ Record.new peiosLabel 30 (.cname peiosExample) :: aliasRecords, ∃ n,
        Reach (Record.new peiosLabel 30 (.cname peiosExample) :: aliasRecords) peiosLabel n ∧
          r.name.eq n = true := by
  have hanswers : (buildReply (Message.query 9 (Question.new peiosLabel Rtype.a))
      aliasAnswer).answers =
      Record.new peiosLabel 30 (.cname peiosExample) :: aliasRecords := by
    decide +kernel
  have hd : (asked (ran zeros aliasOnLan).1).Nodup := by
    simp [ran, aliasOnLan, Machine.exec, asked, Op.asks]
  have hq : (Message.query 9 (Question.new peiosLabel Rtype.a)).question =
      some (Question.new peiosLabel Rtype.a) := rfl
  have hchain := reply_is_chain (runs_ran zeros aliasOnLan) hd hq
    (List.mem_cons_of_mem _ List.mem_cons_self) rfl
    List.mem_cons_self (a := aliasAnswer) (by decide +kernel) rfl
  rw [hanswers] at hchain
  exact ⟨hanswers, hchain.1⟩

end Resolvd.Stub
