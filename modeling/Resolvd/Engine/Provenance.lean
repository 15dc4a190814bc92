import Resolvd.Engine.Queries
import Resolvd.Engine.Verdicts

/-!
# Where records come from

Whatever octets arrive on whatever transactions: a cached answer, and an answer given as one from
the network or from the cache, stems from a reply that matched a live query exactly (`Authentic`),
and carries the records of that reply that are relevant for the question, or none when the reply was
NXDOMAIN (`Carries`).  `Runs.provenance` says so for every run.
-/

namespace Resolvd.Engine

open Lib Dns List

variable {e : Engine} {tx : Txid} {M : Message} {log : EngineLog} {rtype : UInt16} {a : Answer}
    {entropy : Entropy} {st : Step Engine Op} {t : Task} {R : UInt32 → UInt32 → Prop}

/-! ### Matching -/

/-- The message is a reply to the query of the transaction: it has the id, the response bit, and the
one question exactly as it was sent. -/
structure Tx.Matches (x : Tx) (M : Message) : Prop where
  id : M.header.id = x.dnsId
  response : M.header.response = true
  question : M.questions = [x.question]

/-- **What `matching_response` accepts.** -/
theorem matchingResponse_eq_some {bytes : Bytes} :
    e.matchingResponse tx bytes = some M ↔
      ∃ x, e.txs.get tx = some x ∧ Message.decode bytes = .ok M ∧ x.Matches M := by
  unfold matchingResponse
  constructor
  · intro h
    split at h
    · cases h
    · next x hx =>
      split at h
      · cases h
      · next M' hM =>
        split at h
        · cases h
        · next hhead =>
          split at h
          · cases h
          · next q hq =>
            split at h
            · cases h
            · next hquestion =>
              obtain rfl := Option.some.inj h
              simp only [ne_eq, not_or, not_not, Bool.not_eq_false] at hhead hquestion
              refine ⟨x, hx, hM, hhead.1, hhead.2, ?_⟩
              rw [Message.question_eq_some.mp hq]
              obtain ⟨h1, h2, h3⟩ := hquestion
              cases q
              cases hxq : x.question
              simp only [hxq] at h1 h2 h3
              rw [h1, h2, Name.ext_labels h3]
  · rintro ⟨x, hx, hM, hid, hresponse, hq⟩
    simp [hx, hM, hid, hresponse, Message.question_eq_some.mpr hq]

/-- A `received` call whose octets do not match does nothing. -/
theorem received_of_unmatched {bytes : Bytes}
    (h : ∀ x M, e.txs.get tx = some x → Message.decode bytes = .ok M → ¬ x.Matches M)
    (now : Instant) : e.received tx bytes now = (e, []) := by
  unfold received
  split
  · rfl
  · split
    · rfl
    · next M hM =>
      obtain ⟨x, hx, hdec, hmatch⟩ := matchingResponse_eq_some.mp hM
      exact absurd hmatch (h x M hx hdec)

/-! ### The records of a reply -/

/-- The records differ in the case of the owner, and in the time to live as `R` allows. -/
structure Recast (R : UInt32 → UInt32 → Prop) (r r' : Record) : Prop where
  name : r'.name.eq r.name = true
  rtype : r'.rtype = r.rtype
  class_ : r'.class_ = r.class_
  rdata : r'.rdata = r.rdata
  ttl : R r'.ttl r.ttl

/-- The records are those of the reply that are relevant for the question, and none when the reply
is an absence. -/
structure Carries (R : UInt32 → UInt32 → Prop) (M : Message) (n : Name) (rtype : UInt16)
    (records : List Record) : Prop where
  relevant : List.Forall₂ (Recast R) (if M.rcode = 0 then (relevantRecords M.answers n rtype).1
    else []) records
  class_ : ∀ r ∈ records, r.class_ = Class.IN

theorem recase_recast (n : Name) (r : Record) : Recast (· = ·) r (recase n r) := by
  unfold recase
  split
  · next h => exact ⟨Name.eq_symm h, rfl, rfl, rfl, rfl⟩
  · exact ⟨Name.eq_refl _, rfl, rfl, rfl, rfl⟩

theorem carries_answerRecords (h : isAnswer M.rcode = true) (n : Name) (rtype : UInt16) :
    Carries (· = ·) M n rtype (answerRecords M n rtype M.rcode) := by
  have hout := outcomeOf_eq h
  unfold answerRecords
  by_cases hcode : M.rcode = 0
  · rw [if_pos hcode] at hout
    have hrecords : ((relevantRecords M.answers n rtype).1.filter fun _ =>
        outcomeOf M.rcode == .found) =
        (relevantRecords M.answers n rtype).1 := by simp [hout]
    rw [hrecords]
    refine ⟨?_, fun r hr => ?_⟩
    · rw [if_pos hcode, forall₂_map_right_iff]
      exact forall₂_same.mpr fun r _ => recase_recast n r
    · obtain ⟨r₀, hr₀, rfl⟩ := mem_map.mp hr
      rw [(recase_recast n r₀).class_]
      exact relevantRecords_class hr₀
  · rw [if_neg hcode] at hout
    have hrecords : ((relevantRecords M.answers n rtype).1.filter fun _ =>
        outcomeOf M.rcode == .found) = [] := by
      simp [hout]
    rw [hrecords, map_nil]
    exact ⟨by rw [if_neg hcode]; exact .nil, by simp⟩

section Carries

variable {R : UInt32 → UInt32 → Prop} {M : Message} {n n' : Name} {rtype : UInt16}
  {records : List Record}

theorem Carries.congr (h : Carries R M n rtype records) (hn : n.eq n' = true) :
    Carries R M n' rtype records :=
  ⟨relevantRecords_congr hn M.answers rtype ▸ h.relevant, h.class_⟩

theorem Carries.nil (h : Carries R M n rtype records) (hcode : M.rcode ≠ 0) : records = [] := by
  have hrel := h.relevant
  rw [if_neg hcode] at hrel
  exact forall₂_nil_left_iff.mp hrel

/-- A cache hit lowers times to live, and changes nothing else. -/
theorem Carries.aged {x : Entry} (h : Carries (· = ·) M n rtype x.records) {now : Instant}
    (hR : ∀ r ∈ x.records, R (min r.ttl (Cache.remaining x now)) r.ttl) :
    Carries R M n rtype (Cache.aged x now).records := by
  refine ⟨?_, fun r hr => ?_⟩
  · obtain ⟨hlen, hget⟩ := forall₂_iff_get.mp h.relevant
    rw [Cache.aged, forall₂_map_right_iff]
    refine forall₂_iff_get.mpr ⟨hlen, fun i h₁ h₂ => ?_⟩
    have hr := hget i h₁ h₂
    exact ⟨hr.name, hr.rtype, hr.class_, hr.rdata, hr.ttl ▸ hR _ (get_mem ..)⟩
  · obtain ⟨r₀, hr₀, rfl⟩ := mem_map.mp hr
    exact h.class_ r₀ hr₀

end Carries

/-! ### Origins -/

/-- The step brings, on a live transaction, a reply to the query that was sent on it for the records
of the name, and the reply answers the query: it is not truncated, or came over TCP, and its full
response code is 0 or 3. -/
structure Authentic (old : EngineLog) (st : Step Engine Op) (n : Name) (rtype : UInt16) (tx : Txid)
    (x : Tx) (bytes : Bytes) (M : Message) : Prop where
  input : ∃ now, st.input = .received tx bytes now
  live : st.before.txs.get tx = some x
  sent : ∃ st' ∈ old, ∃ interface payload, .send tx x.server interface x.tcp payload ∈ actions st' ∧
    Message.decode payload = .ok (Message.query x.dnsId x.question)
  decoded : Message.decode bytes = .ok M
  matched : x.Matches M
  name : x.question.name.eq n = true
  rtype_eq : x.question.rtype = rtype
  whole : ¬ (M.header.truncated = true ∧ x.tcp = false)
  code : M.rcode = 0 ∨ M.rcode = 3

/-- An authentic reply of the server, in one of the steps, had this response code and carried these
records. -/
def Origin (log : EngineLog) (n : Name) (rtype : UInt16) (R : UInt32 → UInt32 → Prop)
    (server : IpAddr) (outcome : Outcome) (rcode : UInt16) (records : List Record) : Prop :=
  ∃ new st old tx x bytes M, log = new ++ st :: old ∧ Authentic old st n rtype tx x bytes M ∧
    server = x.server ∧
    rcode = M.rcode ∧ outcome = (if M.rcode = 0 then .found else .notFound) ∧
      Carries R M n rtype records

/-- An answer given as one from the network or the cache has its origin there, and an absence has no
records. -/
structure Genuine (log : EngineLog) (rtype : UInt16) (a : Answer) : Prop where
  dns : a.source = .dns → ∃ n server, a.resolvedName = some n ∧ a.server = some server ∧
    Origin log n rtype (· = ·) server a.outcome a.rcode a.records
  cache : a.source = .cache → ∃ n server, a.resolvedName = some n ∧ a.server = some server ∧
    Origin log n rtype (· ≤ ·) server a.outcome a.rcode a.records
  absent : a.outcome ≠ .found → a.records = []

section Origin

variable {log : EngineLog} {n n' : Name} {rtype : UInt16} {R : UInt32 → UInt32 → Prop}
  {server : IpAddr}
  {outcome : Outcome} {rcode : UInt16} {records : List Record}

section

variable (h : Origin log n rtype R server outcome rcode records)
include h

theorem Origin.append (newer : EngineLog) :
    Origin (newer ++ log) n rtype R server outcome rcode records := by
  obtain ⟨new, st, old, tx, x, bytes, M, rfl, hrest⟩ := h
  exact ⟨newer ++ new, st, old, tx, x, bytes, M, (append_assoc ..).symm, hrest⟩

theorem Origin.congr (hn : n.eq n' = true) :
    Origin log n' rtype R server outcome rcode records := by
  obtain ⟨new, st, old, tx, x, bytes, M, hlog, ha, h1, h2, h3, hc⟩ := h
  exact ⟨new, st, old, tx, x, bytes, M, hlog, { ha with name := Name.eq_trans ha.name hn }, h1, h2,
    h3, hc.congr hn⟩

theorem Origin.absent (hout : outcome ≠ .found) : records = [] := by
  obtain ⟨new, st, old, tx, x, bytes, M, -, -, -, -, rfl, hc⟩ := h
  exact hc.nil fun hcode => hout (if_pos hcode)

end

end Origin

theorem Genuine.append (h : Genuine log rtype a) (newer : EngineLog) :
    Genuine (newer ++ log) rtype a := by
  refine ⟨fun hs => ?_, fun hs => ?_, h.absent⟩
  · obtain ⟨n, server, hn, hserver, horigin⟩ := h.dns hs
    exact ⟨n, server, hn, hserver, horigin.append newer⟩
  · obtain ⟨n, server, hn, hserver, horigin⟩ := h.cache hs
    exact ⟨n, server, hn, hserver, horigin.append newer⟩

/-- An answer that claims neither to be from the network nor from the cache. -/
theorem genuine_of_source (hdns : a.source ≠ .dns) (hcache : a.source ≠ .cache)
    (habsent : a.outcome ≠ .found → a.records = []) : Genuine log rtype a :=
  ⟨fun h => absurd h hdns, fun h => absurd h hcache, habsent⟩

/-- A reply that answers a query is the origin of what is made of it. -/
theorem Answers.origin {x : Tx} (h : Answers st tx x t M) (hr : Reached entropy log st.before) :
    Origin (st :: log) t.candidate t.rtype (· = ·) x.server (outcomeOf M.rcode) M.rcode
      (answerRecords M t.candidate t.rtype M.rcode) := by
  obtain ⟨bytes, now, hop, hM⟩ := h.input
  obtain ⟨x', hx', hdec, hmatch⟩ := matchingResponse_eq_some.mp hM
  obtain rfl := Option.mem_unique h.live hx'
  have hasks := hr.asking.asks tx x t h.live h.task
  have hsent : ∃ st' ∈ log, SentIn st' tx x t.scope := by
    obtain ⟨e₀, h₀, hr₀⟩ := hr
    exact h₀.sentIn tx x t (hr₀.txs.get_eq tx ▸ h.live) (hr₀.tasks.get_eq x.task ▸ h.task)
  obtain ⟨st', hst', hsend, -⟩ := hsent
  refine ⟨[], st, log, tx, x, bytes, M, rfl,
    ⟨⟨now, hop⟩, h.live, ⟨st', hst', _, _, hsend, decode_queryPayload _ _⟩, hdec, hmatch,
    hasks.name, hasks.rtype, ?_, isAnswer_iff.mp h.code⟩, rfl, rfl, outcomeOf_eq h.code,
    carries_answerRecords h.code _ _⟩
  rintro ⟨htrunc, htcp⟩
  have hwhole := h.whole
  simp [Tx.truncated, htrunc, htcp] at hwhole

/-! ### The invariant -/

/-- Every cached answer has its origin in the log. -/
def CacheGenuine (log : EngineLog) (e : Engine) : Prop :=
  ∀ k x, e.cache.entries.get k = some x →
    Origin log k.name k.rtype (· = ·) x.server x.outcome x.rcode x.records

theorem CacheGenuine.mid {m : Mid} (h : CacheGenuine log st.before)
    (hr : Reached entropy log st.before) (hp : Path st (.first st) m) :
    CacheGenuine (st :: log) m.engine := by
  intro k x hx
  rcases hp.cached k x hx with hx | ⟨tx, y, t, M, hM, -, rfl, rfl⟩
  · exact (h k x hx).append [st]
  · exact (hM.origin hr).congr (Name.eq_symm (Name.toLowercase_eq _))

theorem Runs.cacheGenuine (h : Runs entropy log e) : CacheGenuine log e :=
  Runs.step_invariant (by simp [CacheGenuine, withEntropy])
    (fun log e e' hI hr k x hx => hI k x (hr.cache.get_eq k ▸ hx))
    (fun log st hr _ hI => hI.mid hr (apply_path st)) h

theorem Why.genuine {m : Mid} {id : TaskId}
    (h : Why st m.engine id t a) (hr : Reached entropy log st.before)
    (hcache : CacheGenuine (st :: log) m.engine) : Genuine (st :: log) t.rtype a := by
  cases h with
  | synthetic hop hnew h =>
    obtain ⟨hout, h1, h2⟩ := synthetic_cases h
    refine genuine_of_source h2 h1 fun hne => ?_
    rcases hout with hfound | ⟨-, rfl⟩
    · exact absurd hfound hne
    · rfl
  | noCandidates hop hnew h => exact genuine_of_source (by simp) (by simp) fun _ => rfl
  | unroutable hop hc h =>
    exact genuine_of_source (by simp [Engine.unavailable]) (by simp [Engine.unavailable]) fun _ =>
      rfl
  | @cached c s x hop hc hscope hroute hx hlive hlast =>
    have horigin : Origin (st :: log) c t.rtype (· = ·) x.server x.outcome x.rcode x.records :=
      (hcache _ x hx).congr (Name.toLowercase_eq c)
    obtain ⟨new, st', old, tx, y, bytes, M, hlog, ha, h1, h2, h3, hcar⟩ := horigin
    refine ⟨fun hs => by simp [cachedAnswer] at hs, fun _ => ⟨c, x.server, rfl, rfl, ?_⟩, fun hne => ?_⟩
    · exact ⟨new, st', old, tx, y, bytes, M, hlog, ha, h1, h2, h3, hcar.aged fun r _ =>
        Std.min_le_left⟩
    · exact (hcar.aged (R := (· ≤ ·)) fun r _ => Std.min_le_left).nil fun hcode =>
        hne (h3.trans (if_pos hcode))
  | @replied tx x t₀ M hM hid ht hlast =>
    subst ht
    have horigin := hM.origin hr
    exact ⟨fun _ => ⟨t₀.candidate, x.server, rfl, rfl, horigin⟩,
      fun hs => by simp [replyAnswer] at hs, horigin.absent⟩
  | budget h =>
    exact genuine_of_source (by simp [Engine.unavailable]) (by simp [Engine.unavailable]) fun _ =>
      rfl
  | noServers h =>
    exact genuine_of_source (by simp [Engine.unavailable]) (by simp [Engine.unavailable]) fun _ =>
      rfl
  | ceiling h =>
    exact genuine_of_source (by simp [Engine.unavailable]) (by simp [Engine.unavailable]) fun _ =>
      rfl
  | entropy h =>
    exact genuine_of_source (by simp [Engine.unavailable]) (by simp [Engine.unavailable]) fun _ =>
      rfl

theorem Runs.gave_genuine (h : Runs entropy log e) {new old : EngineLog}
    (hlog : log = new ++ st :: old) (hgave : Gave st t a) :
    Genuine (st :: old) t.rtype a ∧ ∃ st₀ ∈ st :: old, Begun st₀ t.asked := by
  obtain ⟨m, id, hp, hid, ht, hwhy⟩ := hgave
  obtain ⟨e₀, h₀, hr⟩ := h.reached hlog
  have hcache : CacheGenuine old st.before := fun k x hx =>
    h₀.cacheGenuine k x (hr.cache.get_eq k ▸ hx)
  exact ⟨hwhy.genuine ⟨e₀, h₀, hr⟩ (hcache.mid ⟨e₀, h₀, hr⟩ hp),
    ((Engine.asking entropy).mid h trivial hlog hp).2.begun id t ht⟩

/-! ### Well-formed records -/

theorem wellFormed_of_recast {rs rs' : List Record} (h : List.Forall₂ (Recast R) rs rs')
    (hrs : ∀ r ∈ rs, r.WellFormed) : ∀ r ∈ rs', r.WellFormed := by
  induction h with
  | nil => exact hrs
  | cons hr _ ih =>
    rw [forall_mem_cons] at hrs ⊢
    refine ⟨?_, ih hrs.2⟩
    rw [Record.WellFormed, hr.rtype, hr.rdata]
    exact hrs.1

theorem Origin.wellFormed {n : Name} {server : IpAddr}
    {outcome : Outcome} {rcode : UInt16} {records : List Record}
    (h : Origin log n rtype R server outcome rcode records) : ∀ r ∈ records, r.WellFormed := by
  obtain ⟨new, st, old, tx, x, bytes, M, -, ha, -, -, -, hc⟩ := h
  -- they are records of the answer section, with at most their case and lifetime changed
  refine wellFormed_of_recast hc.relevant fun r hr => Message.decode_wellFormed ha.decoded r ?_
  split at hr
  · simp [Message.records, relevantRecords_subset hr]
  · cases hr

theorem Runs.gave_wellFormed (h : Runs entropy log e) {new old : EngineLog}
    (hlog : log = new ++ st :: old) (hgave : Gave st t a) : ∀ r ∈ a.records, r.WellFormed := by
  have hgenuine := (h.gave_genuine hlog hgave).1
  obtain ⟨m, id, hp, hid, ht, hwhy⟩ := hgave
  cases hwhy with
  | synthetic hop hnew hsyn => exact synthetic_wellFormed hsyn
  | cached hop hc hscope hroute hx hlive hlast =>
    obtain ⟨n, server, -, -, horigin⟩ := hgenuine.cache rfl
    exact horigin.wellFormed
  | replied hM hid ht hlast =>
    obtain ⟨n, server, -, -, horigin⟩ := hgenuine.dns rfl
    exact horigin.wellFormed
  | noCandidates => simp
  | unroutable => simp [unavailable]
  | budget => simp [unavailable]
  | noServers => simp [unavailable]
  | ceiling => simp [unavailable]
  | entropy => simp [unavailable]

/-- **The records of every answer are well formed.** -/
theorem Runs.answer_wellFormed (h : Runs entropy log e)
    (hst : st ∈ log) {q : Qid} (hdone : .done q (.answer a) ∈ actions st) :
    ∀ r ∈ a.records, r.WellFormed := by
  obtain ⟨new, old, hlog⟩ := append_of_mem hst
  cases h.verdict hlog hdone with
  | refused hr => simp [hr.answer]
  | answer ho hgave => exact h.gave_wellFormed hlog hgave

/-- **Every record has its origin in an authentic reply.**  In every run, whatever octets are
delivered: every cached answer, and every answer that is given as one from the network or from the
cache, stems from a reply that matched a live query, is whole and has response code 0 or 3, and
carries its relevant records, or none for code 3; an absence carries none.  The addresses of a
lookup are those of such answers.  Octets that do not match change nothing. -/
theorem Runs.provenance {entropy : Entropy} {log : EngineLog} {e : Engine}
    (h : Runs entropy log e) :
    (∀ k x, e.cache.entries.get k = some x →
      Origin log k.name k.rtype (· = ·) x.server x.outcome x.rcode x.records) ∧
    (∀ new st old, log = new ++ st :: old → ∀ q a, .done q (.answer a) ∈ actions st →
      a = { outcome := .notFound } ∨ ∃ st₀ ∈ st :: old, ∃ name rtype noCache,
        st₀.input.Resolves q name rtype noCache ∧ Genuine (st :: old) rtype a) ∧
    (∀ new st old, log = new ++ st :: old → ∀ q A, .done q (.addresses A) ∈ actions st →
      A = { outcome := .notFound } ∨ ∃ l, A = combine l ∧
        (∀ r ∈ l.results, Genuine (st :: old) r.1 r.2) ∧
        A.From l.results ∧ (A.outcome ≠ .found → A.addresses = [])) ∧
    ∀ (e : Engine) tx bytes now,
      (∀ x M, e.txs.get tx = some x → Message.decode bytes = .ok M → ¬ x.Matches M) →
      e.received tx bytes now = (e, []) := by
  refine ⟨h.cacheGenuine, fun new st old hlog q a hdone => ?_, fun new st old hlog q A hdone => ?_,
    fun e tx bytes now hno => received_of_unmatched hno now⟩
  · cases h.verdict hlog hdone with
    | refused hr => exact .inl hr.answer
    | answer ho hgave =>
      obtain ⟨hgenuine, st₀, hst₀, hbegun⟩ := h.gave_genuine hlog hgave
      exact .inr ⟨st₀, hst₀, _, _, _, hbegun.resolves ho, hgenuine⟩
  · cases h.verdict hlog hdone with
    | refused hr => exact .inl hr.addresses
    | @addresses l st₀ family hst₀ hask hall hgiven =>
      refine .inr ⟨l, rfl, fun r hr => ?_, combine_from l, combine_addresses_nil⟩
      obtain ⟨new', st', old', t, hlog', -, hrtype, hgave⟩ := hgiven r hr
      -- the answer was given by an earlier step of the run, or by this one
      have hlog'' : log = (new ++ new') ++ st' :: old' := by rw [hlog, hlog', append_assoc]
      rw [hlog', ← hrtype]
      exact (h.gave_genuine hlog'' hgave).1.append new'

/-- The cached answer of the small run has its origin in the reply. -/
theorem provenance_answerOnLan :
    Origin (ran zeros answerOnLan).1 (CacheKey.new peiosExample Rtype.a "lan").name Rtype.a (· = ·)
      (.v4 #v[192, 0, 2, 1])
      .found 0 [Record.new peiosExample 60 (.a #v[192, 0, 2, 7])] := by
  have hx : (ran zeros answerOnLan).2.cache.entries.get (CacheKey.new peiosExample Rtype.a "lan") =
      some ⟨.found, [Record.new peiosExample 60 (.a #v[192, 0, 2, 7])], 0, .v4 #v[192, 0, 2, 1],
        secs 61⟩ := by
    decide +kernel
  exact (Runs.provenance (runs_ran zeros answerOnLan)).1 _ _ hx

end Resolvd.Engine
