import Resolvd.Engine.Provenance

/-!
# How long answers are kept

`received` computes how long the answer of a reply may be kept (`answerTtl`), `Cache::insert` stores
it until then, and `Cache::get` hands it out with what is left.  Time is the caller's: the results
are about runs in which it does not go back (`Clock`).

* `answerTtl_le_ttl`, `NegativeBound`, `negativeBound_answerTtl`: what bounds the lifetime of an answer with and without
  records;
* `Runs.allStored`: every cached answer was stored by a step of the run, with a positive lifetime;
* `Runs.honest_ttls`: a hit never promises more time than the reply did;
* `Runs.absence_brief`: that there is nothing is kept for at most five minutes, unless a reply with aliases alone says so
  (`alias_kept_for_a_day`).
-/

namespace Resolvd.Engine

open Lib Dns List

variable {qtype : UInt16} {r : Record} {now : Instant} {st : Step Engine Op}

/-! ### The aliases that are followed -/

/-- The alias records that the loop of `relevant_records` follows, in order. -/
def aliasPath (records : List Record) (qtype : UInt16) : ℕ → Name → List Name → List Record
  | 0, _, _ => []
  | depth + 1, name, seen =>
    if records.any (isAsked qtype name) || seen.any name.eq then []
    else
      match findAlias records name with
      | none => []
      | some (i, target) =>
        records[i]?.toList ++ aliasPath records qtype depth target (seen ++ [name])

theorem relevantLoop_aliasPath {records : List Record} {depth : ℕ} {keep : List Bool} {name : Name}
    {seen : List Name} (hlen : keep.length = records.length)
    (h : r ∈ aliasPath records qtype depth name seen) :
    Marked records (relevantLoop records qtype depth keep name seen).1 r := by
  induction depth generalizing keep name seen with
  | zero => cases h
  | succ depth ih =>
    simp only [aliasPath] at h
    split at h
    · cases h
    · next hgo =>
      split at h
      · cases h
      · next i target hf =>
        have hlen' : ((mark qtype name records keep).set i true).length = records.length := by
          rw [length_set, length_mark qtype name hlen]
        simp only [relevantLoop, hgo, hf]
        rcases mem_append.mp h with h | h
        · -- a record that is marked stays marked
          rw [Option.mem_toList] at h
          exact (relevantLoop_marked hlen').1 r (marked_set h (length_mark qtype name hlen))
        · exact ih hlen' h

/-- **The aliases that are followed are among the relevant records.** -/
theorem mem_relevantRecords_of_aliasPath {records : List Record} {candidate : Name}
    (h : r ∈ aliasPath records qtype 16 candidate []) :
    r ∈ (relevantRecords records candidate qtype).1 :=
  mem_kept.mpr (relevantLoop_aliasPath (length_replicate (n := records.length) (a := false)) h)

/-- They are records of the reply that hold an alias. -/
theorem aliasPath_rdata {records : List Record} {depth : ℕ} {name : Name} {seen : List Name}
    (h : r ∈ aliasPath records qtype depth name seen) :
    r ∈ records ∧ ∃ target, r.rdata = .cname target := by
  induction depth generalizing name seen with
  | zero => cases h
  | succ depth ih =>
    simp only [aliasPath] at h
    split at h
    · cases h
    · split at h
      · cases h
      · next i target hf =>
        rcases mem_append.mp h with h | h
        · rw [Option.mem_toList] at h
          obtain ⟨r', hr', htarget⟩ := findAlias_spec hf
          obtain rfl := Option.mem_unique h hr'
          exact ⟨mem_of_getElem? h, target, (aliasTarget_eq_some.mp htarget).2.2⟩
        · exact ih h

/-! ### What bounds the lifetime of an answer -/

theorem minTtl_le {records : List Record} (hr : r ∈ records) (other : UInt32) :
    minTtl records other ≤ r.ttl := by
  have hmem : r.ttl ∈ records.map Record.ttl := mem_map_of_mem hr
  unfold minTtl
  cases hmin : (records.map Record.ttl).min? with
  | none =>
    rw [List.min?_eq_none_iff.mp hmin] at hmem
    cases hmem
  | some least => exact (List.min?_eq_some_iff.mp hmin).2 _ hmem

/-- The record is an SOA of class IN whose owner encloses the name. -/
def isSoaOf (name : Name) (r : Record) : Bool :=
  r.class_ == Class.IN && name.endsWith r.name &&
    match r.rdata with
    | .soa .. => true
    | _ => false

/-- The SOA record that counts for the name is the first one that encloses it; `minimum` is its last
field. -/
structure SoaFor (authority : List Record) (name : Name) (soa : Record) (minimum : UInt32) :
    Prop where
  first : authority.find? (isSoaOf name) = some soa
  rdata : ∃ mname rname serial refresh retry expire, soa.rdata =
    .soa mname rname serial refresh retry expire minimum

/-- **`negative_ttl` is what the SOA record that counts allows, capped; without one it is zero.** -/
theorem negativeTtl_spec (authority : List Record) (name : Name) :
    (∃ soa minimum, SoaFor authority name soa minimum ∧
      negativeTtl authority name = min (min minimum soa.ttl) maxNegativeTtl) ∨
    (authority.find? (isSoaOf name) = none ∧ negativeTtl authority name = 0) := by
  induction authority with
  | nil => exact .inr ⟨rfl, rfl⟩
  | cons r authority ih =>
    cases hr : isSoaOf name r with
    | true =>
      simp only [isSoaOf, Bool.and_eq_true] at hr
      obtain ⟨hname, hdata⟩ := hr
      split at hdata
      · next mname rname serial refresh retry expire minimum hsoa =>
        refine .inl ⟨r, minimum, ⟨?_, mname, rname, serial, refresh, retry, expire, hsoa⟩, ?_⟩
        · simp [isSoaOf, hname, hsoa]
        · simp [negativeTtl, hname, hsoa]
      · cases hdata
    | false =>
      have hfind : (r :: authority).find? (isSoaOf name) = authority.find? (isSoaOf name) := by
        rw [List.find?_cons, hr]
      have httl : negativeTtl (r :: authority) name = negativeTtl authority name := by
        unfold negativeTtl
        rw [filter_cons]
        split
        · next hname =>
          simp only [isSoaOf, hname, Bool.true_and] at hr
          split at hr
          · cases hr
          · next hdata =>
            rw [List.findSome?_cons]
            split
            · next hsome =>
              split at hsome
              · next hsoa => exact absurd hsoa (hdata _ _ _ _ _ _ _)
              · cases hsome
            · rfl
        · rfl
      rw [hfind, httl]
      refine ih.imp_left ?_
      rintro ⟨soa, minimum, hsoa, heq⟩
      exact ⟨soa, minimum, ⟨hfind.trans hsoa.first, hsoa.rdata⟩, heq⟩

/-- The reply allows an absence of the records of `n` to be kept for so many seconds: the SOA record
that counts for the name at the end of the aliases, the cap, and every alias followed allow it. -/
structure NegativeBound (M : Message) (n : Name) (rtype : UInt16) (ttl : ℕ) : Prop where
  soa : ∃ soa minimum, SoaFor M.authority (relevantRecords M.answers n rtype).2 soa minimum ∧
    ttl ≤ minimum.toNat ∧ ttl ≤ soa.ttl.toNat
  cap : ttl ≤ maxNegativeTtl.toNat
  aliases : ∀ r ∈ aliasPath M.answers rtype 16 n [], ttl ≤ r.ttl.toNat

section AnswerTtl

variable {M : Message} {n : Name} {rtype code : UInt16}

theorem outcome_of_answerRecords (h : answerRecords M n rtype code ≠ []) :
    outcomeOf code = .found := by
  by_contra hout
  exact h (by simp [answerRecords, hout])

theorem answerTtl_of_records (h : answerRecords M n rtype code ≠ []) :
    answerTtl M n rtype code = min (minTtl (answerRecords M n rtype code) 0) maxPositiveTtl := by
  unfold answerTtl
  rw [if_pos ⟨outcome_of_answerRecords h, h⟩]

theorem answerTtl_of_nil (h : answerRecords M n rtype code = []) :
    answerTtl M n rtype code =
      min (negativeTtl M.authority (relevantRecords M.answers n rtype).2)
        (minTtl ((relevantRecords M.answers n rtype).1.filter fun r =>
          r.rtype == Rtype.cname) 0xFFFFFFFF) := by
  unfold answerTtl
  rw [if_neg fun hfound => hfound.2 h]

/-- **An answer lives no longer than any of its records.** -/
theorem answerTtl_le_ttl {r : Record} (hr : r ∈ answerRecords M n rtype code) :
    answerTtl M n rtype code ≤ r.ttl := by
  rw [answerTtl_of_records (ne_nil_of_mem hr)]
  exact Std.le_trans Std.min_le_left (minTtl_le hr 0)

theorem answerTtl_le_maxPositiveTtl : answerTtl M n rtype code ≤ maxPositiveTtl := by
  by_cases h : answerRecords M n rtype code = []
  · rw [answerTtl_of_nil h]
    refine Std.le_trans Std.min_le_left ?_
    exact Std.le_trans (b := maxNegativeTtl) Std.min_le_right (by decide)
  · rw [answerTtl_of_records h]
    exact Std.min_le_right

/-- **An answer without records lives as long as the SOA record, the cap and the aliases allow.** -/
theorem negativeBound_answerTtl {bytes : Bytes} (hM : Message.decode bytes = .ok M)
    (h : answerRecords M n rtype code = []) (hpos : 0 < answerTtl M n rtype code) :
    NegativeBound M n rtype (answerTtl M n rtype code).toNat := by
  rw [answerTtl_of_nil h] at hpos ⊢
  have hnegative : 0 < negativeTtl M.authority (relevantRecords M.answers n rtype).2 :=
    Std.lt_of_lt_of_le hpos Std.min_le_left
  rcases negativeTtl_spec M.authority (relevantRecords M.answers n rtype).2 with ⟨soa, minimum,
    hsoa, httl⟩ | ⟨-, httl⟩
  · have hle : ∀ {bound : UInt32}, min (min minimum soa.ttl) maxNegativeTtl ≤ bound →
        (min (negativeTtl M.authority (relevantRecords M.answers n rtype).2)
          (minTtl ((relevantRecords M.answers n rtype).1.filter fun r => r.rtype == Rtype.cname)
            0xFFFFFFFF)).toNat ≤
        bound.toNat := by
      intro bound hbound
      rw [httl]
      exact UInt32.le_iff_toNat_le.mp (Std.le_trans Std.min_le_left hbound)
    refine ⟨⟨soa, minimum, hsoa, hle ?_, hle ?_⟩, hle Std.min_le_right, fun r hr => ?_⟩
    · exact Std.le_trans Std.min_le_left Std.min_le_left
    · exact Std.le_trans Std.min_le_left Std.min_le_right
    · -- a followed alias was read as one, so it is among the records of that type
      obtain ⟨hmem, target, hdata⟩ := aliasPath_rdata hr
      have hagrees := (Message.decode_wf hM).1.records r (by simp [Message.records, hmem])
      rw [hdata] at hagrees
      refine UInt32.le_iff_toNat_le.mp
        (Std.le_trans Std.min_le_right (minTtl_le (mem_filter.mpr ⟨?_, ?_⟩) _))
      · exact mem_relevantRecords_of_aliasPath hr
      · exact beq_iff_eq.mpr hagrees
  · rw [httl] at hnegative
    cases hnegative

end AnswerTtl

/-! ### Time -/

theorem secs_le {a b : ℕ} (h : a ≤ b) : secs a ≤ secs b := Nat.mul_le_mul_right _ h

/-- The time an operation is given, for those that are given one. -/
def Op.clock : Op → Option Instant
  | .resolve _ _ _ _ now | .resolveQuestion _ _ now | .lookup _ _ _ now | .reverse _ _
    now | .received _ _ now
  | .failed _ now | .localFailed _ now | .tick now => some now
  | _ => none

theorem Op.now_of_clock {op : Op} (h : op.clock = some now) : op.now = now := by
  cases op <;> first | exact Option.some.inj h | cases h

theorem Op.clock_of_asks {op : Op} {q : Qid} (h : op.asks = some q) : op.clock = some op.now := by
  cases op <;> first | rfl | cases h

/-- Time does not go back: the times the steps are given, newest first, do not increase. -/
def Clock (log : EngineLog) : Prop := (log.filterMap fun st => st.input.clock).Pairwise (· ≥ ·)

instance (log : EngineLog) : Decidable (Clock log) := inferInstanceAs (Decidable (List.Pairwise ..))

theorem Clock.le {log new old : EngineLog} {st₀ : Step Engine Op} (h : Clock log)
    (hlog : log = new ++ st :: old) (hst₀ : st₀ ∈ old) {now₀ : Instant}
    (hnow : st.input.clock = some now) (hnow₀ : st₀.input.clock = some now₀) : now₀ ≤ now := by
  subst hlog
  have hpair := (pairwise_append.mp (pairwise_filterMap.mp h)).2.1
  exact (pairwise_cons.mp hpair).1 st₀ hst₀ now hnow now₀ hnow₀

theorem Searches.clock (h : Searches st) : st.input.clock = some st.input.now := by
  cases h with
  | asked h => exact Op.clock_of_asks h
  | answered h hout =>
    obtain ⟨bytes, now, hop, -⟩ := h.input
    rw [hop]
    rfl

/-! ### Entries and hits -/

/-- In the step the reply `M` to a query of the task `t` is stored, to be kept for a positive time.
-/
structure Stores (st : Step Engine Op) (k : CacheKey) (x : Entry) (t : Task) (M : Message) :
    Prop where
  reply : ∃ tx y, Answers st tx y t M ∧
    x = entryOf M t.candidate t.rtype M.rcode y.server st.input.now
  key : k = CacheKey.new t.candidate t.rtype t.scopeId
  lifetime : 0 < answerTtl M t.candidate t.rtype M.rcode

/-- In the course of the step, which is given the time `now`, the entry `x` under the key is found
in the cache and handed out as `hit`. -/
structure Hit (st : Step Engine Op) (now : Instant) (k : CacheKey) (x hit : Entry) : Prop where
  clock : st.input.clock = some now
  found : ∃ m, Path st (.first st) m ∧ m.engine.cache.entries.get k = some x ∧
    (m.engine.cache.get k now).1 = some hit

section Stores

variable {st : Step Engine Op} {k : CacheKey} {x : Entry} {t : Task} {M : Message}

section

variable (h : Stores st k x t M)
include h

theorem Stores.clock : st.input.clock = some st.input.now := by
  obtain ⟨tx, y, hM, -⟩ := h.reply
  obtain ⟨bytes, now, hop, -⟩ := hM.input
  rw [hop]
  rfl

theorem Stores.expires :
    x.expires = st.input.now + secs (answerTtl M t.candidate t.rtype M.rcode).toNat := by
  obtain ⟨tx, y, -, rfl⟩ := h.reply
  rfl

theorem Stores.records : x.records = answerRecords M t.candidate t.rtype M.rcode := by
  obtain ⟨tx, y, -, rfl⟩ := h.reply
  rfl

theorem Stores.live : st.input.now < x.expires := by
  rw [h.expires]
  exact Nat.lt_add_of_pos_right (Nat.mul_pos (UInt32.lt_iff_toNat_lt.mp h.lifetime) (by decide))

/-- The entry expires with the first of its records, and within a day. -/
theorem Stores.expires_le :
    (∀ r ∈ x.records, x.expires ≤ st.input.now + secs r.ttl.toNat) ∧
      x.expires ≤ st.input.now + secs maxPositiveTtl.toNat := by
  rw [h.expires, h.records]
  refine ⟨fun r hr => ?_, ?_⟩
  · exact Nat.add_le_add_left (secs_le (UInt32.le_iff_toNat_le.mp (answerTtl_le_ttl hr))) _
  · exact Nat.add_le_add_left (secs_le (UInt32.le_iff_toNat_le.mp answerTtl_le_maxPositiveTtl)) _

/-- An entry without records is kept as long as its reply allows. -/
theorem Stores.negativeBound (hnil : x.records = []) :
    NegativeBound M t.candidate t.rtype (answerTtl M t.candidate t.rtype M.rcode).toNat := by
  obtain ⟨tx, y, hM, -⟩ := h.reply
  obtain ⟨bytes, now, -, hmatch⟩ := hM.input
  obtain ⟨-, -, hdec, -⟩ := matchingResponse_eq_some.mp hmatch
  exact negativeBound_answerTtl hdec (h.records ▸ hnil) h.lifetime

end

end Stores

/-- What is left of an entry is over when it expires. -/
theorem add_remaining_le {x : Entry} (h : now < x.expires) :
    now + secs (Cache.remaining x now).toNat ≤ x.expires := by
  have hle : (Cache.remaining x now).toNat ≤ (x.expires - now) / secs 1 := by
    rw [Cache.remaining, UInt32.toNat_ofNat']
    exact Nat.mod_le _ _
  calc now + secs (Cache.remaining x now).toNat
      ≤ now + (x.expires - now) / secs 1 * secs 1 := Nat.add_le_add_left (secs_le hle) _
    _ ≤ now + (x.expires - now) := Nat.add_le_add_left (Nat.div_mul_le_self _ _) _
    _ = x.expires := Nat.add_sub_cancel' h.le

/-- Later, no more is left of an entry.  Before it is stored there could be more seconds than 32
bits count. -/
theorem Stores.remaining_antitone {k : CacheKey} {x : Entry} {t : Task} {M : Message}
    (h : Stores st k x t M) {now' : Instant} (hnow : st.input.now ≤ now) (hle : now ≤ now') :
    Cache.remaining x now' ≤ Cache.remaining x now := by
  have hleft : x.expires - now ≤ secs maxPositiveTtl.toNat :=
    Nat.sub_le_iff_le_add'.mpr (h.expires_le.2.trans (Nat.add_le_add_right hnow _))
  have hfits : (x.expires - now) / secs 1 < 2 ^ 32 :=
    calc (x.expires - now) / secs 1 ≤ secs maxPositiveTtl.toNat / secs 1 :=
      Nat.div_le_div_right hleft
      _ < 2 ^ 32 := by decide
  have hless : (x.expires - now') / secs 1 ≤ (x.expires - now) / secs 1 :=
    Nat.div_le_div_right (Nat.sub_le_sub_left hle _)
  rw [UInt32.le_iff_toNat_le, Cache.remaining, Cache.remaining, UInt32.toNat_ofNat',
    UInt32.toNat_ofNat', Nat.mod_eq_of_lt hfits, Nat.mod_eq_of_lt (hless.trans_lt hfits)]
  exact hless

/-! ### Runs -/

/-- Every cached answer was stored by a step of the log. -/
def AllStored (log : EngineLog) (e : Engine) : Prop :=
  ∀ k x, e.cache.entries.get k = some x → ∃ st ∈ log, ∃ t M, Stores st k x t M

theorem AllStored.mid {log : EngineLog} {m : Mid} (h : AllStored log st.before)
    (hp : Path st (.first st) m) : AllStored (st :: log) m.engine := by
  intro k x hx
  rcases hp.cached k x hx with hx | ⟨tx, y, t, M, hM, hstore, hkey, hentry⟩
  · obtain ⟨st₀, hst₀, hstores⟩ := h k x hx
    exact ⟨st₀, mem_cons_of_mem _ hst₀, hstores⟩
  · simp only [storable, Bool.and_eq_true, decide_eq_true_eq] at hstore
    exact ⟨st, mem_cons_self, t, M, ⟨tx, y, hM, hentry⟩, hkey, hstore.1⟩

section Run

variable {entropy : Entropy} {log new old : EngineLog} {e : Engine} {st : Step Engine Op}

theorem Runs.allStored (h : Runs entropy log e) : AllStored log e :=
  Runs.step_invariant (by simp [AllStored, withEntropy])
    (fun log e e' hI hr k x hx => hI k x (hr.cache.get_eq k ▸ hx))
    (fun log st _ _ hI => hI.mid (apply_path st)) h

/-- A hit is an entry that is not over, with what is left of it. -/
theorem Hit.eq_aged {now : Instant} {k : CacheKey} {x hit : Entry} (h : Hit st now k x hit) :
    now < x.expires ∧ hit = Cache.aged x now := by
  obtain ⟨m, -, hx, hget⟩ := h.found
  obtain ⟨x', hx', hlive, heq, -⟩ := Cache.get_eq_some hget
  obtain rfl := Option.mem_unique hx hx'
  exact ⟨hlive, heq⟩

/-- What is found in the course of a step was stored by the step or by one before it. -/
theorem Hit.stored (h : Runs entropy log e) (hclock : Clock log) (hlog : log = new ++ st :: old)
    {now : Instant} {k : CacheKey} {x hit : Entry} (hhit : Hit st now k x hit) :
    ∃ st₀ ∈ st :: old, ∃ t M, Stores st₀ k x t M ∧ st₀.input.now ≤ now := by
  obtain ⟨m, hp, hx, -⟩ := hhit.found
  obtain ⟨e₀, h₀, hr⟩ := h.reached hlog
  have hbefore : AllStored old st.before := fun k x hx => h₀.allStored k x (hr.cache.get_eq k ▸ hx)
  obtain ⟨st₀, hst₀, t, M, hstores⟩ := hbefore.mid hp k x hx
  refine ⟨st₀, hst₀, t, M, hstores, ?_⟩
  rcases mem_cons.mp hst₀ with rfl | hmem
  · exact (Op.now_of_clock hhit.clock).le
  · exact hclock.le hlog hmem hhit.clock hstores.clock

/-- An answer given as one from the cache is made of a hit. -/
theorem Gave.hit {t : Task} {a : Answer} (h : Gave st t a) (hsource : a.source = .cache) :
    ∃ now k x hit, Hit st now k x hit ∧ a.records = hit.records ∧
      a.negativeTtl = if hit.records = [] then Cache.remaining hit now else 0 := by
  obtain ⟨m, id, hp, hid, ht, hwhy⟩ := h
  cases hwhy with
  | @cached c s x hop hc hscope hroute hx hlive hlast =>
    refine ⟨st.input.now, _, x, Cache.aged x st.input.now, ⟨hop.clock, m, hp, hx, ?_⟩, rfl, rfl⟩
    simp only [Cache.get, hx]
    rw [if_neg (not_le.mpr hlive)]
  | synthetic hop hnew h => exact absurd hsource (synthetic_cases h).2.1
  | noCandidates hop hnew h => cases hsource
  | unroutable hop hc h => cases hsource
  | replied hM hid ht hlast => cases hsource
  | budget h => cases hsource
  | noServers h => cases hsource
  | ceiling h => cases hsource
  | entropy h => cases hsource

/-- **Cached times to live are honest.**  In every run in which time does not go back: what is
cached was stored by a step of the run, to be kept for a positive time.  A hit at the time `now` on
an entry stored at `t₀` comes before the entry expires; each of its records is reported with a time
to live that ends no later than that of the record in the reply, and within a day of `t₀`; what is
left of an answer without records ends within the bound of the reply; and every answer given as one
from the cache reports a hit.  A later hit on the same entry reports no longer times to live. -/
theorem Runs.honest_ttls (h : Runs entropy log e) (hclock : Clock log) :
    (∀ k x, e.cache.entries.get k = some x → ∃ st ∈ log, ∃ t M, Stores st k x t M ∧
      st.input.now < x.expires) ∧
    (∀ new st old, log = new ++ st :: old → ∀ now k x hit, Hit st now k x hit →
      now < x.expires ∧ ∃ st₀ ∈ st :: old, ∃ t₀ t M, st₀.input.clock = some t₀ ∧ t₀ ≤ now ∧
        Stores st₀ k x t M ∧
        Carries (fun ttl wire => now + secs ttl.toNat ≤ t₀ + secs wire.toNat) M t.candidate t.rtype
          hit.records ∧
        (∀ r ∈ hit.records, now + secs r.ttl.toNat ≤ t₀ + secs maxPositiveTtl.toNat) ∧
        (hit.records = [] → ∃ ttl, NegativeBound M t.candidate t.rtype ttl ∧
          now + secs (Cache.remaining hit now).toNat ≤ t₀ + secs ttl)) ∧
    (∀ st ∈ log, ∀ t a, Gave st t a → a.source = .cache → ∃ now k x hit, Hit st now k x hit ∧
      a.records = hit.records ∧ a.negativeTtl = if hit.records = [] then Cache.remaining hit now
        else 0) ∧
    (∀ new st' mid st old, log = new ++ st' :: (mid ++ st :: old) →
      ∀ now now' k x hit hit', Hit st now k x hit →
      Hit st' now' k x hit' → List.Forall₂ (fun r r' => r'.ttl ≤ r.ttl) hit.records hit'.records ∧
        Cache.remaining hit' now' ≤ Cache.remaining hit now) := by
  refine ⟨fun k x hx => ?_, fun new st old hlog now k x hit hhit => ?_,
    fun st _ t a hgave hsource => hgave.hit hsource,
    fun new st' mid st old hlog now now' k x hit hit' hhit hhit' => ?_⟩
  · obtain ⟨st, hst, t, M, hstores⟩ := h.allStored k x hx
    exact ⟨st, hst, t, M, hstores, hstores.live⟩
  · obtain ⟨hlive, rfl⟩ := hhit.eq_aged
    obtain ⟨st₀, hst₀, t, M, hstores, hnow⟩ := hhit.stored h hclock hlog
    -- what is left, and each record with it, is over when the entry expires
    have hleft := add_remaining_le hlive
    have hrecord : ∀ ttl, now + secs (min ttl (Cache.remaining x now)).toNat ≤ x.expires :=
      fun ttl =>
      (Nat.add_le_add_left (secs_le (UInt32.le_iff_toNat_le.mp Std.min_le_right)) _).trans hleft
    refine ⟨hlive, st₀, hst₀, _, t, M, hstores.clock, hnow, hstores, ?_, fun r hr => ?_,
      fun hnil => ?_⟩
    · obtain ⟨tx, y, hM, rfl⟩ := hstores.reply
      refine (carries_answerRecords hM.code t.candidate t.rtype).aged fun r hr => ?_
      exact (hrecord r.ttl).trans (hstores.expires_le.1 r hr)
    · obtain ⟨r₀, hr₀, rfl⟩ := mem_map.mp hr
      exact (hrecord r₀.ttl).trans hstores.expires_le.2
    · exact ⟨_, hstores.negativeBound (map_eq_nil_iff.mp hnil), hstores.expires ▸ hleft⟩
  · obtain ⟨-, rfl⟩ := hhit.eq_aged
    obtain ⟨-, rfl⟩ := hhit'.eq_aged
    have hle : now ≤ now' := hclock.le hlog (by simp) hhit'.clock hhit.clock
    have hlog' : log = (new ++ st' :: mid) ++ st :: old := by rw [hlog, append_assoc, cons_append]
    obtain ⟨st₀, -, t, M, hstores, hnow⟩ := hhit.stored h hclock hlog'
    have hless := hstores.remaining_antitone hnow hle
    refine ⟨?_, hless⟩
    simp only [Cache.aged, forall₂_map_left_iff, forall₂_map_right_iff]
    exact forall₂_same.mpr fun r _ =>
      Std.le_min_iff.mpr ⟨Std.min_le_left, Std.le_trans Std.min_le_right hless⟩

end Run

/-- The name is asked for again half a minute after it was answered. -/
def askAgainOnLan : List Op :=
  answerOnLan ++ [.resolve 8 (ascii "peios.example") Rtype.a false (secs 31)]

/-- The second question finds the answer of the first; with the thirty seconds it reports, the
answer ends when that of the reply did. -/
theorem honest_ttls_askAgainOnLan : ∃ st ∈ (ran zeros askAgainOnLan).1, ∃ x hit,
    Hit st (secs 31) (CacheKey.new peiosExample Rtype.a "lan") x hit ∧
      hit.records = [Record.new peiosExample 30 (.a #v[192, 0, 2, 7])] ∧ secs 31 < x.expires := by
  have hclock : Clock (ran zeros askAgainOnLan).1 := by decide +kernel
  have hlog : (ran zeros askAgainOnLan).1 =
      [] ++ ⟨(ran zeros answerOnLan).2,
        .resolve 8 (ascii "peios.example") Rtype.a false (secs 31)⟩ ::
        (ran zeros answerOnLan).1 := rfl
  have hhit : Hit ⟨(ran zeros answerOnLan).2,
      .resolve 8 (ascii "peios.example") Rtype.a false (secs 31)⟩ (secs 31)
      (CacheKey.new peiosExample Rtype.a "lan")
      ⟨.found, [Record.new peiosExample 60 (.a #v[192, 0, 2, 7])], 0, .v4 #v[192, 0, 2, 1], secs 61⟩
      ⟨.found, [Record.new peiosExample 30 (.a #v[192, 0, 2, 7])], 0, .v4 #v[192, 0, 2, 1],
        secs 61⟩ :=
    ⟨rfl, _, .refl, by decide +kernel, by decide +kernel⟩
  refine ⟨_, mem_cons_self, _, _, hhit, rfl, ?_⟩
  exact ((Runs.honest_ttls (runs_ran zeros askAgainOnLan) hclock).2.1 _ _ _ hlog _ _ _ _ hhit).1

/-! ### Answers that say there is nothing -/

/-- The reply has aliases to follow from the name, and no record of the type where they lead. -/
def bareAlias (M : Message) (n : Name) (rtype : UInt16) : Bool :=
  let relevant := (relevantRecords M.answers n rtype).1
  rtype != Rtype.any && !relevant.isEmpty && relevant.all fun r => r.rtype != rtype

/-- The step brings such a reply, NOERROR and whole, to a query under way. -/
def bringsBareAlias (st : Step Engine Op) : Bool :=
  match st.input with
  | .received tx bytes _ =>
    match st.before.txs.get tx, st.before.matchingResponse tx bytes with
    | some x, some M =>
      match st.before.tasks.get x.task with
      | some t => !x.truncated M && M.rcode == 0 && bareAlias M t.candidate t.rtype
      | none => false
    | _, _ => false
  | _ => false

theorem Answers.bringsBareAlias {tx : Txid} {x : Tx} {t : Task} {M : Message}
    (h : Answers st tx x t M) (hcode : M.rcode = 0) :
    bringsBareAlias st = bareAlias M t.candidate t.rtype := by
  obtain ⟨bytes, now, hop, hM⟩ := h.input
  simp only [Engine.bringsBareAlias, hop, h.live, hM, h.task, h.whole, hcode]
  rfl

/-- **Absence is cached only briefly.**  In every run none of whose steps brings a NOERROR reply
that has aliases only: an entry without records of its type, which is not ANY, was stored for at
most five minutes, and because the authority section of its reply held an SOA record that encloses
the name where the aliases lead. -/
theorem Runs.absence_brief {entropy : Entropy} {log : EngineLog} {e : Engine}
    (h : Runs entropy log e) (hbare : ∀ st ∈ log, bringsBareAlias st = false) {k : CacheKey}
    {x : Entry} (hx : e.cache.entries.get k = some x) (hany : k.rtype ≠ Rtype.any)
    (hnone : ∀ r ∈ x.records, r.rtype ≠ k.rtype) :
    ∃ st ∈ log, ∃ t M, Stores st k x t M ∧ x.expires ≤ st.input.now + secs maxNegativeTtl.toNat ∧
      ∃ soa minimum, SoaFor M.authority
        (relevantRecords M.answers t.candidate t.rtype).2 soa minimum := by
  obtain ⟨st, hst, t, M, hstores⟩ := h.allStored k x hx
  have hnil : x.records = [] := by
    by_contra hne
    obtain ⟨tx, y, hM, -⟩ := hstores.reply
    rw [hstores.records] at hne
    have hcode : M.rcode = 0 := by
      have hout := outcomeOf_eq hM.code
      rw [outcome_of_answerRecords hne] at hout
      by_contra hcode
      rw [if_neg hcode] at hout
      cases hout
    have hrecords : x.records = (relevantRecords M.answers t.candidate t.rtype).1.map
        (recase t.candidate) := by
      rw [hstores.records]
      simp [answerRecords, outcome_of_answerRecords hne]
    have hbring : bareAlias M t.candidate t.rtype = true := by
      rw [hstores.key] at hany hnone
      simp only [bareAlias, Bool.and_eq_true, bne_iff_ne, Bool.not_eq_true', all_eq_true,
        isEmpty_eq_false_iff]
      refine ⟨⟨hany, fun hnil => ?_⟩, fun r hr => ?_⟩
      · rw [← hstores.records, hrecords, hnil] at hne
        exact hne rfl
      · have hrtype := hnone _ (hrecords ▸ mem_map_of_mem hr)
        rwa [(recase_recast t.candidate r).rtype] at hrtype
    rw [← hM.bringsBareAlias hcode, hbare st hst] at hbring
    cases hbring
  have hbound := hstores.negativeBound hnil
  obtain ⟨soa, minimum, hsoa, -⟩ := hbound.soa
  refine ⟨st, hst, t, M, hstores, ?_, soa, minimum, hsoa⟩
  rw [hstores.expires]
  exact Nat.add_le_add_left (secs_le hbound.cap) _

/-- The server says that the name does not exist, and for how long. -/
def denyForAMinute : List Op :=
  askOnLan ++ [.received 2 (Message.wire
    { header := { response := true, rcode := 3 }
      questions := [Question.new peiosExample Rtype.a]
      authority := [Record.new peiosExample 3600 (.soa Name.root Name.root 0 0 0 0 60)] }) (secs 1)]

/-- The absence is kept for a minute. -/
theorem absence_brief_denyForAMinute : ∃ x,
    (ran zeros denyForAMinute).2.cache.entries.get (CacheKey.new peiosExample Rtype.a "lan") =
      some x ∧
      x.expires = secs 61 ∧ ∃ st ∈ (ran zeros denyForAMinute).1,
        x.expires ≤ st.input.now + secs maxNegativeTtl.toNat := by
  have hx : (ran zeros denyForAMinute).2.cache.entries.get
      (CacheKey.new peiosExample Rtype.a "lan") =
      some ⟨.notFound, [], 3, .v4 #v[192, 0, 2, 1], secs 61⟩ := by decide +kernel
  obtain ⟨st, hst, -, -, -, hle, -⟩ :=
    Runs.absence_brief (runs_ran zeros denyForAMinute) (by decide +kernel) hx (by decide) (by simp)
  exact ⟨_, hx, rfl, st, hst, hle⟩

/-- The server answers the question for an address with an alias alone, good for a day, and no
authority section. -/
def aliasOnLan : List Op :=
  askOnLan ++ [.received 2 (replyOnLan {}
    [Record.new peiosExample 86400 (.cname hostExample)]) (secs 1)]

/-- **That there is no address is kept for a day.**  The entry has no record of its type, and from
no step of the run is its end at most five minutes away. -/
theorem alias_kept_for_a_day : ∃ x,
    (ran zeros aliasOnLan).2.cache.entries.get (CacheKey.new peiosExample Rtype.a "lan") = some x ∧
      (∀ r ∈ x.records, r.rtype ≠ Rtype.a) ∧ x.expires = secs 1 + secs 86400 ∧
      ¬ ∃ st ∈ (ran zeros aliasOnLan).1, x.expires ≤ st.input.now + secs maxNegativeTtl.toNat :=
  ⟨⟨.found, [Record.new peiosExample 86400 (.cname hostExample)], 0,
    .v4 #v[192, 0, 2, 1], secs 86401⟩, by decide +kernel, by decide +kernel, rfl, by decide +kernel⟩

end Resolvd.Engine
