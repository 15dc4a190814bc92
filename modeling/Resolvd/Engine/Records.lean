import Mathlib.Logic.Relation
import Resolvd.Engine.Types

/-!
# Records of a reply

The functions of `engine.rs` over record lists: `relevant_records` keeps the requested record set
and its CNAME path out of a reply, `negative_ttl` finds how long an absence lasts, `chase` and
`combine` turn the answers of a lookup's tasks into addresses.

* `relevantRecords_congr`: the kept records do not depend on the case of the name asked for;
* `relevantRecords_onPath`: they stand on the path that their own aliases make from that name;
* `combine_outcome`, `combine_from`: the outcome and the addresses of a lookup in terms of the answers of its tasks.
-/

namespace Resolvd.Engine

open Lib Dns List

variable {records : List Record} {keep : List Bool} {r : Record} {name candidate : Name}
    {qtype : UInt16}

/-! ### `relevant_records` -/

/-- The record is of the requested set at `name`. -/
def isAsked (qtype : UInt16) (name : Name) (r : Record) : Bool :=
  r.class_ == Class.IN && r.name.eq name && (r.rtype == qtype || qtype == Rtype.any)

/-- The target of a CNAME record at `name`. -/
def aliasTarget (name : Name) (r : Record) : Option Name :=
  if r.class_ == Class.IN && r.name.eq name then
    match r.rdata with
    | .cname target => some target
    | _ => none
  else none

/-- The first alias at `name`: its index and its target. -/
def findAlias (records : List Record) (name : Name) : Option (ℕ × Name) :=
  records.zipIdx.findSome? fun (r, i) => (aliasTarget name r).map fun target => (i, target)

/-- Mark what is asked for at `name`. -/
def mark (qtype : UInt16) (name : Name) (records : List Record) (keep : List Bool) : List Bool :=
  List.zipWith (fun r k => k || isAsked qtype name r) records keep

/-- The loop of `relevant_records`, with the aliases it may still follow. -/
def relevantLoop (records : List Record) (qtype : UInt16) :
    ℕ → List Bool → Name → List Name → List Bool × Name
  | 0, keep, name, _ => (mark qtype name records keep, name)
  | depth + 1, keep, name, seen =>
    let keep := mark qtype name records keep
    if records.any (isAsked qtype name) || seen.any name.eq then (keep, name)
    else
      match findAlias records name with
      | none => (keep, name)
      | some (i, target) =>
        relevantLoop records qtype depth (keep.set i true) target (seen ++ [name])

/-- The records that are marked. -/
def kept (records : List Record) (keep : List Bool) : List Record :=
  (records.zip keep).filterMap fun (r, k) => if k then some r else none

/-- `relevant_records`: the requested records with their CNAME path, and the name they are at. -/
def relevantRecords (records : List Record) (candidate : Name) (qtype : UInt16) :
    List Record × Name :=
  let (keep, name) := relevantLoop records qtype 16 (List.replicate records.length false)
    candidate []
  (kept records keep, name)

section Congr

variable {n n' : Name} (h : n.eq n' = true)

include h in
theorem isAsked_congr (qtype : UInt16) : isAsked qtype n = isAsked qtype n' := by
  funext r
  simp only [isAsked, Name.eq_congr_right h]

include h in
theorem findAlias_congr (records : List Record) : findAlias records n = findAlias records n' := by
  have : aliasTarget n = aliasTarget n' := by
    funext r
    simp only [aliasTarget, Name.eq_congr_right h]
  simp only [findAlias, this]

include h in
/-- A name seen in another spelling is seen, and marks what it marked. -/
theorem relevantLoop_congr (records : List Record) (qtype : UInt16) (depth : ℕ) (keep : List Bool)
    (seen seen' : List Name) (hseen : ∀ m, seen.any (Name.eq m) = seen'.any (Name.eq m)) :
    (relevantLoop records qtype depth keep n seen).1 =
      (relevantLoop records qtype depth keep n' seen').1 := by
  induction depth generalizing n n' keep seen seen' with
  | zero => simp only [relevantLoop, mark, isAsked_congr h]
  | succ depth ih =>
    have hn : (seen.any n.eq) = seen'.any n'.eq := by
      rw [hseen n]
      congr 1
      funext m
      exact Name.eq_congr_left h m
    simp only [relevantLoop, mark, isAsked_congr h, findAlias_congr h, hn]
    split
    · rfl
    · split
      · rfl
      · next i target _ =>
        refine ih (Name.eq_refl target) _ _ _ fun m => ?_
        simp only [any_append, hseen m, any_cons, Name.eq_congr_right h, any_nil]

include h in
/-- **The kept records do not depend on the case of the name asked for.** -/
theorem relevantRecords_congr (records : List Record) (qtype : UInt16) :
    (relevantRecords records n qtype).1 = (relevantRecords records n' qtype).1 := by
  simp only [relevantRecords, relevantLoop_congr h records qtype 16 _ [] [] (fun _ => rfl)]

end Congr

/-! #### What is kept -/

/-- The record is marked. -/
def Marked (records : List Record) (keep : List Bool) (r : Record) : Prop :=
  (r, true) ∈ records.zip keep

theorem mem_kept : r ∈ kept records keep ↔ Marked records keep r := by
  simp only [kept, mem_filterMap, Prod.exists, Option.ite_none_right_eq_some,
    Option.some.injEq, Marked]
  constructor
  · rintro ⟨r', k, hm, rfl, rfl⟩
    exact hm
  · intro h
    exact ⟨r, true, h, rfl, rfl⟩

theorem marked_iff :
    Marked records keep r ↔ ∃ i : ℕ, records[i]? = some r ∧ keep[i]? = some true := by
  simp only [Marked, mem_iff_getElem?, List.getElem?_zip_eq_some]

section Marked

variable {records : List Record} {keep : List Bool} {r : Record}

@[simp] theorem length_mark (qtype : UInt16) (name : Name) (h : keep.length = records.length) :
    (mark qtype name records keep).length = records.length := by
  simp [mark, h]

theorem Marked.mark (h : Marked records keep r) (qtype : UInt16) (name : Name) :
    Marked records (mark qtype name records keep) r := by
  obtain ⟨i, hr, hk⟩ := marked_iff.mp h
  exact marked_iff.mpr ⟨i, hr, by simp [Engine.mark, List.getElem?_zipWith, hr, hk]⟩

/-- What `mark` adds is asked for. -/
theorem Marked.of_mark {qtype : UInt16} {name : Name}
    (h : Marked records (Engine.mark qtype name records keep) r) :
    Marked records keep r ∨ isAsked qtype name r = true := by
  obtain ⟨i, hr, hk⟩ := marked_iff.mp h
  simp only [Engine.mark, List.getElem?_zipWith, hr] at hk
  cases hki : keep[i]? with
  | none => simp [hki] at hk
  | some k =>
    simp only [hki, Option.some.injEq, Bool.or_eq_true] at hk
    refine hk.imp_left fun hk => marked_iff.mpr ⟨i, hr, ?_⟩
    rw [hki, hk]

theorem Marked.set (h : Marked records keep r) (i : ℕ) : Marked records (keep.set i true) r := by
  obtain ⟨j, hr, hk⟩ := marked_iff.mp h
  refine marked_iff.mpr ⟨j, hr, ?_⟩
  rw [List.getElem?_set]
  split
  · next hij =>
    subst hij
    rw [if_pos (List.getElem?_eq_some_iff.mp hk).1]
  · exact hk

theorem marked_set {i : ℕ} (hr : records[i]? = some r) (hlen : keep.length = records.length) :
    Marked records (keep.set i true) r := by
  refine marked_iff.mpr ⟨i, hr, ?_⟩
  rw [List.getElem?_set_self (hlen ▸ (List.getElem?_eq_some_iff.mp hr).1)]

/-- What a single mark adds is the record it is for. -/
theorem Marked.of_set {i : ℕ} {r' : Record} (hi : records[i]? = some r')
    (h : Marked records (keep.set i true) r) : Marked records keep r ∨ r = r' := by
  obtain ⟨j, hr, hk⟩ := marked_iff.mp h
  rw [List.getElem?_set] at hk
  split at hk
  · next hij =>
    subst hij
    exact .inr (Option.mem_unique hr hi)
  · exact .inl (marked_iff.mpr ⟨j, hr, hk⟩)

end Marked

theorem aliasTarget_eq_some {target : Name} :
    aliasTarget name r = some target ↔ r.class_ = Class.IN ∧ r.name.eq name = true ∧
      r.rdata = .cname target := by
  simp only [aliasTarget, Bool.and_eq_true, beq_iff_eq]
  split
  · next h =>
    split
    · next hdata => simp [h, hdata]
    · next hdata =>
      simp only [reduceCtorEq, false_iff, not_and]
      exact fun _ _ heq => hdata target heq
  · next h =>
    simp only [reduceCtorEq, false_iff, not_and]
    exact fun hc hn => absurd ⟨hc, hn⟩ h

theorem findAlias_spec {target : Name} {i : ℕ} (h : findAlias records name = some (i, target)) :
    ∃ r, records[i]? = some r ∧ aliasTarget name r = some target := by
  simp only [findAlias, List.findSome?_eq_some_iff, Option.map_eq_some_iff, Prod.mk.injEq] at h
  obtain ⟨l₁, ⟨r, j⟩, l₂, hl, ⟨t, ht, rfl, rfl⟩, -⟩ := h
  have hmem : (r, j) ∈ records.zipIdx := by rw [hl]; simp
  exact ⟨r, mem_zipIdx_iff_getElem?.mp hmem, ht⟩

/-- An alias of the list leads from one name to another. -/
def Leads (records : List Record) (name target : Name) : Prop :=
  ∃ r ∈ records, aliasTarget name r = some target

/-- The names to which the aliases of the list lead. -/
abbrev Reach (records : List Record) : Name → Name → Prop := Relation.ReflTransGen (Leads records)

/-- The record stands at a name that the marked aliases lead to, where it is asked for or an alias
itself. -/
def OnPath (records : List Record) (qtype : UInt16) (start : Name) (r : Record) : Prop :=
  ∃ n, Reach records start n ∧ (isAsked qtype n r = true ∨ ∃ target, aliasTarget n r = some target)

/-- **What the loop of `relevant_records` marks**: it takes no mark back, and what it marks is on
the path. -/
theorem relevantLoop_marked {depth : ℕ} {seen : List Name} (hlen : keep.length = records.length) :
    (∀ r, Marked records keep r →
      Marked records (relevantLoop records qtype depth keep name seen).1 r) ∧
      ∀ r, Marked records (relevantLoop records qtype depth keep name seen).1 r →
        Marked records keep r ∨
        OnPath (kept records (relevantLoop records qtype depth keep name seen).1) qtype name r := by
  -- when the loop stops, what is asked for at the name it has reached is marked
  have hstop : ∀ (keep : List Bool) (name : Name),
      (∀ r, Marked records keep r → Marked records (mark qtype name records keep) r) ∧
        ∀ r, Marked records (mark qtype name records keep) r → Marked records keep r ∨
          OnPath (kept records (mark qtype name records keep)) qtype name r := fun keep name =>
    ⟨fun r hr => hr.mark qtype name, fun r hr => hr.of_mark.imp_right fun ha =>
      ⟨name, .refl, .inl ha⟩⟩
  induction depth generalizing keep name seen with
  | zero => exact hstop keep name
  | succ depth ih =>
    simp only [relevantLoop]
    split
    · exact hstop keep name
    · split
      · exact hstop keep name
      · next i target hf =>
        obtain ⟨link, hi, hlink⟩ := findAlias_spec hf
        have hlen' := length_mark qtype name hlen
        obtain ⟨hkeep, hpath⟩ :=
          @ih ((mark qtype name records keep).set i true) target (seen ++ [name])
          (by rw [length_set, hlen'])
        have hmarked := hkeep link (marked_set hi hlen')
        refine ⟨fun r hr => hkeep r ((hr.mark qtype name).set i), fun r hr => ?_⟩
        rcases hpath r hr with hr | ⟨n, hn, hat⟩
        · rcases hr.of_set hi with hr | rfl
          · exact hr.of_mark.imp_right fun ha => ⟨name, .refl, .inl ha⟩
          · exact .inr ⟨name, .refl, .inr ⟨target, hlink⟩⟩
        · exact .inr ⟨n, .head ⟨link, mem_kept.mpr hmarked, hlink⟩ hn, hat⟩

/-- **The kept records are on the path that their aliases make from the candidate.** -/
theorem relevantRecords_onPath (h : r ∈ (relevantRecords records candidate qtype).1) :
    OnPath (relevantRecords records candidate qtype).1 qtype candidate r := by
  have hlen : (List.replicate records.length false).length = records.length := length_replicate
  have hmarked : Marked records
      (relevantLoop records qtype 16 (List.replicate records.length false) candidate []).1 r :=
    mem_kept.mp h
  refine ((relevantLoop_marked hlen).2 r hmarked).resolve_left fun hr => ?_
  -- nothing is marked at the start
  obtain ⟨i, -, hk⟩ := marked_iff.mp hr
  cases eq_of_mem_replicate (mem_of_getElem? hk)

theorem OnPath.class_eq {start : Name}
    (h : OnPath records qtype start r) : r.class_ = Class.IN := by
  obtain ⟨n, -, ha | ⟨target, ht⟩⟩ := h
  · simp only [isAsked, Bool.and_eq_true, beq_iff_eq] at ha
    exact ha.1.1
  · exact (aliasTarget_eq_some.mp ht).1

theorem relevantRecords_class
    (h : r ∈ (relevantRecords records candidate qtype).1) : r.class_ = Class.IN :=
  (relevantRecords_onPath h).class_eq

theorem relevantRecords_subset
    (h : r ∈ (relevantRecords records candidate qtype).1) : r ∈ records := by
  obtain ⟨i, hr, -⟩ := marked_iff.mp (mem_kept.mp h)
  exact mem_of_getElem? hr

/-! ### `negative_ttl` -/

/-- `negative_ttl` (RFC 2308): the minimum of the SOA record above the name, bounded by its own time
to live and the cap. -/
def negativeTtl (authority : List Record) (name : Name) : UInt32 :=
  let soa := (authority.filter fun r =>
    r.class_ == Class.IN && name.endsWith r.name).findSome? fun r =>
    match r.rdata with
    | .soa _ _ _ _ _ _ minimum => some (min minimum r.ttl)
    | _ => none
  min (soa.getD 0) maxNegativeTtl

/-! ### `chase` and `combine` -/

/-- The loop of `chase`: the name after at most so many aliases. -/
def chaseName (records : List Record) (rtype : UInt16) : ℕ → Name → Name
  | 0, name => name
  | depth + 1, name =>
    let next := (records.find? fun r => r.name.eq name).bind fun r =>
      match r.rdata with
      | .cname t => some t
      | _ => none
    match next with
    | some t =>
      if records.any fun r => r.name.eq name && r.rtype == rtype then name
      else chaseName records rtype depth t
    | none => name

/-- `chase`: follow the aliases from `start` and collect the addresses at the end. -/
def chase (records : List Record) (start : Name) (rtype : UInt16) : Name × List (IpAddr × UInt32) :=
  let name := chaseName records rtype 16 start
  let addrs := (records.filter fun r => r.name.eq name).filterMap fun r =>
    match r.rdata with
    | .a addr => if rtype = Rtype.a then some (.v4 addr, r.ttl) else none
    | .aaaa addr => if rtype = Rtype.aaaa then some (.v6 addr, r.ttl) else none
    | _ => none
  (name, addrs)

/-- The variables of the loop of `combine`. -/
structure Combining where
  out : Addresses
  anyFound : Bool := false
  anyUnavailable : Bool := false
  metadataRank : Option (Bool × UInt16) := none

/-- `<` on `(bool, u16)`. -/
def rankLt (a b : Bool × UInt16) : Bool := (!a.1 && b.1) || (a.1 == b.1 && a.2 < b.2)

/-- One turn of the loop of `combine`. -/
def combineOne (name : Name) (c : Combining) (result : UInt16 × Answer) : Combining :=
  let (rtype, answer) := result
  match answer.outcome with
  | .found =>
    let (canonical, addrs) := chase answer.records (answer.resolvedName.getD name) rtype
    let rank := (addrs.isEmpty, rtype)
    let better := match c.metadataRank with
      | none => true
      | some best => rankLt rank best
    let out := if better then { c.out with canonical := canonical, source := answer.source }
      else c.out
    { c with
      anyFound := true
      out := { out with addresses := out.addresses ++ addrs }
      metadataRank := if better then some rank else c.metadataRank }
  | .unavailable => { c with anyUnavailable := true }
  | .notFound => c

/-- `combine`: the answers of a lookup's tasks as addresses and a canonical name. -/
def combine (lookup : Lookup) : Addresses :=
  let c := lookup.results.foldl (combineOne lookup.name) { out := { canonical := lookup.name } }
  { c.out with
    outcome := if c.anyFound then .found else if c.anyUnavailable then .unavailable else .notFound }

theorem combineOne_flags (name : Name) (c : Combining) (r : UInt16 × Answer) :
    (combineOne name c r).anyFound = (c.anyFound || r.2.outcome == .found) ∧
      (combineOne name c r).anyUnavailable = (c.anyUnavailable || r.2.outcome == .unavailable) := by
  obtain ⟨rtype, answer⟩ := r
  simp only [combineOne]
  split
  · next h => simp [h]
  · next h => simp [h]
  · next h => simp [h]

theorem foldl_combineOne_flags (name : Name) (rs : List (UInt16 × Answer)) (c : Combining) :
    (rs.foldl (combineOne name) c).anyFound = (c.anyFound || rs.any fun r =>
      r.2.outcome == .found) ∧
      (rs.foldl (combineOne name) c).anyUnavailable =
        (c.anyUnavailable || rs.any fun r => r.2.outcome == .unavailable) := by
  induction rs generalizing c with
  | nil => simp
  | cons r rs ih =>
    obtain ⟨h1, h2⟩ := combineOne_flags name c r
    obtain ⟨ih1, ih2⟩ := ih (combineOne name c r)
    simp [ih1, ih2, h1, h2, Bool.or_assoc]

/-- **A lookup is found when one of its answers is, not found when all are, and unavailable
otherwise.** -/
theorem combine_outcome (lookup : Lookup) :
    ((combine lookup).outcome = .found ↔ ∃ r ∈ lookup.results, r.2.outcome = .found) ∧
      ((combine lookup).outcome = .notFound ↔ ∀ r ∈ lookup.results, r.2.outcome = .notFound) := by
  obtain ⟨h1, h2⟩ := foldl_combineOne_flags lookup.name lookup.results
    { out := { canonical := lookup.name } }
  have hf : (lookup.results.any fun r => r.2.outcome == .found) = true ↔
      ∃ r ∈ lookup.results, r.2.outcome = .found := by simp
  have hu : (lookup.results.any fun r => r.2.outcome == .unavailable) = true ↔
      ∃ r ∈ lookup.results, r.2.outcome = .unavailable := by simp
  simp only [combine, h1, h2, Bool.false_or, hf, hu]
  constructor
  · split_ifs with h h' <;> simp [h]
  · split_ifs with h h'
    · simp only [false_iff, not_forall]
      obtain ⟨r, hr, ho⟩ := h
      exact ⟨r, hr, by simp [ho]⟩
    · simp only [false_iff, not_forall]
      obtain ⟨r, hr, ho⟩ := h'
      exact ⟨r, hr, by simp [ho]⟩
    · simp only [true_iff]
      intro r hr
      cases ho : r.2.outcome with
      | found => exact absurd ⟨r, hr, ho⟩ h
      | notFound => rfl
      | unavailable => exact absurd ⟨r, hr, ho⟩ h'

/-- The record holds the address, with this time to live. -/
def IsAddress (r : Record) (p : IpAddr × UInt32) : Prop :=
  r.ttl = p.2 ∧ match p.1 with
    | .v4 a => r.rdata = .a a
    | .v6 a => r.rdata = .aaaa a

theorem chase_addresses {start : Name} {rtype : UInt16} {p : IpAddr × UInt32}
    (h : p ∈ (chase records start rtype).2) : ∃ r ∈ records, IsAddress r p := by
  simp only [chase, mem_filterMap, mem_filter] at h
  obtain ⟨r, ⟨hr, -⟩, hp⟩ := h
  refine ⟨r, hr, ?_⟩
  split at hp
  · next addr hdata =>
    split at hp
    · obtain rfl := Option.some.inj hp
      exact ⟨rfl, hdata⟩
    · cases hp
  · next addr hdata =>
    split at hp
    · obtain rfl := Option.some.inj hp
      exact ⟨rfl, hdata⟩
    · cases hp
  · cases hp

/-- Addresses and source come from these answers. -/
def Addresses.From (out : Addresses) (results : List (UInt16 × Answer)) : Prop :=
  (∀ p ∈ out.addresses, ∃ r ∈ results, r.2.outcome = .found ∧
    ∃ record ∈ r.2.records, IsAddress record p) ∧
    (out.source = .local ∨ ∃ r ∈ results, r.2.outcome = .found ∧ r.2.source = out.source)

theorem combineOne_from (name : Name) {c : Combining} {rs : List (UInt16 × Answer)}
    (r : UInt16 × Answer) (h : c.out.From rs) : (combineOne name c r).out.From (rs ++ [r]) := by
  have hmono : ∀ {P : UInt16 × Answer → Prop}, (∃ r ∈ rs, P r) → ∃ r' ∈ rs ++ [r], P r' := by
    rintro P ⟨r', hr', hP⟩
    exact ⟨r', mem_append_left _ hr', hP⟩
  have hlast : r ∈ rs ++ [r] := mem_append_right _ mem_cons_self
  obtain ⟨rtype, answer⟩ := r
  obtain ⟨haddr, hsource⟩ := h
  unfold combineOne
  dsimp only
  split
  · next hfound =>
    generalize (match c.metadataRank with
      | none => true
      | some best => rankLt _ best) = better
    refine ⟨fun p hp => ?_, ?_⟩
    · rcases mem_append.mp hp with hp | hp
      · refine hmono (haddr p ?_)
        cases better <;> exact hp
      · obtain ⟨record, hrec, hold⟩ := chase_addresses hp
        exact ⟨_, hlast, hfound, record, hrec, hold⟩
    · cases better with
      | true => exact .inr ⟨_, hlast, hfound, rfl⟩
      | false => exact hsource.imp_right hmono
  · exact ⟨fun p hp => hmono (haddr p hp), hsource.imp_right hmono⟩
  · exact ⟨fun p hp => hmono (haddr p hp), hsource.imp_right hmono⟩

/-- **The addresses of a lookup are those in the records of its found answers.** -/
theorem combine_from (lookup : Lookup) : (combine lookup).From lookup.results := by
  have hfold : ∀ (todo done : List (UInt16 × Answer)) (c : Combining), c.out.From done →
      (todo.foldl (combineOne lookup.name) c).out.From (done ++ todo) := by
    intro todo
    induction todo with
    | nil => exact fun done c h => by rwa [append_nil]
    | cons r todo ih =>
      intro done c h
      have hnext := ih (done ++ [r]) _ (combineOne_from lookup.name r h)
      rwa [append_assoc] at hnext
  exact hfold lookup.results [] { out := { canonical := lookup.name } } ⟨by simp, .inl rfl⟩

theorem combine_addresses_nil {lookup : Lookup} (h : (combine lookup).outcome ≠ .found) :
    (combine lookup).addresses = [] := by
  refine eq_nil_iff_forall_not_mem.mpr fun p hp => ?_
  obtain ⟨r, hr, hfound, -⟩ := (combine_from lookup).1 p hp
  exact h ((combine_outcome lookup).1.mpr ⟨r, hr, hfound⟩)

end Resolvd.Engine
