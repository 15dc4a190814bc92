import Mathlib.Data.Prod.Lex
import Resolvd.Engine.Core

/-!
# The path of the aliases

`relevant_records`, `chase` and `combine` against what they are for.  A `Walk` is the path from the
name asked for, told without the variables of the loop: each name has the first alias of the one
before it, and the walk goes on until a name owns what is asked for, is met again, has no alias, or
sixteen aliases were followed.

* `relevantRecords_walk`: `relevant_records` keeps the aliases of the walk and what is asked for at its end;
* `chase_agrees`: `chase` finds the addresses there, and the name unless the walk has met a name again;
* `combine_any_order`: the answers of a lookup's two tasks may come in any order.
-/

namespace Resolvd.Engine

open Lib Dns List

variable {records : List Record} {name : Name} {i : ℕ} {r s : UInt16 × Answer}
    {results : List (UInt16 × Answer)} {c : Combining}

/-! ### The walk -/

/-- The record at the index is the first alias at the name. -/
structure FirstAlias (records : List Record) (name : Name) (i : ℕ) (target : Name) : Prop where
  at_index : ∃ r, records[i]? = some r ∧ aliasTarget name r = some target
  first : ∀ j < i, ∀ r, records[j]? = some r → aliasTarget name r = none

/-- The walk ends at its `i`-th name. -/
def Stops (records : List Record) (qtype : UInt16) (p : ℕ → Name) (i : ℕ) : Prop :=
  (∃ r ∈ records, isAsked qtype (p i) r = true) ∨ (∃ j < i, (p i).eq (p j) = true) ∨
    (∀ r ∈ records, aliasTarget (p i) r = none) ∨ i = 16

/-- The walk from a name: its names up to `p k`, and where their aliases stand in the list. -/
structure Walk (records : List Record) (qtype : UInt16) (start : Name) (k : ℕ) (p : ℕ → Name)
    (at_ : ℕ → ℕ) : Prop where
  start : p 0 = start
  next : ∀ i < k, FirstAlias records (p i) (at_ i) (p (i + 1))
  goesOn : ∀ i < k, ¬ Stops records qtype p i
  stops : Stops records qtype p k

/-- What is kept of the records: the aliases of the walk, and what is asked for at its end. -/
def onWalk (records : List Record) (qtype : UInt16) (k : ℕ) (p : ℕ → Name) (at_ : ℕ → ℕ) :
    List Record :=
  (records.zipIdx.filter fun x => (List.range k).any (fun i => at_ i == x.2) ||
    isAsked qtype (p k) x.1).map Prod.fst

theorem FirstAlias.index_unique {t t' : Name} {j : ℕ} (h : FirstAlias records name i t)
    (h' : FirstAlias records name j t') : i = j := by
  obtain ⟨r, hr, ht⟩ := h.at_index
  obtain ⟨r', hr', ht'⟩ := h'.at_index
  rcases Nat.lt_trichotomy i j with hlt | heq | hlt
  · rw [h'.first i hlt r hr] at ht
    cases ht
  · exact heq
  · rw [h.first j hlt r' hr'] at ht'
    cases ht'

theorem findAlias_eq_none :
    findAlias records name = none ↔ ∀ r ∈ records, aliasTarget name r = none := by
  simp only [findAlias, List.findSome?_eq_none_iff, Option.map_eq_none_iff, Prod.forall]
  constructor
  · intro h r hr
    obtain ⟨i, hi⟩ := mem_iff_getElem?.mp hr
    exact h r i (mem_zipIdx_iff_getElem?.mpr hi)
  · exact fun h r i hr => h r (mem_of_getElem? (mem_zipIdx_iff_getElem?.mp hr))

theorem firstAlias_of_findAlias {target : Name}
    (h : findAlias records name = some (i, target)) : FirstAlias records name i target := by
  refine ⟨findAlias_spec h, fun j hj r hr => ?_⟩
  simp only [findAlias, List.findSome?_eq_some_iff, Option.map_eq_some_iff, Prod.mk.injEq] at h
  obtain ⟨l₁, ⟨r', i'⟩, l₂, hl, ⟨t, -, rfl, rfl⟩, hnone⟩ := h
  -- the records before the alias are those with a lesser index
  have hindex : (records.zipIdx)[l₁.length]? = some (r', i') := by rw [hl]; simp
  have hlen : i' = l₁.length := by
    rw [List.getElem?_zipIdx, Option.map_eq_some_iff] at hindex
    obtain ⟨_, -, heq⟩ := hindex
    simpa using (Prod.mk.inj heq).2.symm
  have hmem : (r, j) ∈ l₁ := by
    have hat : (records.zipIdx)[j]? = some (r, j) := by simp [List.getElem?_zipIdx, hr]
    rw [hl, List.getElem?_append_left (hlen ▸ hj)] at hat
    exact mem_of_getElem? hat
  simpa using hnone (r, j) hmem

theorem findAlias_eq_some {target : Name} :
    findAlias records name = some (i, target) ↔ FirstAlias records name i target := by
  refine ⟨firstAlias_of_findAlias, fun h => ?_⟩
  obtain ⟨r, hr, ht⟩ := h.at_index
  cases hf : findAlias records name with
  | none =>
    rw [findAlias_eq_none.mp hf r (mem_of_getElem? hr)] at ht
    cases ht
  | some x =>
    obtain ⟨j, target'⟩ := x
    have h' := firstAlias_of_findAlias hf
    obtain rfl := h.index_unique h'
    obtain ⟨r', hr', ht'⟩ := h'.at_index
    obtain rfl := Option.mem_unique hr hr'
    rw [Option.mem_unique ht' ht]

/-! ### The marks as a function of record and index -/

/-- Marks that follow a rule. -/
def marksOf (records : List Record) (g : Record × ℕ → Bool) : List Bool := records.zipIdx.map g

section Marks

variable {records : List Record} {g g' : Record × ℕ → Bool}

theorem getElem?_marksOf (i : ℕ) : (marksOf records g)[i]? = records[i]?.map fun r => g (r, i) := by
  simp [marksOf, List.getElem?_zipIdx, Function.comp_def]

theorem marksOf_congr (h : ∀ i r, records[i]? = some r → g (r, i) = g' (r, i)) :
    marksOf records g = marksOf records g' := by
  refine ext_getElem? fun i => ?_
  rw [getElem?_marksOf, getElem?_marksOf]
  cases hr : records[i]? with
  | none => rfl
  | some r => exact congrArg some (h i r hr)

theorem replicate_eq_marksOf :
    List.replicate records.length false = marksOf records fun _ => false := by
  simp [marksOf, map_const']

theorem mark_marksOf (qtype : UInt16) (name : Name) :
    mark qtype name records (marksOf records g) = marksOf records fun x =>
      g x || isAsked qtype name x.1 := by
  refine ext_getElem? fun i => ?_
  rw [mark, List.getElem?_zipWith, getElem?_marksOf, getElem?_marksOf]
  cases records[i]? <;> rfl

theorem set_marksOf (i : ℕ) :
    (marksOf records g).set i true = marksOf records fun x => g x || i == x.2 := by
  refine ext_getElem? fun j => ?_
  rw [List.getElem?_set, getElem?_marksOf, getElem?_marksOf]
  by_cases hij : i = j
  · subst hij
    rw [if_pos rfl]
    by_cases hi : i < records.length
    · simp [marksOf, hi]
    · simp [marksOf, hi]
  · rw [if_neg hij]
    simp only [beq_eq_false_iff_ne.mpr hij, Bool.or_false]

theorem kept_marksOf :
    kept records (marksOf records g) = (records.zipIdx.filter g).map Prod.fst := by
  have hzip : records.zip (marksOf records g) = records.zipIdx.map fun x => (x.1, g x) := by
    refine ext_getElem? fun i => ?_
    rw [List.getElem?_map, List.getElem?_zipIdx]
    cases hr : records[i]? with
    | none => simp [List.zip, List.getElem?_zipWith, hr]
    | some r => simp [List.zip, List.getElem?_zipWith, hr, getElem?_marksOf]
  rw [kept, hzip, filterMap_map]
  simp only [Function.comp_def]
  induction records.zipIdx with
  | nil => rfl
  | cons x xs ih => cases hx : g x <;> simp [hx, ih]

end Marks

/-! ### `relevant_records` -/

section Walk

variable {records : List Record} {qtype : UInt16} {start : Name} {k : ℕ} {p : ℕ → Name}
  {at_ : ℕ → ℕ}

theorem Walk.le_sixteen (w : Walk records qtype start k p at_) : k ≤ 16 := by
  by_contra hlt
  exact w.goesOn 16 (by omega) (.inr (.inr (.inr rfl)))

/-- The marks of the aliases before the `i`-th name of the walk. -/
def aliasMarks (records : List Record) (at_ : ℕ → ℕ) (i : ℕ) : List Bool :=
  marksOf records fun x => (List.range i).any fun j => at_ j == x.2

theorem not_asked {i : ℕ} (h : ¬ Stops records qtype p i) :
    records.any (isAsked qtype (p i)) = false := by
  rw [any_eq_false]
  exact fun r hr ha => h (.inl ⟨r, hr, ha⟩)

/-- **The loop of `relevant_records` follows the walk.** -/
theorem Walk.loop (w : Walk records qtype start k p at_) {i : ℕ} (hi : i ≤ k) :
    relevantLoop records qtype (16 - i) (aliasMarks records at_ i) (p i) ((List.range i).map p) =
      (mark qtype (p k) records (aliasMarks records at_ k), p k) := by
  have hk := w.le_sixteen
  -- on the names that are left
  generalize hn : k - i = n
  induction n generalizing i with
  | zero =>
    obtain rfl : i = k := by omega
    cases hd : 16 - i with
    | zero => rfl
    | succ d =>
      rw [relevantLoop]
      split
      · rfl
      · next hcond =>
        have hnone : findAlias records (p i) = none := by
          rw [Bool.or_eq_true, not_or] at hcond
          rcases w.stops with ⟨r, hr, ha⟩ | ⟨j, hj, heq⟩ | hno | h16
          · exact absurd (any_eq_true.mpr ⟨r, hr, ha⟩) hcond.1
          · refine absurd (any_eq_true.mpr ⟨p j, ?_, heq⟩) hcond.2
            exact mem_map.mpr ⟨j, mem_range.mpr hj, rfl⟩
          · exact findAlias_eq_none.mpr hno
          · omega
        rw [hnone]
  | succ n ih =>
    have hlt : i < k := by omega
    have hgo := w.goesOn i hlt
    obtain ⟨d, hd⟩ : ∃ d, 16 - i = d + 1 := ⟨16 - (i + 1), by omega⟩
    have hseen : ((List.range i).map p).any (p i).eq = false := by
      rw [any_eq_false]
      intro m hm heq
      obtain ⟨j, hj, rfl⟩ := mem_map.mp hm
      exact hgo (.inr (.inl ⟨j, mem_range.mp hj, heq⟩))
    -- nothing is marked at the name but its alias
    have hmarks : (mark qtype (p i) records (aliasMarks records at_ i)).set (at_ i) true =
        aliasMarks records at_ (i + 1) := by
      rw [aliasMarks, mark_marksOf, set_marksOf]
      refine marksOf_congr fun j r hr => ?_
      have hasked := any_eq_false.mp (not_asked hgo) r (mem_of_getElem? hr)
      rw [range_succ, any_append]
      simp [hasked]
    rw [hd, relevantLoop, not_asked hgo, hseen, findAlias_eq_some.mpr (w.next i hlt)]
    simp only [Bool.or_self, Bool.false_eq_true, if_false]
    rw [hmarks]
    have := ih (i := i + 1) hlt (by omega)
    rwa [range_succ, map_append, map_singleton, show 16 - (i + 1) = d by omega] at this

/-- **`relevant_records` keeps what is on the walk.** -/
theorem Walk.relevantRecords_eq (w : Walk records qtype start k p at_) :
    relevantRecords records start qtype = (onWalk records qtype k p at_, p k) := by
  have hloop := w.loop (Nat.zero_le k)
  have hmarks : aliasMarks records at_ 0 = List.replicate records.length false :=
    replicate_eq_marksOf.symm
  rw [hmarks, w.start] at hloop
  have hkept : kept records (mark qtype (p k) records (aliasMarks records at_ k)) =
      onWalk records qtype k p at_ := by
    rw [aliasMarks, mark_marksOf, kept_marksOf]
    rfl
  rw [← hkept]
  simp only [relevantRecords]
  rw [show relevantLoop records qtype 16 _ start [] = _ from hloop]

end Walk

/-! #### There is a walk -/

/-- The name after this one: the target of its first alias. -/
def nextName (records : List Record) (name : Name) : Name :=
  ((findAlias records name).map Prod.snd).getD name

/-- The names from this one on. -/
def trail (records : List Record) (start : Name) : ℕ → Name
  | 0 => start
  | i + 1 => nextName records (trail records start i)

/-- Where the alias of a name stands. -/
def aliasIndex (records : List Record) (name : Name) : ℕ :=
  ((findAlias records name).map Prod.fst).getD 0

open Classical in
theorem exists_walk (records : List Record) (start : Name) (qtype : UInt16) :
    ∃ k p at_, Walk records qtype start k p at_ := by
  have hstops : ∃ i, Stops records qtype (trail records start) i := ⟨16, .inr (.inr (.inr rfl))⟩
  refine ⟨Nat.find hstops, trail records start, fun i => aliasIndex records (trail records start i),
    rfl, fun i hi => ?_,
    fun i hi => Nat.find_min hstops hi, Nat.find_spec hstops⟩
  have hgo := Nat.find_min hstops hi
  cases hf : findAlias records (trail records start i) with
  | none => exact absurd (.inr (.inr (.inl (findAlias_eq_none.mp hf)))) hgo
  | some x =>
    have hfirst := findAlias_eq_some.mp hf
    have hidx : aliasIndex records (trail records start i) = x.1 := by rw [aliasIndex, hf]; rfl
    have hnext : trail records start (i + 1) = x.2 := by rw [trail, nextName, hf]; rfl
    rwa [hidx, hnext]

/-- **The answer filter keeps exactly the alias path and the requested record set.**  For every list
of records there is a walk from the name asked for; whatever the walk, `relevant_records` ends at
its last name and keeps, in the order of the list, the first alias of each name before it and what
is asked for there. -/
theorem relevantRecords_walk (records : List Record) (candidate : Name) (qtype : UInt16) :
    (∃ k p at_, Walk records qtype candidate k p at_) ∧
      ∀ k p at_, Walk records qtype candidate k p at_ → k ≤ 16 ∧
        (relevantRecords records candidate qtype).2 = p k ∧
        (relevantRecords records candidate qtype).1 = onWalk records qtype k p at_ := by
  refine ⟨exists_walk records candidate qtype, fun k p at_ w => ?_⟩
  rw [w.relevantRecords_eq]
  exact ⟨w.le_sixteen, rfl, rfl⟩

/-- `localhost` as an alias of `local`, and an address there. -/
def aliasedAddress : List Record :=
  [Record.new localhost 60 (.cname localDomain), Record.new localDomain 60 (.a IpAddr.localhost4)]

theorem walk_aliasedAddress :
    Walk aliasedAddress Rtype.a localhost 1 (fun i => if i = 0 then localhost else localDomain)
      (fun _ => 0) := by
  refine ⟨rfl, fun i hi => ?_, fun i hi => ?_, .inl (by decide)⟩
  · obtain rfl : i = 0 := by omega
    exact ⟨⟨_, rfl, by decide⟩, fun j hj => absurd hj (Nat.not_lt_zero j)⟩
  · obtain rfl : i = 0 := by omega
    rintro (h | ⟨j, hj, -⟩ | h | h)
    · revert h
      decide
    · exact absurd hj (Nat.not_lt_zero j)
    · revert h
      decide
    · cases h

/-- Both records are kept. -/
theorem relevantRecords_walk_aliasedAddress :
    relevantRecords aliasedAddress localhost Rtype.a = (aliasedAddress, localDomain) := by
  obtain ⟨-, hname, hkept⟩ := (relevantRecords_walk aliasedAddress localhost Rtype.a).2 1 _ _
    walk_aliasedAddress
  refine Prod.ext (hkept.trans ?_) hname
  decide

/-! ### `chase` -/

/-- The address a record has. -/
def addressOf (r : Record) : Option (IpAddr × UInt32) :=
  match r.rdata with
  | .a addr => some (.v4 addr, r.ttl)
  | .aaaa addr => some (.v6 addr, r.ttl)
  | _ => none

theorem agrees_a {d : RData} (h : d.Agrees Rtype.a) : ∃ addr, d = .a addr := by
  cases d with
  | a addr => exact ⟨addr, rfl⟩
  | _ => exact absurd h (by simp only [RData.Agrees]; decide)

theorem agrees_aaaa {d : RData} (h : d.Agrees Rtype.aaaa) : ∃ addr, d = .aaaa addr := by
  cases d with
  | aaaa addr => exact ⟨addr, rfl⟩
  | _ => exact absurd h (by simp only [RData.Agrees]; decide)

/-- The target of a record that is an alias. -/
def cnameTarget (r : Record) : Option Name :=
  match r.rdata with
  | .cname t => some t
  | _ => none

/-- One turn of the loop of `chase`. -/
theorem chaseName_succ (records : List Record) (rtype : UInt16) (d : ℕ) (name : Name) :
    chaseName records rtype (d + 1) name =
      match (records.find? fun r => r.name.eq name).bind cnameTarget with
      | some t =>
        if records.any fun r => r.name.eq name && r.rtype == rtype then name
          else chaseName records rtype d t
      | none => name :=
  rfl

section Chase

variable {records : List Record} {rtype : UInt16} {start : Name} {k : ℕ} {p : ℕ → Name}
    {at_ : ℕ → ℕ} {r : Record} {i : ℕ}

/-- What is on the walk is the alias of one of its names, or asked for at its end. -/
theorem mem_onWalk : r ∈ onWalk records rtype k p at_ ↔
    (∃ i < k, records[at_ i]? = some r) ∨ r ∈ records ∧ isAsked rtype (p k) r = true := by
  simp only [onWalk, mem_map, mem_filter, Prod.exists, mem_zipIdx_iff_getElem?, Bool.or_eq_true,
    any_eq_true, mem_range, beq_iff_eq]
  constructor
  · rintro ⟨r, j, ⟨hr, ⟨i, hi, rfl⟩ | ha⟩, rfl⟩
    · exact .inl ⟨i, hi, hr⟩
    · exact .inr ⟨mem_of_getElem? hr, ha⟩
  · rintro (⟨i, hi, hr⟩ | ⟨hr, ha⟩)
    · exact ⟨r, at_ i, ⟨hr, .inl ⟨i, hi, rfl⟩⟩, rfl⟩
    · obtain ⟨j, hj⟩ := mem_iff_getElem?.mp hr
      exact ⟨r, j, ⟨hj, .inr ha⟩, rfl⟩

theorem mem_of_mem_onWalk (h : r ∈ onWalk records rtype k p at_) : r ∈ records := by
  rcases mem_onWalk.mp h with ⟨j, -, hj⟩ | ⟨hrec, -⟩
  · exact mem_of_getElem? hj
  · exact hrec

section

variable (w : Walk records rtype start k p at_)
include w

theorem Walk.alias_at (hi : i < k)
    (hr : records[at_ i]? = some r) : aliasTarget (p i) r = some (p (i + 1)) := by
  obtain ⟨r', hr', ht⟩ := (w.next i hi).at_index
  obtain rfl := Option.mem_unique hr hr'
  exact ht

theorem Walk.distinct {j : ℕ} (hij : i < j) (hj : j < k) : (p j).eq (p i) = false := by
  rw [← Bool.not_eq_true]
  exact fun heq => w.goesOn j hj (.inr (.inl ⟨i, hij, heq⟩))

/-- What a name before the end owns on the walk is its alias. -/
theorem Walk.owned_before (hi : i < k) (hr : r ∈ onWalk records rtype k p at_)
    (hname : r.name.eq (p i) = true) : aliasTarget (p i) r = some (p (i + 1)) := by
  rcases mem_onWalk.mp hr with ⟨j, hj, hrj⟩ | ⟨hrec, ha⟩
  · have ht := w.alias_at hj hrj
    have hsame : (p j).eq (p i) = true :=
      Name.eq_trans (Name.eq_symm (aliasTarget_eq_some.mp ht).2.1) hname
    rcases Nat.lt_trichotomy i j with hlt | rfl | hlt
    · rw [w.distinct hlt hj] at hsame
      cases hsame
    · exact ht
    · have hback := Name.eq_symm hsame
      rw [w.distinct hlt hi] at hback
      cases hback
  · refine absurd (.inl ⟨r, hrec, ?_⟩) (w.goesOn i hi)
    have hpk : r.name.eq (p k) = true := by
      simp only [isAsked, Bool.and_eq_true] at ha
      exact ha.1.2
    rwa [isAsked_congr (Name.eq_trans (Name.eq_symm hname) hpk)]

end

/-- The walk has met a name again. -/
def Revisits (p : ℕ → Name) (k : ℕ) : Prop := ∃ j < k, (p k).eq (p j) = true

/-- What the last name owns on a walk that did not meet it before is asked for. -/
theorem Walk.owned_last (w : Walk records rtype start k p at_) (hnew : ¬ Revisits p k)
    (hr : r ∈ onWalk records rtype k p at_) (hname : r.name.eq (p k) = true) :
    isAsked rtype (p k) r = true := by
  rcases mem_onWalk.mp hr with ⟨j, hj, hrj⟩ | ⟨-, ha⟩
  · have hown := (aliasTarget_eq_some.mp (w.alias_at hj hrj)).2.1
    exact absurd ⟨j, hj, Name.eq_trans (Name.eq_symm hname) hown⟩ hnew
  · exact ha

/-- On a walk that met a name again nothing is asked for. -/
theorem Walk.not_asked_last (w : Walk records rtype start k p at_) (hold : Revisits p k)
    (hr : r ∈ records) : isAsked rtype (p k) r = false := by
  obtain ⟨j, hj, heq⟩ := hold
  rw [isAsked_congr heq, ← Bool.not_eq_true]
  exact fun ha => w.goesOn j hj (.inl ⟨r, hr, ha⟩)

/-- The addresses of a record for a family, as `chase` collects them. -/
def familyAddress (rtype : UInt16) (r : Record) : Option (IpAddr × UInt32) :=
  match r.rdata with
  | .a addr => if rtype = Rtype.a then some (.v4 addr, r.ttl) else none
  | .aaaa addr => if rtype = Rtype.aaaa then some (.v6 addr, r.ttl) else none
  | _ => none

variable (hagree : ∀ r ∈ records, r.rdata.Agrees r.rtype)
  (hfamily : rtype = Rtype.a ∨ rtype = Rtype.aaaa)

include hfamily in
theorem isAsked_family (n : Name) :
    isAsked rtype n = fun r => r.class_ == Class.IN && r.name.eq n && r.rtype == rtype := by
  funext r
  have hany : (rtype == Rtype.any) = false := by
    rcases hfamily with rfl | rfl <;> decide
  rw [isAsked, hany, Bool.or_false]

include hagree hfamily in
/-- A record of the family has an address, and is no alias. -/
theorem address_of_asked {n : Name} (hr : r ∈ records) (ha : isAsked rtype n r = true) :
    familyAddress rtype r = addressOf r ∧ (addressOf r).isSome = true ∧
      ∀ t, r.rdata ≠ .cname t := by
  rw [isAsked_family hfamily] at ha
  simp only [Bool.and_eq_true, beq_iff_eq] at ha
  have hagree := hagree r hr
  rw [ha.2] at hagree
  unfold familyAddress addressOf
  rcases hfamily with rfl | rfl
  · obtain ⟨addr, hdata⟩ := agrees_a hagree
    simp [hdata]
  · obtain ⟨addr, hdata⟩ := agrees_aaaa hagree
    simp [hdata]

include hagree hfamily in
theorem Walk.chaseName_step (w : Walk records rtype start k p at_) (hi : i < k) (d : ℕ) :
    chaseName (onWalk records rtype k p at_) rtype (d + 1) (p i) =
      chaseName (onWalk records rtype k p at_) rtype d (p (i + 1)) := by
  obtain ⟨link, hlink, htarget⟩ := (w.next i hi).at_index
  have hmem : link ∈ onWalk records rtype k p at_ := mem_onWalk.mpr (.inl ⟨i, hi, hlink⟩)
  -- the first record at the name is its alias
  have hnext : ((onWalk records rtype k p at_).find? fun r => r.name.eq (p i)).bind cnameTarget =
      some (p (i + 1)) := by
    cases hf : (onWalk records rtype k p at_).find? fun r => r.name.eq (p i) with
    | none => exact absurd (aliasTarget_eq_some.mp htarget).2.1 (List.find?_eq_none.mp hf link hmem)
    | some r =>
      have hname : r.name.eq (p i) = true := by simpa using List.find?_some hf
      have hdata := (aliasTarget_eq_some.mp (w.owned_before hi (mem_of_find?_eq_some hf) hname)).2.2
      rw [Option.bind_some, cnameTarget, hdata]
  have hnone : ((onWalk records rtype k p at_).any fun r => r.name.eq (p i) && r.rtype == rtype) =
      false := by
    rw [any_eq_false]
    intro r hr hc
    rw [Bool.and_eq_true, beq_iff_eq] at hc
    have ht := aliasTarget_eq_some.mp (w.owned_before hi hr hc.1)
    have hkind := hagree r (mem_of_mem_onWalk hr)
    rw [ht.2.2, hc.2] at hkind
    rcases hfamily with rfl | rfl <;> cases hkind
  rw [chaseName_succ, hnext, hnone]
  rfl

include hagree hfamily in
theorem Walk.chaseName_walk (w : Walk records rtype start k p at_) (hi : i ≤ k) :
    chaseName (onWalk records rtype k p at_) rtype (16 - i) (p i) =
      chaseName (onWalk records rtype k p at_) rtype (16 - k) (p k) := by
  have hk := w.le_sixteen
  induction hi using Nat.decreasingInduction with
  | self => rfl
  | of_succ i hi ih =>
    rw [show 16 - i = (16 - (i + 1)) + 1 by omega, w.chaseName_step hagree hfamily hi, ih]

include hagree hfamily in
/-- `chase` stays at the end of a walk that did not meet its name before. -/
theorem Walk.chaseName_last (w : Walk records rtype start k p at_) (hnew : ¬ Revisits p k) (d : ℕ) :
    chaseName (onWalk records rtype k p at_) rtype d (p k) = p k := by
  cases d with
  | zero => rfl
  | succ d =>
    have hnext : ((onWalk records rtype k p at_).find? fun r => r.name.eq (p k)).bind cnameTarget =
        none := by
      cases hf : (onWalk records rtype k p at_).find? fun r => r.name.eq (p k) with
      | none => rfl
      | some r =>
        have hname : r.name.eq (p k) = true := by simpa using List.find?_some hf
        have hasked := w.owned_last hnew (mem_of_find?_eq_some hf) hname
        have hrec := mem_of_mem_onWalk (mem_of_find?_eq_some hf)
        have hno := (address_of_asked hagree hfamily hrec hasked).2.2
        rw [Option.bind_some, cnameTarget]
        split
        · next t ht => exact absurd ht (hno t)
        · rfl
    rw [chaseName_succ, hnext]

theorem chase_snd (records : List Record) (start : Name) (rtype : UInt16) :
    (chase records start rtype).2 =
      (records.filter fun r => r.name.eq (chaseName records rtype 16 start)).filterMap
        (familyAddress rtype) :=
  rfl

/-- What stands at the end of the walk, in the order of the list. -/
theorem Walk.filter_last (w : Walk records rtype start k p at_) (hnew : ¬ Revisits p k) :
    (onWalk records rtype k p at_).filter (fun r => r.name.eq (p k)) = records.filter
      (isAsked rtype (p k)) := by
  have hfst : records.filter (isAsked rtype (p k)) =
      (records.zipIdx.filter fun x => isAsked rtype (p k) x.1).map Prod.fst := by
    conv_lhs => rw [← zipIdx_map_fst 0 records, filter_map]
    rfl
  rw [hfst, onWalk, filter_map, filter_filter]
  congr 1
  refine filter_congr fun x hx => ?_
  have hat := mem_zipIdx_iff_getElem?.mp hx
  rw [Bool.eq_iff_iff]
  simp only [Function.comp_apply, Bool.and_eq_true]
  constructor
  · rintro ⟨hname, hon⟩
    refine w.owned_last hnew ?_ hname
    exact mem_map.mpr ⟨x, mem_filter.mpr ⟨hx, hon⟩, rfl⟩
  · intro ha
    refine ⟨?_, by rw [ha, Bool.or_true]⟩
    simp only [isAsked, Bool.and_eq_true] at ha
    exact ha.1.2

include hagree hfamily in
/-- The addresses `chase` collects are those of the records asked for at the end of the walk. -/
theorem Walk.chase_addresses (w : Walk records rtype start k p at_) :
    (chase (onWalk records rtype k p at_) start rtype).2.map some =
      (records.filter (isAsked rtype (p k))).map addressOf := by
  have hname : chaseName (onWalk records rtype k p at_) rtype 16 start =
      chaseName (onWalk records rtype k p at_) rtype (16 - k) (p k) := by
    rw [← w.start]
    exact w.chaseName_walk hagree hfamily (Nat.zero_le k)
  rw [chase_snd, hname]
  by_cases hold : Revisits p k
  · -- only aliases are kept
    have hasked : records.filter (isAsked rtype (p k)) = [] :=
      filter_eq_nil_iff.mpr fun r hr => by simp [w.not_asked_last hold hr]
    have hnone : ∀ r ∈ onWalk records rtype k p at_, familyAddress rtype r = none := by
      intro r hr
      rcases mem_onWalk.mp hr with ⟨i, hi, hri⟩ | ⟨hrec, ha⟩
      · rw [familyAddress, (aliasTarget_eq_some.mp (w.alias_at hi hri)).2.2]
      · rw [w.not_asked_last hold hrec] at ha
        cases ha
    rw [hasked, map_nil, map_eq_nil_iff, filterMap_eq_nil_iff]
    exact fun r hr => hnone r (mem_of_mem_filter hr)
  · rw [w.chaseName_last hagree hfamily hold, w.filter_last hold]
    have hall : ∀ r ∈ records.filter (isAsked rtype (p k)),
        familyAddress rtype r = addressOf r ∧ (addressOf r).isSome = true := by
      intro r hr
      obtain ⟨hrec, ha⟩ := mem_filter.mp hr
      exact ⟨(address_of_asked hagree hfamily hrec ha).1,
        (address_of_asked hagree hfamily hrec ha).2.1⟩
    rw [filterMap_congr fun r hr => (hall r hr).1]
    generalize records.filter (isAsked rtype (p k)) = l at hall
    induction l with
    | nil => rfl
    | cons r l ih =>
      rw [forall_mem_cons] at hall
      obtain ⟨x, hx⟩ := Option.isSome_iff_exists.mp hall.1.2
      rw [filterMap_cons_some hx, map_cons, map_cons, ih hall.2, hx]

end Chase

/-! #### The answer has the candidate's spelling -/

theorem recase_name_eq (c : Name) (r : Record) (n : Name) :
    (recase c r).name.eq n = r.name.eq n := by
  unfold recase
  split
  · next h => exact Name.eq_congr_left (Name.eq_symm h) n
  · rfl

theorem recase_data (c : Name) (r : Record) :
    (recase c r).rdata = r.rdata ∧ (recase c r).rtype = r.rtype ∧ (recase c r).ttl = r.ttl := by
  unfold recase
  split <;> exact ⟨rfl, rfl, rfl⟩

theorem chaseName_recase (c : Name) (records : List Record) (rtype : UInt16) (d : ℕ) (n : Name) :
    chaseName (records.map (recase c)) rtype d n = chaseName records rtype d n := by
  induction d generalizing n with
  | zero => rfl
  | succ d ih =>
    have hfind : ((records.map (recase c)).find? fun r => r.name.eq n) =
        (records.find? fun r => r.name.eq n).map (recase c) := by
      rw [List.find?_map]
      simp only [Function.comp_def, recase_name_eq]
    have htarget : (fun r => cnameTarget (recase c r)) = cnameTarget := by
      funext r
      rw [cnameTarget, cnameTarget, (recase_data c r).1]
    have hany : ((records.map (recase c)).any fun r => r.name.eq n && r.rtype == rtype) =
        records.any fun r => r.name.eq n && r.rtype == rtype := by
      simp only [any_map, Function.comp_def, recase_name_eq, (recase_data c _).2.1]
    rw [chaseName_succ, chaseName_succ, hfind, hany, Option.bind_map]
    simp only [Function.comp_def, htarget, ih]

/-- `chase` does not mind the spelling. -/
theorem chase_recase (c : Name) (records : List Record) (start : Name) (rtype : UInt16) :
    chase (records.map (recase c)) start rtype = chase records start rtype := by
  refine Prod.ext (chaseName_recase c records rtype 16 start) ?_
  rw [chase_snd, chase_snd, chaseName_recase, filter_map, filterMap_map]
  have hname : ((fun r => r.name.eq (chaseName records rtype 16 start)) ∘ recase c) =
      fun r : Record => r.name.eq (chaseName records rtype 16 start) :=
        funext fun r => recase_name_eq c r _
  have haddr : familyAddress rtype ∘ recase c = familyAddress rtype := by
    funext r
    rw [Function.comp_apply, familyAddress, familyAddress, (recase_data c r).1,
      (recase_data c r).2.2]
  rw [hname, haddr]

/-- **The lookup chase agrees with the answer filter.**  Of the records `relevant_records` keeps,
spelled by the server or by the asker, `chase` collects the addresses of exactly the records of the
family at the name where the filter ends, in their order; and it ends at that name unless the walk
meets a name again. -/
theorem chase_agrees (rs : List Record) (hagree : ∀ r ∈ rs, r.rdata.Agrees r.rtype) (c : Name)
    (t : UInt16) (hfamily : t = Rtype.a ∨ t = Rtype.aaaa) :
    (chase (relevantRecords rs c t).1 c t).2.map some =
        (rs.filter fun r => r.class_ == Class.IN && r.name.eq
          (relevantRecords rs c t).2 && r.rtype == t).map addressOf ∧
      (∀ k p at_, Walk rs t c k p at_ → (∀ i j, i < j → j ≤ k → (p j).eq (p i) = false) →
        (chase (relevantRecords rs c t).1 c t).1 = (relevantRecords rs c t).2) ∧
      chase ((relevantRecords rs c t).1.map (recase c)) c t = chase
        (relevantRecords rs c t).1 c t := by
  refine ⟨?_, fun k p at_ w hnew => ?_, chase_recase c _ c t⟩
  · obtain ⟨k, p, at_, w⟩ := exists_walk rs c t
    rw [w.relevantRecords_eq, w.chase_addresses hagree hfamily, isAsked_family hfamily]
  · have hfresh : ¬ Revisits p k := by
      rintro ⟨j, hj, heq⟩
      rw [hnew j k hj le_rfl] at heq
      cases heq
    rw [w.relevantRecords_eq]
    have hname := w.chaseName_walk hagree hfamily (Nat.zero_le k)
    rw [w.start, w.chaseName_last hagree hfamily hfresh] at hname
    exact hname

/-- The address at the end of the alias is collected, and its name is the canonical one. -/
theorem chase_agrees_aliasedAddress :
    (chase (relevantRecords aliasedAddress localhost Rtype.a).1 localhost Rtype.a).2.map some =
        [some (.v4 IpAddr.localhost4, 60)] ∧
      (chase (relevantRecords aliasedAddress localhost Rtype.a).1 localhost Rtype.a).1 =
        localDomain := by
  obtain ⟨haddrs, hname, -⟩ :=
    chase_agrees aliasedAddress (by simp [aliasedAddress, Record.new, RData.Agrees])
    localhost Rtype.a (.inl rfl)
  rw [haddrs, hname 1 _ _ walk_aliasedAddress fun i j hij hj => ?_]
  · exact ⟨by decide, by decide⟩
  · obtain rfl : i = 0 := by omega
    obtain rfl : j = 1 := by omega
    decide

/-! ### `combine` -/

/-- The name and the addresses an answer gives for a lookup. -/
def chased (name : Name) (r : UInt16 × Answer) : Name × List (IpAddr × UInt32) :=
  chase r.2.records (r.2.resolvedName.getD name) r.1

/-- The addresses an answer adds to a lookup. -/
def addressBlock (name : Name) (r : UInt16 × Answer) : List (IpAddr × UInt32) :=
  if r.2.outcome = .found then (chased name r).2 else []

/-- The canonical name and the source are those of an answer that was found; of one with addresses,
if there is such. -/
def MetadataOf (name : Name) (results : List (UInt16 × Answer)) (out : Addresses) : Prop :=
  ∃ r ∈ results, r.2.outcome = .found ∧ out.canonical = (chased name r).1 ∧
    out.source = r.2.source ∧
    ((∃ r' ∈ results, addressBlock name r' ≠ []) → addressBlock name r ≠ [])

/-- How an answer is ranked: one with addresses first, then by type. -/
def rankOf (name : Name) (r : UInt16 × Answer) : Bool ×ₗ ℕ :=
  toLex ((chased name r).2.isEmpty, r.1.toNat)

theorem rankLt_iff :
    rankLt ((chased name r).2.isEmpty, r.1) ((chased name s).2.isEmpty, s.1) = true ↔
      rankOf name r < rankOf name s := by
  simp only [rankLt, rankOf, Prod.Lex.lt_iff, Bool.or_eq_true, Bool.and_eq_true, beq_iff_eq,
    decide_eq_true_eq, UInt16.lt_iff_toNat_lt, ofLex_toLex]
  cases (chased name r).2.isEmpty <;> cases (chased name s).2.isEmpty <;> simp

/-- The answer that the canonical name and the source are taken from. -/
def chief (name : Name) (results : List (UInt16 × Answer)) : Option (UInt16 × Answer) :=
  (results.filter fun r => r.2.outcome == .found).argmin (rankOf name)

theorem chief_concat (name : Name) (results : List (UInt16 × Answer)) (r : UInt16 × Answer) :
    chief name (results ++ [r]) =
      if r.2.outcome = .found then
        match chief name results with
        | none => some r
        | some best => if rankOf name r < rankOf name best then some r else some best
      else chief name results := by
  unfold chief
  rw [filter_append, filter_singleton]
  by_cases hfound : r.2.outcome = .found
  · rw [if_pos hfound, beq_iff_eq.mpr hfound, cond_true, argmin_concat]
    cases (results.filter fun r => r.2.outcome == .found).argmin (rankOf name) <;> rfl
  · rw [if_neg hfound, beq_eq_false_iff_ne.mpr hfound, cond_false, append_nil]

/-- **What the loop of `combine` has after some answers.** -/
structure Combined (name : Name) (results : List (UInt16 × Answer)) (c : Combining) : Prop where
  rank : c.metadataRank = (chief name results).map fun r => ((chased name r).2.isEmpty, r.1)
  canonical : c.out.canonical = ((chief name results).map fun r => (chased name r).1).getD name
  source : c.out.source = ((chief name results).map fun r => r.2.source).getD .local
  addresses : c.out.addresses = results.flatMap (addressBlock name)

theorem Combined.skip {c' : Combining} (h : Combined name results c) (hno : r.2.outcome ≠ .found)
    (hrank : c'.metadataRank = c.metadataRank) (hout : c'.out = c.out) :
    Combined name (results ++ [r]) c' := by
  have hchief : chief name (results ++ [r]) = chief name results := by rw [chief_concat, if_neg hno]
  refine ⟨by rw [hrank, hchief, h.rank], by rw [hout, hchief, h.canonical], by rw [hout, hchief, h.source], ?_⟩
  rw [hout, h.addresses, flatMap_append, flatMap_singleton, addressBlock, if_neg hno, append_nil]

/-- An answer that is better than those before gives the name and the source. -/
theorem combineOne_better (hfound : r.2.outcome = .found)
    (hbetter : ∀ best, c.metadataRank = some best →
      rankLt ((chased name r).2.isEmpty, r.1) best = true) :
    combineOne name c r =
      { c with
        anyFound := true
        out := { c.out with
          canonical := (chased name r).1, source := r.2.source, addresses :=
            c.out.addresses ++ (chased name r).2 }
        metadataRank := some ((chased name r).2.isEmpty, r.1) } := by
  obtain ⟨rtype, answer⟩ := r
  have hfound : answer.outcome = .found := hfound
  simp only [combineOne, hfound]
  cases hbest : c.metadataRank with
  | none => rfl
  | some best =>
    have hlt : rankLt ((chase answer.records (answer.resolvedName.getD name) rtype).2.isEmpty,
        rtype) best = true :=
      hbetter best hbest
    simp only [hlt, if_true]
    rfl

theorem combineOne_worse {best : Bool × UInt16} (hfound : r.2.outcome = .found)
    (hbest : c.metadataRank = some best)
    (hworse : rankLt ((chased name r).2.isEmpty, r.1) best = false) :
    combineOne name c r =
      { c with anyFound := true, out := { c.out with addresses := c.out.addresses ++ (chased name r).2 } } := by
  obtain ⟨rtype, answer⟩ := r
  have hfound : answer.outcome = .found := hfound
  have hlt : rankLt ((chase answer.records (answer.resolvedName.getD name) rtype).2.isEmpty, rtype)
      best = false :=
    hworse
  simp only [combineOne, hfound, hbest, hlt, Bool.false_eq_true, if_false]
  rfl

theorem combined_combineOne (h : Combined name results c) (r : UInt16 × Answer) :
    Combined name (results ++ [r]) (combineOne name c r) := by
  cases hout : r.2.outcome with
  | notFound =>
    exact h.skip (by simp [hout]) (by simp [combineOne, hout]) (by simp [combineOne, hout])
  | unavailable =>
    exact h.skip (by simp [hout]) (by simp [combineOne, hout]) (by simp [combineOne, hout])
  | found =>
    have haddresses : c.out.addresses ++ (chased name r).2 =
        (results ++ [r]).flatMap (addressBlock name) := by
      rw [flatMap_append, ← h.addresses, flatMap_singleton, addressBlock, if_pos hout]
    have hconcat := chief_concat name results r
    rw [if_pos hout] at hconcat
    have hrank := h.rank
    cases hchief : chief name results with
    | none =>
      rw [hchief] at hconcat hrank
      rw [combineOne_better hout fun best hbest => by rw [hrank] at hbest; cases hbest]
      exact ⟨by rw [hconcat]; rfl, by rw [hconcat]; rfl, by rw [hconcat]; rfl, haddresses⟩
    | some best =>
      rw [hchief] at hconcat hrank
      by_cases hlt : rankOf name r < rankOf name best
      · simp only [if_pos hlt] at hconcat
        rw [combineOne_better hout
          fun b hb => by rw [hrank] at hb; cases hb; exact rankLt_iff.mpr hlt]
        exact ⟨by rw [hconcat]; rfl, by rw [hconcat]; rfl, by rw [hconcat]; rfl, haddresses⟩
      · simp only [if_neg hlt] at hconcat
        rw [combineOne_worse hout hrank (by rw [← Bool.not_eq_true, rankLt_iff]; exact hlt)]
        exact ⟨by rw [hconcat]; exact hrank, by rw [hconcat, ← hchief]; exact h.canonical,
          by rw [hconcat, ← hchief]; exact h.source, haddresses⟩

theorem combined_foldl (name : Name) (results : List (UInt16 × Answer)) :
    Combined name results (results.foldl (combineOne name) { out := { canonical := name } }) := by
  induction results using List.reverseRecOn with
  | nil => exact ⟨rfl, rfl, rfl, rfl⟩
  | append_singleton results r ih =>
    rw [foldl_append, foldl_cons, foldl_nil]
    exact combined_combineOne ih r

theorem combine_combined (name : Name) (pending : List TaskId) (results : List (UInt16 × Answer)) :
    (combine ⟨name, pending, results⟩).canonical = ((chief name results).map fun r =>
      (chased name r).1).getD name ∧
      (combine ⟨name, pending, results⟩).source = ((chief name results).map fun r =>
        r.2.source).getD .local ∧
      (combine ⟨name, pending, results⟩).addresses = results.flatMap (addressBlock name) := by
  have h := combined_foldl name results
  exact ⟨h.canonical, h.source, h.addresses⟩

/-- The chief does not depend on the order of answers for different types. -/
theorem chief_swap (name : Name) (h : r.1 ≠ s.1) : chief name [r, s] = chief name [s, r] := by
  have hne : rankOf name r ≠ rankOf name s := by
    intro heq
    exact h (UInt16.toNat_inj.mp (Prod.mk.inj (toLex.injective heq)).2)
  have hpair : ∀ x y : UInt16 × Answer, chief name [x, y] = chief name ([x] ++ [y]) :=
    fun _ _ => rfl
  have hone : ∀ x : UInt16 × Answer, chief name [x] = if x.2.outcome = .found then some x
      else none :=
    fun x => chief_concat name [] x
  rw [hpair, hpair, chief_concat, chief_concat, hone, hone]
  by_cases hr : r.2.outcome = .found <;> by_cases hs : s.2.outcome = .found
  · simp only [hr, hs, if_true]
    rcases lt_or_gt_of_ne hne with hlt | hlt
    · rw [if_neg hlt.not_gt, if_pos hlt]
    · rw [if_pos hlt, if_neg hlt.not_gt]
  · simp only [hr, hs, if_true, if_false]
  · simp only [hr, hs, if_true, if_false]
  · simp only [hr, hs, if_false]

/-- The chief is an answer that was found, with addresses if there are some. -/
theorem chief_spec (h : chief name results = some r) : r ∈ results ∧ r.2.outcome = .found ∧
      ((∃ r' ∈ results, addressBlock name r' ≠ []) → addressBlock name r ≠ []) := by
  obtain ⟨hmem, hfound⟩ := mem_filter.mp (argmin_mem (Option.mem_def.mpr h))
  rw [beq_iff_eq] at hfound
  refine ⟨hmem, hfound, ?_⟩
  rintro ⟨r', hr', hblock⟩
  by_cases hfound' : r'.2.outcome = .found
  · rw [addressBlock, if_pos hfound'] at hblock
    rw [addressBlock, if_pos hfound]
    have hin : r' ∈ results.filter fun r => r.2.outcome == .found :=
      mem_filter.mpr ⟨hr', beq_iff_eq.mpr hfound'⟩
    have hle : rankOf name r ≤ rankOf name r' := le_of_mem_argmin hin (Option.mem_def.mpr h)
    intro hnil
    have hlt : rankOf name r' < rankOf name r := by
      rw [← rankLt_iff, hnil, rankLt, isEmpty_eq_false_iff.mpr hblock]
      rfl
    exact absurd hle (not_le_of_gt hlt)
  · rw [addressBlock, if_neg hfound'] at hblock
    exact absurd rfl hblock

/-- **The order in which the families finish does not matter.**  For any answers for A and AAAA,
both orders give the same outcome, canonical name and source, and the same addresses with the blocks
of the families swapped.  The lookup is found when an answer is, else unavailable when one is, else
not found; its name and source are those of one answer, one with addresses if there is such. -/
theorem combine_any_order (name : Name) (pending : List TaskId) (a b : Answer) :
    let fwd := combine ⟨name, pending, [(Rtype.a, a), (Rtype.aaaa, b)]⟩
    let bwd := combine ⟨name, pending, [(Rtype.aaaa, b), (Rtype.a, a)]⟩
    (fwd.outcome = bwd.outcome ∧ fwd.canonical = bwd.canonical ∧ fwd.source = bwd.source) ∧
      fwd.addresses = addressBlock name (Rtype.a, a) ++ addressBlock name (Rtype.aaaa, b) ∧
      bwd.addresses = addressBlock name (Rtype.aaaa, b) ++ addressBlock name (Rtype.a, a) ∧
      (fwd.outcome = if a.outcome = .found ∨ b.outcome = .found then .found
        else if a.outcome = .unavailable ∨ b.outcome = .unavailable then .unavailable
          else .notFound) ∧
      (fwd.outcome = .found → MetadataOf name [(Rtype.a, a), (Rtype.aaaa, b)] fwd) ∧
      (fwd.outcome ≠ .found → fwd.canonical = name ∧ fwd.source = .local) := by
  intro fwd bwd
  obtain ⟨hcanonical, hsource, haddresses⟩ :=
    combine_combined name pending [(Rtype.a, a), (Rtype.aaaa, b)]
  obtain ⟨hcanonical', hsource', haddresses'⟩ :=
    combine_combined name pending [(Rtype.aaaa, b), (Rtype.a, a)]
  have htypes : Rtype.a ≠ Rtype.aaaa := by decide
  have hswap : chief name [(Rtype.a, a), (Rtype.aaaa, b)] =
      chief name [(Rtype.aaaa, b), (Rtype.a, a)] :=
    chief_swap name htypes
  have houtcome : ∀ r s : UInt16 × Answer, (combine ⟨name, pending, [r, s]⟩).outcome =
      if r.2.outcome = .found ∨ s.2.outcome = .found then .found
      else if r.2.outcome = .unavailable ∨ s.2.outcome = .unavailable then .unavailable
        else .notFound := by
    intro r s
    obtain ⟨hfound, hunavailable⟩ :=
      foldl_combineOne_flags name [r, s] { out := { canonical := name } }
    simp only [combine, hfound, hunavailable]
    simp
  have hnone : fwd.outcome ≠ .found → chief name [(Rtype.a, a), (Rtype.aaaa, b)] = none := by
    intro hno
    cases hchief : chief name [(Rtype.a, a), (Rtype.aaaa, b)] with
    | none => rfl
    | some r =>
      obtain ⟨hmem, hfound, -⟩ := chief_spec hchief
      exact absurd ((combine_outcome _).1.mpr ⟨r, hmem, hfound⟩) hno
  refine ⟨⟨?_, ?_, ?_⟩, ?_, ?_, houtcome _ _, fun hfound => ?_, fun hno => ?_⟩
  · rw [houtcome, houtcome]
    simp only [or_comm]
  · rw [hcanonical, hcanonical', hswap]
  · rw [hsource, hsource', hswap]
  · simpa using haddresses
  · simpa using haddresses'
  · cases hchief : chief name [(Rtype.a, a), (Rtype.aaaa, b)] with
    | none =>
      obtain ⟨r, hr, hfound⟩ := (combine_outcome _).1.mp hfound
      exact absurd hfound (by simpa using filter_eq_nil_iff.mp (argmin_eq_none.mp hchief) r hr)
    | some r =>
      obtain ⟨hmem, hr, hblock⟩ := chief_spec hchief
      exact ⟨r, hmem, hr, by rw [hcanonical, hchief]; rfl, by rw [hsource, hchief]; rfl, hblock⟩
  · rw [hcanonical, hsource, hnone hno]
    exact ⟨rfl, rfl⟩

/-- An address for A and none for AAAA: the name and the source are those of the address. -/
theorem combine_any_order_ipv4 :
    (combine ⟨localhost, [], [(Rtype.a,
      addressAnswer localhost Rtype.a [.v4 IpAddr.localhost4] .hosts),
        (Rtype.aaaa, addressAnswer localhost Rtype.aaaa [] .synthetic)]⟩).outcome = .found ∧
      MetadataOf localhost [(Rtype.a,
        addressAnswer localhost Rtype.a [.v4 IpAddr.localhost4] .hosts),
        (Rtype.aaaa, addressAnswer localhost Rtype.aaaa [] .synthetic)]
      (combine ⟨localhost, [],
        [(Rtype.a, addressAnswer localhost Rtype.a [.v4 IpAddr.localhost4] .hosts),
        (Rtype.aaaa, addressAnswer localhost Rtype.aaaa [] .synthetic)]⟩) :=
  ⟨by decide, (combine_any_order localhost [] (addressAnswer localhost Rtype.a [.v4 IpAddr.localhost4] .hosts)
    (addressAnswer localhost Rtype.aaaa [] .synthetic)).2.2.2.2.1 (by decide)⟩

end Resolvd.Engine
