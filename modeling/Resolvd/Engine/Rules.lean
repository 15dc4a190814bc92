import Mathlib.Data.Prod.Lex
import Mathlib.Order.OrderDual
import Resolvd.Dns.Folding
import Resolvd.Engine.Routing
import Resolvd.Lib.Choice

/-!
# The rules of routing

`route` against the six rules it is meant to follow.  A rule says which scope it chooses by what the
scope is and where it stands in the list (`First`, `ByDomain`), without saying how it is found; the
routing of a name is the result of the first rule that has one (`FirstOf`).

* `sameSubnet_iff`: an address is in a subnet when the bits of the prefix agree;
* `bestDomain_eq_some`: the loop over the search domains finds the scope with the longest of them, ties by metric and by
  the order of the scopes;
* `route_follows_rules`: the whole of `route`, and what it does not depend on.
-/

namespace Resolvd.Engine

open Lib Dns List

variable {name : Name} {s : Scope} {e : Engine} {p : Scope → Prop} {scopes : List Scope} {i : ℕ}

/-! ### What the rules speak of -/

/-- The scope is up. -/
def Scope.Up (s : Scope) : Prop := Level.link ≤ s.level

/-- The last labels of the name are those of the domain, but for case. -/
def EndsIn (name domain : Name) : Prop :=
  domain.labels.map (List.map toAsciiLower) <:+ name.labels.map (List.map toAsciiLower)

/-- The first bits of the addresses agree, as many as the prefix says or all of them. -/
def InSubnet (a : IpAddr) (len : UInt8) (b : IpAddr) : Prop :=
  match a, b with
  | .v4 _, .v4 _ => a.toNat / 2 ^ (32 - min len.toNat 32) = b.toNat / 2 ^ (32 - min len.toNat 32)
  | .v6 _, .v6 _ =>
    a.toNat / 2 ^ (128 - min len.toNat 128) = b.toNat / 2 ^ (128 - min len.toNat 128)
  | _, _ => False

/-- The scope has a subnet with the address. -/
def Scope.Covers (s : Scope) (addr : IpAddr) : Prop := ∃ p ∈ s.addresses, InSubnet p.1 p.2 addr

/-- The scope is the first of those with the least metric that have the property. -/
def Chosen (scopes : List Scope) (p : Scope → Prop) (s : Scope) : Prop :=
  ∃ i, First p (fun s : Scope => s.metric.toNat) scopes i s

/-- The scope has a domain that the name ends in, and no other such domain of a scope that is up is
longer, or as long in a scope with a lower metric, or as long in an earlier scope with the same
metric. -/
def ByDomain (scopes : List Scope) (name : Name) (s : Scope) : Prop :=
  ∃ i d, scopes[i]? = some s ∧ s.Up ∧ d ∈ s.domains ∧ EndsIn name d ∧
    ∀ (j : ℕ) (t : Scope) (d' : Name), scopes[j]? = some t → t.Up → d' ∈ t.domains →
      EndsIn name d' →
      d'.labelCount < d.labelCount ∨ d'.labelCount = d.labelCount ∧
        (s.metric.toNat < t.metric.toNat ∨ s.metric.toNat = t.metric.toNat ∧ i ≤ j)

/-- The first four rules, which do not look at servers. -/
def scopeRules (scopes : List Scope) (name : Name) : List (String → Prop) :=
  [fun id => ∃ s, Chosen scopes (fun s => s.exclusive = true ∧ Level.addressed ≤ s.level) s ∧
    s.id = id, fun id => ∃ s, ByDomain scopes name s ∧ s.id = id,
    fun id => ∃ s, (∃ addr, name.reverseAddress = some addr ∧
      Chosen scopes (fun s => s.Up ∧ s.Covers addr) s) ∧ s.id = id,
    fun id => ∃ s, Chosen scopes (fun s => s.Up ∧ s.defaultRoute = true) s ∧ s.id = id]

/-- The last two rules. -/
def serverRules (scopes : List Scope) (fallback : List IpAddr) : List (String → Prop) :=
  [fun id => ∃ s, Chosen scopes (fun s => s.Up ∧ s.servers ≠ []) s ∧ s.id = id,
    fun id => fallback ≠ [] ∧ fallbackScope = id]

/-- The rules, in their order. -/
def routingRules (scopes : List Scope) (fallback : List IpAddr) (name : Name) :
    List (String → Prop) :=
  scopeRules scopes name ++ serverRules scopes fallback

/-! ### Suffixes and subnets -/

theorem endsWith_iff {domain : Name} : name.endsWith domain = true ↔ EndsIn name domain :=
  Name.endsWith_iff_suffix

theorem testBit_netMask (width : ℕ) (len : UInt8) (i : ℕ) :
    (netMask width len).testBit i =
      (decide (width - min len.toNat width ≤ i) && decide (i < width)) := by
  unfold netMask
  split
  · next h =>
    subst h
    rw [Nat.zero_testBit, eq_comm, Bool.and_eq_false_iff]
    by_cases hi : i < width
    · left
      simp only [UInt8.toNat_zero, Nat.zero_min, Nat.sub_zero, decide_eq_false_iff_not]
      omega
    · right
      simpa using hi
  · rw [Nat.testBit_mod_two_pow, Nat.testBit_shiftLeft, Nat.testBit_two_pow_sub_one]
    by_cases h1 : width - min len.toNat width ≤ i <;> by_cases h2 : i < width
    · have : i - (width - min len.toNat width) < width := by omega
      simp [h1, h2, this]
    · simp [h1, h2]
    · simp [h1, h2]
    · simp [h1, h2]

theorem and_netMask_eq_iff {width a b : ℕ} (ha : a < 2 ^ width) (hb : b < 2 ^ width) (len : UInt8) :
    a &&& netMask width len = b &&& netMask width len ↔
      a / 2 ^ (width - min len.toNat width) = b / 2 ^ (width - min len.toNat width) := by
  constructor
  · intro h
    refine Nat.eq_of_testBit_eq fun i => ?_
    rw [Nat.testBit_div_two_pow, Nat.testBit_div_two_pow]
    by_cases hi : i + (width - min len.toNat width) < width
    · have := congrArg (fun n => n.testBit (i + (width - min len.toNat width))) h
      simpa [Nat.testBit_and, testBit_netMask, hi] using this
    · have hpow : 2 ^ width ≤ 2 ^ (i + (width - min len.toNat width)) :=
        Nat.pow_le_pow_right (by decide) (by omega)
      rw [Nat.testBit_lt_two_pow (ha.trans_le hpow), Nat.testBit_lt_two_pow (hb.trans_le hpow)]
  · intro h
    refine Nat.eq_of_testBit_eq fun i => ?_
    rw [Nat.testBit_and, Nat.testBit_and, testBit_netMask]
    by_cases hi : width - min len.toNat width ≤ i
    · have := congrArg (fun n => n.testBit (i - (width - min len.toNat width))) h
      simp only [Nat.testBit_div_two_pow, Nat.sub_add_cancel hi] at this
      rw [this]
    · simp [hi]

/-- **An address is in a subnet when the bits of the prefix agree.** -/
theorem sameSubnet_iff {a b : IpAddr} {len : UInt8} :
    sameSubnet a len b = true ↔ InSubnet a len b := by
  have hlt4 : ∀ x : Ipv4Addr, (IpAddr.v4 x).toNat < 2 ^ 32 := fun x => (IpAddr.v4 x).toNat_lt
  have hlt6 : ∀ x : Ipv6Addr, (IpAddr.v6 x).toNat < 2 ^ 128 := fun x => (IpAddr.v6 x).toNat_lt
  cases a with
  | v4 x =>
    cases b with
    | v4 y => exact beq_iff_eq.trans (and_netMask_eq_iff (hlt4 x) (hlt4 y) len)
    | v6 y => simp [sameSubnet, InSubnet]
  | v6 x =>
    cases b with
    | v4 y => simp [sameSubnet, InSubnet]
    | v6 y => exact beq_iff_eq.trans (and_netMask_eq_iff (hlt6 x) (hlt6 y) len)

theorem contains_iff {addr : IpAddr} : s.contains addr = true ↔ s.Covers addr := by
  simp only [Scope.contains, any_eq_true, sameSubnet_iff, Scope.Covers]

/-! ### The steps that choose by metric -/

theorem minByMetric_up {q : Scope → Bool} (hp : ∀ t, p t ↔ t.Up ∧ q t = true) :
    minByMetric (e.upScopes.filter q) = some s ↔ Chosen e.scopes p s := by
  rw [minByMetric, upScopes, filter_filter, argmin_filter_eq_some, Chosen]
  refine exists_congr fun i => first_congr fun t _ => ?_
  rw [hp, Bool.and_eq_true, decide_eq_true_eq, and_comm, Scope.Up]

theorem exclusiveScope_eq_some :
    e.exclusiveScope = some s ↔
      Chosen e.scopes (fun s => s.exclusive = true ∧ Level.addressed ≤ s.level) s := by
  refine minByMetric_up fun t => ?_
  rw [Bool.and_eq_true, decide_eq_true_eq]
  -- a scope with an address is up
  exact ⟨fun h => ⟨le_trans (by decide : Level.link.rank ≤ Level.addressed.rank) h.2, h⟩, And.right⟩

/-! ### The step of the search domains -/

/-- The search domains of the scopes in the order of the loops, each with the index of its scope. -/
def searchDomains (scopes : List Scope) : List (ℕ × Scope × Name) :=
  scopes.zipIdx.flatMap fun (s, i) => s.domains.map fun d => (i, s, d)

theorem mem_searchDomains {d : Name} :
    (i, s, d) ∈ searchDomains scopes ↔ scopes[i]? = some s ∧ d ∈ s.domains := by
  simp only [searchDomains, mem_flatMap, mem_map, Prod.exists, Prod.mk.injEq,
    mem_zipIdx_iff_getElem?]
  constructor
  · rintro ⟨s', i', hs, d', hd, rfl, rfl, rfl⟩
    exact ⟨hs, hd⟩
  · rintro ⟨hs, hd⟩
    exact ⟨s, i, hs, d, hd, rfl, rfl, rfl⟩

theorem searchDomains_sorted (scopes : List Scope) :
    (searchDomains scopes).Pairwise fun a b => a.1 ≤ b.1 := by
  unfold searchDomains
  rw [pairwise_flatMap]
  constructor
  · intro x _
    exact pairwise_map.mpr (pairwise_of_forall fun _ _ => le_refl _)
  · have hidx : (scopes.zipIdx.map Prod.snd).Pairwise (· < ·) := by
      rw [zipIdx_map_snd]
      exact pairwise_lt_range'
    refine (pairwise_map.mp hidx).imp fun {a b} hlt => ?_
    intro x hx y hy
    obtain ⟨_, -, rfl⟩ := mem_map.mp hx
    obtain ⟨_, -, rfl⟩ := mem_map.mp hy
    exact hlt.le

/-- More labels are better, then a lower metric. -/
def domainKey (x : ℕ × Scope × Name) : ℕᵒᵈ ×ₗ ℕ :=
  toLex (OrderDual.toDual x.2.2.labelCount, x.2.1.metric.toNat)

theorem domainKey_lt {x y : ℕ × Scope × Name} :
    domainKey x < domainKey y ↔ y.2.2.labelCount < x.2.2.labelCount ∨
      x.2.2.labelCount = y.2.2.labelCount ∧ x.2.1.metric.toNat < y.2.1.metric.toNat := by
  simp [domainKey, Prod.Lex.lt_iff]

/-- The search domains of the scopes that are up that the name ends in. -/
def matching (scopes : List Scope) (name : Name) : List (ℕ × Scope × Name) :=
  (searchDomains scopes).filter fun x => decide (Level.link ≤ x.2.1.level) && name.endsWith x.2.2

/-- What the loops keep of a search domain. -/
def bestOf (x : ℕ × Scope × Name) : ℕ × UInt32 × Scope := (x.2.2.labelCount, x.2.1.metric, x.2.1)

/-- One turn of the inner loop, for a domain the name ends in. -/
def better (best : Option (ℕ × UInt32 × Scope)) (x : ℕ × Scope × Name) :
    Option (ℕ × UInt32 × Scope) :=
  match best with
  | none => some (bestOf x)
  | some (l, m, _) =>
    if x.2.2.labelCount > l || (x.2.2.labelCount == l && x.2.1.metric < m) then some (bestOf x)
    else best

theorem better_map (b : Option (ℕ × Scope × Name)) (x : ℕ × Scope × Name) :
    better (b.map bestOf) x = (List.argAux (fun b c => domainKey b < domainKey c) b x).map
      bestOf := by
  cases b with
  | none => rfl
  | some y =>
    have hcond : (x.2.2.labelCount > y.2.2.labelCount ||
        (x.2.2.labelCount == y.2.2.labelCount && x.2.1.metric < y.2.1.metric)) = true ↔
          domainKey x < domainKey y := by
      simp [domainKey_lt, UInt32.lt_iff_toNat_lt]
    show (if _ then _ else _) = Option.map bestOf (if _ then _ else _)
    by_cases hlt : domainKey x < domainKey y
    · rw [if_pos (hcond.mpr hlt), if_pos hlt, Option.map_some]
    · rw [if_neg (fun h => hlt (hcond.mp h)), if_neg hlt]

/-- The loops of `route` look for the best of them. -/
theorem bestDomain_eq (e : Engine) (name : Name) :
    bestDomain e.upScopes name = ((matching e.scopes name).argmin domainKey).map bestOf := by
  rw [List.argmin, ← foldl_hom (Option.map bestOf) better_map, matching, foldl_filter,
    searchDomains, foldl_flatMap, bestDomain, upScopes, foldl_filter]
  have hzip : e.scopes = e.scopes.zipIdx.map Prod.fst := (zipIdx_map_fst 0 e.scopes).symm
  conv_lhs => rw [hzip, foldl_map]
  congr 1
  funext best x
  rw [foldl_map]
  by_cases hup : Level.link ≤ x.1.level
  · simp only [hup, decide_true, Bool.true_and, if_true]
    rfl
  · simp only [hup, decide_false, Bool.false_and, Bool.false_eq_true, if_false, foldl_fixed]

theorem mem_matching {d : Name} :
    (i, s, d) ∈ matching scopes name ↔ scopes[i]? = some s ∧ s.Up ∧ d ∈ s.domains ∧
      EndsIn name d := by
  rw [matching, mem_filter, mem_searchDomains, Bool.and_eq_true, decide_eq_true_eq, endsWith_iff]
  exact ⟨fun h => ⟨h.1.1, h.2.1, h.1.2, h.2.2⟩, fun h => ⟨⟨h.1, h.2.2.1⟩, h.2.1, h.2.2.2⟩⟩

theorem ByDomain.unique {t : Scope} (hs : ByDomain scopes name s)
    (ht : ByDomain scopes name t) : s = t := by
  obtain ⟨i, d, hi, hup, hd, hends, hbest⟩ := hs
  obtain ⟨j, d', hj, hup', hd', hends', hbest'⟩ := ht
  have h := hbest j t d' hj hup' hd' hends'
  have h' := hbest' i s d hi hup hd hends
  obtain rfl : i = j := by omega
  exact Option.mem_unique hi hj

theorem byDomain_of_bestDomain {b : ℕ × UInt32 × Scope}
    (h : bestDomain e.upScopes name = some b) : ByDomain e.scopes name b.2.2 := by
  rw [bestDomain_eq, Option.map_eq_some_iff] at h
  obtain ⟨⟨i, s, d⟩, hmin, rfl⟩ := h
  rw [matching, argmin_filter_eq_some] at hmin
  obtain ⟨n, hfirst⟩ := hmin
  have hmem := mem_matching.mp (mem_filter.mpr ⟨mem_of_getElem? hfirst.at_index, hfirst.holds⟩)
  refine ⟨i, d, hmem.1, hmem.2.1, hmem.2.2.1, hmem.2.2.2, fun j t d' hj hup hd' hends => ?_⟩
  obtain ⟨hin, hpass⟩ := mem_filter.mp (mem_matching.mpr ⟨hj, hup, hd', hends⟩)
  obtain ⟨m, hm⟩ := mem_iff_getElem?.mp hin
  rcases hfirst.least m _ hm hpass with hlt | ⟨heq, hle⟩
  · rcases domainKey_lt.mp hlt with hmore | ⟨hsame, hmetric⟩
    · exact .inl hmore
    · exact .inr ⟨hsame.symm, .inl hmetric⟩
  · -- of equal ones the first in the order of the loops is chosen
    obtain ⟨hlabels, hmetric⟩ := Prod.mk.inj (toLex.injective heq)
    refine .inr ⟨(OrderDual.toDual.injective hlabels).symm, .inr ⟨hmetric, ?_⟩⟩
    rcases Nat.lt_or_eq_of_le hle with hlt | rfl
    · have hsorted := pairwise_iff_getElem.mp (searchDomains_sorted e.scopes)
      obtain ⟨hn, hn'⟩ := List.getElem?_eq_some_iff.mp hfirst.at_index
      obtain ⟨hm1, hm2⟩ := List.getElem?_eq_some_iff.mp hm
      have := hsorted n m hn hm1 hlt
      rwa [hn', hm2] at this
    · have hsame := hfirst.at_index.symm.trans hm
      cases hsame
      exact le_refl _

/-- **The loops find the scope of the longest search domain.** -/
theorem bestDomain_eq_some :
    (bestDomain e.upScopes name).map (fun b => b.2.2) = some s ↔ ByDomain e.scopes name s := by
  constructor
  · intro h
    obtain ⟨b, hb, rfl⟩ := Option.map_eq_some_iff.mp h
    exact byDomain_of_bestDomain hb
  · intro h
    cases hb : bestDomain e.upScopes name with
    | some b => exact congrArg some ((byDomain_of_bestDomain hb).unique h)
    | none =>
      obtain ⟨i, d, hi, hup, hd, hends, -⟩ := h
      rw [bestDomain_eq, Option.map_eq_none_iff, argmin_eq_none] at hb
      have := mem_matching.mpr ⟨hi, hup, hd, hends⟩
      rw [hb] at this
      cases this

/-! ### `route` -/

/-- The steps of `route` one after the other. -/
theorem route_eq (e : Engine) (name : Name) :
    e.route name =
      (e.exclusiveScope.map Scope.id).or
      ((((bestDomain e.upScopes name).map fun b => b.2.2).map Scope.id).or
      (((name.reverseAddress.bind fun addr =>
        minByMetric (e.upScopes.filter fun s => s.contains addr)).map Scope.id).or
      (((minByMetric (e.upScopes.filter Scope.defaultRoute)).map Scope.id).or
      (((minByMetric (e.upScopes.filter fun s => !s.servers.isEmpty)).map Scope.id).or
      ((if !e.fallbackServers.isEmpty then some fallbackScope else none).or none))))) := by
  unfold route
  split
  · next h => rw [h]; rfl
  · next h =>
    rw [h, Option.map_none, Option.none_or]
    split
    · next h => rw [h]; rfl
    · next h =>
      rw [h, Option.map_none, Option.map_none, Option.none_or]
      split
      · next h => rw [h]; rfl
      · next h =>
        rw [h, Option.map_none, Option.none_or]
        split
        · next h => rw [h]; rfl
        · next h =>
          rw [h, Option.map_none, Option.none_or]
          split
          · next h => rw [h]; rfl
          · next h => rw [h, Option.map_none, Option.none_or, Option.or_none]

/-- A rule for scopes, as the step that looks for the scope. -/
theorem rule_iff {R : Scope → Prop} {x : Option Scope} (h : ∀ s, x = some s ↔ R s) (id : String) :
    (∃ s, R s ∧ s.id = id) ↔ x.map Scope.id = some id := by
  simp only [Option.map_eq_some_iff, h]

theorem firstOf_route (e : Engine) (name : Name) :
    FirstOf (routingRules e.scopes e.fallbackServers name) (e.route name) := by
  rw [route_eq]
  refine firstOf_cons (rule_iff fun s => exclusiveScope_eq_some) ?_
  refine firstOf_cons (rule_iff fun s => bestDomain_eq_some) ?_
  refine firstOf_cons (rule_iff fun s => ?_) ?_
  · rw [Option.bind_eq_some_iff]
    exact exists_congr fun addr => and_congr_right' (minByMetric_up fun t => by rw [contains_iff])
  refine firstOf_cons (rule_iff fun s => minByMetric_up fun t => Iff.rfl) ?_
  refine firstOf_cons (rule_iff fun s => minByMetric_up fun t => by simp) ?_
  refine firstOf_cons (fun id => ?_) .none
  cases e.fallbackServers <;> simp

theorem chosen_unique {t : Scope} (hs : Chosen scopes p s) (ht : Chosen scopes p t) : s = t := by
  obtain ⟨i, hi⟩ := hs
  obtain ⟨j, hj⟩ := ht
  exact hi.unique hj

theorem routingRules_unique {fallback : List IpAddr} :
    ∀ rule ∈ routingRules scopes fallback name, ∀ a b, rule a → rule b → a = b := by
  simp only [routingRules, scopeRules, serverRules, cons_append, nil_append, forall_mem_cons]
  refine ⟨?_, ?_, ?_, ?_, ?_, ?_, by simp⟩
  · rintro _ _ ⟨s, hs, rfl⟩ ⟨t, ht, rfl⟩
    rw [chosen_unique hs ht]
  · rintro _ _ ⟨s, hs, rfl⟩ ⟨t, ht, rfl⟩
    rw [hs.unique ht]
  · rintro _ _ ⟨s, ⟨addr, haddr, hs⟩, rfl⟩ ⟨t, ⟨addr', haddr', ht⟩, rfl⟩
    cases haddr.symm.trans haddr'
    rw [chosen_unique hs ht]
  · rintro _ _ ⟨s, hs, rfl⟩ ⟨t, ht, rfl⟩
    rw [chosen_unique hs ht]
  · rintro _ _ ⟨s, hs, rfl⟩ ⟨t, ht, rfl⟩
    rw [chosen_unique hs ht]
  · rintro _ _ ⟨-, rfl⟩ ⟨-, rfl⟩
    rfl

theorem route_eq_iff {r : Option String} :
    e.route name = r ↔ FirstOf (routingRules e.scopes e.fallbackServers name) r :=
  ⟨fun h => h ▸ firstOf_route e name, fun h => (firstOf_route e name).unique routingRules_unique h⟩

/-! #### Servers do not matter to the first four rules -/

/-- The scope without its servers. -/
def Scope.unserved (s : Scope) : Scope := { s with servers := [] }

theorem getElem?_unserved :
    (scopes.map Scope.unserved)[i]? = some s ↔ ∃ t, scopes[i]? = some t ∧ t.unserved = s := by
  rw [List.getElem?_map, Option.map_eq_some_iff]

theorem chosen_unserved (hp : ∀ s, p s.unserved ↔ p s) (id : String) :
    (∃ s, Chosen (scopes.map Scope.unserved) p s ∧ s.id = id) ↔ ∃ s, Chosen scopes p s ∧
      s.id = id := by
  constructor
  · rintro ⟨s, ⟨i, hi⟩, rfl⟩
    obtain ⟨t, ht, rfl⟩ := getElem?_unserved.mp hi.at_index
    refine ⟨t, ⟨i, ht, (hp t).mp hi.holds, fun j u hu hpu => ?_⟩, rfl⟩
    exact hi.least j u.unserved (getElem?_unserved.mpr ⟨u, hu, rfl⟩) ((hp u).mpr hpu)
  · rintro ⟨s, ⟨i, hi⟩, rfl⟩
    refine ⟨s.unserved, ⟨i, getElem?_unserved.mpr ⟨s, hi.at_index, rfl⟩, (hp s).mpr hi.holds, ?_⟩,
      rfl⟩
    intro j u hu hpu
    obtain ⟨t, ht, rfl⟩ := getElem?_unserved.mp hu
    exact hi.least j t ht ((hp t).mp hpu)

theorem byDomain_unserved (id : String) :
    (∃ s, ByDomain (scopes.map Scope.unserved) name s ∧ s.id = id) ↔ ∃ s, ByDomain scopes name s ∧
      s.id = id := by
  constructor
  · rintro ⟨s, ⟨i, d, hi, hup, hd, hends, hbest⟩, rfl⟩
    obtain ⟨t, ht, rfl⟩ := getElem?_unserved.mp hi
    refine ⟨t, ⟨i, d, ht, hup, hd, hends, fun j u d' hu => ?_⟩, rfl⟩
    exact hbest j u.unserved d' (getElem?_unserved.mpr ⟨u, hu, rfl⟩)
  · rintro ⟨s, ⟨i, d, hi, hup, hd, hends, hbest⟩, rfl⟩
    refine ⟨s.unserved, ⟨i, d, getElem?_unserved.mpr ⟨s, hi, rfl⟩, hup, hd, hends, fun j u d' hu =>
      ?_⟩, rfl⟩
    obtain ⟨t, ht, rfl⟩ := getElem?_unserved.mp hu
    exact hbest j t d' ht

theorem scopeRules_unserved (scopes : List Scope) (name : Name) :
    scopeRules (scopes.map Scope.unserved) name = scopeRules scopes name := by
  simp only [scopeRules, List.cons.injEq, and_true]
  refine ⟨?_, ?_, ?_, ?_⟩ <;> funext id <;> refine propext ?_
  · exact chosen_unserved (fun s => Iff.rfl) id
  · exact byDomain_unserved id
  · cases name.reverseAddress with
    | none => simp
    | some addr =>
      have hsame : (∃ s, Chosen (scopes.map Scope.unserved) (fun s => s.Up ∧ s.Covers addr) s ∧
          s.id = id) ↔
          ∃ s, Chosen scopes (fun s => s.Up ∧ s.Covers addr) s ∧ s.id = id :=
            chosen_unserved (fun s => Iff.rfl) id
      simpa using hsame
  · exact chosen_unserved (fun s => Iff.rfl) id

/-- **Routing follows its six rules.**  A name is routed to the scope that the first applicable rule
chooses; nothing but the scopes and the fallback servers has a part in it, and servers none where
one of the first four rules applies. -/
theorem route_follows_rules (e : Engine) (name : Name) :
    (∀ r, e.route name = r ↔ FirstOf (routingRules e.scopes e.fallbackServers name) r) ∧
      (∀ e' : Engine, e'.scopes = e.scopes → e'.fallbackServers = e.fallbackServers →
        e'.route name = e.route name) ∧
      ∀ e' : Engine, e'.scopes.map Scope.unserved = e.scopes.map Scope.unserved →
        (∃ id, FirstOf (scopeRules e.scopes name) (some id)) → e'.route name = e.route name := by
  refine ⟨fun r => route_eq_iff, fun e' hscopes hfallback => ?_, ?_⟩
  · rw [route_eq_iff, hscopes, hfallback]
    exact firstOf_route e name
  · rintro e' hscopes ⟨id, hid⟩
    have hrules : scopeRules e'.scopes name = scopeRules e.scopes name := by
      rw [← scopeRules_unserved, hscopes, scopeRules_unserved]
    rw [route_eq_iff.mpr (hid.append _), route_eq_iff, routingRules, hrules]
    exact hid.append _

/-- A tunnel that takes every name, with these servers. -/
def tunnel (servers : List IpAddr) : Scope where
  id := "tun0"
  interface := "tun0"
  servers := servers
  domains := []
  addresses := []
  defaultRoute := false
  exclusive := true
  metric := 50
  level := .addressed

/-- The name goes to the tunnel, with or without servers. -/
theorem route_follows_rules_tunnel :
    route { scopes := [tunnel [.v4 IpAddr.localhost4]], entropy := fun _ => none } localhost =
      some "tun0" := by
  have hfirst : First (fun s : Scope => s.exclusive = true ∧ Level.addressed ≤ s.level)
      (fun s : Scope => s.metric.toNat) [tunnel []] 0 (tunnel []) := by
    refine ⟨rfl, by decide, fun j b hb _ => ?_⟩
    obtain rfl : b = tunnel [] := by simpa using mem_of_getElem? hb
    exact .inr ⟨rfl, Nat.zero_le j⟩
  have hsame := (route_follows_rules { scopes := [tunnel []], entropy := fun _ => none }
    localhost).2.2
    { scopes := [tunnel [.v4 IpAddr.localhost4]], entropy := fun _ => none } rfl
    ⟨"tun0", .here ⟨tunnel [], ⟨0, hfirst⟩, rfl⟩⟩
  rw [hsame]
  decide

end Resolvd.Engine
