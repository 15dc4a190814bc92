import Resolvd.Engine.Cache
import Resolvd.Engine.Records
import Mathlib.Data.List.Lex
import Mathlib.Data.List.Sort

/-!
# Where a question goes

The functions of `engine.rs` that only read the configuration: `route` picks the scope of a name,
`servers_of` the order in which its servers are tried, `candidates` the names a question stands for,
and `synthetic` answers from the machine's own knowledge.

`configuredServers` is the list a scope is configured with; `serversOf` is the same list in another
order (`mem_serversOf`).
-/

namespace Resolvd.Engine

open Lib Dns List

variable {e : Engine} {name : Name} {rtype : UInt16} {a : Answer}

/-- `interface_of`. -/
def interfaceOf (e : Engine) (scope : String) : Option String :=
  (e.scopes.find? fun s => s.id == scope).map Scope.interface

/-- `is_demoted`. -/
def isDemoted (e : Engine) (server : IpAddr) (scope : String) (now : Instant) : Bool :=
  match e.demoted.get (serverKey server scope) with
  | some til => now < til
  | none => false

/-! ### Routing -/

/-- `up_scopes`. -/
def upScopes (e : Engine) : List Scope := e.scopes.filter fun s => Level.link ≤ s.level

/-- `min_by_key(|s| s.metric)`: the first of the scopes with the lowest metric. -/
def minByMetric (scopes : List Scope) : Option Scope := scopes.argmin fun s => s.metric.toNat

/-- `exclusive`. -/
def exclusiveScope (e : Engine) : Option Scope :=
  minByMetric (e.upScopes.filter fun s => s.exclusive && Level.addressed ≤ s.level)

/-- The loop of `route` over the search domains: longest match, ties by metric. -/
def bestDomain (scopes : List Scope) (name : Name) : Option (ℕ × UInt32 × Scope) :=
  scopes.foldl (fun best s =>
    s.domains.foldl (fun best d =>
      if name.endsWith d then
        match best with
        | none => some (d.labelCount, s.metric, s)
        | some (l, m, _) =>
          if d.labelCount > l || (d.labelCount == l && s.metric < m)
            then some (d.labelCount, s.metric, s) else best
      else best) best) none

/-- `route`: the scope a name goes to, servers or not. -/
def route (e : Engine) (name : Name) : Option String :=
  match e.exclusiveScope with
  | some x => some x.id
  | none =>
    match bestDomain e.upScopes name with
    | some (_, _, s) => some s.id
    | none =>
      match name.reverseAddress.bind fun addr =>
        minByMetric (e.upScopes.filter fun s => s.contains addr) with
      | some s => some s.id
      | none =>
        match minByMetric (e.upScopes.filter Scope.defaultRoute) with
        | some s => some s.id
        | none =>
          match minByMetric (e.upScopes.filter fun s => !s.servers.isEmpty) with
          | some s => some s.id
          | none => if !e.fallbackServers.isEmpty then some fallbackScope else none

/-- The servers a scope is configured with. -/
def configuredServers (e : Engine) (scope : String) : List IpAddr :=
  if scope = fallbackScope then e.fallbackServers
  else ((e.scopes.find? fun s => s.id == scope).map Scope.servers).getD []

/-- `servers_of`: the servers to try, healthy ones first. -/
def serversOf (e : Engine) (scope : String) (now : Instant) : List IpAddr :=
  let (healthy, demoted) := (e.configuredServers scope).partition fun s => !e.isDemoted s scope now
  healthy ++ demoted

theorem mem_serversOf {scope : String} {now : Instant} {s : IpAddr} :
    s ∈ e.serversOf scope now ↔ s ∈ e.configuredServers scope := by
  simp only [serversOf, partition_eq_filter_filter, mem_append, mem_filter, Function.comp_apply]
  cases e.isDemoted s scope now <;> simp

theorem serversOf_eq_nil {scope : String} {now : Instant} :
    e.serversOf scope now = [] ↔ e.configuredServers scope = [] := by
  simp only [eq_nil_iff_forall_not_mem, mem_serversOf]

/-! ### Candidates -/

/-- One turn of the loop of `candidates`. -/
def addCandidate (name : Name) (out : List Name) (d : Name) : List Name :=
  match name.join d with
  | .ok full => if out.any fun n => n.eq full then out else out ++ [full]
  | .error _ => out

/-- `candidates`: the name itself, or a single label under the search domains that apply, each name
once. -/
def candidates (e : Engine) (name : Name) : List Name :=
  if name.labelCount ≠ 1 then [name]
  else
    let domains := match e.exclusiveScope with
      | some x => x.domains
      | none =>
        (e.upScopes.insertionSort fun a b : Scope => a.metric ≤ b.metric).flatMap Scope.domains ++
          e.fallbackDomains
    domains.foldl (addCandidate name) []

theorem addCandidate_distinct {out : List Name} (d : Name)
    (h : out.Pairwise fun a b => a.eq b = false) :
    (addCandidate name out d).Pairwise fun a b => a.eq b = false := by
  unfold addCandidate
  split
  · next full _ =>
    split
    · exact h
    · next hnew =>
      refine pairwise_append.mpr ⟨h, pairwise_singleton _ _, fun a ha b hb => ?_⟩
      obtain rfl := mem_singleton.mp hb
      cases heq : a.eq b with
      | false => rfl
      | true => exact absurd (any_eq_true.mpr ⟨a, ha, heq⟩) hnew
  · exact h

/-- **The candidates are different names.** -/
theorem candidates_distinct (e : Engine) (name : Name) :
    (e.candidates name).Pairwise fun a b => a.eq b = false := by
  have hfold : ∀ ds out : List Name, out.Pairwise (fun a b => a.eq b = false) →
      (ds.foldl (addCandidate name) out).Pairwise fun a b => a.eq b = false := by
    intro ds
    induction ds with
    | nil => exact fun out h => h
    | cons d ds ih => exact fun out h => ih _ (addCandidate_distinct d h)
  unfold candidates
  split
  · exact pairwise_singleton _ _
  · exact hfold _ _ List.Pairwise.nil

/-! ### Synthetic answers -/

/-- `own_addresses`; `dedup` drops repetitions that stand next to each other. -/
def ownAddresses (e : Engine) : List IpAddr :=
  (((e.scopes.filter fun s => Level.addressed ≤ s.level).flatMap fun s =>
    s.addresses.map Prod.fst).filter
    fun a => !a.isLoopback).eraseReps

def localhost : Name := ⟨[ascii "localhost"], by decide⟩

def localDomain : Name := ⟨[ascii "local"], by decide⟩

example : Name.parse (ascii "localhost") = .ok localhost ∧
  Name.parse (ascii "local") = .ok localDomain := by decide

/-- `127.0.0.1` and `::1`. -/
def loopbackAddresses : List IpAddr := [.v4 IpAddr.localhost4, .v6 IpAddr.localhost6]

/-- `found` of `synthetic`. -/
def foundLocally (name : Name) (records : List Record) (source : Source) : Answer :=
  { outcome := .found, records, source, resolvedName := some name }

/-- `addresses` of `synthetic`: those of the requested family. -/
def addressAnswer (name : Name) (rtype : UInt16) (addrs : List IpAddr) (source : Source) : Answer :=
  foundLocally name (addrs.filterMap fun
    | .v4 a => if rtype = Rtype.a ∨ rtype = Rtype.any then some (Record.new name 0 (.a a)) else none
    | .v6 a =>
      if rtype = Rtype.aaaa ∨ rtype = Rtype.any then some (Record.new name 0 (.aaaa a))
      else none) source

/-- `ptr` of `synthetic`. -/
def ptrAnswer (name target : Name) (source : Source) : Answer :=
  foundLocally name [Record.new name 0 (.ptr target)] source

/-- The name a static address maps back to: of several, the first in the order of their lower-case
texts. -/
def Hosts.nameOf (h : Hosts) (addr : IpAddr) : Option Name :=
  ((h.entries.filter fun p => p.2.contains addr).argmin fun p =>
    p.1.toLowercase.display.map UInt8.toNat).map Prod.fst

/-- The reverse part of `synthetic`. -/
def syntheticReverse (e : Engine) (name : Name) (rtype : UInt16) (addr : IpAddr) : Option Answer :=
  if rtype ≠ Rtype.ptr ∧ rtype ≠ Rtype.any then none
  else if addr.isLoopback then some (ptrAnswer name localhost .synthetic)
  else
    match e.hosts.nameOf addr with
    | some host => some (ptrAnswer name host .hosts)
    | none =>
      match e.hostname with
      | some h => if e.ownAddresses.contains addr then some (ptrAnswer name h .synthetic) else none
      | none => none

/-- The answer for a name under `.local`, which is never forwarded. -/
def localAnswer : Answer := { outcome := .notFound, source := .synthetic }

/-- `synthetic`: what is answered before any network. -/
def synthetic (e : Engine) (name : Name) (rtype : UInt16) : Option Answer :=
  if name.eq localhost || name.endsWith localhost then
    some (addressAnswer name rtype loopbackAddresses .synthetic)
  else
    match e.hosts.get name with
    | some addrs => some (addressAnswer name rtype addrs .hosts)
    | none =>
      if e.hostname.any fun h => h.eq name then
        let own := e.ownAddresses
        some (addressAnswer name rtype (if own.isEmpty then loopbackAddresses else own) .synthetic)
      else if name.endsWith localDomain then some localAnswer
      else
        match name.reverseAddress with
        | some addr => e.syntheticReverse name rtype addr
        | none => none

section

variable (h : e.synthetic name rtype = some a)
include h

/-- **The forms of a synthetic answer**: addresses, a reverse name, or the refusal of a name under
`.local`. -/
theorem synthetic_forms :
    (name.endsWith localDomain = true ∧ a = localAnswer) ∨
      ∃ source, (source = .synthetic ∨ source = .hosts) ∧
      ((∃ addrs, a = addressAnswer name rtype addrs source) ∨
        (rtype = Rtype.ptr ∨ rtype = Rtype.any) ∧ ∃ target, a = ptrAnswer name target source) := by
  unfold synthetic at h
  split at h
  · exact .inr ⟨.synthetic, .inl rfl, .inl ⟨_, (Option.some.inj h).symm⟩⟩
  · split at h
    · exact .inr ⟨.hosts, .inr rfl, .inl ⟨_, (Option.some.inj h).symm⟩⟩
    · split at h
      · exact .inr ⟨.synthetic, .inl rfl, .inl ⟨_, (Option.some.inj h).symm⟩⟩
      · split at h
        · next hl => exact .inl ⟨hl, (Option.some.inj h).symm⟩
        · split at h
          · unfold syntheticReverse at h
            split at h
            · cases h
            · next hrtype =>
              have hptr : rtype = Rtype.ptr ∨ rtype = Rtype.any := by
                rw [← not_not (a := _ ∨ _), not_or]
                exact hrtype
              split at h
              · exact .inr ⟨.synthetic, .inl rfl, .inr ⟨hptr, _, (Option.some.inj h).symm⟩⟩
              · split at h
                · exact .inr ⟨.hosts, .inr rfl, .inr ⟨hptr, _, (Option.some.inj h).symm⟩⟩
                · split at h
                  · split at h
                    · exact .inr ⟨.synthetic, .inl rfl, .inr ⟨hptr, _, (Option.some.inj h).symm⟩⟩
                    · cases h
                  · cases h
          · cases h

/-- **A synthetic answer is found, or the name is under `.local`**; it never comes from the cache or
the network. -/
theorem synthetic_cases :
    (a.outcome = .found ∨ name.endsWith localDomain = true ∧ a = localAnswer) ∧ a.source ≠ .cache ∧
      a.source ≠ .dns := by
  rcases synthetic_forms h with ⟨hl, rfl⟩ | ⟨source, hsource, ⟨addrs, rfl⟩ | ⟨-, target, rfl⟩⟩
  · exact ⟨.inr ⟨hl, rfl⟩, by simp [localAnswer], by simp [localAnswer]⟩
  · rcases hsource with rfl | rfl <;> simp [addressAnswer, foundLocally]
  · rcases hsource with rfl | rfl <;> simp [ptrAnswer, foundLocally]

/-- Its records are addresses and names of the right type. -/
theorem synthetic_wellFormed : ∀ r ∈ a.records, r.WellFormed := by
  rcases synthetic_forms h with ⟨hl, rfl⟩ | ⟨source, -, ⟨addrs, rfl⟩ | ⟨-, target, rfl⟩⟩
  · simp [localAnswer]
  · intro r hr
    simp only [addressAnswer, foundLocally, mem_filterMap] at hr
    obtain ⟨addr, -, hr⟩ := hr
    cases addr with
    | v4 x =>
      obtain rfl := Option.some.inj (Option.ite_none_right_eq_some.mp hr).2
      exact ⟨rfl, trivial⟩
    | v6 x =>
      obtain rfl := Option.some.inj (Option.ite_none_right_eq_some.mp hr).2
      exact ⟨rfl, trivial⟩
  · intro r hr
    obtain rfl := mem_singleton.mp hr
    exact ⟨rfl, trivial⟩

end

end Resolvd.Engine
