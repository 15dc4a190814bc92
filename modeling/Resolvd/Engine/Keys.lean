import Resolvd.Dns.Folding
import Resolvd.Engine.Cache

/-!
# Keys without case

The cache, the static hosts and the host's own name are looked up by name.  `CacheKey` derives its
equality and its hash from those of `Name`, over the lower-case form; the static hosts are a map
over `Name` itself.  Two spellings of a name are one key in each of them (`case_folding`).
-/

namespace Resolvd.Engine

open Lib Dns

variable {a b : Name}

/-- `PartialEq for CacheKey`, as derived. -/
def CacheKey.eq (k k' : CacheKey) : Bool :=
  k.name.eq k'.name && k.rtype == k'.rtype && k.scope == k'.scope

/-- `Hash for CacheKey`, as derived. -/
def CacheKey.hashInput (k : CacheKey) : List Hashed :=
  k.name.hashInput ++ [.u16 k.rtype, .str k.scope]

/-- The derived equality is that of the model, because the names of keys are in lower case. -/
theorem CacheKey.eq_iff {k k' : CacheKey} : k.eq k' = true ↔ k = k' := by
  obtain ⟨n, t, s, hn⟩ := k
  obtain ⟨n', t', s', hn'⟩ := k'
  simp only [CacheKey.eq, Bool.and_eq_true, beq_iff_eq, CacheKey.mk.injEq, Name.eq_iff, hn, hn',
    and_assoc]

theorem CacheKey.new_congr (h : a.eq b = true) (rtype : UInt16) (scope : String) :
    CacheKey.new a rtype scope = CacheKey.new b rtype scope :=
  CacheKey.new_eq_iff.mpr ⟨h, rfl, rfl⟩

theorem CacheKey.new_eq_new {rtype : UInt16} {scope : String} :
    (CacheKey.new a rtype scope).eq (CacheKey.new b rtype scope) = true ↔ a.eq b = true :=
  CacheKey.eq_iff.trans (CacheKey.new_eq_iff.trans (and_iff_left ⟨rfl, rfl⟩))

theorem Hosts.get_eq_hashFind (hasher : List Hashed → ℕ) (hosts : Hosts) (name : Name) :
    hosts.get name = hashFind hasher Name.hashInput Name.eq hosts.entries name := by
  have hinput : ∀ a b : Name, a.eq b = true → a.hashInput = b.hashInput :=
    fun a b h => Name.hashInput_congr h
  exact (hashFind_eq hinput hasher hosts.entries name).symm

theorem Hosts.get_congr (h : a.eq b = true) (hosts : Hosts) : hosts.get a = hosts.get b := by
  simp only [Hosts.get, Name.eq_congr_right h]

/-- **Case folding is a congruence**: the names up to case are those with the same lower-case
labels, every function that compares, hashes, joins or measures names respects them, and the suffix
order is an order of them.  So two spellings of a name find the same cache entry, the same static
host and the same host name. -/
theorem case_folding :
    (∀ a b : Name, (a.eq b = true ↔ a.toLowercase.labels = b.toLowercase.labels) ∧
      ∀ rtype scope, a.eq b = true ↔
        (CacheKey.new a rtype scope).eq (CacheKey.new b rtype scope) = true) ∧
    (Equivalence fun a b : Name => a.eq b = true) ∧
    (∀ a b : Name, a.eq b = true → a.hashInput = b.hashInput) ∧
    (∀ (a : Name) bits, (a.randomiseCase bits).eq a = true) ∧
    (∀ a b s t : Name, a.eq b = true → s.eq t = true → a.endsWith s = b.endsWith t ∧
      Name.SameResult (a.join s) (b.join t) ∧ a.reverseAddress = b.reverseAddress ∧
      a.labelCount = b.labelCount ∧
      a.wireLen = b.wireLen) ∧
    (∀ a : Name, a.endsWith a = true) ∧
    (∀ a b c : Name, a.endsWith b = true → b.endsWith c = true → a.endsWith c = true) ∧
    (∀ a b : Name, a.endsWith b = true → b.endsWith a = true → a.eq b = true) ∧
    (∀ a s c : Name, a.join s = .ok c → c.endsWith s = true ∧
      c.labelCount = a.labelCount + s.labelCount) ∧
    ∀ a b : Name, a.eq b = true →
      (∀ hasher (entries : List (CacheKey × Entry)) rtype scope,
        hashFind hasher CacheKey.hashInput CacheKey.eq entries (CacheKey.new a rtype scope) =
          hashFind hasher CacheKey.hashInput CacheKey.eq entries (CacheKey.new b rtype scope)) ∧
      (∀ (cache : Cache) rtype scope now,
        cache.get (CacheKey.new a rtype scope) now = cache.get (CacheKey.new b rtype scope) now) ∧
      (∀ hasher (hosts : Hosts), hashFind hasher Name.hashInput Name.eq hosts.entries a =
        hashFind hasher Name.hashInput Name.eq hosts.entries b ∧ hosts.get a = hosts.get b) ∧
      ∀ e : Engine, (e.hostname.any fun h => h.eq a) = e.hostname.any fun h => h.eq b := by
  refine ⟨fun a b => ⟨Name.eq_iff_labels, fun _ _ => CacheKey.new_eq_new.symm⟩,
    ⟨Name.eq_refl, Name.eq_symm, Name.eq_trans⟩, fun a b =>
      Name.hashInput_congr, Name.randomiseCase_eq, ?_,
    Name.endsWith_refl, fun a b c => Name.endsWith_trans, fun a b => Name.endsWith_antisymm, ?_, ?_⟩
  · intro a b s t h hs
    exact ⟨Name.endsWith_congr h hs, Name.join_congr h hs, Name.reverseAddress_congr h,
      Name.labelCount_congr h, Name.wireLen_congr h⟩
  · intro a s c h
    exact ⟨Name.endsWith_of_join h, Name.labelCount_of_join h⟩
  · intro a b h
    refine ⟨fun hasher entries rtype scope => ?_, fun cache rtype scope now => ?_,
      fun hasher hosts => ⟨?_, ?_⟩,
      fun e => ?_⟩
    · rw [CacheKey.new_congr h]
    · rw [CacheKey.new_congr h]
    · rw [← Hosts.get_eq_hashFind, ← Hosts.get_eq_hashFind, Hosts.get_congr h]
    · exact Hosts.get_congr h hosts
    · simp only [Name.eq_congr_right h]

/-- Two spellings of one name under a domain, which joins to both. -/
theorem case_folding_spellings :
    Name.SameResult ((⟨[ascii "wWw"], by decide⟩ : Name).join ⟨[ascii "Net"], by decide⟩)
      ((⟨[ascii "WWW"], by decide⟩ : Name).join ⟨[ascii "net"], by decide⟩) ∧
    (Hosts.empty.get ⟨[ascii "wWw"], by decide⟩ = Hosts.empty.get ⟨[ascii "WWW"], by decide⟩) := by
  obtain ⟨-, -, -, -, hcongr, -, -, -, -, hkeys⟩ := case_folding
  refine ⟨(hcongr _ _ _ _ (by decide) (by decide)).2.1, ?_⟩
  exact ((hkeys _ _ (by decide)).2.2.1 (fun _ => 0) Hosts.empty).2

end Resolvd.Engine
