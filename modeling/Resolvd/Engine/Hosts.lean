import Resolvd.Dns.Presentation
import Resolvd.Engine.Core
import Resolvd.Engine.Rules
import Resolvd.Engine.Run

/-!
# Static names

The table of static names is a `HashMap`, visited in an order that changes whenever it is built
anew.  No answer depends on it (`synthetic_any_order`): a name is found by its key, and of the names
an address belongs to `synthetic` takes the one whose lower-case text is least, which is one name
only since texts tell names apart.
-/

namespace Resolvd.Engine

open Lib Dns List

variable {name : Name}

/-- The text by which static names are compared. -/
def textKey (n : Name) : List ℕ := n.toLowercase.display.map UInt8.toNat

theorem textKey_injective {a b : Name} (h : textKey a = textKey b) : a.eq b = true := by
  have hinj : Function.Injective UInt8.toNat := fun x y => UInt8.toNat_inj.mp
  exact Name.eq_iff.mpr (Name.display_injective (hinj.list_map h))

namespace Hosts

variable {h h' : Hosts} {addr : IpAddr}

theorem entry_unique {p q : Name × List IpAddr} (hp : p ∈ h.entries) (hq : q ∈ h.entries)
    (heq : p.1.eq q.1 = true) : p = q := by
  by_contra hne
  have hsymm : Std.Symm fun a b : Name × List IpAddr => a.1.eq b.1 = false := by
    refine ⟨fun a b hab => ?_⟩
    rw [← Bool.not_eq_true] at hab ⊢
    exact fun hba => hab (Name.eq_symm hba)
  rw [h.distinct.forall hp hq hne] at heq
  cases heq

theorem get_eq_some {name : Name} {addrs : List IpAddr} :
    h.get name = some addrs ↔ ∃ p ∈ h.entries, p.1.eq name = true ∧ p.2 = addrs := by
  unfold get
  rw [Option.map_eq_some_iff]
  constructor
  · rintro ⟨p, hp, rfl⟩
    exact ⟨p, mem_of_find?_eq_some hp, by simpa using List.find?_some hp, rfl⟩
  · rintro ⟨p, hp, hname, rfl⟩
    cases hf : h.entries.find? fun p => p.1.eq name with
    | none => exact absurd hname (List.find?_eq_none.mp hf p hp)
    | some q =>
      have hq : q.1.eq name = true := by simpa using List.find?_some hf
      exact ⟨q, rfl, by rw [entry_unique (mem_of_find?_eq_some hf) hp (Name.eq_trans hq (Name.eq_symm hname))]⟩

/-- The name has the address, and its text is before that of every other name that has it. -/
structure LeastName (h : Hosts) (addr : IpAddr) (host : Name) : Prop where
  has : ∃ addrs, (host, addrs) ∈ h.entries ∧ addr ∈ addrs
  least : ∀ p ∈ h.entries, addr ∈ p.2 → p.1 ≠ host → textKey host < textKey p.1

theorem LeastName.unique {a b : Name} (ha : LeastName h addr a) (hb : LeastName h addr b) :
    a = b := by
  by_contra hne
  obtain ⟨as, has, haddr⟩ := ha.has
  obtain ⟨bs, hbs, hbddr⟩ := hb.has
  exact lt_asymm (ha.least _ hbs hbddr (Ne.symm hne)) (hb.least _ has haddr hne)

theorem leastName_of_nameOf {host : Name} (hname : h.nameOf addr = some host) :
    LeastName h addr host := by
  obtain ⟨⟨n, addrs⟩, hmin, rfl⟩ := Option.map_eq_some_iff.mp hname
  obtain ⟨hmem, haddr⟩ := mem_filter.mp (argmin_mem hmin)
  refine ⟨⟨addrs, hmem, by simpa using haddr⟩, fun p hp hpaddr hne => ?_⟩
  have hkept : p ∈ h.entries.filter fun p => p.2.contains addr :=
    mem_filter.mpr ⟨hp, by simpa using hpaddr⟩
  have hle : ¬ textKey p.1 < textKey n :=
    not_lt_of_mem_argmin (f := fun p : Name × List IpAddr => textKey p.1) hkept hmin
  refine lt_of_le_of_ne (not_lt.mp hle) fun heq => hne ?_
  rw [entry_unique hp hmem (textKey_injective heq.symm)]

theorem nameOf_eq_none : h.nameOf addr = none ↔ ∀ p ∈ h.entries, addr ∉ p.2 := by
  rw [nameOf, Option.map_eq_none_iff, argmin_eq_none, filter_eq_nil_iff]
  simp

/-- **The name of an address** is the one with the least text. -/
theorem nameOf_eq_some {host : Name} : h.nameOf addr = some host ↔ LeastName h addr host := by
  refine ⟨leastName_of_nameOf, fun hl => ?_⟩
  cases hname : h.nameOf addr with
  | none =>
    obtain ⟨addrs, hmem, haddr⟩ := hl.has
    exact absurd haddr (nameOf_eq_none.mp hname _ hmem)
  | some n => rw [(leastName_of_nameOf hname).unique hl]

section Perm

variable (hperm : h.entries.Perm h'.entries)

include hperm

theorem get_perm (name : Name) : h'.get name = h.get name := by
  ext addrs
  simp only [get_eq_some, hperm.mem_iff]

theorem nameOf_perm (addr : IpAddr) : h'.nameOf addr = h.nameOf addr := by
  ext host
  rw [nameOf_eq_some, nameOf_eq_some]
  exact ⟨fun hl => ⟨by simpa only [hperm.mem_iff] using hl.has, fun p hp => hl.least p (hperm.mem_iff.mp hp)⟩,
    fun hl => ⟨by simpa only [hperm.mem_iff] using hl.has, fun p hp => hl.least p (hperm.mem_iff.mpr hp)⟩⟩

end Perm

end Hosts

theorem synthetic_perm {e : Engine} {hosts : Hosts} (hperm : e.hosts.entries.Perm hosts.entries)
    (name : Name) (rtype : UInt16) :
    (e.setHosts hosts).synthetic name rtype = e.synthetic name rtype := by
  have hget : (e.setHosts hosts).hosts.get name = e.hosts.get name := Hosts.get_perm hperm name
  have hname : (e.setHosts hosts).hosts.nameOf = e.hosts.nameOf :=
    funext fun addr => Hosts.nameOf_perm hperm addr
  unfold synthetic syntheticReverse
  rw [hget, hname]
  rfl

/-- A name of the reverse mapping ends in `arpa`. -/
theorem not_endsWith_of_reverse {suffix : Name} {addr : IpAddr}
    (h : name.reverseAddress = some addr) {l : Bytes} (hsuffix : suffix.labels = [l])
    (hl : l.map toAsciiLower ≠ ascii "arpa") : name.endsWith suffix = false := by
  have hlast : (name.labels.map (List.map toAsciiLower)).getLast? = some (ascii "arpa") := by
    have harpa : EndsIn name Name.inAddrArpa ∨ EndsIn name Name.ip6Arpa := by
      unfold Name.reverseAddress at h
      split at h
      · next hc => exact .inl (endsWith_iff.mp (Bool.and_eq_true_iff.mp hc).1)
      · split at h
        · next hc => exact .inr (endsWith_iff.mp (Bool.and_eq_true_iff.mp hc).1)
        · cases h
    rcases harpa with ⟨front, hfront⟩ | ⟨front, hfront⟩
    · rw [← hfront, List.getLast?_append]
      rfl
    · rw [← hfront, List.getLast?_append]
      rfl
  rw [← Bool.not_eq_true, endsWith_iff]
  rintro ⟨front, hfront⟩
  rw [← hfront, hsuffix, List.getLast?_append] at hlast
  exact hl (Option.some.inj hlast)

/-- The answer for the host's own name. -/
def ownAnswer (e : Engine) (name : Name) (rtype : UInt16) : Answer :=
  addressAnswer name rtype (if e.ownAddresses.isEmpty then loopbackAddresses else e.ownAddresses)
    .synthetic

/-- `synthetic` of a reverse name, which is not under `localhost` and not under `local`. -/
theorem synthetic_of_reverseAddress {a : IpAddr} (haddr : name.reverseAddress = some a) (e : Engine)
    (rtype : UInt16) :
    e.synthetic name rtype =
      ((e.hosts.get name).map fun addrs => addressAnswer name rtype addrs .hosts).or
      ((if e.hostname.any fun h => h.eq name then some (e.ownAnswer name rtype) else none).or
      (e.syntheticReverse name rtype a)) := by
  have hlocalhost : name.endsWith localhost = false := not_endsWith_of_reverse haddr rfl (by decide)
  have hlocal : name.endsWith localDomain = false := not_endsWith_of_reverse haddr rfl (by decide)
  have hneq : name.eq localhost = false := by
    rw [← Bool.not_eq_true]
    intro heq
    rw [Name.endsWith_congr heq (Name.eq_refl localhost), Name.endsWith_refl] at hlocalhost
    cases hlocalhost
  unfold synthetic ownAnswer
  simp only [hneq, hlocalhost, hlocal, haddr, Bool.or_self, Bool.false_eq_true, if_false]
  cases e.hosts.get name with
  | some addrs => rfl
  | none =>
    cases e.hostname.any fun h => h.eq name with
    | true => rfl
    | false => rfl

/-- An address of a static name maps back to the least of its names. -/
theorem synthetic_reverse {e : Engine} {host : Name} {rtype : UInt16} {addr : IpAddr}
    (haddr : name.reverseAddress = some addr) (hloopback : addr.isLoopback = false)
    (hrtype : rtype = Rtype.ptr ∨ rtype = Rtype.any) (hstatic : e.hosts.get name = none)
    (hown : (e.hostname.any fun h => h.eq name) = false) (hhost : e.hosts.LeastName addr host) :
    e.synthetic name rtype = some (ptrAnswer name host .hosts) := by
  have hcond : ¬ (rtype ≠ Rtype.ptr ∧ rtype ≠ Rtype.any) := fun hc => hrtype.elim hc.1 hc.2
  rw [synthetic_of_reverseAddress haddr, hstatic, hown, syntheticReverse, if_neg hcond, hloopback,
    Hosts.nameOf_eq_some.mpr hhost]
  rfl

/-- **Static reverse answers do not depend on the order of the table.**  For any order of the static
names, which differ whatever their case and octets, `synthetic` returns the same; an address they
have maps back to the one name whose lower-case text is least, and there is one since lower-case
texts tell names apart. -/
theorem synthetic_any_order (e : Engine) (hosts : Hosts)
    (hperm : e.hosts.entries.Perm hosts.entries) (name : Name) (rtype : UInt16) :
    (e.setHosts hosts).synthetic name rtype = e.synthetic name rtype ∧
      (∀ addr, name.reverseAddress = some addr → addr.isLoopback = false → rtype = Rtype.ptr ∨
        rtype = Rtype.any →
        e.hosts.get name = none → (e.hostname.any fun h => h.eq name) = false →
        ∀ host, e.hosts.LeastName addr host →
        e.synthetic name rtype = some (ptrAnswer name host .hosts)) ∧
      (∀ addr, (∃ p ∈ e.hosts.entries, addr ∈ p.2) → ∃! host, e.hosts.LeastName addr host) ∧
      ∀ a b : Name, a.toLowercase.display = b.toLowercase.display → a.eq b = true := by
  refine ⟨synthetic_perm hperm name rtype, ?_, ?_, fun a b h =>
    textKey_injective (congrArg (List.map UInt8.toNat) h)⟩
  · intro addr haddr hloopback hrtype hstatic hown host hhost
    exact synthetic_reverse haddr hloopback hrtype hstatic hown hhost
  · rintro addr ⟨p, hp, haddr⟩
    cases hname : e.hosts.nameOf addr with
    | none => exact absurd haddr (Hosts.nameOf_eq_none.mp hname p hp)
    | some host =>
      have hleast := Hosts.nameOf_eq_some.mp hname
      exact ⟨host, hleast, fun other hother => hother.unique hleast⟩

/-- An address with two names. -/
def sharedAddress : Ipv4Addr := Vector.replicate 4 9

/-- The name of two labels whose text is `a.b`. -/
def twoLabels : Name := ⟨[ascii "a", ascii "b"], by decide⟩

/-- The name of one label with a dot in it, whose text is `a\\.b`, is before `twoLabels` here. -/
def sharedHosts : Hosts where
  entries := [(⟨[ascii "a.b"], by decide⟩, [.v4 sharedAddress]), (twoLabels, [.v4 sharedAddress])]
  distinct := by decide

/-- The same table visited from its other end. -/
def sharedHosts.turned : Hosts := ⟨sharedHosts.entries.reverse, by decide⟩

theorem synthetic_any_order_shared :
    (((withEntropy zeros).setHosts sharedHosts).setHosts sharedHosts.turned).synthetic
        (Name.reverseV4 sharedAddress) Rtype.ptr =
      some (ptrAnswer (Name.reverseV4 sharedAddress) twoLabels .hosts) := by
  obtain ⟨hsame, hleast, -, -⟩ :=
    synthetic_any_order ((withEntropy zeros).setHosts sharedHosts) sharedHosts.turned
    (reverse_perm _).symm (Name.reverseV4 sharedAddress) Rtype.ptr
  rw [hsame]
  refine hleast (.v4 sharedAddress) (by decide) (by decide) (.inl rfl) (by decide) rfl _ ?_
  exact Hosts.nameOf_eq_some.mp (by decide)

end Resolvd.Engine
