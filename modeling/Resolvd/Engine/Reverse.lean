import Resolvd.Dns.Reverse
import Resolvd.Engine.Hosts
import Resolvd.Engine.Moves

/-!
# Asking for the name of an address

`Engine::reverse` builds the name of the reverse mapping, displays it and resolves the text.  The
text comes back as the same name, and wherever the engine looks at the address of a name it finds
the one that was asked for: `route` in its step for reverse names, `synthetic` in its reverse part.
-/

namespace Resolvd.Engine

open Lib Dns

/-- The name of an address maps back to it, in any spelling. -/
theorem reverseAddress_of_eq {n : Name} {a : IpAddr} (h : n.eq (Name.reverseOf a) = true) :
    n.reverseAddress = some a :=
  (Name.reverseAddress_congr h).trans (reverseAddress_iff.mpr (reverseOf_denotes a))

theorem reverseAddress_reverseOf (a : IpAddr) : (Name.reverseOf a).reverseAddress = some a :=
  reverseAddress_of_eq (Name.eq_refl _)

theorem labelCount_reverseOf (a : IpAddr) : (Name.reverseOf a).labelCount ≠ 1 := by
  have hdenotes := reverseOf_denotes a
  cases a with
  | v4 x =>
    rw [hdenotes.2.1]
    decide
  | v6 x =>
    rw [hdenotes.2.1]
    decide

/-- No search domain is added to the name of an address. -/
theorem candidates_reverseOf (e : Engine) (a : IpAddr) :
    e.candidates (Name.reverseOf a) = [Name.reverseOf a] := by
  rw [candidates, if_pos (labelCount_reverseOf a)]

/-- **Reverse names invert.**  The text that is built for an address is a name; it survives being
displayed and parsed; every spelling of it maps back to the address.  `Engine::reverse` asks the PTR
question for this name and no other, and the steps of `route` and `synthetic` for reverse names go
by the address.  A name that maps back to an address lies under `in-addr.arpa` with four further
labels, or under `ip6.arpa` with thirty-two, and they denote the address. -/
theorem reverse_inverts (a : IpAddr) :
    Name.parse ([Name.dot].intercalate (Name.reverseOf a).labels) = .ok (Name.reverseOf a) ∧
    Name.parse (Name.reverseOf a).display = .ok (Name.reverseOf a) ∧
    (∀ n : Name, n.eq (Name.reverseOf a) = true → n.reverseAddress = some a) ∧
    (∀ (e : Engine) q now,
      e.reverse q a now = e.resolveQuestion q (Question.new (Name.reverseOf a) Rtype.ptr) now ∧
      e.candidates (Name.reverseOf a) = [Name.reverseOf a] ∧
      e.route (Name.reverseOf a) =
        (e.exclusiveScope.map Scope.id).or
        ((((bestDomain e.upScopes (Name.reverseOf a)).map fun b => b.2.2).map Scope.id).or
        (((minByMetric (e.upScopes.filter fun s => s.contains a)).map Scope.id).or
        (((minByMetric (e.upScopes.filter Scope.defaultRoute)).map Scope.id).or
        (((minByMetric (e.upScopes.filter fun s => !s.servers.isEmpty)).map Scope.id).or
        (if !e.fallbackServers.isEmpty then some fallbackScope else none))))) ∧
      e.synthetic (Name.reverseOf a) Rtype.ptr =
        ((e.hosts.get (Name.reverseOf a)).map fun addrs =>
          addressAnswer (Name.reverseOf a) Rtype.ptr addrs .hosts).or
        ((if e.hostname.any fun h => h.eq (Name.reverseOf a)
          then some (e.ownAnswer (Name.reverseOf a) Rtype.ptr)
          else none).or
        (e.syntheticReverse (Name.reverseOf a) Rtype.ptr a))) ∧
    ∀ n : Name, n.reverseAddress = some a → Denotes n a := by
  refine ⟨Name.parse_reverseText a, Name.parse_display_reverse a, fun n => reverseAddress_of_eq, ?_,
    fun n => denotes_of_reverseAddress⟩
  intro e q now
  refine ⟨?_, candidates_reverseOf e a, ?_,
    synthetic_of_reverseAddress (reverseAddress_reverseOf a) e Rtype.ptr⟩
  · rw [Engine.reverse, Engine.resolve, Name.parse_display_reverse]
    rfl
  · rw [route_eq, reverseAddress_reverseOf, Option.bind_some, Option.or_none]

/-- The documentation prefix, where a name in capitals maps back and the static hosts are asked by
address. -/
theorem reverse_inverts_capitals :
    (⟨[ascii "9", ascii "2", ascii "0", ascii "192", ascii "IN-ADDR",
      ascii "Arpa"], by decide⟩ : Name).reverseAddress =
      some (.v4 #v[192, 0, 2, 9]) ∧
    Denotes ⟨[ascii "9", ascii "2", ascii "0", ascii "192", ascii "IN-ADDR",
      ascii "Arpa"], by decide⟩
      (.v4 #v[192, 0, 2, 9]) := by
  obtain ⟨-, -, hback, -, hdenotes⟩ := reverse_inverts (.v4 #v[192, 0, 2, 9])
  have h := hback ⟨[ascii "9", ascii "2", ascii "0", ascii "192", ascii "IN-ADDR",
    ascii "Arpa"], by decide⟩ (by decide)
  exact ⟨h, hdenotes _ h⟩

end Resolvd.Engine
