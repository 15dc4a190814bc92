import Resolvd.Lib.Bytes

/-!
# Addresses

`std::net`: IPv4 and IPv6 addresses as their octets, in network order.
-/

namespace Resolvd.Lib

abbrev Ipv4Addr := Vector UInt8 4

abbrev Ipv6Addr := Vector UInt8 16

inductive IpAddr where
  | v4 (a : Ipv4Addr)
  | v6 (a : Ipv6Addr)
  deriving DecidableEq, Repr

namespace IpAddr

/-- `127.0.0.1`. -/
def localhost4 : Ipv4Addr := #v[127, 0, 0, 1]

/-- `::1`. -/
def localhost6 : Ipv6Addr := #v[0, 0, 0, 0, 0, 0, 0, 0, 0, 0, 0, 0, 0, 0, 0, 1]

/-- `IpAddr::is_loopback`: `127.0.0.0/8` and `::1`. -/
def isLoopback : IpAddr → Bool
  | .v4 a => a[0] == 127
  | .v6 a => a == localhost6

/-- `Ipv6Addr::is_unicast_link_local`: `fe80::/10`. -/
def isUnicastLinkLocal : IpAddr → Bool
  | .v4 _ => false
  | .v6 a => a[0] == 0xFE && a[1] &&& 0xC0 == 0x80

/-- The number an address denotes (`u32::from`, `u128::from`). -/
def toNat : IpAddr → ℕ
  | .v4 a => ofBe a.toList
  | .v6 a => ofBe a.toList

/-- The octets of an address, in network order. -/
def bytes : IpAddr → Bytes
  | .v4 a => a.toList
  | .v6 a => a.toList

/-- The number of bits of the addresses of a family. -/
def width : IpAddr → ℕ
  | .v4 _ => 32
  | .v6 _ => 128

/-- The bits of an address, in network order. -/
def bit (a : IpAddr) (i : ℕ) : Bool := (a.bytes.getD (i / 8) 0).toNat.testBit (7 - i % 8)

theorem toNat_eq (a : IpAddr) : a.toNat = ofBe a.bytes := by
  cases a <;> rfl

theorem width_eq (a : IpAddr) : a.width = 8 * a.bytes.length := by
  cases a with
  | v4 x => simp [width, bytes]
  | v6 x => simp [width, bytes]

theorem toNat_lt (a : IpAddr) : a.toNat < 2 ^ a.width := by
  rw [toNat_eq, width_eq, pow_mul]
  exact ofBe_lt a.bytes

theorem testBit_toNat (a : IpAddr) {i : ℕ} (hi : i < a.width) :
    a.toNat.testBit (a.width - 1 - i) = a.bit i := by
  rw [width_eq] at hi ⊢
  rw [toNat_eq, testBit_ofBe hi, bit]

theorem bytes_inj {a b : IpAddr} (hw : a.width = b.width) (h : a.bytes = b.bytes) : a = b := by
  cases a with
  | v4 x =>
    cases b with
    | v4 y => rw [Vector.toList_inj.mp h]
    | v6 y => cases hw
  | v6 x =>
    cases b with
    | v4 y => cases hw
    | v6 y => rw [Vector.toList_inj.mp h]

theorem toNat_inj {a b : IpAddr} (hw : a.width = b.width) (h : a.toNat = b.toNat) : a = b := by
  refine bytes_inj hw ?_
  have hlen : a.bytes.length = b.bytes.length := by
    have := a.width_eq
    have := b.width_eq
    omega
  rw [← toBe_ofBe a.bytes, ← toBe_ofBe b.bytes, ← toNat_eq, ← toNat_eq, h, hlen]

end IpAddr

end Resolvd.Lib
