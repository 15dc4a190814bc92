import Resolvd.Engine.Rules

/-!
# Subnets

`same_subnet` masks two addresses and compares what is left.  It compares exactly the first bits of
the addresses, as many as the prefix says (`sameSubnet_iff_agree`).  The mask is a shift by the rest
of the width, and the shift is taken only where the machine can do it (`mask?_eq`): a prefix of zero
is apart, and a longer one than the width counts as the width.
-/

namespace Resolvd.Engine

open Lib Dns

variable {a b : IpAddr} {len : UInt8}

/-- The addresses are of one family and have the same first bits, as many as the prefix says or all
of them. -/
def Agree (len : UInt8) (a b : IpAddr) : Prop :=
  a.width = b.width ∧ ∀ i < min len.toNat a.width, a.bit i = b.bit i

/-! ### The mask on the machine -/

/-- `-` on `u8`, which overflows below zero. -/
def subU8? (a b : ℕ) : Option ℕ := if b ≤ a then some (a - b) else none

/-- `<<` on an integer of some width, which overflows when the shift is not below the width. -/
def shl? (width x n : ℕ) : Option ℕ := if n < width then some ((x <<< n) % 2 ^ width) else none

/-- The mask of `same_subnet` with the operations of the machine. -/
def mask? (width : ℕ) (len : UInt8) : Option ℕ :=
  if len = 0 then some 0
  else (subU8? width (min len.toNat width)).bind (shl? width (2 ^ width - 1))

/-- **No operation of the mask overflows.** -/
theorem mask?_eq {width : ℕ} (hw : 0 < width) (len : UInt8) :
    mask? width len = some (netMask width len) := by
  unfold mask? netMask
  split
  · rfl
  · next hlen =>
    have hpos : 0 < len.toNat := Nat.pos_of_ne_zero fun h => hlen (UInt8.toNat_inj.mp h)
    have hshift : width - min len.toNat width < width := by omega
    rw [subU8?, if_pos (min_le_right _ _), Option.bind_some, shl?, if_pos hshift]

/-! ### The first bits -/

/-- Numbers of some width have the same quotient by a power when their first bits are the same. -/
theorem div_two_pow_eq_iff {w k x y : ℕ} (hk : k ≤ w) (hx : x < 2 ^ w) (hy : y < 2 ^ w) :
    x / 2 ^ (w - k) = y / 2 ^ (w - k) ↔ ∀ i < k, x.testBit (w - 1 - i) = y.testBit (w - 1 - i) := by
  constructor
  · intro h i hi
    have hbit := congrArg (fun n => n.testBit (k - 1 - i)) h
    simp only [Nat.testBit_div_two_pow] at hbit
    rwa [show k - 1 - i + (w - k) = w - 1 - i by omega] at hbit
  · intro h
    refine Nat.eq_of_testBit_eq fun j => ?_
    rw [Nat.testBit_div_two_pow, Nat.testBit_div_two_pow]
    by_cases hj : j + (w - k) < w
    · have hbit := h (w - 1 - (j + (w - k))) (by omega)
      rwa [show w - 1 - (w - 1 - (j + (w - k))) = j + (w - k) by omega] at hbit
    · -- above the width there are no bits
      have hpow : 2 ^ w ≤ 2 ^ (j + (w - k)) := Nat.pow_le_pow_right (by decide) (by omega)
      rw [Nat.testBit_lt_two_pow (hx.trans_le hpow), Nat.testBit_lt_two_pow (hy.trans_le hpow)]

theorem div_toNat_eq_iff (hw : a.width = b.width) (len : UInt8) :
    a.toNat / 2 ^ (a.width - min len.toNat a.width) = b.toNat / 2 ^
      (a.width - min len.toNat a.width) ↔
      ∀ i < min len.toNat a.width, a.bit i = b.bit i := by
  have hb : b.toNat < 2 ^ a.width := hw ▸ b.toNat_lt
  rw [div_two_pow_eq_iff (min_le_right _ _) a.toNat_lt hb]
  refine forall₂_congr fun i hi => ?_
  have hia : i < a.width := lt_of_lt_of_le hi (min_le_right _ _)
  rw [a.testBit_toNat hia, hw, b.testBit_toNat (hw ▸ hia)]

theorem inSubnet_iff_agree : InSubnet a len b ↔ Agree len a b := by
  cases a with
  | v4 x =>
    cases b with
    | v4 y =>
      exact (div_toNat_eq_iff (a := .v4 x) (b := .v4 y) rfl len).trans (and_iff_right rfl).symm
    | v6 y => simp [InSubnet, Agree, IpAddr.width]
  | v6 x =>
    cases b with
    | v4 y => simp [InSubnet, Agree, IpAddr.width]
    | v6 y =>
      exact (div_toNat_eq_iff (a := .v6 x) (b := .v6 y) rfl len).trans (and_iff_right rfl).symm

theorem sameSubnet_iff_agree : sameSubnet a len b = true ↔ Agree len a b :=
  sameSubnet_iff.trans inSubnet_iff_agree

/-! ### What follows -/

theorem agree_refl (len : UInt8) (a : IpAddr) : Agree len a a := ⟨rfl, fun _ _ => rfl⟩

theorem Agree.symm (h : Agree len a b) : Agree len b a :=
  ⟨h.1.symm, fun i hi => (h.2 i (h.1 ▸ hi)).symm⟩

theorem Agree.trans {c : IpAddr} (h : Agree len a b) (h' : Agree len b c) : Agree len a c :=
  ⟨h.1.trans h'.1, fun i hi => (h.2 i hi).trans (h'.2 i (h.1 ▸ hi))⟩

theorem Agree.shorter {len' : UInt8} (hle : len ≤ len') (h : Agree len' a b) : Agree len a b := by
  refine ⟨h.1, fun i hi => h.2 i ?_⟩
  have : len.toNat ≤ len'.toNat := hle
  omega

theorem agree_full (hlen : a.width ≤ len.toNat) : Agree len a b ↔ a = b := by
  constructor
  · rintro ⟨hw, hbits⟩
    have hdiv := (div_toNat_eq_iff hw len).mpr hbits
    rw [min_eq_right hlen, Nat.sub_self, pow_zero, Nat.div_one, Nat.div_one] at hdiv
    exact IpAddr.toNat_inj hw hdiv
  · rintro rfl
    exact agree_refl len a

/-- Addresses of one family by being in one subnet. -/
theorem agree_equivalence {α : Type} (family : α → IpAddr) (len : UInt8) :
    Equivalence fun x y => sameSubnet (family x) len (family y) = true := by
  simp only [sameSubnet_iff_agree]
  exact ⟨fun x => agree_refl len (family x), Agree.symm, Agree.trans⟩

/-- **`same_subnet` is the comparison of the first bits.**  The mask never overflows; for one prefix
it is an equivalence on each family; it says less for a shorter prefix; from the width on it is
equality. -/
theorem sameSubnet_compares_prefix :
    (∀ a b len, sameSubnet a len b = true ↔
      a.width = b.width ∧ ∀ i < min len.toNat a.width, a.bit i = b.bit i) ∧
    (∀ len, mask? 32 len = some (netMask 32 len) ∧ mask? 128 len = some (netMask 128 len)) ∧
    (∀ len, (Equivalence fun x y : Ipv4Addr => sameSubnet (.v4 x) len (.v4 y) = true) ∧
      Equivalence fun x y : Ipv6Addr => sameSubnet (.v6 x) len (.v6 y) = true) ∧
    (∀ a b (len len' : UInt8), len ≤ len' → sameSubnet a len' b = true →
      sameSubnet a len b = true) ∧
    ∀ a b (len : UInt8), a.width ≤ len.toNat → (sameSubnet a len b = true ↔ a = b) := by
  refine ⟨fun a b len => sameSubnet_iff_agree, fun len =>
    ⟨mask?_eq (by decide) len, mask?_eq (by decide) len⟩, fun len =>
    ⟨agree_equivalence .v4 len, agree_equivalence .v6 len⟩, ?_, ?_⟩
  · intro a b len len' hle h
    exact sameSubnet_iff_agree.mpr ((sameSubnet_iff_agree.mp h).shorter hle)
  · intro a b len hlen
    exact sameSubnet_iff_agree.trans (agree_full hlen)

/-- The ends of `10.0.0.0/7`, for which the first eight bits differ and the first seven do not. -/
theorem sameSubnet_compares_prefix_tens :
    sameSubnet (.v4 #v[10, 0, 0, 1]) 6 (.v4 #v[11, 255, 255, 255]) = true ∧
    (sameSubnet (.v4 #v[10, 0, 0, 1]) 200 (.v4 #v[11, 255, 255, 255]) = true ↔
      IpAddr.v4 #v[10, 0, 0, 1] = .v4 #v[11, 255, 255, 255]) := by
  obtain ⟨-, -, -, hshorter, hfull⟩ := sameSubnet_compares_prefix
  exact ⟨hshorter _ _ 6 7 (by decide) (by decide), hfull _ _ 200 (by decide)⟩

end Resolvd.Engine
