import Mathlib.Data.List.Forall2
import Mathlib.Data.Nat.Digits.Defs
import Resolvd.Dns.Folding

/-!
# The reverse mapping

The labels in front of `in-addr.arpa` and `ip6.arpa` are the digits of the number an address is, the
lowest first: octets in decimal, or hexadecimal digits (`Denotes`).  `reverse_address` returns the
address the labels denote (`reverseAddress_iff`), and the names that `reverse_v4` and `reverse_v6`
build denote the address they are built for (`reverseOf_denotes`).
-/

namespace Resolvd.Dns

open Lib List

variable {l : Bytes}

/-! ### What a label denotes -/

/-- The value of decimal digits behind the value of those before them. -/
def decimalValue (n : ℕ) (digits : Bytes) : ℕ :=
  digits.foldl (fun n c => n * 10 + (c.toNat - 0x30)) n

/-- The label is a number below 256 in decimal digits; a plus sign may stand before them. -/
def DecimalLabel (l : Bytes) (d : ℕ) : Prop :=
  ∃ digits, (l = digits ∨ l = 0x2B :: digits) ∧ digits ≠ [] ∧ (∀ c ∈ digits, 0x30 ≤ c ∧ c ≤ 0x39) ∧
    decimalValue 0 digits = d ∧ d < 256

/-- The label is one hexadecimal digit, in either case. -/
def NibbleLabel (l : Bytes) (d : ℕ) : Prop :=
  ∃ c : UInt8, l = [c] ∧ (0x30 ≤ c ∧ c ≤ 0x39 ∧ d = c.toNat - 0x30 ∨ 0x61 ≤ c ∧ c ≤ 0x66 ∧
    d = c.toNat - 0x61 + 10 ∨
    0x41 ≤ c ∧ c ≤ 0x46 ∧ d = c.toNat - 0x41 + 10)

/-- The name is one of the reverse mapping and its labels denote the address. -/
def Denotes (n : Name) (a : IpAddr) : Prop :=
  match a with
  | .v4 _ => n.endsWith Name.inAddrArpa = true ∧ n.labelCount = 4 + 2 ∧
      ∃ ds, List.Forall₂ DecimalLabel (n.labels.take 4) ds ∧ Nat.ofDigits 256 ds = a.toNat
  | .v6 _ => n.endsWith Name.ip6Arpa = true ∧ n.labelCount = 32 + 2 ∧
      ∃ ds, List.Forall₂ NibbleLabel (n.labels.take 32) ds ∧ Nat.ofDigits 16 ds = a.toNat

/-! ### Decimal labels -/

theorem le_decimalValue (n : ℕ) (digits : Bytes) : n ≤ decimalValue n digits := by
  induction digits generalizing n with
  | nil => exact le_rfl
  | cons c cs ih =>
    have := ih (n * 10 + (c.toNat - 0x30))
    simp only [decimalValue, foldl_cons] at this ⊢
    omega

/-- The checked reading: all are digits, and the value, which no digit lowers, is below the limit.
-/
theorem foldlM_digits {digits : Bytes} {limit n v : ℕ} (hn : n < limit) :
    digits.foldlM (parseDigit limit) n = some v ↔
      (∀ c ∈ digits, 0x30 ≤ c ∧ c ≤ 0x39) ∧ decimalValue n digits = v ∧ v < limit := by
  induction digits generalizing n with
  | nil =>
    simp only [foldlM_nil, Option.pure_def, Option.some.injEq, not_mem_nil, false_implies,
      implies_true, true_and, decimalValue, foldl_nil]
    constructor
    · rintro rfl
      exact ⟨rfl, hn⟩
    · exact And.left
  | cons c cs ih =>
    rw [foldlM_cons, forall_mem_cons, parseDigit]
    by_cases hc : 0x30 ≤ c ∧ c ≤ 0x39 ∧ n * 10 + (c.toNat - 0x30) < limit
    · rw [if_pos hc]
      refine (ih hc.2.2).trans ?_
      rw [and_iff_right (show 0x30 ≤ c ∧ c ≤ 0x39 from ⟨hc.1, hc.2.1⟩)]
      rfl
    · rw [if_neg hc]
      refine iff_of_false (by simp) ?_
      rintro ⟨⟨hdigit, -⟩, hv, hlt⟩
      have := le_decimalValue (n * 10 + (c.toNat - 0x30)) cs
      have hstep : decimalValue n (c :: cs) = decimalValue (n * 10 + (c.toNat - 0x30)) cs := rfl
      exact hc ⟨hdigit.1, hdigit.2, by omega⟩

theorem parseU8_iff {b : UInt8} : parseU8 l = some b ↔ DecimalLabel l b.toNat := by
  have hread : ∀ digits : Bytes, digits ≠ [] →
      ((if digits = [] then none else digits.foldlM (parseDigit 256) 0).map UInt8.ofNat = some b ↔
      (∀ c ∈ digits, 0x30 ≤ c ∧ c ≤ 0x39) ∧ decimalValue 0 digits = b.toNat ∧ b.toNat < 256) := by
    intro digits hne
    rw [if_neg hne, Option.map_eq_some_iff]
    simp only [foldlM_digits (show 0 < 256 by decide)]
    constructor
    · rintro ⟨v, ⟨hdigits, hv, hlt⟩, rfl⟩
      rw [UInt8.toNat_ofNat_of_lt' hlt]
      exact ⟨hdigits, hv, hlt⟩
    · rintro ⟨hdigits, hv, hlt⟩
      exact ⟨b.toNat, ⟨hdigits, hv, hlt⟩, UInt8.ofNat_toNat⟩
  have hplus : ¬ (0x30 ≤ (0x2B : UInt8) ∧ (0x2B : UInt8) ≤ 0x39) := by decide
  unfold parseU8 parseUint DecimalLabel
  cases l with
  | nil => simp
  | cons c cs =>
    simp only [List.head?_cons, Option.some.injEq, tail_cons]
    by_cases hc : c = 0x2B
    · subst hc
      rw [if_pos rfl]
      by_cases hne : cs = []
      · subst hne
        simp
      · rw [hread cs hne]
        constructor
        · intro h
          exact ⟨cs, .inr rfl, hne, h⟩
        · rintro ⟨digits, rfl | heq, -, h⟩
          · exact absurd (h.1 _ mem_cons_self) hplus
          · rwa [(List.cons.inj heq).2]
    · rw [if_neg hc, hread _ (cons_ne_nil c cs)]
      constructor
      · intro h
        exact ⟨c :: cs, .inl rfl, cons_ne_nil c cs, h⟩
      · rintro ⟨digits, rfl | heq, -, h⟩
        · exact h
        · exact absurd (List.cons.inj heq).1 hc

/-! ### Hexadecimal labels -/

theorem hexDigit_eq_some {c d : UInt8} :
    hexDigit c = some d ↔ 0x30 ≤ c ∧ c ≤ 0x39 ∧ d.toNat = c.toNat - 0x30 ∨
    0x61 ≤ c ∧ c ≤ 0x66 ∧ d.toNat = c.toNat - 0x61 + 10 ∨ 0x41 ≤ c ∧ c ≤ 0x46 ∧
      d.toNat = c.toNat - 0x41 + 10 := by
  have hlt := c.toNat_lt
  simp only [hexDigit, UInt8.le_iff_toNat_le, UInt8.reduceToNat]
  split
  · rw [Option.some.injEq, ← UInt8.toNat_inj, UInt8.toNat_sub]
    simp only [UInt8.reduceToNat]
    omega
  · split
    · rw [Option.some.injEq, ← UInt8.toNat_inj, UInt8.toNat_add, UInt8.toNat_sub]
      simp only [UInt8.reduceToNat]
      omega
    · split
      · rw [Option.some.injEq, ← UInt8.toNat_inj, UInt8.toNat_add, UInt8.toNat_sub]
        simp only [UInt8.reduceToNat]
        omega
      · exact iff_of_false (by simp) (by omega)

theorem nibbleLabel_iff {d : UInt8} : Name.nibbleLabel l = some d ↔ NibbleLabel l d.toNat := by
  match l with
  | [] => simp [Name.nibbleLabel, NibbleLabel]
  | [c] =>
    rw [Name.nibbleLabel, hexDigit_eq_some]
    constructor
    · intro h
      exact ⟨c, rfl, h⟩
    · rintro ⟨c', heq, h⟩
      obtain rfl := singleton_inj.mp heq
      exact h
  | _ :: _ :: _ => simp [Name.nibbleLabel, NibbleLabel]

theorem NibbleLabel.lt {d : ℕ} (h : NibbleLabel l d) : d < 16 := by
  obtain ⟨c, -, h⟩ := h
  simp only [UInt8.le_iff_toNat_le, UInt8.reduceToNat] at h
  omega

/-! ### The labels of a name -/

theorem mapM_eq_some_iff {α β : Type} {f : α → Option β} {as : List α} {bs : List β} :
    as.mapM f = some bs ↔ List.Forall₂ (fun a b => f a = some b) as bs := by
  induction as generalizing bs with
  | nil => simp [eq_comm]
  | cons a as ih =>
    simp only [mapM_cons, Option.pure_def, Option.bind_eq_bind, Option.bind_eq_some_iff,
      Option.some.injEq, ih, forall₂_cons_left_iff]
    constructor
    · rintro ⟨b, hb, bs, hbs, rfl⟩
      exact ⟨b, bs, hb, hbs, rfl⟩
    · rintro ⟨b, bs, hb, hbs, rfl⟩
      exact ⟨b, hb, bs, hbs, rfl⟩

/-- Reading labels one by one gives the digits they denote. -/
theorem forall₂_iff_mapM {f : Bytes → Option UInt8} {R : Bytes → ℕ → Prop}
    (hf : ∀ l b, f l = some b ↔ R l b.toNat) (hlt : ∀ l d, R l d → d < 256) {ls : List Bytes}
    {ds : List ℕ} : List.Forall₂ R ls ds ↔ ∃ os, ls.mapM f = some os ∧ os.map UInt8.toNat = ds := by
  simp only [mapM_eq_some_iff]
  constructor
  · intro h
    induction h with
    | nil => exact ⟨[], .nil, rfl⟩
    | @cons l d ls ds hd _ ih =>
      obtain ⟨os, hos, rfl⟩ := ih
      have hback : (UInt8.ofNat d).toNat = d := UInt8.toNat_ofNat_of_lt' (hlt l d hd)
      exact ⟨UInt8.ofNat d :: os,
        .cons ((hf _ _).mpr (hback.symm ▸ hd)) hos, by rw [map_cons, hback]⟩
  · rintro ⟨os, hos, rfl⟩
    exact forall₂_map_right_iff.mpr (hos.imp fun l b h => (hf l b).mp h)

/-! ### The number of an address -/

theorem ofBe_eq_ofDigits (bs : Bytes) :
    ofBe bs = Nat.ofDigits 256 (bs.reverse.map UInt8.toNat) := by
  induction bs using List.reverseRecOn with
  | nil => rfl
  | append_singleton bs b ih =>
    rw [ofBe_snoc, ih, reverse_append, reverse_singleton, singleton_append, map_cons,
      Nat.ofDigits_cons]
    lia

theorem toNat_or_shiftLeft {lo hi : UInt8} (hlo : lo.toNat < 16) (hhi : hi.toNat < 16) :
    (lo ||| hi <<< 4).toNat = lo.toNat + 16 * hi.toNat := by
  have hshift : (hi <<< 4).toNat = 2 ^ 4 * hi.toNat := by
    rw [UInt8.toNat_shiftLeft, Nat.shiftLeft_eq]
    have hfour : (4 : UInt8).toNat % 8 = 4 := by decide
    rw [hfour]
    omega
  rw [UInt8.toNat_or, hshift, Nat.or_comm, ← Nat.two_pow_add_eq_or_of_lt hlo, Nat.add_comm]

theorem ofDigits_nibbles (m : ℕ) (ns : Bytes) (hlen : ns.length = 2 * m)
    (hns : ∀ d ∈ ns, d.toNat < 16) :
    Nat.ofDigits 256 ((List.range m).map fun i =>
      (ns.getD (2 * i) 0 ||| ns.getD (2 * i + 1) 0 <<< 4).toNat) =
      Nat.ofDigits 16 (ns.map UInt8.toNat) := by
  induction m generalizing ns with
  | zero => rw [length_eq_zero_iff.mp (by omega : ns.length = 0)]; rfl
  | succ m ih =>
    match ns, hlen with
    | lo :: hi :: rest, hlen =>
      have hrest := ih rest (by simp only [length_cons] at hlen; omega) fun d hd =>
        hns d (by simp [hd])
      have hoctet := toNat_or_shiftLeft (hns lo (by simp)) (hns hi (by simp))
      rw [range_succ_eq_map, map_cons, map_map, Nat.ofDigits_cons, map_cons, map_cons,
        Nat.ofDigits_cons, Nat.ofDigits_cons, ← hrest]
      have htail : (fun i => ((lo :: hi :: rest).getD (2 * i) 0 ||| (lo :: hi :: rest).getD
          (2 * i + 1) 0 <<< 4).toNat) ∘
          Nat.succ = fun i => (rest.getD (2 * i) 0 ||| rest.getD (2 * i + 1) 0 <<< 4).toNat := by
        funext i
        simp only [Function.comp_apply, Nat.succ_eq_add_one, Nat.mul_add, Nat.mul_one,
          Nat.add_right_comm _ 2 1]
        rfl
      rw [htail]
      simp only [Nat.mul_zero, Nat.zero_add, getD_cons_zero, getD_cons_succ, hoctet]
      ring

theorem reverse_toList_ofFn {α : Type} (m : ℕ) (g : ℕ → α) :
    (Vector.ofFn fun k : Fin m => g (m - 1 - k)).toList.reverse = (List.range m).map g := by
  refine ext_getElem (by simp) fun i hi _ => ?_
  have hlt : i < m := by simpa using hi
  have hback : m - 1 - (m - 1 - i) = i := by omega
  simp [getElem_reverse, hback]

/-! ### `reverse_address` -/

section ReverseAddress

variable {n : Name} {os : Bytes}

/-- Four numbers under `in-addr.arpa`. -/
theorem reverseAddress_v4 (hends : n.endsWith Name.inAddrArpa = true) (hlen : n.labelCount = 4 + 2)
    (hos : (n.labels.take 4).mapM parseU8 = some os) :
    ∃ x, n.reverseAddress = some (.v4 x) ∧
      (IpAddr.v4 x).toNat = Nat.ofDigits 256 (os.map UInt8.toNat) := by
  have hcond : (n.endsWith Name.inAddrArpa && n.labels.length == 6) = true := by
    rw [hends, show n.labels.length = 6 from hlen]
    rfl
  have hfour : os.length = 4 := by
    rw [← (mapM_eq_some_iff.mp hos).length_eq, length_take, show n.labels.length = 6 from hlen]
    rfl
  match os, hfour with
  | [o₀, o₁, o₂, o₃], _ =>
    refine ⟨#v[o₃, o₂, o₁, o₀], ?_, ?_⟩
    · rw [Name.reverseAddress, if_pos hcond, hos]
      rfl
    · rw [IpAddr.toNat_eq, ofBe_eq_ofDigits]
      rfl

/-- Thirty-two digits under `ip6.arpa`. -/
theorem reverseAddress_v6 (hends : n.endsWith Name.ip6Arpa = true) (hlen : n.labelCount = 32 + 2)
    (hos : (n.labels.take 32).mapM Name.nibbleLabel = some os) :
    ∃ x, n.reverseAddress = some (.v6 x) ∧
      (IpAddr.v6 x).toNat = Nat.ofDigits 16 (os.map UInt8.toNat) := by
  have hlabels : n.labels.length = 34 := hlen
  have hcond₄ : ¬ (n.endsWith Name.inAddrArpa && n.labels.length == 6) = true := by
    simp [hlabels]
  have hcond : (n.endsWith Name.ip6Arpa && n.labels.length == 34) = true := by
    rw [hends, hlabels]
    rfl
  have hos' := mapM_eq_some_iff.mp hos
  have hlength : os.length = 2 * 16 := by
    rw [← hos'.length_eq, length_take, hlabels]
    rfl
  have hnibbles : ∀ d ∈ os, d.toNat < 16 := by
    clear hos hlength
    generalize n.labels.take 32 = ls at hos'
    induction hos' with
    | nil => simp
    | cons hd _ ih => exact forall_mem_cons.mpr ⟨(nibbleLabel_iff.mp hd).lt, ih⟩
  refine ⟨Vector.ofFn fun k => os.getD (2 * (15 - k)) 0 ||| (os.getD (2 * (15 - k) + 1) 0 <<< 4),
    ?_, ?_⟩
  · rw [Name.reverseAddress, if_neg hcond₄, if_pos hcond, hos]
    rfl
  · have hreverse := reverse_toList_ofFn 16 fun i =>
      os.getD (2 * i) 0 ||| (os.getD (2 * i + 1) 0 <<< 4)
    simp only [Nat.add_one_sub_one] at hreverse
    rw [IpAddr.toNat_eq, ofBe_eq_ofDigits, ← ofDigits_nibbles 16 os hlength hnibbles, IpAddr.bytes,
      hreverse, map_map, Function.comp_def]

theorem forall₂_decimal {ls : List Bytes} {ds : List ℕ} :
    List.Forall₂ DecimalLabel ls ds ↔ ∃ os, ls.mapM parseU8 = some os ∧ os.map UInt8.toNat = ds :=
  forall₂_iff_mapM (fun _ _ => parseU8_iff) fun _ _ h => h.choose_spec.2.2.2.2

theorem forall₂_nibble {ls : List Bytes} {ds : List ℕ} :
    List.Forall₂ NibbleLabel ls ds ↔ ∃ os, ls.mapM Name.nibbleLabel = some os ∧
      os.map UInt8.toNat = ds :=
  forall₂_iff_mapM (fun _ _ => nibbleLabel_iff) fun _ _ h => h.lt.trans (by decide)

theorem denotes_of_reverseAddress {a : IpAddr} (h : n.reverseAddress = some a) : Denotes n a := by
  have hsplit := h
  unfold Name.reverseAddress at hsplit
  split at hsplit
  · next hcond =>
    obtain ⟨hends, hlen⟩ := Bool.and_eq_true_iff.mp hcond
    have hcount : n.labelCount = 4 + 2 := eq_of_beq hlen
    obtain ⟨os, hos, -⟩ := Option.bind_eq_some_iff.mp hsplit
    obtain ⟨x, hx, hnum⟩ := reverseAddress_v4 hends hcount hos
    obtain rfl := Option.mem_unique h hx
    exact ⟨hends, hcount, _, forall₂_decimal.mpr ⟨os, hos, rfl⟩, hnum.symm⟩
  · split at hsplit
    · next hcond =>
      obtain ⟨hends, hlen⟩ := Bool.and_eq_true_iff.mp hcond
      have hcount : n.labelCount = 32 + 2 := eq_of_beq hlen
      obtain ⟨os, hos, -⟩ := Option.bind_eq_some_iff.mp hsplit
      obtain ⟨x, hx, hnum⟩ := reverseAddress_v6 hends hcount hos
      obtain rfl := Option.mem_unique h hx
      exact ⟨hends, hcount, _, forall₂_nibble.mpr ⟨os, hos, rfl⟩, hnum.symm⟩
    · cases hsplit

/-- **`reverse_address` returns what the labels denote.** -/
theorem reverseAddress_iff {a : IpAddr} : n.reverseAddress = some a ↔ Denotes n a := by
  refine ⟨denotes_of_reverseAddress, fun h => ?_⟩
  -- the number tells the address
  cases a with
  | v4 y =>
    obtain ⟨hends, hcount, ds, hds, hnum⟩ := h
    obtain ⟨os, hos, rfl⟩ := forall₂_decimal.mp hds
    obtain ⟨x, hx, hnum'⟩ := reverseAddress_v4 hends hcount hos
    rw [hx, IpAddr.toNat_inj (a := .v4 x) (b := .v4 y) rfl (hnum'.trans hnum)]
  | v6 y =>
    obtain ⟨hends, hcount, ds, hds, hnum⟩ := h
    obtain ⟨os, hos, rfl⟩ := forall₂_nibble.mp hds
    obtain ⟨x, hx, hnum'⟩ := reverseAddress_v6 hends hcount hos
    rw [hx, IpAddr.toNat_inj (a := .v6 x) (b := .v6 y) rfl (hnum'.trans hnum)]

end ReverseAddress

/-! ### The names of addresses -/

theorem decimalLabel_decimal (b : UInt8) : DecimalLabel (decimal b.toNat) b.toNat :=
  parseU8_iff.mp (forall_byte (p := fun b => parseU8 (decimal b.toNat) = some b)
    (by decide +kernel) b)

theorem nibbleLabel_hexadecimal {d : ℕ} (hd : d < 16) : NibbleLabel (hexadecimal d) d := by
  have hdigit : ∀ d < 16, Name.nibbleLabel (hexadecimal d) = some (UInt8.ofNat d) := by decide
  have hlabel := nibbleLabel_iff.mp (hdigit d hd)
  rwa [UInt8.toNat_ofNat_of_lt' (hd.trans (by decide))] at hlabel

theorem toNat_and_shiftRight (b : UInt8) :
    (b &&& 0xF).toNat = b.toNat % 16 ∧ (b >>> 4).toNat = b.toNat / 16 := by
  constructor
  · rw [UInt8.toNat_and]
    exact Nat.and_two_pow_sub_one_eq_mod b.toNat 4
  · rw [UInt8.toNat_shiftRight, Nat.shiftRight_eq_div_pow]
    rfl

theorem ofDigits_octets (bs : List ℕ) :
    Nat.ofDigits 16 (bs.flatMap fun b => [b % 16, b / 16]) = Nat.ofDigits 256 bs := by
  induction bs with
  | nil => rfl
  | cons b bs ih =>
    rw [flatMap_cons, cons_append, singleton_append, Nat.ofDigits_cons, Nat.ofDigits_cons, ih,
      Nat.ofDigits_cons]
    have := Nat.mod_add_div b 16
    lia

/-- **The name of an address denotes it.** -/
theorem reverseOf_denotes (a : IpAddr) : Denotes (Name.reverseOf a) a := by
  cases a with
  | v4 x =>
    have hlabels : (Name.reverseOf (.v4 x)).labels =
        (x.toList.reverse.map fun b : UInt8 => decimal b.toNat) ++ Name.inAddrArpa.labels := rfl
    have hfront : (Name.reverseOf (.v4 x)).labels.take 4 = x.toList.reverse.map fun b : UInt8 =>
        decimal b.toNat := by
      rw [hlabels, take_left' (by simp)]
    refine ⟨Name.endsWith_of_append hlabels, ?_, x.toList.reverse.map UInt8.toNat, ?_, ?_⟩
    · rw [Name.labelCount, hlabels]
      simp [Name.inAddrArpa]
    · rw [hfront, forall₂_map_left_iff, forall₂_map_right_iff, forall₂_same]
      exact fun b _ => decimalLabel_decimal b
    · rw [IpAddr.toNat_eq, ofBe_eq_ofDigits]
      rfl
  | v6 x =>
    have hlabels : (Name.reverseOf (.v6 x)).labels = (x.toList.reverse.flatMap fun b : UInt8 =>
        [hexadecimal (b &&& 0xF).toNat, hexadecimal (b >>> 4).toNat]) ++ Name.ip6Arpa.labels := rfl
    have hlength : (x.toList.reverse.flatMap fun b : UInt8 =>
        [hexadecimal (b &&& 0xF).toNat, hexadecimal (b >>> 4).toNat]).length = 32 := by
      simp [length_flatMap]
    refine ⟨Name.endsWith_of_append hlabels, ?_, (x.toList.reverse.map UInt8.toNat).flatMap fun b =>
      [b % 16, b / 16], ?_, ?_⟩
    · rw [Name.labelCount, hlabels, length_append, hlength]
      rfl
    · rw [hlabels, take_left' hlength, flatMap_map]
      -- label by label, two for each octet
      generalize x.toList.reverse = bs
      induction bs with
      | nil => exact .nil
      | cons b bs ih =>
        have hlt := b.toNat_lt
        obtain ⟨hlo, hhi⟩ := toNat_and_shiftRight b
        rw [flatMap_cons, flatMap_cons, hlo, hhi]
        exact .cons (nibbleLabel_hexadecimal (by omega))
          (.cons (nibbleLabel_hexadecimal (by omega)) ih)
    · rw [ofDigits_octets, IpAddr.toNat_eq, ofBe_eq_ofDigits]
      rfl

end Resolvd.Dns
