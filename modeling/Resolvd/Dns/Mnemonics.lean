import Resolvd.Dns.Record
import Resolvd.Dns.Text

/-!
# Types as text

`rtype::name` and `rtype::parse`: the mnemonics of record types, and the generic form `TYPE12345`
for the ones that have none.  Numbers are read by `str::parse`, for any width.

`Rtype.parse_name` says which types survive being written and read: all of them but `OPT`, which has
a mnemonic that is not read.
-/

namespace Resolvd.Dns

open Lib List

variable {n limit : ℕ}

/-! ### Numbers -/

theorem decimal_of_lt (h : n < 10) : decimal n = [UInt8.ofNat (0x30 + n)] := by
  have hall : ∀ n < 10, decimal n = [UInt8.ofNat (0x30 + n)] := by decide
  exact hall n h

theorem decimal_of_le (h : 10 ≤ n) : decimal n = decimal (n / 10) ++ decimal (n % 10) := by
  unfold decimal
  rw [Nat.toDigits_of_base_le (by decide) h, map_append,
    Nat.toDigits_of_lt_base (Nat.mod_lt n (by decide))]

theorem parseDigit_digit {d : ℕ} (hd : d < 10) (hlt : n * 10 + d < limit) :
    parseDigit limit n (UInt8.ofNat (0x30 + d)) = some (n * 10 + d) := by
  have hdigit : ∀ d < 10, 0x30 ≤ UInt8.ofNat (0x30 + d) ∧ UInt8.ofNat (0x30 + d) ≤ 0x39 ∧
      (UInt8.ofNat (0x30 + d)).toNat - 0x30 = d := by decide
  obtain ⟨hlow, hhigh, hvalue⟩ := hdigit d hd
  rw [parseDigit, hvalue, if_pos ⟨hlow, hhigh, hlt⟩]

theorem foldlM_decimal (h : n < limit) : (decimal n).foldlM (parseDigit limit) 0 = some n := by
  induction n using Nat.strong_induction_on with
  | _ n ih =>
    by_cases hn : n < 10
    · rw [decimal_of_lt hn, foldlM_cons, parseDigit_digit hn (by omega)]
      simp
    · -- the last digit, behind the others
      have hdiv := ih (n / 10) (by omega) (by omega)
      have hmod : n % 10 < 10 := Nat.mod_lt n (by decide)
      rw [decimal_of_le (by omega), foldlM_append, hdiv, decimal_of_lt hmod, Option.bind_eq_bind,
        Option.bind_some, foldlM_cons, parseDigit_digit hmod (by omega)]
      simp only [foldlM_nil, Option.bind_eq_bind, Option.bind_some, Option.pure_def,
        Option.some.injEq]
      omega

theorem decimal_head (n : ℕ) : ∃ d, d < 10 ∧ (decimal n).head? = some (UInt8.ofNat (0x30 + d)) := by
  induction n using Nat.strong_induction_on with
  | _ n ih =>
    by_cases hn : n < 10
    · exact ⟨n, hn, by rw [decimal_of_lt hn]; rfl⟩
    · obtain ⟨d, hd, hhead⟩ := ih (n / 10) (by omega)
      exact ⟨d, hd, by rw [decimal_of_le (by omega), List.head?_append, hhead]; rfl⟩

/-- **A number that the type has is read back as it was written.** -/
theorem parseUint_decimal (h : n < limit) : parseUint limit (decimal n) = some n := by
  obtain ⟨d, hd, hhead⟩ := decimal_head n
  have hplus : ∀ d < 10, UInt8.ofNat (0x30 + d) ≠ 0x2B := by decide
  have hne : decimal n ≠ [] := by
    intro hnil
    rw [hnil] at hhead
    cases hhead
  unfold parseUint
  rw [hhead, if_neg fun heq => hplus d hd (Option.some.inj heq)]
  simp only [if_neg hne, foldlM_decimal h]

/-! ### Mnemonics -/

/-- `to_ascii_uppercase`. -/
def toAsciiUpper (b : UInt8) : UInt8 := if isAsciiLower b then b &&& 0xDF else b

theorem toAsciiUpper_table : ∀ b, toAsciiUpper (toAsciiLower b) = toAsciiUpper b :=
  forall_byte (by decide +kernel)

theorem map_toAsciiUpper_of_eq {s s' : Bytes} (h : eqIgnoreAsciiCase s s' = true) :
    s.map toAsciiUpper = s'.map toAsciiUpper := by
  have hlower : ∀ s : Bytes, (s.map toAsciiLower).map toAsciiUpper = s.map toAsciiUpper := by
    intro s
    rw [map_map]
    exact map_congr_left fun b _ => toAsciiUpper_table b
  rw [← hlower s, ← hlower s', eqIgnoreAsciiCase_iff.mp h]

theorem map_toAsciiUpper_decimal (n : ℕ) : (decimal n).map toAsciiUpper = decimal n := by
  induction n using Nat.strong_induction_on with
  | _ n ih =>
    by_cases hn : n < 10
    · have hall : ∀ n < 10, (decimal n).map toAsciiUpper = decimal n := by decide
      exact hall n hn
    · rw [decimal_of_le (by omega), map_append, ih (n / 10) (by omega), ih (n % 10) (by omega)]

namespace Rtype

/-- The types that `rtype::parse` has a mnemonic for. -/
def mnemonics : List (UInt16 × Bytes) :=
  [(a, ascii "A"), (ns, ascii "NS"), (cname, ascii "CNAME"), (soa, ascii "SOA"), (ptr, ascii "PTR"),
    (mx, ascii "MX"), (txt, ascii "TXT"), (aaaa, ascii "AAAA"), (srv, ascii "SRV"),
    (any, ascii "ANY")]

/-- `rtype::name`. -/
def name (t : UInt16) : Bytes :=
  match ((opt, ascii "OPT") :: mnemonics).find? fun m => m.1 == t with
  | some (_, s) => s
  | none => ascii "TYPE" ++ decimal t.toNat

/-- `rtype::parse`. -/
def parse (s : Bytes) : Option UInt16 :=
  let upper := s.map toAsciiUpper
  match mnemonics.find? fun m => m.2 == upper with
  | some (t, _) => some t
  | none =>
    if (ascii "TYPE").isPrefixOf upper then (parseUint 65536 (upper.drop 4)).map UInt16.ofNat
    else none

theorem parse_generic (t : UInt16) : parse (ascii "TYPE" ++ decimal t.toNat) = some t := by
  have hupper : (ascii "TYPE" ++ decimal t.toNat).map toAsciiUpper = ascii "TYPE" ++
      decimal t.toNat := by
    rw [map_append, map_toAsciiUpper_decimal]
    rfl
  have hnone : mnemonics.find? (fun m => m.2 == ascii "TYPE" ++ decimal t.toNat) = none := by
    -- no mnemonic begins like this
    have hall : ∀ m ∈ mnemonics, m.2.take 4 ≠ ascii "TYPE" := by decide
    refine List.find?_eq_none.mpr fun m hm heq => hall m hm ?_
    rw [eq_of_beq heq]
    rfl
  have hlt : t.toNat < 65536 := t.toNat_lt
  unfold parse
  simp only [hupper, hnone]
  rw [if_pos ( isPrefixOf_iff_prefix.mpr (prefix_append _ _))]
  show (parseUint 65536 (decimal t.toNat)).map UInt16.ofNat = some t
  rw [parseUint_decimal hlt, Option.map_some, UInt16.ofNat_toNat]

/-- **A type is read back however its letters are written**, except for `OPT`, which is written and
not read. -/
theorem parse_name {t : UInt16} {s : Bytes} (h : eqIgnoreAsciiCase s (name t) = true) :
    parse s = if t = opt then none else some t := by
  have hname : parse s = parse (name t) := by
    unfold parse
    rw [map_toAsciiUpper_of_eq h]
  rw [hname]
  by_cases hknown : t ∈ opt :: mnemonics.map Prod.fst
  · have hall : (opt :: mnemonics.map Prod.fst).all
        (fun t => decide (parse (name t) = if t = opt then none else some t)) = true := by
          decide +kernel
    exact of_decide_eq_true (all_eq_true.mp hall t hknown)
  · have hfind : ((opt, ascii "OPT") :: mnemonics).find? (fun m => m.1 == t) = none := by
      refine List.find?_eq_none.mpr fun m hm heq => hknown ?_
      rw [← eq_of_beq heq]
      exact mem_map_of_mem (f := Prod.fst) hm
    have hopt : t ≠ opt := fun heq => hknown (heq ▸ mem_cons_self)
    rw [if_neg hopt, name, hfind]
    exact parse_generic t

theorem parse_name_aaaa :
    eqIgnoreAsciiCase (ascii "aaAA") (name aaaa) = true ∧ parse (ascii "aaAA") = some aaaa :=
  ⟨by decide, parse_name (t := aaaa) (by decide)⟩

end Rtype

end Resolvd.Dns
