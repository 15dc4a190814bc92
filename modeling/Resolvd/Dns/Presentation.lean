import Resolvd.Dns.Text
import Resolvd.Lib.Lists
import Mathlib.Algebra.Order.BigOperators.Group.List

/-!
# Names are told apart by their text

`Display for Name` writes the octets of a label as they are, escaped by a backslash, or as a
backslash and three digits, and a full stop between two labels.  A text is the text of one name only
(`display_injective`): it is a sequence of symbols, each an octet or the full stop, whose first one
can always be told (`symbolOf_text`).  It holds no NUL (`zero_notMem_display`) and is not long
(`length_display_le`).
-/

namespace Resolvd.Dns.Name

open Lib List

/-- The text of a symbol: of an octet, or of the full stop between two labels. -/
def symbolText : Option UInt8 → Bytes
  | none => [dot]
  | some b => displayByte b

/-- The symbols of a name. -/
def symbols (n : Name) : List (Option UInt8) :=
  if n.labels = [] then [none] else [none].intercalate (n.labels.map (List.map some))

theorem intercalate_symbols (labels : List Bytes) :
    [dot].intercalate (labels.map fun l => l.flatMap displayByte) =
      ([none].intercalate (labels.map (List.map some))).flatMap symbolText := by
  have hlabel : ∀ l : Bytes, (l.map some).flatMap symbolText = l.flatMap displayByte := fun l =>
    flatMap_map some symbolText l
  induction labels with
  | nil => rfl
  | cons l labels ih =>
    cases labels with
    | nil => simp [hlabel]
    | cons l' labels =>
      simp only [map_cons, intercalate_cons_cons, flatMap_append, hlabel] at ih ⊢
      rw [ih]
      rfl

theorem display_eq_symbols (n : Name) : n.display = n.symbols.flatMap symbolText := by
  unfold display symbols
  split
  · rfl
  · exact intercalate_symbols n.labels

theorem displayByte_escaped (b : UInt8) (hspecial : ¬ (b = dot ∨ b = 0x5C))
    (hprint : ¬ (0x21 ≤ b ∧ b ≤ 0x7E)) :
    displayByte b = [0x5C, UInt8.ofNat (48 + b.toNat / 100), UInt8.ofNat (48 + b.toNat / 10 % 10),
      UInt8.ofNat (48 + b.toNat % 10)] := by
  revert b
  exact forall_byte (by decide +kernel)

theorem toNat_digit {k : ℕ} (h : k < 10) : (UInt8.ofNat (48 + k)).toNat = 48 + k := by
  rw [UInt8.toNat_ofNat']
  omega

theorem digits_value (b : UInt8) :
    UInt8.ofNat (((UInt8.ofNat (48 + b.toNat / 100)).toNat - 48) * 100 +
        ((UInt8.ofNat (48 + b.toNat / 10 % 10)).toNat - 48) * 10 +
          ((UInt8.ofNat (48 + b.toNat % 10)).toNat - 48)) = b ∧
      ¬ (UInt8.ofNat (48 + b.toNat / 100) = dot ∨ UInt8.ofNat (48 + b.toNat / 100) = 0x5C) := by
  have hlt := b.toNat_lt
  have hhundreds := toNat_digit (k := b.toNat / 100) (by omega)
  constructor
  · have htens : b.toNat / 10 / 10 = b.toNat / 100 := Nat.div_div_eq_div_mul _ _ _
    rw [hhundreds, toNat_digit (k := b.toNat / 10 % 10) (by omega),
      toNat_digit (k := b.toNat % 10) (by omega)]
    apply UInt8.toNat_inj.mp
    rw [UInt8.toNat_ofNat']
    omega
  · rintro (h | h)
    · have : 48 + b.toNat / 100 = 46 := hhundreds.symm.trans (congrArg UInt8.toNat h)
      omega
    · have : 48 + b.toNat / 100 = 92 := hhundreds.symm.trans (congrArg UInt8.toNat h)
      omega

/-- The first symbol of a text. -/
def symbolOf (text : Bytes) : Option UInt8 :=
  if text.getD 0 0 = dot then none
  else if text.getD 0 0 ≠ 0x5C then some (text.getD 0 0)
  else if text.getD 1 0 = dot ∨ text.getD 1 0 = 0x5C then some (text.getD 1 0)
  else
    some (UInt8.ofNat (((text.getD 1 0).toNat - 48) * 100 + ((text.getD 2 0).toNat - 48) * 10 +
      ((text.getD 3 0).toNat - 48)))

/-- **The first symbol can be told.** -/
theorem symbolOf_text (s : Option UInt8) (rest : Bytes) : symbolOf (symbolText s ++ rest) = s := by
  cases s with
  | none => rfl
  | some b =>
    rw [symbolText]
    by_cases hspecial : b = dot ∨ b = 0x5C
    · rw [displayByte, if_pos hspecial]
      have hbackslash : (0x5C : UInt8) ≠ dot := by decide
      simp [symbolOf, hspecial, hbackslash]
    · by_cases hprint : 0x21 ≤ b ∧ b ≤ 0x7E
      · rw [displayByte, if_neg hspecial, if_pos hprint]
        rw [not_or] at hspecial
        simp [symbolOf, hspecial.1, hspecial.2]
      · obtain ⟨hvalue, hdigit⟩ := digits_value b
        rw [displayByte_escaped b hspecial hprint]
        simp only [symbolOf, cons_append, getD_cons_zero, getD_cons_succ, hvalue, if_neg hdigit]
        rfl

theorem symbolText_ne_nil (s : Option UInt8) : symbolText s ≠ [] := by
  cases s with
  | none => simp [symbolText]
  | some b =>
    rw [symbolText, displayByte]
    split
    · simp
    · split <;> simp

theorem splitOn_symbols {n : Name} (hne : n.labels ≠ []) :
    n.symbols.splitOn none = n.labels.map (List.map some) := by
  rw [symbols, if_neg hne]
  refine splitOn_intercalate none ?_ (by simpa using hne)
  intro l hl
  obtain ⟨m, -, rfl⟩ := mem_map.mp hl
  simp

/-- The symbols of another name are not those of the root, since its labels are not empty. -/
theorem symbols_ne_root {n : Name} (hne : n.labels ≠ []) : n.symbols ≠ [none] := by
  intro heq
  have hsplit := splitOn_symbols hne
  rw [heq] at hsplit
  have hmem : ([] : List (Option UInt8)) ∈ n.labels.map (List.map some) := by
    rw [← hsplit]
    decide
  obtain ⟨l, hl, hnil⟩ := mem_map.mp hmem
  have := (n.fits.1 l hl).1
  rw [map_eq_nil_iff.mp hnil] at this
  cases this

theorem symbols_injective {a b : Name} (h : a.symbols = b.symbols) : a = b := by
  have hroot : ∀ {n : Name}, n.labels = [] → n.symbols = [none] := fun hn => if_pos hn
  by_cases ha : a.labels = []
  · by_cases hb : b.labels = []
    · exact ext_labels (ha.trans hb.symm)
    · exact absurd (h.symm.trans (hroot ha)) (symbols_ne_root hb)
  · by_cases hb : b.labels = []
    · exact absurd (h.trans (hroot hb)) (symbols_ne_root ha)
    · have hlabels := splitOn_symbols ha
      rw [h, splitOn_symbols hb] at hlabels
      exact ext_labels ((Option.some_injective _).list_map.list_map hlabels).symm

/-- **A text is the text of one name only.** -/
theorem display_injective {a b : Name} (h : a.display = b.display) : a = b := by
  rw [display_eq_symbols, display_eq_symbols] at h
  refine symbols_injective (flatMap_injective symbolText_ne_nil (fun s t r r' heq => ?_) h)
  rw [← symbolOf_text s r, heq, symbolOf_text]

/-! ### What a text can be -/

theorem displayByte_cases (b : UInt8) :
    displayByte b = [0x5C, b] ∧ (b = dot ∨ b = 0x5C) ∨ displayByte b = [b] ∧ 0x21 ≤ b ∨
      ∃ i j k : ℕ, (i < 10 ∧ j < 10 ∧ k < 10) ∧
        displayByte b = [0x5C, UInt8.ofNat (48 + i), UInt8.ofNat (48 + j),
          UInt8.ofNat (48 + k)] := by
  by_cases hspecial : b = dot ∨ b = 0x5C
  · exact .inl ⟨if_pos hspecial, hspecial⟩
  by_cases hprint : 0x21 ≤ b ∧ b ≤ 0x7E
  · exact .inr (.inl ⟨by rw [displayByte, if_neg hspecial, if_pos hprint], hprint.1⟩)
  have hlt := b.toNat_lt
  exact .inr (.inr ⟨_, _, _, by omega, displayByte_escaped b hspecial hprint⟩)

theorem symbolText_spec (s : Option UInt8) : 0 ∉ symbolText s ∧ (symbolText s).length ≤ 4 := by
  cases s with
  | none => exact ⟨by decide, by decide⟩
  | some b =>
    rw [symbolText]
    rcases displayByte_cases b with ⟨h, rfl | rfl⟩ | ⟨h, hprint⟩ | ⟨i, j, k, hdigits, h⟩
    · rw [h]
      exact ⟨by decide, by decide⟩
    · rw [h]
      exact ⟨by decide, by decide⟩
    · rw [h, mem_singleton]
      refine ⟨?_, by simp⟩
      rintro rfl
      exact absurd hprint (by decide)
    · have hdigit : ∀ {k : ℕ}, k < 10 → (0 : UInt8) ≠ UInt8.ofNat (48 + k) := fun hk h0 => by
        have := congrArg UInt8.toNat h0
        rw [toNat_digit hk, UInt8.toNat_zero] at this
        omega
      rw [h]
      simp only [mem_cons, not_mem_nil, or_false, not_or]
      exact ⟨⟨by decide, hdigit hdigits.1, hdigit hdigits.2.1, hdigit hdigits.2.2⟩, le_rfl⟩

/-- **No text holds a NUL.** -/
theorem zero_notMem_display (n : Name) : 0 ∉ n.display := by
  rw [display_eq_symbols, mem_flatMap]
  rintro ⟨s, -, h⟩
  exact (symbolText_spec s).1 h

theorem length_symbols_le (n : Name) : n.symbols.length ≤ 254 := by
  have hjoin : ∀ ls : List Bytes, ([none].intercalate (ls.map (List.map some))).length ≤
      (ls.map fun l => l.length + 1).sum := by
    intro ls
    induction ls with
    | nil => simp
    | cons l ls ih =>
      cases ls with
      | nil => simp
      | cons l' ls =>
        simp only [map_cons, intercalate_cons_cons, length_append, length_map, length_singleton,
          sum_cons] at ih ⊢
        omega
  have hfits : (n.labels.map fun l => l.length + 1).sum + 1 ≤ 255 := n.fits.2
  unfold symbols
  split
  · decide
  · have := hjoin n.labels
    omega

/-- A text has at most four octets for each octet of the name. -/
theorem length_display_le (n : Name) : n.display.length ≤ 1016 := by
  have hsum : (n.symbols.flatMap symbolText).length ≤ n.symbols.length * 4 := by
    rw [length_flatMap]
    have := sum_le_card_nsmul (n.symbols.map fun s => (symbolText s).length) 4 fun k hk => by
      obtain ⟨s, -, rfl⟩ := mem_map.mp hk
      exact (symbolText_spec s).2
    rwa [length_map] at this
  have := length_symbols_le n
  rw [display_eq_symbols]
  omega

end Resolvd.Dns.Name
