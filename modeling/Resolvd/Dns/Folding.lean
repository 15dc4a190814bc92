import Resolvd.Dns.Text

/-!
# Names up to case

`Name.eq` compares names without case and `Name.toLowercase` picks one spelling of a class
(`Name.eq_iff`).  Every other function of names that folds case is written apart from these in the
source: `ends_with`, `Hash`, `reverse_address`.  They all respect the classes: each is a function of
the lower-case form.
-/

namespace Resolvd.Dns

open Lib List

/-! ### Hash tables -/

/-- What the hash of a key writes into the hasher. -/
inductive Hashed where
  | usize (n : ℕ)
  | u8 (b : UInt8)
  | u16 (n : UInt16)
  | str (s : String)
  deriving DecidableEq

/-- The value a hash table has for a key: that of the entry with the same hash and an equal key. -/
def hashFind {K V : Type} (hasher : List Hashed → ℕ) (input : K → List Hashed) (eq : K → K → Bool)
    (entries : List (K × V)) (key : K) : Option V :=
  (entries.find? fun p => hasher (input p.1) == hasher (input key) && eq p.1 key).map Prod.snd

/-- A table whose hash respects the equality finds what the equality finds. -/
theorem hashFind_eq {K V : Type} {input : K → List Hashed} {eq : K → K → Bool}
    (hinput : ∀ a b, eq a b = true → input a = input b) (hasher : List Hashed → ℕ)
    (entries : List (K × V)) (key : K) :
    hashFind hasher input eq entries key = (entries.find? fun p => eq p.1 key).map Prod.snd := by
  have hsame : (fun p : K × V => hasher (input p.1) == hasher (input key) && eq p.1 key) = fun p =>
      eq p.1 key := by
    funext p
    cases h : eq p.1 key with
    | false => simp
    | true => simp [hinput p.1 key h]
  rw [hashFind, hsame]

namespace Name

variable {a b c s : Name}

theorem toLowercase_labels (n : Name) :
    n.toLowercase.labels = n.labels.map (List.map toAsciiLower) :=
  rfl

/-- Names are equal when the labels are, in lower case. -/
theorem eq_iff_labels : a.eq b = true ↔ a.toLowercase.labels = b.toLowercase.labels :=
  eq_iff.trans ⟨congrArg labels, ext_labels⟩

/-- `Hash for Name`: the number of labels, and each label in lower case with an octet no letter has.
-/
def hashInput (n : Name) : List Hashed :=
  .usize n.labels.length :: n.labels.flatMap fun l =>
    (l.map fun b => Hashed.u8 (toAsciiLower b)) ++ [.u8 0xff]

/-! ### Functions of the lower-case form -/

theorem labelCount_toLowercase (n : Name) : n.toLowercase.labelCount = n.labelCount := by
  simp [labelCount, toLowercase]

theorem wireLen_toLowercase (n : Name) : n.toLowercase.wireLen = n.wireLen := by
  simp [wireLen, wireLenOf, toLowercase, Function.comp_def]

theorem hashInput_toLowercase (n : Name) : n.toLowercase.hashInput = n.hashInput := by
  simp [hashInput, toLowercase, flatMap_map, Function.comp_def, toAsciiLower_idem]

/-- **`ends_with` is the suffix order of the labels in lower case.** -/
theorem endsWith_iff_suffix {n suffix : Name} :
    n.endsWith suffix = true ↔ suffix.toLowercase.labels <:+ n.toLowercase.labels := by
  unfold endsWith
  rw [toLowercase_labels, toLowercase_labels]
  split
  · next hlong =>
    simp only [Bool.false_eq_true, false_iff]
    intro h
    have := h.length_le
    simp only [length_map] at this
    omega
  · next hshort =>
    have hlen : (n.labels.drop (n.labels.length - suffix.labels.length)).length =
        suffix.labels.length := by
      rw [length_drop]
      omega
    rw [all_zip_iff hlen, suffix_iff_eq_drop, length_map, length_map, map_drop, eq_comm]

/-- The octets that numbers are written with, in lower case: a decimal digit is one or is none, and
a hexadecimal digit keeps its value. -/
theorem digits_toAsciiLower : ∀ b : UInt8,
    (toAsciiLower b = b ∨ ¬ (0x30 ≤ b ∧ b ≤ 0x39) ∧
      ¬ (0x30 ≤ toAsciiLower b ∧ toAsciiLower b ≤ 0x39) ∧ b ≠ 0x2B ∧
      toAsciiLower b ≠ 0x2B) ∧ hexDigit (toAsciiLower b) = hexDigit b :=
  forall_byte (by decide +kernel)

theorem parseU8_toAsciiLower (s : Bytes) : parseU8 (s.map toAsciiLower) = parseU8 s := by
  have hplus : (s.map toAsciiLower).head? = some 0x2B ↔ s.head? = some 0x2B := by
    cases s with
    | nil => rfl
    | cons b bs =>
      simp only [map_cons, List.head?_cons, Option.some.injEq]
      rcases (digits_toAsciiLower b).1 with h | ⟨-, -, h1, h2⟩
      · rw [h]
      · exact iff_of_false h2 h1
  have hdigits : (if (s.map toAsciiLower).head? = some 0x2B then (s.map toAsciiLower).tail
      else s.map toAsciiLower) =
      (if s.head? = some 0x2B then s.tail else s).map toAsciiLower := by
    simp only [hplus]
    split
    · rw [map_tail]
    · rfl
  unfold parseU8 parseUint
  simp only [hdigits, map_eq_nil_iff, foldlM_map]
  congr 3
  funext n b
  rcases (digits_toAsciiLower b).1 with h | ⟨h1, h2, -, -⟩
  · rw [h]
  · rw [parseDigit, parseDigit, if_neg fun h => h2 ⟨h.1, h.2.1⟩, if_neg fun h => h1 ⟨h.1, h.2.1⟩]

theorem nibbleLabel_toAsciiLower (l : Bytes) :
    nibbleLabel (l.map toAsciiLower) = nibbleLabel l := by
  match l with
  | [] => rfl
  | [b] => exact (digits_toAsciiLower b).2
  | _ :: _ :: _ => rfl

theorem reverseAddress_toLowercase (n : Name) :
    n.toLowercase.reverseAddress = n.reverseAddress := by
  have hends : ∀ s, n.toLowercase.endsWith s = n.endsWith s := fun s => by
    rw [Bool.eq_iff_iff, endsWith_iff_suffix, endsWith_iff_suffix, toLowercase_idem]
  have hlen : n.toLowercase.labels.length = n.labels.length := by simp [toLowercase]
  have hmapM : ∀ (k : ℕ) (f : Bytes → Option UInt8), (∀ l : Bytes, f (l.map toAsciiLower) = f l) →
      (n.toLowercase.labels.take k).mapM f = (n.labels.take k).mapM f := fun k f hf => by
    rw [toLowercase_labels, ← map_take, mapM_map]
    congr 1
    funext l
    exact hf l
  unfold reverseAddress
  rw [hends, hends, hlen, hmapM 4 parseU8 parseU8_toAsciiLower,
    hmapM 32 nibbleLabel nibbleLabel_toAsciiLower]

/-! ### Congruences -/

section Congruence

variable {a b : Name} (h : a.eq b = true)
include h

theorem labelCount_congr : a.labelCount = b.labelCount := by
  rw [← labelCount_toLowercase, eq_iff.mp h, labelCount_toLowercase]

theorem wireLen_congr : a.wireLen = b.wireLen := by
  rw [← wireLen_toLowercase, eq_iff.mp h, wireLen_toLowercase]

theorem hashInput_congr : a.hashInput = b.hashInput := by
  rw [← hashInput_toLowercase, eq_iff.mp h, hashInput_toLowercase]

theorem reverseAddress_congr : a.reverseAddress = b.reverseAddress := by
  rw [← reverseAddress_toLowercase, eq_iff.mp h, reverseAddress_toLowercase]

theorem endsWith_congr {s t : Name} (hs : s.eq t = true) : a.endsWith s = b.endsWith t := by
  rw [Bool.eq_iff_iff, endsWith_iff_suffix, endsWith_iff_suffix, eq_iff.mp h, eq_iff.mp hs]

end Congruence

/-! ### The suffix order -/

theorem endsWith_of_append {n suffix : Name} {front : List Bytes}
    (h : n.labels = front ++ suffix.labels) : n.endsWith suffix = true := by
  rw [endsWith_iff_suffix, toLowercase_labels, toLowercase_labels, h, map_append]
  exact suffix_append _ _

theorem endsWith_refl (a : Name) : a.endsWith a = true := endsWith_iff_suffix.mpr (suffix_refl _)

theorem endsWith_trans (h : a.endsWith b = true) (h' : b.endsWith c = true) : a.endsWith c = true :=
  endsWith_iff_suffix.mpr ((endsWith_iff_suffix.mp h').trans (endsWith_iff_suffix.mp h))

theorem endsWith_antisymm (h : a.endsWith b = true) (h' : b.endsWith a = true) : a.eq b = true := by
  rw [endsWith_iff_suffix] at h h'
  exact eq_iff_labels.mpr (h'.eq_of_length (le_antisymm h'.length_le h.length_le))

/-! ### Joining -/

/-- Results of fallible functions on names that are the same up to case. -/
def SameResult (x y : Except Error Name) : Prop :=
  (∃ c d, x = .ok c ∧ y = .ok d ∧ c.eq d = true) ∨ ∃ e, x = .error e ∧ y = .error e

/-- Whether labels make a name is a matter of their lengths. -/
theorem fromLabels_toAsciiLower {ls ls' : List Bytes}
    (h : ls.map (List.map toAsciiLower) = ls'.map (List.map toAsciiLower)) :
    SameResult (fromLabels ls) (fromLabels ls') := by
  have hlens : ls.map List.length = ls'.map List.length := by
    have := congrArg (List.map List.length) h
    simpa [Function.comp_def] using this
  have hlabels : (∀ l ∈ ls, 1 ≤ l.length ∧ l.length ≤ maxLabelLen) ↔ ∀ l ∈ ls', 1 ≤ l.length ∧
      l.length ≤ maxLabelLen := by
    rw [← forall_mem_map (f := List.length) (P := fun k => 1 ≤ k ∧ k ≤ maxLabelLen), hlens,
      forall_mem_map]
  have hwire : wireLenOf ls = wireLenOf ls' := by
    have := congrArg (fun ks => (List.map (· + 1) ks).sum + 1) hlens
    simpa [wireLenOf, Function.comp_def] using this
  unfold fromLabels
  by_cases h1 : ∀ l ∈ ls, 1 ≤ l.length ∧ l.length ≤ maxLabelLen
  · rw [dif_pos h1, dif_pos (hlabels.mp h1)]
    by_cases h2 : wireLenOf ls ≤ maxNameLen
    · rw [dif_pos h2, dif_pos (hwire ▸ h2)]
      exact .inl ⟨_, _, rfl, rfl, eq_iff_labels.mpr h⟩
    · rw [dif_neg h2, dif_neg (hwire ▸ h2)]
      exact .inr ⟨_, rfl, rfl⟩
  · rw [dif_neg h1, dif_neg fun h => h1 (hlabels.mpr h)]
    exact .inr ⟨_, rfl, rfl⟩

theorem join_congr {t : Name} (h : a.eq b = true) (hs : s.eq t = true) :
    SameResult (a.join s) (b.join t) := by
  refine fromLabels_toAsciiLower ?_
  rw [map_append, map_append]
  exact congrArg₂ (· ++ ·) (eq_iff_labels.mp h) (eq_iff_labels.mp hs)

theorem endsWith_of_join (h : a.join s = .ok c) : c.endsWith s = true :=
  endsWith_of_append (join_labels h)

theorem labelCount_of_join (h : a.join s = .ok c) : c.labelCount = a.labelCount + s.labelCount := by
  rw [labelCount, join_labels h, length_append, labelCount, labelCount]

end Name

end Resolvd.Dns
