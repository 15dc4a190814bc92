import Resolvd.Lib.Ascii

/-!
# Domain names

`dns::Name`: a sequence of labels without the trailing root label.  The labels are private to the
type and every way to build a name keeps the limits of RFC 1035, so they are a field of the
structure here (`Name.fits`): a name that breaks them cannot be written down.

Names are kept as they arrived and compared without case (`Name.eq`); `Name.toLowercase` is the
representative of a class of that comparison (`Name.eq_iff`).
-/

namespace Resolvd.Dns

open Lib List

/-- `dns::Error`. -/
inductive Error where
  | truncated
  | nameTooLong
  | badLabel
  | badPointer
  | badRData
  | trailingBytes
  | badName
  | tooLarge
  deriving DecidableEq, Repr

abbrev maxMessageSize : ℕ := 65535
abbrev maxNameLen : ℕ := 255
abbrev maxLabelLen : ℕ := 63

/-! ### The type -/

/-- The octets a list of labels takes on the wire, uncompressed, with the root label. -/
def wireLenOf (labels : List Bytes) : ℕ := (labels.map fun l => l.length + 1).sum + 1

/-- The limits of RFC 1035 on the labels of a name. -/
def Fits (labels : List Bytes) : Prop :=
  (∀ l ∈ labels, 1 ≤ l.length ∧ l.length ≤ maxLabelLen) ∧ wireLenOf labels ≤ maxNameLen

instance (labels : List Bytes) : Decidable (Fits labels) :=
  inferInstanceAs (Decidable ((∀ l ∈ labels, 1 ≤ l.length ∧ l.length ≤ maxLabelLen) ∧
    wireLenOf labels ≤ maxNameLen))

/-- A domain name. -/
structure Name where
  labels : List Bytes
  fits : Fits labels
  deriving DecidableEq

theorem Name.ext_labels {a b : Name} (h : a.labels = b.labels) : a = b := by
  cases a; cases b; simp_all

/-- Two lists of labels whose labels have the same lengths are both within the limits or both not.
-/
theorem fits_congr {ls ls' : List Bytes} (h : ls.map List.length = ls'.map List.length)
    (hf : Fits ls) : Fits ls' := by
  obtain ⟨h1, h2⟩ := hf
  constructor
  · intro l hl
    have hmem : l.length ∈ ls.map List.length := h ▸ mem_map_of_mem hl
    obtain ⟨l', hl', he⟩ := mem_map.mp hmem
    exact he ▸ h1 l' hl'
  · have e : ∀ xs : List Bytes, (xs.map fun l => l.length + 1) =
        (xs.map List.length).map (· + 1) := by
      intro xs; simp
    unfold wireLenOf at *
    rw [e, ← h, ← e]
    exact h2

namespace Name

def root : Name := ⟨[], by decide⟩

instance : Inhabited Name := ⟨root⟩

/-- `Name::from_labels`. -/
def fromLabels (labels : List Bytes) : Except Error Name :=
  if h1 : ∀ l ∈ labels, 1 ≤ l.length ∧ l.length ≤ maxLabelLen then
    if h2 : wireLenOf labels ≤ maxNameLen then .ok ⟨labels, h1, h2⟩ else .error .nameTooLong
  else .error .badName

/-- The full stop that separates labels in presentation form. -/
abbrev dot : UInt8 := 0x2E

/-- `s.strip_suffix('.').unwrap_or(s)`. -/
def stripDot (s : Bytes) : Bytes := if s.getLast? = some dot then s.dropLast else s

/-- `Name::parse`: presentation form, without escapes; a final dot makes no difference.  The source
repeats the checks of `from_labels` on the parts between the dots. -/
def parse (s : Bytes) : Except Error Name :=
  let s := stripDot s
  if s = [] then .ok root else fromLabels (s.splitOn dot)

def isRoot (n : Name) : Bool := n.labels.isEmpty

def labelCount (n : Name) : ℕ := n.labels.length

def wireLen (n : Name) : ℕ := wireLenOf n.labels

/-- `Name::ends_with`: `n` is `suffix` or ends with it, ignoring case. -/
def endsWith (n suffix : Name) : Bool :=
  if suffix.labels.length > n.labels.length then false
  else
    let skip := n.labels.length - suffix.labels.length
    ((n.labels.drop skip).zip suffix.labels).all fun (a, b) => eqIgnoreAsciiCase a b

/-- `Name::join`. -/
def join (n suffix : Name) : Except Error Name := fromLabels (n.labels ++ suffix.labels)

theorem join_labels {n suffix c : Name} (h : n.join suffix = .ok c) :
    c.labels = n.labels ++ suffix.labels := by
  unfold join fromLabels at h
  split at h
  · split at h
    · obtain rfl := Except.ok.inj h
      rfl
    · cases h
  · cases h

/-- `Name::to_lowercase`: the name as a cache key. -/
def toLowercase (n : Name) : Name :=
  ⟨n.labels.map (List.map toAsciiLower), fits_congr (by simp [Function.comp_def]) n.fits⟩

/-- `PartialEq for Name`: label by label, ignoring case. -/
def eq (a b : Name) : Bool :=
  a.labels.length == b.labels.length && (a.labels.zip b.labels).all fun (x, y) =>
    eqIgnoreAsciiCase x y

/-! ### Comparison -/

theorem all_zip_iff {xs ys : List Bytes} (h : xs.length = ys.length) :
    ((xs.zip ys).all fun (a, b) => eqIgnoreAsciiCase a b) = true ↔
      xs.map (List.map toAsciiLower) = ys.map (List.map toAsciiLower) := by
  induction xs generalizing ys with
  | nil => cases ys <;> simp_all
  | cons x xs ih =>
    cases ys with
    | nil => simp at h
    | cons y ys =>
      simp only [zip_cons_cons, all_cons, Bool.and_eq_true, eqIgnoreAsciiCase_iff, map_cons,
        List.cons.injEq]
      rw [ih (by simpa using h)]

variable {a b : Name}

/-- **Names are equal exactly when their lower-case forms are.** -/
theorem eq_iff : a.eq b = true ↔ a.toLowercase = b.toLowercase := by
  have hlow : a.toLowercase = b.toLowercase ↔
      a.labels.map (List.map toAsciiLower) = b.labels.map (List.map toAsciiLower) := by
    constructor
    · intro h; exact congrArg Name.labels h
    · intro h; exact ext_labels h
  rw [hlow]
  unfold eq
  rw [Bool.and_eq_true, beq_iff_eq]
  constructor
  · rintro ⟨h1, h2⟩
    exact (all_zip_iff h1).mp h2
  · intro h
    have hl : a.labels.length = b.labels.length := by simpa using congrArg List.length h
    exact ⟨hl, (all_zip_iff hl).mpr h⟩

@[simp] theorem eq_refl (a : Name) : a.eq a = true := eq_iff.mpr rfl

theorem eq_symm (h : a.eq b = true) : b.eq a = true := eq_iff.mpr (eq_iff.mp h).symm

theorem eq_trans {c : Name} (h1 : a.eq b = true) (h2 : b.eq c = true) : a.eq c = true :=
  eq_iff.mpr ((eq_iff.mp h1).trans (eq_iff.mp h2))

theorem eq_congr_left (h : a.eq b = true) (c : Name) : a.eq c = b.eq c := by
  rw [Bool.eq_iff_iff, eq_iff, eq_iff, eq_iff.mp h]

theorem eq_congr_right (h : a.eq b = true) (c : Name) : c.eq a = c.eq b := by
  rw [Bool.eq_iff_iff, eq_iff, eq_iff, eq_iff.mp h]

@[simp] theorem toLowercase_idem (n : Name) : n.toLowercase.toLowercase = n.toLowercase := by
  apply ext_labels
  simp only [toLowercase, map_map]
  exact map_congr_left fun l _ => map_toAsciiLower_idem l

theorem toLowercase_eq (n : Name) : n.toLowercase.eq n = true := eq_iff.mpr (toLowercase_idem n)

/-! ### 0x20 case randomisation -/

/-- The case bits of one label: `bits k` is the answer of the `k`-th call of the bit source, which
is called for letters only; the second component counts the calls. -/
def randomiseLabel (bits : ℕ → Bool) : ℕ → Bytes → Bytes × ℕ
  | k, [] => ([], k)
  | k, b :: bs =>
    if isAsciiAlphabetic b then
      let (rest, m) := randomiseLabel bits (k + 1) bs
      ((if bits k then b ^^^ 0x20 else b) :: rest, m)
    else
      let (rest, m) := randomiseLabel bits k bs
      (b :: rest, m)

def randomiseLabels (bits : ℕ → Bool) : ℕ → List Bytes → List Bytes
  | _, [] => []
  | k, l :: ls =>
    let (l', m) := randomiseLabel bits k l
    l' :: randomiseLabels bits m ls

theorem randomiseLabel_lower (bits : ℕ → Bool) (k : ℕ) (l : Bytes) :
    (randomiseLabel bits k l).1.map toAsciiLower = l.map toAsciiLower := by
  induction l generalizing k with
  | nil => rfl
  | cons b bs ih =>
    unfold randomiseLabel
    split
    · next hb =>
      simp only [map_cons, ih (k + 1), List.cons.injEq, and_true]
      split
      · exact toAsciiLower_flip hb
      · rfl
    · simp [ih k]

theorem randomiseLabels_lower (bits : ℕ → Bool) (k : ℕ) (ls : List Bytes) :
    (randomiseLabels bits k ls).map (List.map toAsciiLower) = ls.map (List.map toAsciiLower) := by
  induction ls generalizing k with
  | nil => rfl
  | cons l ls ih => simp [randomiseLabels, randomiseLabel_lower, ih]

theorem randomiseLabels_lengths (bits : ℕ → Bool) (k : ℕ) (ls : List Bytes) :
    ls.map List.length = (randomiseLabels bits k ls).map List.length := by
  have h := congrArg (List.map List.length) (randomiseLabels_lower bits k ls)
  simp only [map_map] at h
  have e : (List.length ∘ List.map toAsciiLower) = (List.length : Bytes → ℕ) := by
    funext l; simp
  rw [e] at h
  exact h.symm

/-- `Name::randomise_case`. -/
def randomiseCase (n : Name) (bits : ℕ → Bool) : Name :=
  ⟨randomiseLabels bits 0 n.labels, fits_congr (randomiseLabels_lengths bits 0 n.labels) n.fits⟩

theorem randomiseCase_eq (n : Name) (bits : ℕ → Bool) : (n.randomiseCase bits).eq n = true :=
  eq_iff.mpr (ext_labels (randomiseLabels_lower bits 0 n.labels))

end Name

end Resolvd.Dns
