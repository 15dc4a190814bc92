import Resolvd.Dns.Text
import Resolvd.Dns.Wire

/-!
# The limits of names

The fields of `dns::Name` are private, and not every function that makes one checks it: `read`,
`to_lowercase` and `randomise_case` write the labels down as they come.  `Built` is what the
functions of the module can make, over bare lists of labels, and all of it is within the limits
(`Built.fits`).  In particular a name has fewer letters than `randomise_case` can be given bits for
(`letters_lt`).
-/

namespace Resolvd.Dns

open Lib

/-- Labels of a name that the functions of the module can make. -/
inductive Built : List Bytes → Prop
  | root : Built []
  | parse {s : Bytes} {n : Name} (h : Name.parse s = .ok n) : Built n.labels
  | fromLabels {ls : List Bytes} {n : Name} (h : Name.fromLabels ls = .ok n) : Built n.labels
  | read {msg : Bytes} {pos next : ℕ} {ls : List Bytes}
    (h : readLabels msg pos 0 0 none = .ok (ls, next)) : Built ls
  | join {ls ls' : List Bytes} {n : Name} (h₁ : Built ls) (h₂ : Built ls')
      (h : Name.fromLabels (ls ++ ls') = .ok n) :
      Built n.labels
  | toLowercase {ls : List Bytes} (h : Built ls) : Built (ls.map (List.map toAsciiLower))
  | randomiseCase {ls : List Bytes} (h : Built ls) (bits : ℕ → Bool) :
    Built (Name.randomiseLabels bits 0 ls)
  | reverseV4 (a : Ipv4Addr) : Built (Name.reverseV4Labels a)
  | reverseV6 (a : Ipv6Addr) : Built (Name.reverseV6Labels a)

/-- **Whatever is made is within the limits.** -/
theorem Built.fits {ls : List Bytes} (h : Built ls) : Fits ls := by
  induction h with
  | root => exact Name.root.fits
  | parse => exact Name.fits _
  | fromLabels => exact Name.fits _
  | read h => exact readLabels_fits h
  | join => exact Name.fits _
  | toLowercase _ ih => exact fits_congr (by simp [Function.comp_def]) ih
  | randomiseCase _ bits ih => exact fits_congr (Name.randomiseLabels_lengths bits 0 _) ih
  | reverseV4 a => exact Name.reverseV4Labels_fits a
  | reverseV6 a => exact Name.reverseV6Labels_fits a

namespace Name

/-! ### Letters -/

/-- The letters of some labels: `randomise_case` asks for a bit at each. -/
def lettersOf (ls : List Bytes) : ℕ := (ls.map fun l => l.countP isAsciiAlphabetic).sum

def letters (n : Name) : ℕ := lettersOf n.labels

/-- **A name has fewer than 255 letters**, because of the octet before each label. -/
theorem letters_lt (n : Name) : n.letters < 255 := by
  have hsum : ∀ ls : List Bytes, lettersOf ls ≤ (ls.map fun l => l.length + 1).sum := by
    intro ls
    induction ls with
    | nil => exact le_rfl
    | cons l ls ih =>
      have := List.countP_le_length (p := isAsciiAlphabetic) (l := l)
      simp only [lettersOf, List.map_cons, List.sum_cons] at ih ⊢
      omega
  have hfit : wireLenOf n.labels ≤ maxNameLen := n.fits.2
  have := hsum n.labels
  simp only [wireLenOf, maxNameLen] at hfit
  unfold letters
  omega

/-! ### Bits that may be missing -/

/-- One label of `randomise_case`, with a bit source that may panic. -/
def randomiseLabel? (bits : ℕ → Option Bool) : ℕ → Bytes → Option (Bytes × ℕ)
  | k, [] => some ([], k)
  | k, b :: bs =>
    if isAsciiAlphabetic b then do
      let flip ← bits k
      let (rest, m) ← randomiseLabel? bits (k + 1) bs
      some ((if flip then b ^^^ 0x20 else b) :: rest, m)
    else do
      let (rest, m) ← randomiseLabel? bits k bs
      some (b :: rest, m)

/-- The labels of `randomise_case`, with a bit source that may panic. -/
def randomiseLabels? (bits : ℕ → Option Bool) : ℕ → List Bytes → Option (List Bytes)
  | _, [] => some []
  | k, l :: ls => do
    let (l', m) ← randomiseLabel? bits k l
    let ls' ← randomiseLabels? bits m ls
    some (l' :: ls')

section Bits

variable {bits : ℕ → Option Bool} {bits' : ℕ → Bool}

/-- A bit source that answers for the letters of a label. -/
theorem randomiseLabel?_eq {l : Bytes} {k : ℕ}
    (h : ∀ n, k ≤ n → n < k + l.countP isAsciiAlphabetic → bits n = some (bits' n)) :
    randomiseLabel? bits k l = some (randomiseLabel bits' k l) ∧
      (randomiseLabel bits' k l).2 = k + l.countP isAsciiAlphabetic := by
  induction l generalizing k with
  | nil => exact ⟨rfl, rfl⟩
  | cons b bs ih =>
    unfold randomiseLabel? randomiseLabel
    by_cases hb : isAsciiAlphabetic b = true
    · rw [List.countP_cons_of_pos hb] at h ⊢
      obtain ⟨ih1, ih2⟩ := ih (k := k + 1) fun n hn hlt => h n (by omega) (by omega)
      rw [if_pos hb, if_pos hb, h k le_rfl (by omega), ih1]
      exact ⟨rfl, ih2.trans (by omega)⟩
    · rw [List.countP_cons_of_neg hb] at h ⊢
      obtain ⟨ih1, ih2⟩ := ih (k := k) h
      rw [if_neg hb, if_neg hb, ih1]
      exact ⟨rfl, ih2⟩

theorem randomiseLabels?_eq {ls : List Bytes} {k : ℕ}
    (h : ∀ n, k ≤ n → n < k + lettersOf ls → bits n = some (bits' n)) :
    randomiseLabels? bits k ls = some (randomiseLabels bits' k ls) := by
  induction ls generalizing k with
  | nil => rfl
  | cons l ls ih =>
    have hsum : lettersOf (l :: ls) = l.countP isAsciiAlphabetic + lettersOf ls := rfl
    obtain ⟨h1, h2⟩ := randomiseLabel?_eq (k := k) (l := l) fun n hn hlt => h n hn (by omega)
    have h3 := ih (k := (randomiseLabel bits' k l).2) fun n hn hlt => h n (by omega) (by omega)
    simp only [randomiseLabels?, randomiseLabels, h1, Option.bind_eq_bind, Option.bind_some, h3]

end Bits

end Name

end Resolvd.Dns
