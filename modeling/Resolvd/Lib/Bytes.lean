import Mathlib.Data.List.Induction
import Mathlib.Data.Nat.Notation
import Mathlib.Tactic.Common
import Mathlib.Tactic.Ring

/-!
# Byte strings

What a decoder of a wire format does to a byte string: checked slices (`slice?`), big-endian numbers
(`toBe`, `ofBe`), and what a reader needs to know of its input: which octets stand where (`At`), and
that what was read once is read again when octets are added at the end (`slice?_append`,
`getElem?_append_some`).
-/

namespace Resolvd.Lib

open List

variable {i j : ℕ}

/-- A string of octets. -/
abbrev Bytes := List UInt8

/-- A property of all octets is checked on the 256 of them. -/
theorem forall_byte {p : UInt8 → Prop} (h : ∀ n < 256, p (UInt8.ofNat n)) (b : UInt8) : p b := by
  have := h b.toNat b.toNat_lt
  simpa using this

/-! ### Slices -/

/-- The bytes from position `i` up to position `j`, when both lie inside the string. -/
def slice? (bs : Bytes) (i j : ℕ) : Option Bytes :=
  if i ≤ j ∧ j ≤ bs.length then some ((bs.drop i).take (j - i)) else none

variable {bs s : Bytes}

theorem slice?_eq_some :
    slice? bs i j = some s ↔ i ≤ j ∧ j ≤ bs.length ∧ (bs.drop i).take (j - i) = s := by
  unfold slice?
  split <;> simp_all

theorem length_of_slice? (h : slice? bs i j = some s) : s.length = j - i := by
  obtain ⟨h1, h2, rfl⟩ := slice?_eq_some.mp h
  simp only [length_take, length_drop]
  omega

theorem le_of_slice? (h : slice? bs i j = some s) : j ≤ bs.length :=
  (slice?_eq_some.mp h).2.1

theorem slice?_append (x : Bytes) (h : slice? bs i j = some s) : slice? (bs ++ x) i j = some s := by
  obtain ⟨h1, h2, rfl⟩ := slice?_eq_some.mp h
  rw [slice?_eq_some]
  refine ⟨h1, by simp only [length_append]; omega, ?_⟩
  rw [drop_append_of_le_length (by omega), take_append_of_le_length]
  simp only [length_drop]
  omega

theorem getElem?_append_some {b : UInt8} (x : Bytes) (h : bs[i]? = some b) :
    (bs ++ x)[i]? = some b := by
  obtain ⟨hi, -⟩ := List.getElem?_eq_some_iff.mp h
  rw [List.getElem?_append_left hi, h]

/-! ### What stands at a position -/

/-- The octets `bs` stand in `msg` from position `p` on. -/
def At (msg : Bytes) (p : ℕ) (bs : Bytes) : Prop :=
  ∃ pre suf, msg = pre ++ bs ++ suf ∧ pre.length = p

namespace At

variable {msg bs as : Bytes} {p : ℕ} {b : UInt8}

theorem intro (pre bs suf : Bytes) : At (pre ++ bs ++ suf) pre.length bs := ⟨pre, suf, rfl, rfl⟩

theorem left (h : At msg p (as ++ bs)) : At msg p as := by
  obtain ⟨pre, suf, rfl, rfl⟩ := h
  exact ⟨pre, bs ++ suf, by simp, rfl⟩

theorem right (h : At msg p (as ++ bs)) : At msg (p + as.length) bs := by
  obtain ⟨pre, suf, rfl, rfl⟩ := h
  exact ⟨pre ++ as, suf, by simp, by simp⟩

theorem tail (h : At msg p (b :: bs)) : At msg (p + 1) bs := by
  have h' : At msg p ([b] ++ bs) := h
  exact h'.right

theorem length_le (h : At msg p bs) : p + bs.length ≤ msg.length := by
  obtain ⟨pre, suf, rfl, rfl⟩ := h
  simp only [length_append]
  omega

theorem head (h : At msg p (b :: bs)) : msg[p]? = some b := by
  obtain ⟨pre, suf, rfl, rfl⟩ := h
  simp

theorem slice (h : At msg p bs) : slice? msg p (p + bs.length) = some bs := by
  obtain ⟨pre, suf, rfl, rfl⟩ := h
  rw [slice?_eq_some]
  refine ⟨by omega, by simp only [length_append]; omega, ?_⟩
  rw [append_assoc, drop_left, Nat.add_sub_cancel_left, take_left]

end At

/-! ### Big-endian numbers -/

/-- The `k` low octets of `n`, the highest first. -/
def toBe : ℕ → ℕ → Bytes
  | 0, _ => []
  | k + 1, n => toBe k (n / 256) ++ [UInt8.ofNat n]

/-- The number a string of octets denotes, the highest octet first. -/
def ofBe (bs : Bytes) : ℕ := bs.foldl (fun n b => n * 256 + b.toNat) 0

@[simp] theorem length_toBe (k n : ℕ) : (toBe k n).length = k := by
  induction k generalizing n with
  | zero => rfl
  | succ k ih => simp [toBe, ih]

theorem ofBe_snoc (bs : Bytes) (b : UInt8) : ofBe (bs ++ [b]) = ofBe bs * 256 + b.toNat := by
  simp [ofBe]

theorem ofBe_lt (bs : Bytes) : ofBe bs < 256 ^ bs.length := by
  induction bs using List.reverseRecOn with
  | nil => decide
  | append_singleton bs b ih =>
    have := b.toNat_lt
    rw [ofBe_snoc, length_append, length_singleton, Nat.pow_succ]
    omega

theorem ofBe_toBe (k n : ℕ) : ofBe (toBe k n) = n % 256 ^ k := by
  induction k generalizing n with
  | zero => simp [toBe, ofBe, Nat.mod_one]
  | succ k ih =>
    rw [toBe, ofBe_snoc, ih, pow_succ', Nat.mod_mul]
    have hb : (UInt8.ofNat n).toNat = n % 256 := by simp
    rw [hb]
    ring

theorem toBe_ofBe (bs : Bytes) : toBe bs.length (ofBe bs) = bs := by
  induction bs using List.reverseRecOn with
  | nil => rfl
  | append_singleton bs b ih =>
    have := b.toNat_lt
    have hdiv : (ofBe bs * 256 + b.toNat) / 256 = ofBe bs := by omega
    have hb : UInt8.ofNat (ofBe bs * 256 + b.toNat) = b := by
      apply UInt8.toNat_inj.mp
      simp only [UInt8.toNat_ofNat']
      omega
    rw [length_append, length_singleton, toBe, ofBe_snoc, hdiv, ih, hb]

/-- The bits of the number are those of its octets, the highest bit of the first octet first. -/
theorem testBit_ofBe (hi : i < 8 * bs.length) :
    (ofBe bs).testBit (8 * bs.length - 1 - i) = (bs.getD (i / 8) 0).toNat.testBit (7 - i % 8) := by
  induction bs using List.reverseRecOn with
  | nil => simp at hi
  | append_singleton bs b ih =>
    have hsplit : ofBe (bs ++ [b]) = 2 ^ 8 * ofBe bs + b.toNat := by
      rw [ofBe_snoc]
      omega
    rw [length_append, length_singleton] at hi ⊢
    rw [hsplit, Nat.testBit_two_pow_mul_add _ b.toNat_lt]
    by_cases hlast : 8 * bs.length ≤ i
    · have hget : (bs ++ [b]).getD (i / 8) 0 = b := by
        rw [show i / 8 = bs.length by omega]
        simp
      rw [if_pos (by omega), hget, show 8 * (bs.length + 1) - 1 - i = 7 - i % 8 by omega]
    · have hget : (bs ++ [b]).getD (i / 8) 0 = bs.getD (i / 8) 0 := by
        rw [getD_eq_getElem?_getD, getD_eq_getElem?_getD, List.getElem?_append_left (by omega)]
      have hpos : 8 * (bs.length + 1) - 1 - i - 8 = 8 * bs.length - 1 - i := by omega
      rw [if_neg (by omega), hget, hpos, ih (by omega)]

/-! ### Little-endian numbers -/

/-- The `k` low octets of `n`, the lowest first. -/
def toLe (k n : ℕ) : Bytes := (toBe k n).reverse

/-- The number a string of octets denotes, the lowest octet first. -/
def ofLe (bs : Bytes) : ℕ := ofBe bs.reverse

end Resolvd.Lib
