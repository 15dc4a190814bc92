import Resolvd.Lib.Bytes
import Mathlib.Data.Set.Lattice
import Mathlib.Order.CompletePartialOrder
import Mathlib.Order.Interval.Set.Basic

/-!
# Octets at addresses

A memory has an octet at every address.  `load` and `store` read and write a run of them; a store is
read back (`load_store`), changes nothing outside its addresses (`keeps_store`), and what lies
outside is read as before (`Keeps.load`).

`roundUp a n` is the first multiple of `a` that is not below `n`: where an allocator that fills a
buffer from its start puts something that has to be aligned.
-/

namespace Resolvd.Lib

/-! ### Rounding up -/

/-- `n.div_ceil(a) * a`. -/
def roundUp (a n : ℕ) : ℕ := (n / a + if n % a = 0 then 0 else 1) * a

section RoundUp

variable {a n : ℕ}

theorem roundUp_eq (a n : ℕ) : roundUp a n = n - n % a + if n % a = 0 then 0 else a := by
  have h := Nat.div_add_mod n a
  rw [roundUp, Nat.add_mul, Nat.mul_comm (n / a) a]
  split <;> omega

theorem le_roundUp (ha : 0 < a) : n ≤ roundUp a n := by
  have := Nat.mod_lt n ha
  have := Nat.mod_le n a
  rw [roundUp_eq]
  split <;> omega

theorem roundUp_lt (ha : 0 < a) : roundUp a n < n + a := by
  have := Nat.mod_le n a
  rw [roundUp_eq]
  split <;> omega

theorem dvd_roundUp (a n : ℕ) : a ∣ roundUp a n := Nat.dvd_mul_left a _

end RoundUp

/-! ### Loads and stores -/

/-- The octet at each address. -/
def Memory := ℕ → UInt8

namespace Memory

/-- The `n` octets from `a` on. -/
def load (m : Memory) (a n : ℕ) : Bytes := (List.range n).map fun i => m (a + i)

/-- The octets `bs` written from `a` on. -/
def store (m : Memory) (a : ℕ) (bs : Bytes) : Memory := fun x =>
  if a ≤ x then (bs[x - a]?).getD (m x) else m x

/-- Only the octets at the addresses `S` may differ. -/
def Keeps (S : Set ℕ) (m m' : Memory) : Prop := ∀ x ∉ S, m' x = m x

variable {m m' m'' : Memory} {S T : Set ℕ} {a b n k : ℕ} {bs cs : Bytes}

@[simp] theorem length_load : (m.load a n).length = n := by simp [load]

theorem load_congr (h : ∀ x, a ≤ x → x < a + n → m x = m' x) : m.load a n = m'.load a n := by
  refine List.map_congr_left fun i hi => h (a + i) (by omega) ?_
  have := List.mem_range.mp hi
  omega

theorem load_add : m.load a (n + k) = m.load a n ++ m.load (a + n) k := by
  simp [load, List.range_add, Nat.add_assoc]

theorem load_store : (m.store a bs).load a bs.length = bs := by
  refine List.ext_getElem (by simp) fun i h _ => ?_
  have hi : i < bs.length := by simpa using h
  simp [load, store, hi]

theorem load_store_eq (h : bs.length = n) : (m.store a bs).load a n = bs := by
  rw [← h, load_store]

theorem load_store_part (h : k + n ≤ bs.length) :
    (m.store a bs).load (a + k) n = (bs.drop k).take n := by
  refine List.ext_getElem (by simp; omega) fun i hi _ => ?_
  have hi' : i < n := by simpa using hi
  have hle : a ≤ a + k + i := by omega
  have hsub : a + k + i - a = k + i := by omega
  have hlt : k + i < bs.length := by omega
  simp [load, store, hle, hsub, hlt]

theorem Keeps.refl (S : Set ℕ) (m : Memory) : Keeps S m m := fun _ _ => rfl

theorem Keeps.trans (h : Keeps S m m') (h' : Keeps T m' m'') : Keeps (S ∪ T) m m'' := by
  intro x hx
  rw [h' x fun hT => hx (.inr hT), h x fun hS => hx (.inl hS)]

theorem Keeps.mono (h : Keeps S m m') (hST : S ⊆ T) : Keeps T m m' :=
  fun x hx => h x fun hS => hx (hST hS)

theorem keeps_store (m : Memory) (a : ℕ) (bs : Bytes) :
    Keeps (Set.Ico a (a + bs.length)) m (m.store a bs) := by
  intro x hx
  unfold store
  split
  · next ha =>
    have : bs.length ≤ x - a := by
      by_contra hlt
      exact hx ⟨ha, by omega⟩
    rw [List.getElem?_eq_none this, Option.getD_none]
  · rfl

theorem Keeps.load (h : Keeps S m m') (hS : Disjoint (Set.Ico a (a + n)) S) :
    m'.load a n = m.load a n :=
  load_congr fun x hle hlt => h x fun hx => Set.disjoint_left.mp hS ⟨hle, hlt⟩ hx

theorem disjoint_Ico (h : a + n ≤ b ∨ k ≤ a) : Disjoint (Set.Ico a (a + n)) (Set.Ico b k) := by
  refine Set.disjoint_left.mpr fun x hx hx' => ?_
  have := hx.1
  have := hx.2
  have := hx'.1
  have := hx'.2
  omega

theorem load_store_of_disjoint (h : a + n ≤ b ∨ b + bs.length ≤ a) :
    (m.store b bs).load a n = m.load a n :=
  (keeps_store m b bs).load (disjoint_Ico h)

theorem store_store (m : Memory) (a : ℕ) (bs cs : Bytes) :
    (m.store a bs).store (a + bs.length) cs = m.store a (bs ++ cs) := by
  funext x
  unfold store
  by_cases ha : a ≤ x
  · by_cases hb : a + bs.length ≤ x
    · have h1 : bs.length ≤ x - a := by omega
      have h2 : x - (a + bs.length) = x - a - bs.length := by omega
      rw [if_pos hb, if_pos ha, if_pos ha, List.getElem?_append_right h1,
        List.getElem?_eq_none h1, h2, Option.getD_none]
    · rw [if_neg hb, if_pos ha, if_pos ha, List.getElem?_append_left (by omega)]
  · rw [if_neg (by omega), if_neg ha, if_neg ha]

@[simp] theorem store_nil : m.store a [] = m := by
  funext x
  simp [store]

end Memory

end Resolvd.Lib
