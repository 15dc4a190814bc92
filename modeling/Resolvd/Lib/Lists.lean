import Mathlib.Data.List.Forall2
import Mathlib.Data.List.Nodup
import Mathlib.Data.Nat.Notation
import Mathlib.Tactic.Common

/-!
# Lists

Two lists related item by item, lists of pairs as tables from a key to a value, and lists put one
behind the other.
-/

namespace Resolvd.Lib

open List

variable {α β : Type}

/-! ### Item by item -/

theorem forall₂_left {R : α → β → Prop} {as : List α} {bs : List β} (h : List.Forall₂ R as bs) :
    ∀ a ∈ as, ∃ b ∈ bs, R a b := by
  induction h with
  | nil => simp
  | @cons a b as bs hab _ ih =>
    rw [forall_mem_cons]
    refine ⟨⟨b, mem_cons_self, hab⟩, fun a' ha' => ?_⟩
    obtain ⟨b', hb', hr⟩ := ih a' ha'
    exact ⟨b', mem_cons_of_mem _ hb', hr⟩

theorem forall₂_right {R : α → β → Prop} {as : List α} {bs : List β} (h : List.Forall₂ R as bs) :
    ∀ b ∈ bs, ∃ a ∈ as, R a b := forall₂_left (R := flip R) h.flip

/-! ### Looking a key up -/

section Lookup

variable [DecidableEq α] {table : List (α × β)} {a : α} {b : β}

theorem mem_of_lookup (h : table.lookup a = some b) : (a, b) ∈ table := by
  induction table with
  | nil => simp at h
  | cons c table ih =>
    rw [lookup_cons] at h
    split at h
    · next hb =>
      obtain rfl : a = c.1 := by simpa using hb
      obtain rfl : c.2 = b := by simpa using h
      simp
    · exact mem_cons_of_mem _ (ih h)

theorem lookup_of_mem (hn : (table.map Prod.fst).Nodup) (he : (a, b) ∈ table) :
    table.lookup a = some b := by
  induction table with
  | nil => simp at he
  | cons c table ih =>
    rw [map_cons, nodup_cons] at hn
    rcases mem_cons.mp he with rfl | he
    · exact lookup_cons_self
    · have hne : a ≠ c.1 := by
        rintro rfl
        exact hn.1 (mem_map.mpr ⟨_, he, rfl⟩)
      rw [lookup_cons, beq_eq_false_iff_ne.mpr hne]
      exact ih hn.2 he

end Lookup

/-! ### One behind the other -/

/-- Code words of which the first can be told are told apart one behind the other. -/
theorem flatMap_injective {word : α → List β} (hne : ∀ a, word a ≠ [])
    (hfirst : ∀ a b r s, word a ++ r = word b ++ s → a = b) :
    Function.Injective fun as : List α => as.flatMap word := by
  intro as
  induction as with
  | nil =>
    intro bs h
    cases bs with
    | nil => rfl
    | cons b bs => exact absurd (append_eq_nil_iff.mp (h : [] = word b ++ _).symm).1 (hne b)
  | cons a as ih =>
    intro bs h
    cases bs with
    | nil => exact absurd (append_eq_nil_iff.mp (h : word a ++ _ = [])).1 (hne a)
    | cons b bs =>
      have h : word a ++ as.flatMap word = word b ++ bs.flatMap word := h
      obtain rfl := hfirst a b _ _ h
      rw [ih (append_cancel_left h)]

theorem length_le_flatten {ls : List (List α)} (h : ∀ l ∈ ls, 0 < l.length) :
    ls.length ≤ ls.flatten.length := by
  induction ls with
  | nil => simp
  | cons l ls ih =>
    rw [forall_mem_cons] at h
    have := ih h.2
    simp only [length_cons, flatten_cons, length_append]
    omega

end Resolvd.Lib
