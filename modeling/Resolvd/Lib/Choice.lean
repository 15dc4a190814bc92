import Mathlib.Data.List.MinMax
import Mathlib.Data.Nat.Notation
import Mathlib.Tactic.Common

/-!
# Choosing from a list

`First p key l i a`: the item `a` at the index `i` has the property `p`, no item with the property
has a lesser key, and those with the same key come later.  `List.argmin` over a filtered list
chooses this item (`argmin_filter_eq_some`).

`FirstOf rules r` is the result of the first rule that applies.
-/

namespace Resolvd.Lib

open List

variable {α β : Type} [LinearOrder β] {i : ℕ} {ρ : Type}

/-! ### The least, and of several the first -/

/-- The item at the index is the first of the least that have the property. -/
structure First (p : α → Prop) (key : α → β) (l : List α) (i : ℕ) (a : α) : Prop where
  at_index : l[i]? = some a
  holds : p a
  least : ∀ j b, l[j]? = some b → p b → key a < key b ∨ key a = key b ∧ i ≤ j

theorem First.unique {p : α → Prop} {key : α → β} {l : List α} {j : ℕ} {a b : α}
    (ha : First p key l i a) (hb : First p key l j b) : a = b := by
  have hij : i = j := by
    rcases ha.least j b hb.at_index hb.holds with hlt | ⟨heq, hle⟩
    · rcases hb.least i a ha.at_index ha.holds with hlt' | ⟨heq, -⟩
      · exact absurd hlt' (not_lt_of_gt hlt)
      · exact absurd hlt (heq ▸ lt_irrefl _)
    · rcases hb.least i a ha.at_index ha.holds with hlt' | ⟨-, hle'⟩
      · exact absurd hlt' (heq ▸ lt_irrefl _)
      · exact le_antisymm hle hle'
  subst hij
  exact Option.mem_unique ha.at_index hb.at_index

theorem first_congr {p q : α → Prop} {key : α → β} {l : List α} {a : α} (h : ∀ b ∈ l, p b ↔ q b) :
    First p key l i a ↔ First q key l i a := by
  have hmem : ∀ j b, l[j]? = some b → b ∈ l := fun j b hb => mem_of_getElem? hb
  exact ⟨fun hf => ⟨hf.at_index, (h a (hmem i a hf.at_index)).mp hf.holds,
      fun j b hb hq => hf.least j b hb ((h b (hmem j b hb)).mpr hq)⟩,
    fun hf => ⟨hf.at_index, (h a (hmem i a hf.at_index)).mpr hf.holds,
      fun j b hb hp => hf.least j b hb ((h b (hmem j b hb)).mp hp)⟩⟩

/-- One more item at the end is chosen only when it is less. -/
theorem First.concat {p : α → Prop} {key : α → β} {l : List α} {a : α} (h : First p key l i a)
    (b : α) : (p b → key a ≤ key b) → First p key (l ++ [b]) i a := by
  intro hle
  have hi : i < l.length := (List.getElem?_eq_some_iff.mp h.at_index).1
  refine ⟨by rw [List.getElem?_append_left hi, h.at_index], h.holds, fun j c hc hp => ?_⟩
  by_cases hj : j < l.length
  · rw [List.getElem?_append_left hj] at hc
    exact h.least j c hc hp
  · rw [List.getElem?_append_right (not_lt.mp hj)] at hc
    obtain rfl : c = b := by simpa using mem_of_getElem? hc
    rcases lt_or_eq_of_le (hle hp) with hlt | heq
    · exact .inl hlt
    · exact .inr ⟨heq, by omega⟩

theorem first_concat_last {p : α → Prop} {key : α → β} {l : List α} {b : α} (hb : p b)
    (hless : ∀ c ∈ l, p c → key b < key c) : First p key (l ++ [b]) l.length b := by
  refine ⟨by simp, hb, fun j c hc hp => ?_⟩
  by_cases hj : j < l.length
  · rw [List.getElem?_append_left hj] at hc
    exact .inl (hless c (mem_of_getElem? hc) hp)
  · rw [List.getElem?_append_right (not_lt.mp hj)] at hc
    obtain rfl : c = b := by simpa using mem_of_getElem? hc
    exact .inr ⟨rfl, not_lt.mp hj⟩

theorem First.le {p : α → Prop} {key : α → β} {l : List α} {a : α} (h : First p key l i a) {b : α}
    (hb : b ∈ l) (hp : p b) : key a ≤ key b := by
  obtain ⟨j, hj⟩ := mem_iff_getElem?.mp hb
  rcases h.least j b hj hp with hlt | ⟨heq, -⟩
  · exact hlt.le
  · exact heq.le

theorem first_of_argmin {p : α → Bool} {key : α → β} {l : List α} {a : α}
    (h : (l.filter p).argmin key = some a) : ∃ i, First (p · = true) key l i a := by
  induction l using List.reverseRecOn generalizing a with
  | nil => simp at h
  | append_singleton l b ih =>
    rw [filter_append, filter_singleton] at h
    cases hb : p b with
    | false =>
      rw [hb, cond_false, append_nil] at h
      obtain ⟨i, hi⟩ := ih h
      exact ⟨i, hi.concat b fun hc => absurd hc (by simp [hb])⟩
    | true =>
      rw [hb, cond_true, argmin_concat] at h
      cases hl : (l.filter p).argmin key with
      | none =>
        rw [hl] at h
        obtain rfl := Option.some.inj h
        refine ⟨l.length, first_concat_last hb fun c hc hp => ?_⟩
        have := argmin_eq_none.mp hl
        exact absurd (mem_filter.mpr ⟨hc, hp⟩) (by simp [this])
      | some c =>
        rw [hl] at h
        obtain ⟨i, hi⟩ := ih hl
        dsimp only at h
        split at h
        · next hlt =>
          obtain rfl := Option.some.inj h
          exact ⟨l.length, first_concat_last hb fun d hd hp => hlt.trans_le (hi.le hd hp)⟩
        · next hnot =>
          obtain rfl := Option.some.inj h
          exact ⟨i, hi.concat b fun _ => not_lt.mp hnot⟩

/-- **What `argmin` chooses.** -/
theorem argmin_filter_eq_some {p : α → Bool} {key : α → β} {l : List α} {a : α} :
    (l.filter p).argmin key = some a ↔ ∃ i, First (p · = true) key l i a := by
  refine ⟨first_of_argmin, ?_⟩
  rintro ⟨i, hi⟩
  cases h : (l.filter p).argmin key with
  | none =>
    have hmem := mem_filter.mpr ⟨mem_of_getElem? hi.at_index, hi.holds⟩
    rw [argmin_eq_none.mp h] at hmem
    simp at hmem
  | some b =>
    obtain ⟨j, hj⟩ := first_of_argmin h
    rw [hj.unique hi]

/-! ### The first rule that applies -/

/-- The result of the first of the rules that has one. -/
inductive FirstOf {ρ : Type} : List (ρ → Prop) → Option ρ → Prop where
  | none : FirstOf [] none
  | here {rule : ρ → Prop} {rules : List (ρ → Prop)} {r : ρ} (h : rule r) :
    FirstOf (rule :: rules) (some r)
  | next {rule : ρ → Prop} {rules : List (ρ → Prop)} {r : Option ρ} (hno : ∀ r, ¬ rule r)
    (h : FirstOf rules r) :
    FirstOf (rule :: rules) r

/-- Rules with one result each have one result together. -/
theorem FirstOf.unique {rules : List (ρ → Prop)} {r r' : Option ρ}
    (hrules : ∀ rule ∈ rules, ∀ a b, rule a → rule b → a = b) (h : FirstOf rules r)
    (h' : FirstOf rules r') : r = r' := by
  induction h with
  | none => cases h'; rfl
  | here ha =>
    cases h' with
    | here hb => rw [hrules _ mem_cons_self _ _ ha hb]
    | next hno _ => exact absurd ha (hno _)
  | next hno _ ih =>
    cases h' with
    | here hb => exact absurd hb (hno _)
    | next _ h' => exact ih (fun rule hr => hrules rule (mem_cons_of_mem _ hr)) h'

/-- Later rules do not matter where an earlier one applies. -/
theorem FirstOf.append {rules : List (ρ → Prop)} {a : ρ} (h : FirstOf rules (some a))
    (more : List (ρ → Prop)) : FirstOf (rules ++ more) (some a) := by
  generalize hr : some a = r at h
  induction h with
  | none => cases hr
  | here ha => exact .here ha
  | next hno _ ih => exact .next hno (ih hr)

theorem firstOf_cons {rule : ρ → Prop} {rules : List (ρ → Prop)} {x : Option ρ} {r : Option ρ}
    (hrule : ∀ a, rule a ↔ x = some a) (h : FirstOf rules r) :
    FirstOf (rule :: rules) (x.or r) := by
  cases x with
  | none => exact .next (fun a ha => by simpa using (hrule a).mp ha) h
  | some a => exact .here ((hrule a).mpr rfl)

end Resolvd.Lib
