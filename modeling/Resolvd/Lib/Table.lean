import Mathlib.Data.List.AList
import Mathlib.Data.List.MinMax
import Mathlib.Data.List.Perm.Subperm
import Mathlib.Data.Nat.Notation
import Mathlib.Tactic.Common

/-!
# Hash tables

`std::collections::HashMap`: a table holds at most one value for a key, and its entries are visited
in an order that is nobody's business.  A `Table` is an association list whose order is the one in
which it would be visited; `Table.Same` says that two tables differ in that order only.

What an operation does is said by what `get` finds afterwards (`get_insert`, `get_remove`,
`get_retain`, `get_map`, `get_modify`), and what a visit sees by `mem_select`.
-/

namespace Resolvd.Lib

open List

/-- A hash table, with its entries in the order of a visit. -/
def Table (K V : Type) := AList fun _ : K => V

namespace Table

variable {K V : Type}

def empty : Table K V := (∅ : AList fun _ : K => V)

instance : Inhabited (Table K V) := ⟨empty⟩

/-- `HashMap::len`. -/
def len (t : Table K V) : ℕ := (AList.entries t).length

/-- The tables differ in the order of their entries only. -/
def Same (t t' : Table K V) : Prop := (AList.entries t).Perm (AList.entries t')

/-- `HashMap::retain`. -/
def retain (p : K → V → Bool) (t : Table K V) : Table K V :=
  ⟨(AList.entries t).filter fun e => p e.1 e.2,
    List.Nodup.sublist (filter_sublist.map Sigma.fst) (AList.keys_nodup t)⟩

/-- A loop over `HashMap::values_mut`. -/
def map (f : V → V) (t : Table K V) : Table K V :=
  ⟨(AList.entries t).map fun e => ⟨e.1, f e.2⟩, by
    have h : ((AList.entries t).map fun e => (⟨e.1, f e.2⟩ : Sigma fun _ : K => V)).keys =
        AList.keys t := by
      simp [List.keys, AList.keys, Function.comp_def]
    show List.Nodup (List.keys _)
    rw [h]
    exact AList.keys_nodup t⟩

/-- The keys of the entries that pass a test, in the order of a visit. -/
def select (p : K → V → Bool) (t : Table K V) : List K :=
  ((AList.entries t).filter fun e => p e.1 e.2).map Sigma.fst

/-- `HashMap::values`, in the order of a visit. -/
def values (t : Table K V) : List V := (AList.entries t).map Sigma.snd

/-- The key of the entry with the least `f` (`iter().min_by_key(..)`), the first of several. -/
def minByKey (f : V → ℕ) (t : Table K V) : Option K :=
  ((AList.entries t).argmin fun e => f e.2).map Sigma.fst

theorem nodup_select (t : Table K V) (p : K → V → Bool) : (t.select p).Nodup :=
  List.Nodup.sublist (filter_sublist.map Sigma.fst) (AList.keys_nodup t)

variable [DecidableEq K]

/-- `HashMap::get`. -/
def get (t : Table K V) (k : K) : Option V := AList.lookup k t

/-- `HashMap::insert`. -/
def insert (t : Table K V) (k : K) (v : V) : Table K V := AList.insert k v t

/-- `HashMap::remove`. -/
def remove (t : Table K V) (k : K) : Table K V := AList.erase k t

/-- A change through `HashMap::get_mut`; nothing happens when there is no such entry. -/
def modify (t : Table K V) (k : K) (f : V → V) : Table K V :=
  match t.get k with
  | some v => t.insert k (f v)
  | none => t

/-! ### What is found afterwards -/

theorem get_eq_some {t : Table K V} {k : K} {v : V} : t.get k = some v ↔ ⟨k, v⟩ ∈ AList.entries t :=
  AList.mem_lookup_iff

@[simp] theorem get_empty (k : K) : (empty : Table K V).get k = none := rfl

/-- A key that is there is another than one that is not. -/
theorem ne_of_get {t : Table K V} {k k' : K} {v : V} (h : t.get k = some v) (h' : t.get k' = none) :
    k ≠ k' := by
  rintro rfl
  rw [h'] at h
  cases h

@[grind =] theorem get_insert (t : Table K V) (k : K) (v : V) (k' : K) :
    (t.insert k v).get k' = if k' = k then some v else t.get k' := by
  unfold get insert
  split
  · next h => subst h; exact AList.lookup_insert t
  · next h => exact AList.lookup_insert_ne h

@[grind =] theorem get_remove (t : Table K V) (k k' : K) :
    (t.remove k).get k' = if k' = k then none else t.get k' := by
  unfold get remove
  split
  · next h => subst h; exact AList.lookup_erase _ t
  · next h => exact AList.lookup_erase_ne h

@[grind =] theorem get_modify (t : Table K V) (k : K) (f : V → V) (k' : K) :
    (t.modify k f).get k' = if k' = k then (t.get k).map f else t.get k' := by
  unfold modify
  cases h : t.get k with
  | none =>
    simp only [Option.map_none]
    split
    · next hk => rw [hk, h]
    · rfl
  | some v => simp only [get_insert, Option.map_some]

@[grind =] theorem get_retain (t : Table K V) (p : K → V → Bool) (k : K) :
    (t.retain p).get k = (t.get k).filter (p k) := by
  ext v
  rw [Option.filter_eq_some_iff, get_eq_some, get_eq_some]
  simp [retain]

@[grind =] theorem get_map (t : Table K V) (f : V → V) (k : K) :
    (t.map f).get k = (t.get k).map f := by
  ext v
  rw [Option.map_eq_some_iff, get_eq_some]
  simp only [map, mem_map, get_eq_some]
  constructor
  · rintro ⟨⟨k', w⟩, hw, he⟩
    simp only [Sigma.mk.injEq] at he
    obtain ⟨rfl, hv⟩ := he
    exact ⟨w, hw, eq_of_heq hv⟩
  · rintro ⟨w, hw, rfl⟩
    exact ⟨⟨k, w⟩, hw, rfl⟩

/-! ### Two operations on one key -/

theorem insert_insert (t : Table K V) (k : K) (v w : V) :
    (t.insert k v).insert k w = t.insert k w := by
  exact AList.insert_insert t

theorem remove_insert (t : Table K V) (k : K) (v : V) : (t.insert k v).remove k = t.remove k := by
  apply AList.ext
  exact kerase_cons_eq (β := fun _ : K => V) (s := ⟨k, v⟩) rfl

theorem modify_of_none {t : Table K V} {k : K} (h : t.get k = none) (f : V → V) :
    t.modify k f = t := by
  rw [modify, h]

theorem modify_of_some {t : Table K V} {k : K} {v : V} (h : t.get k = some v) (f : V → V) :
    t.modify k f = t.insert k (f v) := by
  rw [modify, h]

theorem modify_modify (t : Table K V) (k : K) (f g : V → V) :
    (t.modify k f).modify k g = t.modify k fun v => g (f v) := by
  cases h : t.get k with
  | none => simp only [modify_of_none h]
  | some v =>
    have hv : (t.insert k (f v)).get k = some (f v) := by rw [get_insert, if_pos rfl]
    rw [modify_of_some h, modify_of_some hv, modify_of_some h, insert_insert]

theorem remove_modify (t : Table K V) (k : K) (f : V → V) :
    (t.modify k f).remove k = t.remove k := by
  cases h : t.get k with
  | none => rw [modify_of_none h]
  | some v => rw [modify_of_some h, remove_insert]

/-! ### Visits -/

theorem mem_select {t : Table K V} {p : K → V → Bool} {k : K} :
    k ∈ t.select p ↔ ∃ v, t.get k = some v ∧ p k v = true := by
  simp only [select, mem_map, mem_filter, get_eq_some]
  constructor
  · rintro ⟨⟨k', v⟩, ⟨hmem, hp⟩, rfl⟩
    exact ⟨v, hmem, hp⟩
  · rintro ⟨v, hmem, hp⟩
    exact ⟨⟨k, v⟩, ⟨hmem, hp⟩, rfl⟩

/-- When no other entry passes the test, at most one is selected. -/
theorem length_select {t : Table K V} {p : K → V → Bool} {k : K} {v : V} (hk : t.get k = some v)
    (honly : ∀ k' v', t.get k' = some v' → p k' v' = true → k' = k) :
    (t.select p).length = (p k v).toNat := by
  cases hp : p k v with
  | true =>
    have hmem : ∀ k', k' ∈ t.select p ↔ k' ∈ [k] := by
      intro k'
      rw [mem_select, mem_singleton]
      constructor
      · rintro ⟨v', hk', hp'⟩
        exact honly k' v' hk' hp'
      · rintro rfl
        exact ⟨v, hk, hp⟩
    exact ((perm_ext_iff_of_nodup (nodup_select t p) (nodup_singleton k)).mpr hmem).length_eq
  | false =>
    refine length_eq_zero_iff.mpr (eq_nil_iff_forall_not_mem.mpr fun k' hk' => ?_)
    obtain ⟨v', hv', hp'⟩ := mem_select.mp hk'
    obtain rfl := honly k' v' hv' hp'
    obtain rfl := Option.mem_unique hk hv'
    rw [hp] at hp'
    cases hp'

theorem Same.get_eq {t t' : Table K V} (h : t.Same t') (k : K) : t'.get k = t.get k :=
  (AList.perm_lookup h).symm

/-! ### Sizes -/

omit [DecidableEq K] in
theorem Same.len_eq {t t' : Table K V} (h : t.Same t') : t'.len = t.len :=
  (List.Perm.length_eq h).symm

theorem len_insert {t : Table K V} {k : K} (h : t.get k = none) (v : V) :
    (t.insert k v).len = t.len + 1 := by
  have hentries := AList.entries_insert_of_notMem (b := v) (AList.lookup_eq_none.mp h)
  exact (congrArg List.length hentries).trans length_cons

theorem len_remove {t : Table K V} {k : K} {v : V} (h : t.get k = some v) :
    (t.remove k).len + 1 = t.len := by
  have hmem := get_eq_some.mp h
  have hlen : (t.remove k).len = (AList.entries t).length - 1 :=
    length_eraseP_of_mem (a := ⟨k, v⟩) hmem (by simp)
  rw [hlen]
  exact Nat.sub_add_cancel (length_pos_of_mem hmem)

theorem len_insert_of_some {t : Table K V} {k : K} {v : V} (h : t.get k = some v) (v' : V) :
    (t.insert k v').len = t.len := by
  have hself : (t.insert k v').get k = some v' := by rw [get_insert, if_pos rfl]
  have hlen := len_remove hself
  rw [remove_insert] at hlen
  rw [← hlen, len_remove h]

/-- All entries of the one table are in the other. -/
def Within (t t' : Table K V) : Prop := ∀ k v, t.get k = some v → t'.get k = some v

theorem Within.refl (t : Table K V) : t.Within t := fun _ _ h => h

theorem Within.trans {t t' t'' : Table K V} (h : t.Within t') (h' : t'.Within t'') : t.Within t'' :=
  fun k v hk => h' k v (h k v hk)

theorem within_remove (t : Table K V) (k : K) : (t.remove k).Within t := by
  intro k' v h
  rw [get_remove] at h
  split at h
  · cases h
  · exact h

theorem within_retain (t : Table K V) (p : K → V → Bool) : (t.retain p).Within t := by
  intro k v h
  rw [get_retain] at h
  exact (Option.filter_eq_some_iff.mp h).1

/-- A table within another one has fewer entries that pass a test. -/
theorem Within.length_select_le {t t' : Table K V} (h : t.Within t') (p : K → V → Bool) :
    (t.select p).length ≤ (t'.select p).length := by
  refine (subperm_of_subset (nodup_select t p) fun k hk => ?_).length_le
  obtain ⟨v, hv, hp⟩ := mem_select.mp hk
  exact mem_select.mpr ⟨v, h k v hv, hp⟩

/-- One more entry passes a test at most when it does. -/
theorem length_select_insert_le (t : Table K V) (k : K) (v : V) (p : K → V → Bool) :
    ((t.insert k v).select p).length ≤ (t.select p).length + (p k v).toNat := by
  have hsub : (t.insert k v).select p ⊆ t.select p ++ if p k v then [k] else [] := by
    intro k' hk'
    obtain ⟨v', hv', hp⟩ := mem_select.mp hk'
    rw [get_insert] at hv'
    split at hv'
    · next heq =>
      cases hv'
      subst heq
      rw [if_pos hp]
      exact mem_append_right _ (mem_singleton_self _)
    · exact mem_append_left _ (mem_select.mpr ⟨v', hv', hp⟩)
  have hle := (subperm_of_subset (nodup_select _ p) hsub).length_le
  rw [length_append] at hle
  cases hp : p k v <;> simpa [hp] using hle

omit [DecidableEq K] in
theorem Same.length_select_eq {t t' : Table K V} (h : t.Same t') (p : K → V → Bool) :
    (t'.select p).length = (t.select p).length :=
  (((h.filter _).map _).length_eq).symm

omit [DecidableEq K] in
theorem len_eq_length_select (t : Table K V) : t.len = (t.select fun _ _ => true).length := by
  simp [len, select]

theorem Within.len_le {t t' : Table K V} (h : t.Within t') : t.len ≤ t'.len := by
  rw [len_eq_length_select, len_eq_length_select]
  exact h.length_select_le _

/-- A retention that drops an entry makes the table smaller. -/
theorem len_retain_lt {t : Table K V} {p : K → V → Bool} {k : K} {v : V} (h : t.get k = some v)
    (hp : p k v = false) : (t.retain p).len < t.len := by
  have hlt : ((AList.entries t).filter fun e => p e.1 e.2).length < (AList.entries t).length :=
    length_filter_lt_length_iff_exists.mpr ⟨⟨k, v⟩, get_eq_some.mp h, by simp [hp]⟩
  exact hlt

theorem retain_eq_self {t : Table K V} {p : K → V → Bool}
    (h : ∀ k v, t.get k = some v → p k v = true) : t.retain p = t := by
  refine AList.ext (filter_eq_self.mpr ?_)
  rintro ⟨k, v⟩ hmem
  exact h k v (get_eq_some.mpr hmem)

/-- What `min_by_key` finds. -/
theorem minByKey_eq_some {t : Table K V} {f : V → ℕ} {k : K} (h : t.minByKey f = some k) :
    ∃ v, t.get k = some v ∧ ∀ k' v', t.get k' = some v' → f v ≤ f v' := by
  obtain ⟨⟨k', v⟩, hmin, rfl⟩ := Option.map_eq_some_iff.mp h
  refine ⟨v, get_eq_some.mpr (argmin_mem hmin), fun k'' v' hv' => ?_⟩
  exact le_of_mem_argmin (f := fun e : Sigma fun _ : K => V => f e.2) (get_eq_some.mp hv') hmin

omit [DecidableEq K] in
theorem minByKey_eq_none {t : Table K V} {f : V → ℕ} (h : t.minByKey f = none) : t.len = 0 := by
  rw [minByKey, Option.map_eq_none_iff, argmin_eq_none] at h
  rw [len, h]
  rfl

/-! ### Values -/

omit [DecidableEq K] in
@[simp] theorem values_empty : (empty : Table K V).values = [] := rfl

omit [DecidableEq K] in
theorem Same.values_perm {t t' : Table K V} (h : t.Same t') : t'.values.Perm t.values :=
  (List.Perm.map _ h).symm

theorem mem_values {t : Table K V} {v : V} : v ∈ t.values ↔ ∃ k, t.get k = some v := by
  simp only [values, mem_map, get_eq_some]
  constructor
  · rintro ⟨⟨k, v'⟩, hmem, rfl⟩
    exact ⟨k, hmem⟩
  · rintro ⟨k, hmem⟩
    exact ⟨⟨k, v⟩, hmem, rfl⟩

theorem values_insert {t : Table K V} {k : K} (h : t.get k = none) (v : V) :
    (t.insert k v).values = v :: t.values := by
  have hentries := AList.entries_insert_of_notMem (b := v) (AList.lookup_eq_none.mp h)
  exact (congrArg (List.map Sigma.snd) hentries).trans map_cons

theorem values_remove {t : Table K V} {k : K} {v : V} (h : t.get k = some v) :
    t.values.Perm (v :: (t.remove k).values) := by
  have hmem := get_eq_some.mp h
  obtain ⟨w, l₁, l₂, hl₁, hentries, hrest⟩ := exists_of_kerase (mem_keys_of_mem hmem)
  -- the entry of the key is the one with the value
  obtain rfl : w = v := by
    have hw : t.get k = some w := get_eq_some.mpr (by rw [hentries]; simp)
    exact Option.mem_unique hw h
  have hafter : (t.remove k).values = l₁.map Sigma.snd ++ l₂.map Sigma.snd := by
    rw [← map_append, ← hrest]
    rfl
  rw [hafter, values, hentries, map_append, map_cons]
  exact perm_middle

omit [DecidableEq K] in
theorem values_retain (t : Table K V) (p : V → Bool) :
    (t.retain fun _ v => p v).values = t.values.filter p := by
  rw [values, values, filter_map]
  rfl

theorem filterMap_select (t : Table K V) (p : V → Bool) :
    (t.select fun _ v => p v).filterMap t.get = t.values.filter p := by
  have hget : ∀ e ∈ (AList.entries t).filter (fun e => p e.2), t.get e.1 = some e.2 :=
    fun e he => get_eq_some.mpr (mem_of_mem_filter he)
  rw [select, values, filterMap_map, filter_map]
  exact (filterMap_congr hget).trans (congrFun filterMap_eq_map' _)

theorem len_insert_le (t : Table K V) (k : K) (v : V) : (t.insert k v).len ≤ t.len + 1 := by
  rw [len_eq_length_select, len_eq_length_select]
  exact t.length_select_insert_le k v _

end Table

end Resolvd.Lib
