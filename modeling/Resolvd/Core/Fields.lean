import Resolvd.Core.Values

/-!
# Maps read field by field

`resolvd_core::for_each_field` walks the fields of a map and hands each key to a closure, which
reads the value and stores it, or skips it when it does not know the key.  All its callers are of
that form.  A `Schema` is such a closure: the keys it knows with the reader of each, and where a
value that was read is stored.

`forEachField_takes` and `forEachField_reads` say together what the walk does: the map is a list of
`Item`s with distinct keys, each of which was read or skipped by itself, and the result is that of
storing them one after the other.  Everything else about the decoders is a statement about lists of
items.
-/

namespace Resolvd.Core

open Lib Lib.Parser Msgpack List

/-- `WireError`, as far as decoding goes. -/
inductive WireError where
  | encoding (e : Error)
  | missing (field : String)
  | duplicate (key : String)
  | unknownQuery (query : String)
  deriving DecidableEq, Repr

/-- `impl Display for WireError`; `debug` is `Debug` of a string. -/
def WireError.display (debug : String → String) : WireError → String
  | .encoding e => "malformed message: " ++ e.display
  | .missing field => "missing or malformed field " ++ field
  | .duplicate key => "duplicate field " ++ key
  | .unknownQuery query => "unknown query " ++ debug query

/-- `?` on a method of the reader (`impl From<msgpack::Error> for WireError`). -/
abbrev wire {α : Type} (r : Reader α) : Parser WireError α := r.mapError .encoding

/-- A closure of `for_each_field` over the variables `σ`: the keys it has an arm for, what each arm
reads, and what it does with it. -/
structure Schema (σ φ : Type) where
  known : List (String × Parser WireError φ)
  tag : φ → String
  store : σ → φ → σ

namespace Schema

variable {σ φ : Type} (S : Schema σ φ)

/-- The closure: the arm of the key, or `_ => r.skip()?`. -/
def field (key : String) (s : σ) : Parser WireError σ :=
  match S.known.lookup key with
  | some p => S.store s <$> p
  | none => (fun _ => s) <$> wire skip

def fields : ℕ → List String → σ → Parser WireError σ
  | 0, _, s => pure s
  | n + 1, seen, s => do
    let key ← wire readStr
    if seen.contains key then
      throw (.duplicate key)
    else do
      let s ← S.field key s
      fields n (seen ++ [key]) s

/-- `for_each_field`.  Every caller passes an empty `seen`. -/
def forEachField (s : σ) : Parser WireError σ := do
  let n ← wire readMap
  S.fields n [] s

/-! ### Items -/

/-- One field of a map: its key, the octets of key and value, and what the arm of the key read, if
there is one. -/
structure Item (φ : Type) where
  key : String
  head : Bytes
  body : Bytes
  field : Option φ

/-- The octets of the field. -/
def Item.bytes (i : Item φ) : Bytes := i.head ++ i.body

/-- The octets of the key and of the value. -/
def Item.pair (i : Item φ) : Bytes × Bytes := (i.head, i.body)

/-- The value `v` of the field `key` is read, or skipped. -/
def Got (key : String) (v : Bytes) : Option φ → Prop
  | some a => ∃ p, S.known.lookup key = some p ∧ Reads p v a
  | none => S.known.lookup key = none ∧ Reads skip v ()

/-- The item is as the walk reads it. -/
structure Good (i : Item φ) : Prop where
  head : Str i.key i.head
  body : S.Got i.key i.body i.field

/-- The arm of a field stores what it read. -/
def keep (s : σ) (o : Option φ) : σ := o.elim s (S.store s)

/-- What was read is stored, in the order of the fields. -/
def gather (s : σ) (items : List (Item φ)) : σ := items.foldl (fun s i => S.keep s i.field) s

/-- Every arm reads one value, something with the property `Q` that it stores under its own key; and
what is stored under different keys is stored in different places. -/
structure Lawful (Q : φ → Prop) : Prop where
  known : ∀ e ∈ S.known, Reads1 e.2 (fun a => Q a ∧ S.tag a = e.1)
  comm : ∀ s a b, S.tag a ≠ S.tag b → S.store (S.store s a) b = S.store (S.store s b) a

section Walk

variable {S} {key : String} {v : Bytes} {o : Option φ} {s s' : σ} {seen : List String}
  {bs rest : Bytes}
  {items : List (Item φ)} {Q : φ → Prop}

theorem field_reads (h : S.Got key v o) (s : σ) : Reads (S.field key s) v (S.keep s o) := by
  unfold field
  cases o with
  | some a =>
    obtain ⟨p, hp, hr⟩ := h
    rw [hp]
    exact hr.map _
  | none =>
    obtain ⟨hp, hr⟩ := h
    rw [hp]
    exact (hr.mapError _).map _

theorem fields_reads (hgood : ∀ i ∈ items, S.Good i) (hnodup : (items.map Item.key).Nodup)
    (hseen : ∀ i ∈ items, i.key ∉ seen) (s : σ) :
    Reads (S.fields items.length seen s) (items.flatMap Item.bytes) (S.gather s items) := by
  induction items generalizing seen s with
  | nil => exact Reads.pure s
  | cons i items ih =>
    rw [forall_mem_cons] at hgood hseen
    rw [map_cons, nodup_cons] at hnodup
    rw [flatMap_cons, Item.bytes, append_assoc]
    refine (hgood.1.head.reads.mapError _).bind ?_
    rw [if_neg (by simpa using hseen.1)]
    refine (field_reads hgood.1.body s).bind (ih hgood.2 hnodup.2 (fun j hj => ?_) _)
    rw [mem_append, mem_singleton]
    rintro (h | h)
    · exact hseen.2 j hj h
    · exact hnodup.1 (h ▸ mem_map_of_mem hj)

theorem Lawful.got (hl : S.Lawful Q) (h : S.Got key v o) :
    Value v ∧ ∀ a ∈ o, Q a ∧ S.tag a = key := by
  cases o with
  | some a =>
    obtain ⟨p, hp, hr⟩ := h
    obtain ⟨hQ, hv⟩ := (hl.known _ (mem_of_lookup hp)).of_reads hr
    refine ⟨hv, fun b hb => ?_⟩
    obtain rfl := Option.some.inj hb
    exact hQ
  | none => exact ⟨⟨_, skip_takes.of_reads h.2⟩, by simp⟩

theorem Lawful.field_takes (hl : S.Lawful Q) (h : S.field key s bs = .ok (s', rest)) :
    ∃ v o, bs = v ++ rest ∧ S.Got key v o ∧ s' = S.keep s o := by
  unfold field at h
  cases hp : S.known.lookup key with
  | some p =>
    rw [hp] at h
    obtain ⟨a, ha, rfl⟩ := map_eq_ok.mp h
    obtain ⟨v, rfl, hr, -⟩ := (hl.known _ (mem_of_lookup hp)) ha
    exact ⟨v, some a, rfl, ⟨p, hp, hr⟩, rfl⟩
  | none =>
    rw [hp] at h
    obtain ⟨_, hb, rfl⟩ := map_eq_ok.mp h
    obtain ⟨v, rfl, hr, -⟩ := skip_takes (mapError_eq_ok.mp hb)
    exact ⟨v, none, rfl, ⟨hp, hr⟩, rfl⟩

theorem Lawful.fields_takes (hl : S.Lawful Q) {n : ℕ} (h : S.fields n seen s bs = .ok (s', rest)) :
    ∃ items : List (Item φ), items.length = n ∧ bs = items.flatMap Item.bytes ++ rest ∧
      (∀ i ∈ items, S.Good i) ∧
      (items.map Item.key).Nodup ∧ (∀ i ∈ items, i.key ∉ seen) ∧ s' = S.gather s items := by
  induction n generalizing seen s bs with
  | zero =>
    obtain ⟨rfl, rfl⟩ : s = s' ∧ bs = rest := by simpa [fields, pure_apply] using h
    exact ⟨[], rfl, rfl, by simp, by simp, by simp, rfl⟩
  | succ n ih =>
    obtain ⟨key, mid, h1, h2⟩ := bind_eq_ok.mp h
    obtain ⟨head, rfl, -, hhead⟩ := readStr_takes (mapError_eq_ok.mp h1)
    split at h2
    · simp [throw_apply] at h2
    next hkey =>
      obtain ⟨s₁, mid₁, h3, h4⟩ := bind_eq_ok.mp h2
      obtain ⟨v, o, rfl, hgot, rfl⟩ := hl.field_takes h3
      obtain ⟨items, rfl, rfl, hgood, hnodup, hseen, rfl⟩ := ih h4
      refine ⟨⟨key, head, v, o⟩ :: items, rfl, by simp [Item.bytes], ?_, ?_, ?_, rfl⟩
      · exact forall_mem_cons.mpr ⟨⟨hhead, hgot⟩, hgood⟩
      · rw [map_cons, nodup_cons, mem_map]
        refine ⟨?_, hnodup⟩
        rintro ⟨i, hi, rfl⟩
        exact hseen i hi (by simp)
      · refine forall_mem_cons.mpr ⟨by simpa using hkey, fun i hi hmem => hseen i hi ?_⟩
        exact mem_append_left _ hmem

theorem Lawful.two_mul_le (hl : S.Lawful Q) (hgood : ∀ i ∈ items, S.Good i) :
    items.length * 2 ≤ (items.flatMap Item.bytes).length := by
  induction items with
  | nil => simp
  | cons i items ih =>
    rw [forall_mem_cons] at hgood
    have h1 := hgood.1.head.value.length_pos
    have h2 := (hl.got hgood.1.body).1.length_pos
    have h3 := ih hgood.2
    simp only [length_cons, flatMap_cons, length_append, Item.bytes]
    omega

theorem flatMap_pair (items : List (Item φ)) :
    (items.map Item.pair).flatMap (fun e => e.1 ++ e.2) = items.flatMap Item.bytes := by
  rw [flatMap_map]
  rfl

/-- **A map of good items with distinct keys is read**, and what they hold is stored in their order.
-/
theorem Lawful.forEachField_reads (hl : S.Lawful Q) (hmap : MapOf (items.map Item.pair) v)
    (hgood : ∀ i ∈ items, S.Good i) (hnodup : (items.map Item.key).Nodup) (s : σ) :
    Reads (S.forEachField s) v (S.gather s items) := by
  obtain ⟨head, hh, rfl⟩ := hmap
  rw [length_map] at hh
  rw [flatMap_pair]
  exact ((counts_readCount _ 2).mapError _).bind_reads hh (fields_reads hgood hnodup (by simp) s)
    (hl.two_mul_le hgood)

/-- **What is read is such a map.** -/
theorem Lawful.forEachField_takes (hl : S.Lawful Q) (s : σ) :
    Takes (S.forEachField s) (fun v s' => ∃ items : List (Item φ), MapOf (items.map Item.pair) v ∧
      (∀ i ∈ items, S.Good i) ∧ (items.map Item.key).Nodup ∧ s' = S.gather s items) := by
  intro bs s' rest h
  obtain ⟨n, mid, h1, h2⟩ := bind_eq_ok.mp h
  obtain ⟨head, rfl, hh⟩ := ((counts_readCount _ 2).mapError _).takes h1
  obtain ⟨items, rfl, rfl, hgood, hnodup, -, rfl⟩ := hl.fields_takes h2
  have hmap : MapOf (items.map Item.pair) (head ++ items.flatMap Item.bytes) :=
    ⟨head, by rwa [length_map], by rw [flatMap_pair]⟩
  exact ⟨_, by simp, hl.forEachField_reads hmap hgood hnodup s, items, hmap, hgood, hnodup, rfl⟩

/-! ### What holds of the result -/

/-- What holds at first and is kept by every field, the first time its key comes up, holds in the
end. -/
theorem Lawful.gather_induction (hl : S.Lawful Q) {P : List String → σ → Prop}
    (hgood : ∀ i ∈ items, S.Good i) (hnodup : (items.map Item.key).Nodup)
    (hseen : ∀ i ∈ items, i.key ∉ seen) (h0 : P seen s)
    (hstore : ∀ seen s a, P seen s → Q a → S.tag a ∉ seen → P (S.tag a :: seen) (S.store s a))
    (hskip : ∀ seen s key, P seen s → P (key :: seen) s) : ∃ seen, P seen (S.gather s items) := by
  induction items generalizing seen s with
  | nil => exact ⟨seen, h0⟩
  | cons i items ih =>
    rw [forall_mem_cons] at hgood hseen
    rw [map_cons, nodup_cons] at hnodup
    have hnext : ∀ j ∈ items, j.key ∉ i.key :: seen := by
      intro j hj hmem
      rcases mem_cons.mp hmem with h | h
      · exact hnodup.1 (h ▸ mem_map_of_mem hj)
      · exact hseen.2 j hj h
    refine ih hgood.2 hnodup.2 hnext (s := S.keep s i.field) ?_
    obtain ⟨-, hfield⟩ := hl.got hgood.1.body
    cases hf : i.field with
    | none => exact hskip _ _ _ h0
    | some a =>
      obtain ⟨hQ, htag⟩ := hfield a hf
      have := hstore seen s a h0 hQ (by rw [htag]; exact hseen.1)
      rwa [htag] at this

theorem Lawful.forEachField_one (hl : S.Lawful Q) {P : List String → σ → Prop} {R : σ → Prop}
    (h0 : P [] s)
    (hstore : ∀ seen s a, P seen s → Q a → S.tag a ∉ seen → P (S.tag a :: seen) (S.store s a))
    (hskip : ∀ seen s key, P seen s → P (key :: seen) s) (hend : ∀ seen s, P seen s → R s) :
    Reads1 (S.forEachField s) R := by
  refine (hl.forEachField_takes s).mono ?_
  rintro v _ ⟨items, hmap, hgood, hnodup, rfl⟩
  obtain ⟨seen, hP⟩ := hl.gather_induction hgood hnodup (by simp) h0 hstore hskip
  refine ⟨hend _ _ hP, hmap.value fun e he => ?_⟩
  obtain ⟨i, hi, rfl⟩ := mem_map.mp he
  exact ⟨(hgood i hi).head.value, (hl.got (hgood i hi).body).1⟩

end Walk

end Schema

end Resolvd.Core
