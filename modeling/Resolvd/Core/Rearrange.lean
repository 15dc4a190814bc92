import Resolvd.Core.RoundTrip
import Mathlib.Data.List.Perm.Basic

/-!
# The order of fields, and fields nobody knows

A decoder of the native protocol reads a map by its keys.  So the fields may stand in any order, and
there may be others: a map that was rearranged (`Rearranged`) is read as the map it was made from,
and the same holds of the maps inside a reply.  A key that comes twice (`Repeats`) is an error
wherever the decoder looks.

Both rest on `MapOf.unique`: a string of octets is a map in one way only, so what the walk took for
fields are the fields.
-/

namespace Resolvd.Msgpack

open Lib Lib.Parser List

variable {v r r' : Bytes} {es es' : List (Bytes × Bytes)}

/-! ### A map, an array and a string are so in one way only -/

/-- The octets are one value, whatever its strings hold and however deep it is nested. -/
def AnyValue (v : Bytes) : Prop := ∃ d, Values (fun _ => True) d 1 v

theorem Value.any (h : Value v) : AnyValue v := by
  obtain ⟨d, h⟩ := h
  exact ⟨d, h.weaken⟩

theorem AnyValue.unique {v' : Bytes} (h : AnyValue v) (h' : AnyValue v') (e : v ++ r = v' ++ r') :
    v = v' ∧ r = r' := by
  obtain ⟨d, h⟩ := h
  obtain ⟨d', h'⟩ := h'
  exact h.unique h' e

theorem Str.unique {s s' : String} (h : Str s v) (h' : Str s' v) : s = s' :=
  (h.reads.unique h'.reads (rfl : v ++ [] = v ++ [])).2.1

theorem flatten_unique {vs ws : List Bytes} (hlen : vs.length = ws.length)
    (hv : ∀ v ∈ vs, AnyValue v) (hw : ∀ w ∈ ws, AnyValue w)
    (e : vs.flatten ++ r = ws.flatten ++ r') : vs = ws ∧ r = r' := by
  induction vs generalizing ws with
  | nil =>
    obtain rfl := eq_nil_of_length_eq_zero hlen.symm
    exact ⟨rfl, e⟩
  | cons v vs ih =>
    cases ws with
    | nil => cases hlen
    | cons w ws =>
      rw [forall_mem_cons] at hv hw
      rw [flatten_cons, flatten_cons, append_assoc, append_assoc] at e
      obtain ⟨rfl, e'⟩ := hv.1.unique hw.1 e
      obtain ⟨rfl, rfl⟩ := ih (Nat.succ.inj hlen) hv.2 hw.2 e'
      exact ⟨rfl, rfl⟩

theorem ArrayOf.unique {vs ws : List Bytes} (h : ArrayOf vs v) (h' : ArrayOf ws v)
    (hv : ∀ v ∈ vs, AnyValue v) (hw : ∀ w ∈ ws, AnyValue w) : vs = ws := by
  obtain ⟨head, hh, rfl⟩ := h
  obtain ⟨head', hh', e⟩ := h'
  obtain ⟨-, hlen, e'⟩ := hh.reads.unique hh'.reads e
  have hflat : vs.flatten ++ [] = ws.flatten ++ [] := by rw [e']
  exact (flatten_unique hlen hv hw hflat).1

/-- The octets of the fields of a map, keys and values alike. -/
def fieldValues (es : List (Bytes × Bytes)) : List Bytes := es.flatMap fun e => [e.1, e.2]

theorem length_fieldValues (es : List (Bytes × Bytes)) :
    (fieldValues es).length = 2 * es.length := by
  induction es with
  | nil => rfl
  | cons e es ih =>
    simp only [fieldValues, flatMap_cons, length_append, length_cons, length_nil] at ih ⊢
    omega

theorem flatten_fieldValues (es : List (Bytes × Bytes)) :
    (fieldValues es).flatten = es.flatMap fun e => e.1 ++ e.2 := by
  induction es with
  | nil => rfl
  | cons e es ih =>
    simp only [fieldValues, flatMap_cons, flatten_append] at ih ⊢
    rw [ih]
    simp

theorem fieldValues_injective (h : fieldValues es = fieldValues es') : es = es' := by
  induction es generalizing es' with
  | nil =>
    cases es' with
    | nil => rfl
    | cons e es' => cases h
  | cons e es ih =>
    cases es' with
    | nil => cases h
    | cons e' es' =>
      simp only [fieldValues, flatMap_cons, cons_append, nil_append, List.cons.injEq] at h
      rw [ih h.2.2, Prod.ext h.1 h.2.1]

/-- **A map is a map in one way only**, wherever it ends. -/
theorem MapOf.unique {v' : Bytes} (h : MapOf es v) (h' : MapOf es' v')
    (hes : ∀ e ∈ es, AnyValue e.1 ∧ AnyValue e.2) (hes' : ∀ e ∈ es', AnyValue e.1 ∧ AnyValue e.2)
    (e : v ++ r = v' ++ r') : es = es' ∧ v = v' ∧ r = r' := by
  have hall : ∀ {es : List (Bytes × Bytes)}, (∀ e ∈ es, AnyValue e.1 ∧ AnyValue e.2) →
      ∀ w ∈ fieldValues es, AnyValue w := by
    intro es hes w hw
    obtain ⟨e, he, hw⟩ := mem_flatMap.mp hw
    rcases mem_pair.mp hw with rfl | rfl
    · exact (hes e he).1
    · exact (hes e he).2
  obtain ⟨head, hh, rfl⟩ := h
  obtain ⟨head', hh', rfl⟩ := h'
  rw [append_assoc, append_assoc] at e
  obtain ⟨rfl, hlen, e'⟩ := hh.reads.unique hh'.reads e
  rw [← flatten_fieldValues, ← flatten_fieldValues] at e'
  obtain ⟨hval, rfl⟩ := flatten_unique (by rw [length_fieldValues, length_fieldValues, hlen])
    (hall hes) (hall hes') e'
  obtain rfl := fieldValues_injective hval
  exact ⟨rfl, rfl, rfl⟩

end Resolvd.Msgpack

namespace Resolvd.Core

open Lib Lib.Parser Msgpack List

/-! ### Rearranged maps -/

/-- A field of a map whose key is a string. -/
structure Entry where
  name : String
  key : Bytes
  value : Bytes
  isStr : Str name key
  isValue : Value value

/-- The octets of the key and of the value. -/
def Entry.pair (e : Entry) : Bytes × Bytes := (e.key, e.value)

/-- The octets are a map with these fields, whose keys are distinct. -/
structure IsMap (es : List Entry) (v : Bytes) : Prop where
  map : MapOf (es.map Entry.pair) v
  distinct : (es.map Entry.name).Nodup

/-- The map `v'` was made from the map `v`: fields may have moved and there may be others, with keys
that `S` does not know and values that `skip` accepts; the value of a field may be another one for
which `inside` holds. -/
def Rearranged {σ φ : Type} (S : Schema σ φ) (inside : String → Bytes → Bytes → Prop)
    (v v' : Bytes) : Prop :=
  ∃ old kept more new : List Entry, IsMap old v ∧ IsMap new v' ∧ new.Perm (kept ++ more) ∧
    List.Forall₂ (fun e e' => e'.name = e.name ∧
      (e'.value = e.value ∨ inside e.name e.value e'.value)) old kept ∧
    ∀ e ∈ more, e.name ∉ S.known.map Prod.fst ∧ Values Utf8 maxDepth 1 e.value

section Rearranged

variable {σ φ : Type} {S : Schema σ φ} {Q : φ → Prop} {inside : String → Bytes → Bytes → Prop}
  {v v' : Bytes} {s s' : σ}

/-- The item is what is read of the field. -/
def Entry.ReadAs (e : Entry) (i : Schema.Item φ) : Prop := i.key = e.name ∧ i.pair = e.pair

theorem Entry.any (e : Entry) : AnyValue e.pair.1 ∧ AnyValue e.pair.2 :=
  ⟨e.isStr.value.any, e.isValue.any⟩

variable {es : List Entry}

theorem any_pair : ∀ e ∈ es.map Entry.pair, AnyValue e.1 ∧ AnyValue e.2 := by
  intro e he
  obtain ⟨e, -, rfl⟩ := mem_map.mp he
  exact e.any

theorem IsMap.value (h : IsMap es v) : Value v := by
  refine h.map.value fun e he => ?_
  obtain ⟨e, -, rfl⟩ := mem_map.mp he
  exact ⟨e.isStr.value, e.isValue⟩

theorem Schema.Lawful.any_item {items : List (Schema.Item φ)} (hl : S.Lawful Q)
    (hgood : ∀ i ∈ items, S.Good i) :
    ∀ e ∈ items.map Schema.Item.pair, AnyValue e.1 ∧ AnyValue e.2 := by
  intro e he
  obtain ⟨i, hi, rfl⟩ := mem_map.mp he
  exact ⟨(hgood i hi).head.value.any, (hl.got (hgood i hi).body).1.any⟩

/-- Items with the octets of the fields are what is read of the fields. -/
theorem readAs_of_pairs {items : List (Schema.Item φ)} (hgood : ∀ i ∈ items, S.Good i)
    (h : items.map Schema.Item.pair = es.map Entry.pair) : List.Forall₂ Entry.ReadAs es items := by
  induction items generalizing es with
  | nil =>
    obtain rfl := map_eq_nil_iff.mp h.symm
    exact .nil
  | cons i items ih =>
    cases es with
    | nil => cases h
    | cons e es =>
      rw [forall_mem_cons] at hgood
      rw [map_cons, map_cons, List.cons.injEq] at h
      have hkey : i.head = e.key := congrArg Prod.fst h.1
      exact .cons ⟨Str.unique hgood.1.head (hkey ▸ e.isStr), h.1⟩ (ih hgood.2 h.2)

theorem Schema.Lawful.items_of_reads (hl : S.Lawful Q) (hmap : IsMap es v)
    (hr : Reads (S.forEachField s) v s') :
    ∃ items, List.Forall₂ Entry.ReadAs es items ∧ (∀ i ∈ items, S.Good i) ∧
      s' = S.gather s items := by
  obtain ⟨items, hitems, hgood, -, rfl⟩ := (hl.forEachField_takes s).of_reads hr
  obtain ⟨heq, -⟩ := hmap.map.unique hitems any_pair (hl.any_item hgood) (rfl : v ++ [] = v ++ [])
  exact ⟨items, readAs_of_pairs hgood heq.symm, hgood, rfl⟩

/-- The same fields are read of values that are read alike. -/
theorem items_of_kept (hinside : ∀ k w w', inside k w w' → ∀ o, S.Got k w o → S.Got k w' o)
    {old kept : List Entry} {items : List (Schema.Item φ)}
    (hread : List.Forall₂ Entry.ReadAs old items) (hgood : ∀ i ∈ items, S.Good i)
    (hkept : List.Forall₂ (fun e e' => e'.name = e.name ∧
      (e'.value = e.value ∨ inside e.name e.value e'.value))
      old kept) :
    ∃ items', List.Forall₂ Entry.ReadAs kept items' ∧ (∀ i ∈ items', S.Good i) ∧
      items'.map Schema.Item.field = items.map Schema.Item.field := by
  induction hread generalizing kept with
  | nil =>
    cases hkept
    exact ⟨[], .nil, by simp, rfl⟩
  | @cons e i old items hei _ ih =>
    cases hkept with
    | @cons _ e' _ kept hname hkept =>
    rw [forall_mem_cons] at hgood
    obtain ⟨items', hread', hgood', hfield⟩ := ih hgood.2 hkept
    have hbody : i.body = e.value := congrArg Prod.snd hei.2
    have hgot : S.Got e'.name e'.value i.field := by
      have := hgood.1.body
      rw [hei.1, hbody] at this
      rw [hname.1]
      rcases hname.2 with h | h
      · rwa [h]
      · exact hinside _ _ _ h _ this
    refine ⟨⟨e'.name, e'.key, e'.value, i.field⟩ :: items', .cons ⟨rfl, rfl⟩ hread',
      ?_, by simp [hfield]⟩
    exact forall_mem_cons.mpr ⟨⟨e'.isStr, hgot⟩, hgood'⟩

theorem items_of_more {more : List Entry}
    (hmore : ∀ e ∈ more, e.name ∉ S.known.map Prod.fst ∧ Values Utf8 maxDepth 1 e.value) :
    ∃ items, List.Forall₂ Entry.ReadAs more items ∧ (∀ i ∈ items, S.Good i) ∧
      ∀ i ∈ items, i.field = none := by
  refine ⟨more.map fun e => ⟨e.name, e.key, e.value, none⟩, ?_, ?_, by simp⟩
  · rw [forall₂_map_right_iff]
    exact forall₂_same.mpr fun e _ => ⟨rfl, rfl⟩
  · intro i hi
    obtain ⟨e, he, rfl⟩ := mem_map.mp hi
    obtain ⟨hkey, hval⟩ := hmore e he
    refine ⟨e.isStr, ?_, skip_reads hval le_rfl⟩
    cases hl : S.known.lookup e.name with
    | none => rfl
    | some p => exact absurd (mem_map.mpr ⟨_, mem_of_lookup hl, rfl⟩) hkey

theorem Schema.gather_append (s : σ) (items more : List (Schema.Item φ))
    (hmore : ∀ i ∈ more, i.field = none) : S.gather s (items ++ more) = S.gather s items := by
  unfold Schema.gather
  rw [foldl_append]
  induction more generalizing s items with
  | nil => rfl
  | cons i more ih =>
    rw [forall_mem_cons] at hmore
    rw [foldl_cons, hmore.1]
    exact ih s items hmore.2

theorem Schema.gather_congr (s : σ) {items items' : List (Schema.Item φ)}
    (h : items'.map Schema.Item.field = items.map Schema.Item.field) :
    S.gather s items' = S.gather s items := by
  have hmap (l : List (Schema.Item φ)) :
      S.gather s l = (l.map Schema.Item.field).foldl S.keep s := by
    rw [foldl_map]
    rfl
  rw [hmap, hmap, h]

/-- What is stored under distinct keys may be stored in any order. -/
theorem Schema.Lawful.gather_perm (hl : S.Lawful Q) {items items' : List (Schema.Item φ)}
    (hp : items.Perm items') (hgood : ∀ i ∈ items, S.Good i)
    (hnodup : (items.map Schema.Item.key).Nodup) (s : σ) :
    S.gather s items = S.gather s items' := by
  refine hp.foldl_eq' (fun i hi j hj s => ?_) s
  by_cases hij : i = j
  · rw [hij]
  · have hkey : i.key ≠ j.key := fun h => hij (inj_on_of_nodup_map hnodup hi hj h)
    cases hi' : i.field with
    | none => rfl
    | some a =>
      cases hj' : j.field with
      | none => rfl
      | some b =>
        have ha := ((hl.got (hgood i hi).body).2 a hi').2
        have hb := ((hl.got (hgood j hj).body).2 b hj').2
        exact (hl.comm s a b (by rwa [ha, hb]))

theorem map_key_of_readAs {items : List (Schema.Item φ)} (h : List.Forall₂ Entry.ReadAs es items) :
    items.map Schema.Item.key = es.map Entry.name ∧
      items.map Schema.Item.pair = es.map Entry.pair := by
  induction h with
  | nil => exact ⟨rfl, rfl⟩
  | cons h _ ih =>
    simp only [map_cons, h.1, h.2, ih.1, ih.2, and_self]

/-- **A rearranged map is read like the map it was made from.** -/
theorem Rearranged.reads (hl : S.Lawful Q)
    (hinside : ∀ k w w', inside k w w' → ∀ o, S.Got k w o → S.Got k w' o)
    (h : Rearranged S inside v v') (hr : Reads (S.forEachField s) v s') :
    Reads (S.forEachField s) v' s' := by
  obtain ⟨old, kept, more, new, hold, hnew, hperm, hkept, hmore⟩ := h
  obtain ⟨items, hread, hgood, rfl⟩ := hl.items_of_reads hold hr
  obtain ⟨items₁, hread₁, hgood₁, hfield⟩ := items_of_kept hinside hread hgood hkept
  obtain ⟨items₂, hread₂, hgood₂, hnone⟩ := items_of_more (S := S) hmore
  -- the items of the rearranged map, in its order
  obtain ⟨items₃, hread₃, hperm₃⟩ := perm_comp_forall₂ hperm (rel_append hread₁ hread₂)
  have hgood₃ : ∀ i ∈ items₃, S.Good i := by
    intro i hi
    rcases mem_append.mp (hperm₃.mem_iff.mp hi) with hi | hi
    · exact hgood₁ i hi
    · exact hgood₂ i hi
  obtain ⟨hkeys, hpairs⟩ := map_key_of_readAs hread₃
  have hnodup : (items₃.map Schema.Item.key).Nodup := by
    rw [hkeys]
    exact hnew.distinct
  have hgather : S.gather s items₃ = S.gather s items := by
    rw [hl.gather_perm hperm₃ hgood₃ hnodup s, Schema.gather_append s items₁ items₂ hnone,
      Schema.gather_congr s hfield]
  rw [← hgather]
  exact hl.forEachField_reads (by rw [hpairs]; exact hnew.map) hgood₃ hnodup s

/-- The walk over octets that begin with a map takes that map. -/
theorem Schema.Lawful.reads_of_ok (hl : S.Lawful Q) (hmap : IsMap es v) {t rest : Bytes}
    (h : S.forEachField s (v ++ t) = .ok (s', rest)) : Reads (S.forEachField s) v s' := by
  obtain ⟨w, e, hr, items, hitems, hgood, -, -⟩ := hl.forEachField_takes s h
  obtain ⟨-, rfl, -⟩ := hmap.map.unique hitems any_pair (hl.any_item hgood) e
  exact hr

end Rearranged

/-! ### The maps inside a reply -/

/-- Nothing is rearranged inside. -/
def asItIs (_ : String) (_ _ : Bytes) : Prop := False

/-- An array of maps that are rearranged one by one. -/
def RearrangedAll {σ φ : Type} (S : Schema σ φ) (v v' : Bytes) : Prop :=
  ∃ vs vs', ArrayOf vs v ∧ ArrayOf vs' v' ∧ List.Forall₂ (Rearranged S asItIs) vs vs'

/-- The value of a field of a reply, with the maps inside it rearranged. -/
inductive InsideReply (T : AddressText) : String → Bytes → Bytes → Prop
  | records {v v' : Bytes} : RearrangedAll recordSchema v v' → InsideReply T "records" v v'
  | addresses {v v' : Bytes} : RearrangedAll (addressSchema T) v v' → InsideReply T "addresses" v v'
  | scopes {v v' : Bytes} : RearrangedAll scopeSchema v v' → InsideReply T "scopes" v v'
  | counters {v v' : Bytes} : Rearranged counterSchema asItIs v v' → InsideReply T "counters" v v'

section Inside

variable {σ φ α : Type} {S : Schema σ φ} {Q : φ → Prop} {v v' : Bytes} {s s' : σ} {key : String}

theorem Rearranged.values {inside : String → Bytes → Bytes → Prop} (h : Rearranged S inside v v') :
    Value v ∧ Value v' := by
  obtain ⟨old, kept, more, new, hold, hnew, -⟩ := h
  exact ⟨hold.value, hnew.value⟩

theorem Rearranged.reads_asItIs (hl : S.Lawful Q) (h : Rearranged S asItIs v v')
    (hr : Reads (S.forEachField s) v s') : Reads (S.forEachField s) v' s' :=
  h.reads hl (fun _ _ _ hf => hf.elim) hr

/-- What an array's reader reads of an array, item by item. -/
theorem arrayOf_items {p : Parser WireError α} {R : α → Prop} (hp : Reads1 p R) {vs : List Bytes}
    {l : List α} (hv : ArrayOf vs v) (hvs : ∀ w ∈ vs, AnyValue w)
    (hr : Reads (arrayOf .encoding p) v l) : List.Forall₂ (Reads p) vs l := by
  obtain ⟨ws, hws, -, hreads, hvals⟩ := (arrayOf_takes hp).of_reads hr
  have hany : ∀ w ∈ ws, AnyValue w := by
    intro w hw
    obtain ⟨_, -, -, hval⟩ := forall₂_left hvals w hw
    exact hval.any
  rw [hv.unique hws hvs hany]
  exact hreads

theorem RearrangedAll.reads (hl : S.Lawful Q) {R : σ → Prop} (hp : Reads1 (S.forEachField s) R)
    {l : List σ} (h : RearrangedAll S v v')
    (hr : Reads (arrayOf .encoding (S.forEachField s)) v l) :
    Reads (arrayOf .encoding (S.forEachField s)) v' l := by
  obtain ⟨vs, vs', hv, hv', hvs⟩ := h
  have hany : ∀ w ∈ vs, AnyValue w := by
    intro w hw
    obtain ⟨_, -, hre⟩ := forall₂_left hvs w hw
    exact hre.values.1.any
  have hitems := arrayOf_items hp hv hany hr
  refine arrayOf_reads hv' (fun w hw => ?_) ?_
  · obtain ⟨_, -, hre⟩ := forall₂_right hvs w hw
    exact hre.values.2.length_pos
  · clear hv hv' hr hany
    induction hvs generalizing l with
    | nil =>
      cases hitems
      exact .nil
    | cons hre _ ih =>
      cases hitems with
      | cons ha hitems => exact .cons (hre.reads_asItIs hl ha) (ih hitems)

/-- What is got of a field whose reader is `g <$> p` is what `p` reads. -/
theorem exists_of_got {p : Parser WireError α} {R : α → Prop} {g : α → φ} (hp : Reads1 p R)
    (hkey : S.known.lookup key = some (g <$> p)) {o : Option φ} (hgot : S.Got key v o) :
    ∃ a, o = some (g a) ∧ Reads p v a := by
  cases o with
  | none =>
    have hnone := hgot.1
    rw [hkey] at hnone
    cases hnone
  | some b =>
    obtain ⟨q, hq, hr⟩ := hgot
    obtain rfl := Option.mem_unique hkey hq
    obtain ⟨a, ha, rfl⟩ := hp.reads_of_map hr
    exact ⟨a, rfl, ha⟩

/-- A field whose reader is `g <$> p` is read alike when `p` reads alike. -/
theorem got_of_map {p : Parser WireError α} {R : α → Prop} {g : α → φ} (hp : Reads1 p R)
    (hkey : S.known.lookup key = some (g <$> p)) (h : ∀ a, Reads p v a → Reads p v' a)
    (o : Option φ) (hgot : S.Got key v o) : S.Got key v' o := by
  obtain ⟨a, rfl, ha⟩ := exists_of_got hp hkey hgot
  exact ⟨_, hkey, (h a ha).map g⟩

theorem InsideReply.got {T : AddressText} (h : InsideReply T key v v') (o : Option ReplyField)
    (hgot : (replySchema T).Got key v o) : (replySchema T).Got key v' o := by
  cases h with
  | records h =>
    exact got_of_map (list_one record_one) rfl
      (fun _ => h.reads recordSchema_lawful record_one) o hgot
  | addresses h =>
    exact got_of_map (list_one (address_one T)) rfl
      (fun _ => h.reads (addressSchema_lawful T) (address_one T)) o hgot
  | scopes h =>
    exact got_of_map (list_one scope_one) rfl (fun _ => h.reads scopeSchema_lawful scope_one) o hgot
  | counters h =>
    exact got_of_map counters_one rfl (fun _ => h.reads_asItIs counterSchema_lawful) o hgot

end Inside

/-! ### Keys that come twice -/

/-- The keys are the same: the same octets, or the same string. -/
def SameKey (k k' : Bytes) : Prop := k = k' ∨ ∃ s, Str s k ∧ Str s k'

/-- The octets are a map of any values in which some key comes twice. -/
def Repeats (v : Bytes) : Prop :=
  ∃ es, MapOf es v ∧ (∀ e ∈ es, AnyValue e.1 ∧ AnyValue e.2) ∧ ¬ es.Pairwise fun e e' =>
    ¬ SameKey e.1 e'.1

/-- The field of a reply holds a map in which some key comes twice. -/
inductive RepeatsInside (key value : Bytes) : Prop
  | item {name : String} {vs : List Bytes} {v : Bytes} : name ∈ ["records", "addresses", "scopes"] →
    Str name key →
      ArrayOf vs value → (∀ w ∈ vs, AnyValue w) → v ∈ vs → Repeats v → RepeatsInside key value
  | counters : Str "counters" key → Repeats value → RepeatsInside key value

/-- A map of a reply in which some key comes twice: the reply itself, or one inside it. -/
inductive ReplyRepeats (v : Bytes) : Prop
  | top : Repeats v → ReplyRepeats v
  | inside {es : List (Bytes × Bytes)} {e : Bytes × Bytes} :
      MapOf es v → (∀ e ∈ es, AnyValue e.1 ∧ AnyValue e.2) →
        e ∈ es → RepeatsInside e.1 e.2 → ReplyRepeats v

section Repeats

variable {σ φ α : Type} {S : Schema σ φ} {Q : φ → Prop} {v t : Bytes} {s s' : σ} {rest : Bytes}

/-- The items of a walk that ended, for whatever the fields of the map are. -/
theorem Schema.Lawful.items_of_ok (hl : S.Lawful Q) {es : List (Bytes × Bytes)} (hmap : MapOf es v)
    (hes : ∀ e ∈ es, AnyValue e.1 ∧ AnyValue e.2) (h : S.forEachField s (v ++ t) = .ok (s', rest)) :
    ∃ items : List (Schema.Item φ), es = items.map Schema.Item.pair ∧ (∀ i ∈ items, S.Good i) ∧
      (items.map Schema.Item.key).Nodup := by
  obtain ⟨w, e, -, items, hitems, hgood, hnodup, -⟩ := hl.forEachField_takes s h
  obtain ⟨rfl, -⟩ := hmap.unique hitems hes (hl.any_item hgood) e
  exact ⟨items, rfl, hgood, hnodup⟩

/-- **A map in which a key comes twice is not read.** -/
theorem Repeats.not_ok (hl : S.Lawful Q) (h : Repeats v) :
    S.forEachField s (v ++ t) ≠ .ok (s', rest) := by
  intro hok
  obtain ⟨es, hmap, hes, hpair⟩ := h
  obtain ⟨items, rfl, hgood, hnodup⟩ := hl.items_of_ok hmap hes hok
  apply hpair
  rw [pairwise_map]
  rw [List.Nodup, pairwise_map] at hnodup
  refine hnodup.imp_of_mem fun {i j} hi hj hne hsame => hne ?_
  rcases hsame with h | ⟨s, h, h'⟩
  · have h : i.head = j.head := h
    exact Str.unique (hgood i hi).head (h ▸ (hgood j hj).head)
  · exact (Str.unique (hgood i hi).head h).trans (Str.unique h' (hgood j hj).head)

theorem Repeats.not_reads (hl : S.Lawful Q) (h : Repeats v) :
    ¬ Reads (S.forEachField s) v s' := fun hr =>
  h.not_ok hl (hr [])

theorem Repeats.not_reads_array (hl : S.Lawful Q) {R : σ → Prop} (hp : Reads1 (S.forEachField s) R)
    {vs : List Bytes} {w : Bytes} {l : List σ} (hv : ArrayOf vs v) (hvs : ∀ w ∈ vs, AnyValue w)
    (hw : w ∈ vs) (h : Repeats w) : ¬ Reads (arrayOf .encoding (S.forEachField s)) v l := by
  intro hr
  obtain ⟨a, -, ha⟩ := forall₂_left (arrayOf_items hp hv hvs hr) w hw
  exact h.not_reads hl ha

/-- The field of a known key is not read when its reader does not read the value. -/
theorem not_got {key : String} {p : Parser WireError α} {R : α → Prop} {g : α → φ} (hp : Reads1 p R)
    (hkey : S.known.lookup key = some (g <$> p)) (h : ∀ a, ¬ Reads p v a) (o : Option φ) :
    ¬ S.Got key v o := by
  intro hgot
  obtain ⟨a, -, ha⟩ := exists_of_got hp hkey hgot
  exact h a ha

theorem RepeatsInside.not_good {T : AddressText} {i : Schema.Item ReplyField}
    (h : RepeatsInside i.head i.body) (hi : (replySchema T).Good i) : False := by
  have hgot := hi.body
  cases h with
  | @item name vs w hname hstr hv hvs hw hrep =>
    rw [Str.unique hi.head hstr] at hgot
    simp only [mem_cons, not_mem_nil, or_false] at hname
    rcases hname with rfl | rfl | rfl
    · exact not_got (list_one record_one) rfl
        (fun _ => hrep.not_reads_array recordSchema_lawful record_one hv hvs hw) _ hgot
    · exact not_got (list_one (address_one T)) rfl
        (fun _ => hrep.not_reads_array (addressSchema_lawful T) (address_one T) hv hvs hw) _ hgot
    · exact not_got (list_one scope_one) rfl
        (fun _ => hrep.not_reads_array scopeSchema_lawful scope_one hv hvs hw) _ hgot
  | counters hstr hrep =>
    rw [Str.unique hi.head hstr] at hgot
    exact not_got counters_one rfl (fun _ => hrep.not_reads counterSchema_lawful) _ hgot

theorem ReplyRepeats.not_ok {T : AddressText} {s s' : ReplyVars} (h : ReplyRepeats v) :
    (replySchema T).forEachField s (v ++ t) ≠ .ok (s', rest) := by
  cases h with
  | top h => exact h.not_ok (replySchema_lawful T)
  | @inside es e hmap hes he hrep =>
    intro hok
    obtain ⟨items, rfl, hgood, -⟩ := (replySchema_lawful T).items_of_ok hmap hes hok
    obtain ⟨i, hi, rfl⟩ := mem_map.mp he
    exact hrep.not_good (hgood i hi)

end Repeats

/-- **The decoders go by the keys.**  A request or a reply from which another one was made by moving
fields, adding fields that nobody knows, or doing so in the maps inside, is decoded to the same
value; what stands behind the map does not count.  A map in which a key comes twice is refused. -/
theorem fields_in_any_order (T : AddressText) :
    (∀ v v' t t' r, Rearranged requestSchema asItIs v v' → Request.decode T (v ++ t) = .ok r →
      Request.decode T (v' ++ t') = .ok r) ∧
    (∀ v v' t t' p, Rearranged (replySchema T) (InsideReply T) v v' →
      Reply.decode T (v ++ t) = .ok p →
      Reply.decode T (v' ++ t') = .ok p) ∧
    (∀ v t, Repeats v → ∃ e, Request.decode T (v ++ t) = .error e) ∧
    ∀ v t, ReplyRepeats v → ∃ e, Reply.decode T (v ++ t) = .error e := by
  refine ⟨?_, ?_, ?_, ?_⟩
  · intro v v' t t' r h hdec
    obtain ⟨vars, rest, hv, hr⟩ := Request.decode_eq_ok.mp hdec
    obtain ⟨old, kept, more, new, hold, -⟩ := id h
    have hreads := requestSchema_lawful.reads_of_ok hold hv
    exact Request.decode_eq_ok.mpr ⟨vars, t', h.reads_asItIs requestSchema_lawful hreads t', hr⟩
  · intro v v' t t' p h hdec
    obtain ⟨vars, rest, hv, hp⟩ := Reply.decode_eq_ok.mp hdec
    obtain ⟨old, kept, more, new, hold, -⟩ := id h
    have hreads := (replySchema_lawful T).reads_of_ok hold hv
    have hreads' := h.reads (replySchema_lawful T) (fun _ _ _ hin => hin.got) hreads
    exact Reply.decode_eq_ok.mpr ⟨vars, t', hreads' t', hp⟩
  · intro v t h
    cases hdec : Request.decode T (v ++ t) with
    | error e => exact ⟨e, rfl⟩
    | ok r =>
      obtain ⟨vars, rest, hv, -⟩ := Request.decode_eq_ok.mp hdec
      exact absurd hv (h.not_ok requestSchema_lawful)
  · intro v t h
    cases hdec : Reply.decode T (v ++ t) with
    | error e => exact ⟨e, rfl⟩
    | ok p =>
      obtain ⟨vars, rest, hv, -⟩ := Reply.decode_eq_ok.mp hdec
      exact absurd hv h.not_ok

/-! ### A request with a hint -/

/-- The field `query`, of a request for the status. -/
def queryEntry : Entry :=
  ⟨"query", writeStr "query", writeStr "status", writeStr_str (by decide),
    (writeStr_str (by decide)).value⟩

/-- A field that no version of the daemon knows: a floating-point number. -/
def hintEntry : Entry :=
  ⟨"hint", writeStr "hint", [0xca, 0, 0, 0, 0], writeStr_str (by decide),
    (Token.fixed (by decide)).isValue⟩

/-- A map of these fields. -/
def mapBytes (es : List Entry) : Bytes :=
  writeMap (UInt32.ofNat es.length) ++ es.flatMap fun e => e.key ++ e.value

theorem mapOf_mapBytes {es : List Entry} (hlen : es.length < 2 ^ 32) :
    MapOf (es.map Entry.pair) (mapBytes es) := by
  refine ⟨writeMap (UInt32.ofNat es.length), ?_, by rw [mapBytes, flatMap_map]; rfl⟩
  have hhead := writeMap_head (UInt32.ofNat es.length)
  rw [UInt32.toNat_ofNat_of_lt' hlen] at hhead
  rwa [length_map]

theorem rearranged_hint {σ φ : Type} {S : Schema σ φ} {inside : String → Bytes → Bytes → Prop}
    {es es' : List Entry} (hlen : es'.length + 1 < 2 ^ 32) (hold : (es.map Entry.name).Nodup)
    (hnew : ((hintEntry :: es').map Entry.name).Nodup) (hknown : "hint" ∉ S.known.map Prod.fst)
    (h : List.Forall₂ (fun e e' => e'.name = e.name ∧
      (e'.value = e.value ∨ inside e.name e.value e'.value)) es es') :
    Rearranged S inside (mapBytes es) (mapBytes (hintEntry :: es')) := by
  have hlen' : es.length < 2 ^ 32 := by
    rw [h.length_eq]
    omega
  refine ⟨es, es', [hintEntry], hintEntry :: es', ⟨mapOf_mapBytes hlen', hold⟩,
    ⟨mapOf_mapBytes hlen, hnew⟩, (perm_append_singleton hintEntry es').symm, h, fun e he => ?_⟩
  obtain rfl := mem_singleton.mp he
  exact ⟨hknown, (Token.fixed (by decide)).value⟩

/-- A status report in which nothing but a counter is given, with this map of counters. -/
def countersEntries (es : List Entry) (h : IsMap es (mapBytes es)) : List Entry :=
  [⟨"ok", writeStr "ok", writeBool true, writeStr_str (by decide), (Token.one (by decide)).isValue⟩,
    ⟨"kind", writeStr "kind", writeStr "status", writeStr_str (by decide),
      (writeStr_str (by decide)).value⟩,
    ⟨"counters", writeStr "counters", mapBytes es, writeStr_str (by decide), h.value⟩]

/-- Three queries. -/
def queriesEntry : Entry :=
  ⟨"queries", writeStr "queries", writeUint 3, writeStr_str (by decide),
    (Token.one (by decide)).isValue⟩

theorem isMap_queries : IsMap [queriesEntry] (mapBytes [queriesEntry]) :=
  ⟨mapOf_mapBytes (by decide), by decide⟩

theorem isMap_hinted : IsMap [hintEntry, queriesEntry] (mapBytes [hintEntry, queriesEntry]) :=
  ⟨mapOf_mapBytes (by decide), by decide⟩

/-- The hint is put before the query and the request is still understood, and so is a reply with a
hint before its fields and one in its counters; given twice, the hint is refused. -/
theorem fields_in_any_order_hint :
    Request.decode octetText (mapBytes [hintEntry, queryEntry] ++ [0]) = .ok .status ∧
      Reply.decode octetText (mapBytes (hintEntry :: countersEntries _ isMap_hinted) ++ [0]) =
        .ok (.status { counters := { queries := 3 } }) ∧
      (∃ e, Request.decode octetText (mapBytes [hintEntry, queryEntry, hintEntry]) = .error e) ∧
      (∃ e, Reply.decode octetText (mapBytes [hintEntry, queryEntry, hintEntry]) = .error e) := by
  have horder := fields_in_any_order octetText
  have hrepeats : Repeats (mapBytes [hintEntry, queryEntry, hintEntry]) := by
    refine ⟨_, mapOf_mapBytes (by decide), any_pair, ?_⟩
    intro h
    rw [map_cons, pairwise_cons] at h
    exact h.1 hintEntry.pair (by simp) (.inl rfl)
  have hmoved : Rearranged requestSchema asItIs (mapBytes [queryEntry])
      (mapBytes [hintEntry, queryEntry]) :=
    rearranged_hint (by decide) (by decide) (by decide) (by decide) (.cons ⟨rfl, .inl rfl⟩ .nil)
  have hplain : Request.decode octetText (mapBytes [queryEntry] ++ []) = .ok .status := by
    decide +kernel
  have hcounters : Rearranged counterSchema asItIs (mapBytes [queriesEntry])
      (mapBytes [hintEntry, queriesEntry]) :=
    rearranged_hint (by decide) (by decide) (by decide) (by decide) (.cons ⟨rfl, .inl rfl⟩ .nil)
  have hreply : Rearranged (replySchema octetText) (InsideReply octetText)
      (mapBytes (countersEntries _ isMap_queries))
      (mapBytes (hintEntry :: countersEntries _ isMap_hinted)) :=
    rearranged_hint (by decide) (by decide) (by decide) (by decide)
      (.cons ⟨rfl, .inl rfl⟩ (.cons ⟨rfl, .inl rfl⟩ (.cons ⟨rfl, .inr (.counters hcounters)⟩ .nil)))
  have hcounted : Reply.decode octetText (mapBytes (countersEntries _ isMap_queries) ++ []) =
      .ok (.status { counters := { queries := 3 } }) := by decide +kernel
  refine ⟨horder.1 _ _ [] [0] _ hmoved hplain, horder.2.1 _ _ [] [0] _ hreply hcounted, ?_, ?_⟩
  · simpa using horder.2.2.1 _ [] hrepeats
  · simpa using horder.2.2.2 _ [] (.top hrepeats)

end Resolvd.Core
