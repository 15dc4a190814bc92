import Resolvd.Nss.Render
import Resolvd.Dns.Presentation

/-!
# Retries with a larger buffer

glibc calls an NSS function again with a larger buffer when it returns `TRYAGAIN` with `ERANGE` and
`NETDB_INTERNAL`.  That ends: each rendering has a size that depends on the answer alone, below
which it returns just that and from which on it succeeds (`retries_converge`).

A rendering is a run of packing steps, and `Needs` says of a run where it stops: it succeeds exactly
when the buffer reaches that far.  A step stops behind the place it is given (`Places`), a run where
its last step does (`Needs.bind`).  The stops of the steps only go up, so that room up to the last
one is room for all of them.

What was written is read back when all is done.  A step leaves alone what lies outside its own
octets, so a text is found as it was written.  Slots of an array and the pointers between tuples are
written later than what they stand in, and are part of what a loop may change (`Slots`, `Chained`).
-/

namespace Resolvd.Nss

open Lib Dns Msgpack List
open Resolvd.Core (Addresses AddressOut Answer RecordOut Family)

/-! ### How far a run needs the buffer to reach -/

section Needs

/-- In the buffer at `base`, `len` octets long, of which `used` are used: the run succeeds exactly
when the buffer reaches `stop`.  Then `stop` octets are used, and what is returned and what the
memory holds satisfy `Q`.  Either way nothing outside the buffer is changed. -/
def Needs {α : Type} (base len : ℕ) (run : Packing α) (used : ℕ) (memory : Memory) (stop : ℕ)
    (Q : α → Memory → Prop) : Prop :=
  if stop ≤ len then
    ∃ a memory', run ⟨⟨base, len, used⟩, memory⟩ = (some a, ⟨⟨base, len, stop⟩, memory'⟩) ∧
      Memory.Keeps (Set.Ico base (base + len)) memory memory' ∧ Q a memory'
  else
    ∃ s, run ⟨⟨base, len, used⟩, memory⟩ = (none, s) ∧
      Memory.Keeps (Set.Ico base (base + len)) memory s.memory

variable {α β : Type} {base len used stop mid : ℕ} {memory : Memory} {run : Packing α}
  {Q : α → Memory → Prop}
  {R : β → Memory → Prop}

theorem Needs.mono {Q' : α → Memory → Prop} (h : Needs base len run used memory stop Q)
    (hQ : stop ≤ len → ∀ a m, Q a m → Q' a m) : Needs base len run used memory stop Q' := by
  unfold Needs at h ⊢
  split at h
  · next hle =>
    obtain ⟨a, m, hrun, hkeeps, ha⟩ := h
    rw [if_pos hle]
    exact ⟨a, m, hrun, hkeeps, hQ hle a m ha⟩
  · next hle => rwa [if_neg hle]

theorem Needs.bind {f : α → Packing β} (h : Needs base len run used memory mid Q) (hle : mid ≤ stop)
    (hf : mid ≤ len → ∀ a m, Q a m → Needs base len (f a) mid m stop R) :
    Needs base len (run >>= f) used memory stop R := by
  unfold Needs at h
  split at h
  · next hmid =>
    obtain ⟨a, m, hrun, hkeeps, ha⟩ := h
    have hrest := hf hmid a m ha
    unfold Needs at hrest ⊢
    rw [Packing.bind_apply_some hrun]
    split at hrest
    · next hstop =>
      obtain ⟨b, m', hrun', hkeeps', hb⟩ := hrest
      rw [if_pos hstop]
      exact ⟨b, m', hrun', (hkeeps.trans hkeeps').mono (Set.union_self _).subset, hb⟩
    · next hstop =>
      obtain ⟨s, hrun', hkeeps'⟩ := hrest
      rw [if_neg hstop]
      exact ⟨s, hrun', (hkeeps.trans hkeeps').mono (Set.union_self _).subset⟩
  · next hmid =>
    obtain ⟨s, hrun, hkeeps⟩ := h
    rw [Needs, if_neg (by omega)]
    exact ⟨s, Packing.bind_apply_none hrun, hkeeps⟩

theorem Needs.pure (hused : used ≤ len) (a : α) :
    Needs base len (pure a) used memory used fun b m => b = a ∧ m = memory := by
  rw [Needs, if_pos hused]
  exact ⟨a, memory, rfl, .refl _ _, rfl, rfl⟩

theorem keeps_store_of_le {dst : ℕ} {bs : Bytes} (hdst : base ≤ dst)
    (hend : dst + bs.length ≤ base + len) :
    Memory.Keeps (Set.Ico base (base + len)) memory (memory.store dst bs) :=
  (Memory.keeps_store memory dst bs).mono (Set.Ico_subset_Ico hdst hend)

theorem Needs.write (hused : used ≤ len) {dst : ℕ} {bs : Bytes} (hdst : base ≤ dst)
    (hend : dst + bs.length ≤ base + used) :
    Needs base len (Packing.write dst bs) used memory used fun _ m => m = memory.store dst bs := by
  rw [Needs, if_pos hused]
  exact ⟨(), _, rfl, keeps_store_of_le hdst (by omega), rfl⟩

/-- The step puts `content` at `align`, of which `size` octets are its own. -/
def Places (base len : ℕ) (step : Packing ℕ) (align size : ℕ) (content : Bytes) : Prop :=
  ∀ used memory, roundUp align used < 2 ^ 64 →
    Needs base len step used memory (roundUp align used + size)
    fun p m => p = base + roundUp align used ∧ m = memory.store p content

theorem places_of_put {step : Packing ℕ} {align size : ℕ} {content : Bytes}
    (hsize : content.length ≤ size)
    (h : ∀ used memory, step ⟨⟨base, len, used⟩, memory⟩ = put size align content
      ⟨⟨base, len, used⟩, memory⟩) : Places base len step align size content := by
  intro used memory hround
  have hstart : Space.start ⟨⟨base, len, used⟩, memory⟩ align = roundUp align used :=
    Nat.mod_eq_of_lt hround
  unfold Needs
  rw [h]
  split
  · next hle =>
    exact ⟨_, _, by rw [put_some (by rwa [hstart]), hstart], keeps_store_of_le (by omega) (by omega), rfl, rfl⟩
  · next hle => exact ⟨_, put_none (by rwa [hstart]), .refl _ _⟩

section Steps

variable (hlen : len < 2 ^ 64)
include hlen

theorem places_str {value : Bytes} (h : 0 ∉ value) :
    Places base len (Packing.str value) 1 (value ++ [0]).length (value ++ [0]) :=
  places_of_put le_rfl fun _ _ => by rw [str_eq hlen h, length_append, length_singleton]

theorem places_bytes (value : Bytes) (align : ℕ) :
    Places base len (Packing.bytes value align) align value.length value :=
  places_of_put le_rfl fun _ _ => bytes_eq hlen value align

theorem places_reserve (size align : ℕ) :
    Places base len (Packing.reserve size align) align size [] :=
  places_of_put (Nat.zero_le _) fun _ _ => reserve_eq hlen

theorem places_pointers {count : ℕ} (h : 8 * (count + 1) < 2 ^ 64) :
    Places base len (Packing.pointers count) 8 (8 * (count + 1))
      (List.replicate (8 * (count + 1)) 0) :=
  places_of_put (length_replicate).le fun _ _ => by rw [pointers_eq hlen, wrap_pointers h]

end Steps

end Needs

/-! ### Sizes -/

/-- Where the last of several places ends, each given by its alignment and its size. -/
def stopOf (used : ℕ) (places : List (ℕ × ℕ)) : ℕ :=
  places.foldl (fun used r => roundUp r.1 used + r.2) used

section Sizes

variable {used : ℕ} {places : List (ℕ × ℕ)}

theorem stopOf_cons (align size : ℕ) :
    stopOf used ((align, size) :: places) = stopOf (roundUp align used + size) places := rfl

theorem stopOf_append (places' : List (ℕ × ℕ)) :
    stopOf used (places ++ places') = stopOf (stopOf used places) places' :=
  foldl_append

theorem le_stopOf (h : ∀ r ∈ places, 0 < r.1) : used ≤ stopOf used places := by
  induction places generalizing used with
  | nil => exact le_rfl
  | cons r places ih =>
    rw [forall_mem_cons] at h
    have hround := le_roundUp (n := used) h.1
    have hrest : roundUp r.1 used + r.2 ≤ stopOf (roundUp r.1 used + r.2) places := ih h.2
    show used ≤ stopOf (roundUp r.1 used + r.2) places
    omega

theorem stopOf_le (h : ∀ r ∈ places, 0 < r.1) :
    stopOf used places ≤ used + (places.map fun r => r.1 - 1 + r.2).sum := by
  induction places generalizing used with
  | nil => exact le_rfl
  | cons r places ih =>
    rw [forall_mem_cons] at h
    have hround := roundUp_lt (n := used) h.1
    have hrest : stopOf (roundUp r.1 used + r.2) places ≤ _ := ih h.2
    rw [map_cons, sum_cons]
    show stopOf (roundUp r.1 used + r.2) places ≤ _
    omega

end Sizes

/-! ### What is laid out -/

/-- A text with its NUL. -/
structure CString (memory : Memory) (p : ℕ) (text : Bytes) : Prop where
  no_nul : 0 ∉ text
  load : memory.load p (text ++ [0]).length = text ++ [0]

/-- An array of pointers with a null pointer behind them. -/
structure PointerArray (memory : Memory) (p : ℕ) (ps : List ℕ) : Prop where
  not_null : ∀ q ∈ ps, 0 < q ∧ q < 2 ^ 64
  load : memory.load p (8 * (ps.length + 1)) = (ps ++ [0]).flatMap Packing.pointer

/-- A `hostent` with its texts, its aliases and its addresses, the latter two in this order. -/
structure Laid (memory : Memory) (h : Hostent) (name : Bytes) (aliases : List Bytes)
    (addresses : List IpAddr) : Prop where
  name : CString memory h.hName name
  aliases : ∃ ps, PointerArray memory h.hAliases ps ∧ List.Forall₂ (CString memory) ps aliases
  addresses : ∃ ps, PointerArray memory h.hAddrList ps ∧
    List.Forall₂ (fun p a => memory.load p a.bytes.length = a.bytes) ps addresses

/-- The list of tuples that begins at `p`, one for each address in this order, ended by a null
pointer. -/
def Tuples (memory : Memory) (canonical : ℕ) : ℕ → List IpAddr → Prop
  | p, [] => p = 0
  | p, a :: addresses => (0 < p ∧ p < 2 ^ 64) ∧
      ∃ next, memory.load p 40 = tuple next canonical a ∧ Tuples memory canonical next addresses

/-! ### Arrays with their items -/

@[simp] theorem length_pointer (p : ℕ) : (Packing.pointer p).length = 8 := by
  simp [Packing.pointer, toLe]

/-- The places of an array and its items. -/
def arrayPlaces {α : Type} (align : ℕ) (content : α → Bytes) (xs : List α) : List (ℕ × ℕ) :=
  (8, 8 * (xs.length + 2)) :: xs.map fun x => (align, (content x).length)

section Arrays

variable {base len : ℕ} {α β : Type} {content : α → Bytes} {xs : List α} {memory m m' : Memory}
    {used stop : ℕ}

/-- What the loop over the items of an array leaves: the items where the slots say. -/
structure Slots (base used stop : ℕ) (content : α → Bytes) (array i : ℕ) (xs : List α)
    (memory m : Memory) (slots : List ℕ) : Prop where
  load : m.load (array + 8 * i) (8 * xs.length) = slots.flatMap Packing.pointer
  items : List.Forall₂ (fun p x => base + used ≤ p ∧ p + (content x).length ≤ base + stop ∧
    m.load p (content x).length = content x) slots xs
  keeps : Memory.Keeps (Set.Ico (array + 8 * i) (array + 8 * (i + xs.length)) ∪ Set.Ico
    (base + used) (base + stop))
    memory m

theorem Slots.cons {array i next p : ℕ} {x : α} {slots : List ℕ}
    (h : Slots base next stop content array (i + 1) xs
      ((memory.store p (content x)).store (array + 8 * i) (Packing.pointer p)) m slots)
    (hp : base + used ≤ p) (hnext : base + next = p + (content x).length) (hle : next ≤ stop)
    (harray : array + 8 * (i + (x :: xs).length) ≤ base + used) :
    Slots base used stop content array i (x :: xs) memory m (p :: slots) where
  load := by
    rw [length_cons] at harray ⊢
    have hslot : m.load (array + 8 * i) 8 = Packing.pointer p := by
      rw [h.keeps.load (Set.disjoint_union_right.mpr
        ⟨Memory.disjoint_Ico (.inl (by omega)), Memory.disjoint_Ico (.inl (by omega))⟩)]
      exact Memory.load_store_eq (length_pointer p)
    rw [show 8 * (xs.length + 1) = 8 + 8 * xs.length by omega, Memory.load_add, hslot,
      show array + 8 * i + 8 = array + 8 * (i + 1) by omega, h.load, flatMap_cons]
  items := by
    rw [length_cons] at harray
    refine .cons ⟨hp, by omega, ?_⟩ (h.items.imp fun q y hq => ⟨by omega, hq.2⟩)
    rw [h.keeps.load (Set.disjoint_union_right.mpr
      ⟨Memory.disjoint_Ico (.inr (by omega)), Memory.disjoint_Ico (.inl (by omega))⟩),
      Memory.load_store_of_disjoint (.inr (by rw [length_pointer]; omega)), Memory.load_store]
  keeps := by
    rw [length_cons] at harray ⊢
    refine ((Memory.keeps_store memory p (content x)).trans
      ((Memory.keeps_store _ _ _).trans h.keeps)).mono ?_
    intro y hy
    rw [length_pointer] at hy
    simp only [Set.mem_union, Set.mem_Ico] at hy ⊢
    omega

theorem fillSlots_needs {pack : α → Packing ℕ} {align : ℕ} (ha : 0 < align)
    (hpack : ∀ x ∈ xs, Places base len (pack x) align (content x).length (content x)) {array i : ℕ}
    (hused : used ≤ len) (hbase : base ≤ array) (harray : array + 8 * (i + xs.length) ≤ base + used)
    (hstop : stopOf used (xs.map fun x => (align, (content x).length)) < 2 ^ 64) :
    Needs base len (fillSlots pack array i xs) used memory
      (stopOf used (xs.map fun x => (align, (content x).length)))
      fun _ m => ∃ slots, Slots base used
        (stopOf used (xs.map fun x => (align, (content x).length))) content array i xs
        memory m slots := by
  induction xs generalizing i used memory with
  | nil =>
    refine (Needs.pure hused ()).mono fun _ _ m hm => ⟨[], ?_⟩
    obtain ⟨-, rfl⟩ := hm
    exact ⟨rfl, .nil, .refl _ _⟩
  | cons x xs ih =>
    rw [forall_mem_cons] at hpack
    have hround := le_roundUp (n := used) ha
    rw [map_cons, stopOf_cons] at hstop ⊢
    -- Where the item ends, and where the loop does.
    obtain ⟨next, hnext⟩ : ∃ next, next = roundUp align used + (content x).length := ⟨_, rfl⟩
    have hle : next ≤ stopOf next (xs.map fun x => (align, (content x).length)) :=
      le_stopOf (by simpa using fun _ _ => ha)
    rw [← hnext] at hstop ⊢
    have hplace := hpack.1 used memory (by omega)
    rw [← hnext] at hplace
    rw [length_cons] at harray
    refine hplace.bind hle fun hmid p m hp => ?_
    obtain ⟨rfl, rfl⟩ := hp
    refine (Needs.write hmid (by omega) (by rw [length_pointer]; omega)).bind hle fun _ _ m hm => ?_
    subst hm
    refine (ih hpack.2 hmid (by omega) hstop).mono fun _ _ m hm => ?_
    obtain ⟨slots, hslots⟩ := hm
    exact ⟨_, hslots.cons (by omega) (by omega) hle (by rw [length_cons]; omega)⟩

/-- An array with its items, all of them between two marks of the buffer. -/
structure Filled (base used stop : ℕ) (content : α → Bytes) (xs : List α) (m : Memory) (array : ℕ) :
    Prop where
  begins : base + used ≤ array
  ends : array + 8 * (xs.length + 2) ≤ base + stop
  items : ∃ slots, m.load array (8 * (xs.length + 1)) = (slots ++ [0]).flatMap Packing.pointer ∧
    List.Forall₂ (fun p x => base + used ≤ p ∧ p + (content x).length ≤ base + stop ∧
      m.load p (content x).length = content x) slots xs

/-- It is still there when only what lies behind it has changed. -/
theorem Filled.keep {array k : ℕ} (h : Filled base used stop content xs m array)
    (hkeeps : Memory.Keeps (Set.Ico (base + stop) k) m m') :
    Filled base used stop content xs m' array := by
  have hends := h.ends
  obtain ⟨slots, hload, hitems⟩ := h.items
  refine ⟨h.begins, h.ends, slots, ?_, hitems.imp fun p x hp => ⟨hp.1, hp.2.1, ?_⟩⟩
  · rwa [hkeeps.load (Memory.disjoint_Ico (.inl (by omega)))]
  · rw [hkeeps.load (Memory.disjoint_Ico (.inl hp.2.1)), hp.2.2]

theorem Filled.pointerArray {array : ℕ} (h : Filled base used stop content xs m array)
    (hcontent : ∀ x, content x ≠ []) (hpos : 0 < used) (hstop : base + stop ≤ 2 ^ 64) :
    ∃ ps, PointerArray m array ps ∧
      List.Forall₂ (fun p x => m.load p (content x).length = content x) ps xs := by
  obtain ⟨slots, hload, hitems⟩ := h.items
  have hslots : List.Forall₂ (fun p x => (0 < p ∧ p < 2 ^ 64) ∧
      m.load p (content x).length = content x) slots xs :=
    hitems.imp fun p x hp => by
      have := length_pos_of_ne_nil (hcontent x)
      exact ⟨by omega, hp.2.2⟩
  obtain ⟨hnull, hitems'⟩ := (forall₂_and_left _ _).mp hslots
  refine ⟨slots, ⟨hnull, ?_⟩, hitems'⟩
  rwa [hitems.length_eq]

theorem Needs.array {pack : α → Packing ℕ} {align : ℕ} {f : ℕ → Packing β} {R : β → Memory → Prop}
    (hlen : len < 2 ^ 64) (ha : 0 < align)
    (hpack : ∀ x ∈ xs, Places base len (pack x) align (content x).length (content x))
    (hle : stopOf used (arrayPlaces align content xs) ≤ stop) (hstop : stop < 2 ^ 64)
    (hf : stopOf used (arrayPlaces align content xs) ≤ len → ∀ array m,
      Memory.Keeps (Set.Ico (base + used) (base + stopOf used (arrayPlaces align content xs)))
        memory m →
      Filled base used (stopOf used (arrayPlaces align content xs)) content xs m array →
      Needs base len (f array) (stopOf used (arrayPlaces align content xs)) m stop R) :
    Needs base len (do let array ← Packing.pointers (xs.length + 1); fillSlots pack array 0 xs; f array) used memory
      stop R := by
  rw [arrayPlaces, stopOf_cons] at hle hf
  have hround := le_roundUp (n := used) (show 0 < 8 by decide)
  obtain ⟨next, hnext⟩ : ∃ next, next = roundUp 8 used + 8 * (xs.length + 2) := ⟨_, rfl⟩
  rw [← hnext] at hle hf
  have hmid : next ≤ stopOf next (xs.map fun x => (align, (content x).length)) :=
    le_stopOf (by simpa using fun _ _ => ha)
  have hplaces : Places base len (Packing.pointers (xs.length + 1)) 8 (8 * (xs.length + 2)) _ :=
    places_pointers hlen (by omega)
  have hplace := hplaces used memory (by omega)
  rw [← hnext] at hplace
  refine hplace.bind (by omega) fun hfit p m hp => ?_
  obtain ⟨rfl, rfl⟩ := hp
  refine (fillSlots_needs ha hpack hfit (by omega) (by omega) (by omega)).bind hle
    fun hfit' _ m hm => ?_
  obtain ⟨slots, hslots⟩ := hm
  have hkeeps := hslots.keeps
  rw [Nat.mul_zero, Nat.add_zero, Nat.zero_add] at hkeeps
  refine hf hfit' _ m (((Memory.keeps_store memory _ _).trans hkeeps).mono ?_)
    ⟨by omega, by omega, slots, ?_, ?_⟩
  · intro y hy
    rw [length_replicate] at hy
    simp only [Set.mem_union, Set.mem_Ico] at hy ⊢
    omega
  · -- The slot behind the items is null still.
    have hnull : (memory.store (base + roundUp 8 used)
        (List.replicate (8 * (xs.length + 2)) 0)).load
        (base + roundUp 8 used + 8 * xs.length) 8 = _ :=
      Memory.load_store_part (by rw [length_replicate]; omega)
    rw [← hkeeps.load (Set.disjoint_union_right.mpr
      ⟨Memory.disjoint_Ico (.inr le_rfl), Memory.disjoint_Ico (.inl (by omega))⟩)] at hnull
    have hload := hslots.load
    rw [Nat.mul_zero, Nat.add_zero] at hload
    rw [Nat.mul_succ, Memory.load_add, hload, hnull, drop_replicate, take_replicate, flatMap_append,
      show min 8 (8 * (xs.length + 2) - 8 * xs.length) = 8 by omega]
    rfl
  · exact hslots.items.imp fun p x hp => ⟨by omega, hp.2⟩

end Arrays

/-! ### Renderings of a `hostent` -/

/-- A name, its aliases and its addresses, packed for a `hostent`. -/
def packLaid (name : Bytes) (aliases : List Bytes) (addresses : List IpAddr) :
    Packing (ℕ × ℕ × ℕ) := do
  let hName ← Packing.str name
  let hAliases ← Packing.pointers (aliases.length + 1)
  fillSlots Packing.str hAliases 0 aliases
  let hAddrList ← Packing.pointers (addresses.length + 1)
  fillSlots (fun a : IpAddr => Packing.bytes a.bytes 4) hAddrList 0 addresses
  return (hName, hAliases, hAddrList)

/-- The room they take. -/
def laidSize (name : Bytes) (aliases : List Bytes) (addresses : List IpAddr) : ℕ :=
  stopOf 0 ((1, (name ++ [0]).length) ::
    (arrayPlaces 1 (· ++ [0]) aliases ++ arrayPlaces 4 IpAddr.bytes addresses))

section Hostent

variable {name : Bytes} {aliases : List Bytes} {addresses : List IpAddr} {α : Type}

theorem Packing.bind_assoc {β γ : Type} (m : Packing α) (f : α → Packing β) (g : β → Packing γ) :
    m >>= f >>= g = m >>= fun a => f a >>= g := by
  funext s
  rcases h : m s with ⟨a | a, s'⟩
  · rw [Packing.bind_apply_none h, Packing.bind_apply_none (Packing.bind_apply_none h)]
  · rw [Packing.bind_apply_some h]
    rcases h' : f a s' with ⟨b | b, s''⟩
    · have hf : (m >>= f) s = (none, s'') := by rw [Packing.bind_apply_some h, h']
      rw [Packing.bind_apply_none h', Packing.bind_apply_none hf]
    · have hf : (m >>= f) s = (some b, s'') := by rw [Packing.bind_apply_some h, h']
      rw [Packing.bind_apply_some h', Packing.bind_apply_some hf]

theorem fillSlots_map {β : Type} (pack : β → Packing ℕ) (f : α → β) (array i : ℕ) (xs : List α) :
    fillSlots pack array i (xs.map f) = fillSlots (fun x => pack (f x)) array i xs := by
  induction xs generalizing i with
  | nil => rfl
  | cons x xs ih => simp only [map_cons, fillSlots, ih]

theorem packHostent_eq (a : Addresses) :
    packHostent a = packLaid (octets a.canonical) [] (a.addresses.map AddressOut.address) := by
  rw [packLaid, length_map]
  simp only [fillSlots_map]
  rfl

theorem packNames_eq (first : Bytes) (others : List Bytes) (address : IpAddr) :
    packNames first others address = packLaid first others [address] := by
  simp only [packNames, packLaid, fillSlots, Packing.bind_assoc]
  rfl

theorem arrayPlaces_pos {align : ℕ} (ha : 0 < align) (content : α → Bytes) (xs : List α) :
    ∀ r ∈ arrayPlaces align content xs, 0 < r.1 := by
  simpa [arrayPlaces] using fun _ _ => ha

theorem le_stopOf_array {align : ℕ} (ha : 0 < align) (content : α → Bytes) (xs : List α)
    (used : ℕ) : used ≤ stopOf used (arrayPlaces align content xs) :=
  le_stopOf (arrayPlaces_pos ha content xs)

/-- The room is not more than the items, the arrays and the gaps for their alignment. -/
theorem laidSize_le (name : Bytes) (aliases : List Bytes) (addresses : List IpAddr) :
    laidSize name aliases addresses ≤ name.length +
      ((aliases.map fun t => t.length + 1).sum + 8 * aliases.length) +
      27 * addresses.length + 47 := by
  have hbytes : (addresses.map fun a => 3 + a.bytes.length).sum ≤ addresses.length * 19 := by
    have := sum_le_card_nsmul (addresses.map fun a => 3 + a.bytes.length) 19 fun k hk => by
      obtain ⟨a, -, rfl⟩ := mem_map.mp hk
      cases a <;> simp [IpAddr.bytes]
    rwa [length_map] at this
  refine (stopOf_le fun r hr => ?_).trans ?_
  · rcases mem_cons.mp hr with rfl | hr
    · exact Nat.one_pos
    · rcases mem_append.mp hr with hr | hr
      · exact arrayPlaces_pos Nat.one_pos _ _ r hr
      · exact arrayPlaces_pos (by decide) _ _ r hr
  · simp only [arrayPlaces, map_cons, map_append, map_map, sum_cons, sum_append,
      Function.comp_def, length_append, length_singleton, Nat.sub_self, Nat.zero_add,
        Nat.add_one_sub_one]
    omega

theorem packLaid_needs {base len : ℕ} {memory : Memory} (hlen : len < 2 ^ 64) (hname : 0 ∉ name)
    (haliases : ∀ t ∈ aliases, 0 ∉ t) (hsize : laidSize name aliases addresses < 2 ^ 64) :
    Needs base len (packLaid name aliases addresses) 0 memory
      (laidSize name aliases addresses) fun p m =>
      base + laidSize name aliases addresses ≤ 2 ^ 64 →
        ∀ af length, Laid m ⟨p.1, p.2.1, af, length, p.2.2⟩ name aliases addresses := by
  have hstop : laidSize name aliases addresses = stopOf (stopOf (roundUp 1 0 + (name ++ [0]).length)
      (arrayPlaces 1 (· ++ [0]) aliases)) (arrayPlaces 4 IpAddr.bytes addresses) := by
    rw [laidSize, stopOf_cons, stopOf_append]
  have hpos : 0 < roundUp 1 0 + (name ++ [0]).length := by simp
  have hle1 := le_stopOf_array Nat.one_pos (· ++ [0]) aliases (roundUp 1 0 + (name ++ [0]).length)
  have hle2 := le_stopOf_array (show 0 < 4 by decide) IpAddr.bytes addresses
    (stopOf (roundUp 1 0 + (name ++ [0]).length) (arrayPlaces 1 (· ++ [0]) aliases))
  rw [hstop] at hsize ⊢
  refine (places_str hlen hname 0 memory (by decide)).bind (by omega) fun _ hName m hm => ?_
  obtain ⟨hp, rfl⟩ := hm
  obtain rfl : base = hName := hp.symm
  refine Needs.array hlen Nat.one_pos (fun t ht => places_str hlen (haliases t ht)) hle2 hsize
    fun _ hAliases m1 hkeeps1 hfilled1 => ?_
  refine Needs.array hlen (by decide) (fun a _ => places_bytes hlen a.bytes 4) le_rfl hsize
    fun hfit hAddrList m2 hkeeps2 hfilled2 => ?_
  refine (Needs.pure hfit _).mono fun _ p m hm hbound af length => ?_
  obtain ⟨rfl, rfl⟩ := hm
  refine ⟨⟨hname, ?_⟩, ?_, ?_⟩
  · show m.load base (name ++ [0]).length = _
    rw [hkeeps2.load (Memory.disjoint_Ico (.inl (by omega))),
      hkeeps1.load (Memory.disjoint_Ico (.inl (by omega))), Memory.load_store]
  · obtain ⟨ps, harray, hitems⟩ := (hfilled1.keep hkeeps2).pointerArray (by simp) hpos (by omega)
    refine ⟨ps, harray, ((forall₂_and_left _ _).mpr ⟨haliases, hitems.flip⟩).flip.imp fun p t h =>
      ?_⟩
    exact ⟨h.1, h.2⟩
  · exact hfilled2.pointerArray (fun a => by cases a <;> simp [IpAddr.bytes]) (by omega) (by omega)

end Hostent

/-! ### Lists of tuples -/

/-- The room that the name and the tuples take. -/
def tuplesSize (a : Addresses) : ℕ :=
  stopOf 0 ((1, (octets a.canonical ++ [0]).length) :: a.addresses.map fun _ => (8, 40))

section Tuples

variable {base len : ℕ} {used : ℕ} {memory : Memory} {xs : List AddressOut}

/-- The part of a tuple behind its first pointer. -/
def tupleRest (name : ℕ) (address : IpAddr) : Bytes := (tuple 0 name address).drop 8

theorem tuple_eq (next name : ℕ) (address : IpAddr) :
    tuple next name address = Packing.pointer next ++ tupleRest name address := by
  simp only [tupleRest, tuple, append_assoc]
  rw [drop_left' (length_pointer 0)]

@[simp] theorem length_tuple (next name : ℕ) (address : IpAddr) :
    (tuple next name address).length = 40 := by
  cases address <;> simp [tuple, toLe]

theorem load_tuple_iff {m : Memory} {p next name : ℕ} {address : IpAddr} :
    m.load p 40 = tuple next name address ↔
      m.load p 8 = Packing.pointer next ∧ m.load (p + 8) 32 = tupleRest name address := by
  rw [show (40 : ℕ) = 8 + 32 from rfl, Memory.load_add, tuple_eq]
  refine ⟨fun h => append_inj h (by simp), fun h => ?_⟩
  rw [h.1, h.2]

theorem Needs.tuple {α : Type} {f : ℕ → Packing α} {stop name : ℕ} {address : IpAddr}
    {R : α → Memory → Prop} (hlen : len < 2 ^ 64) (hround : roundUp 8 used < 2 ^ 64)
    (hle : roundUp 8 used + 40 ≤ stop) (hf : roundUp 8 used + 40 ≤ len →
      Needs base len (f (base + roundUp 8 used)) (roundUp 8 used + 40)
      (memory.store (base + roundUp 8 used) (Nss.tuple 0 name address)) stop R) :
    Needs base len (do let slot ← Packing.reserve 40 8; Packing.write slot (Nss.tuple 0 name address); f slot) used
      memory stop R := by
  refine (places_reserve hlen 40 8 used memory hround).bind hle fun hmid p m hp => ?_
  obtain ⟨rfl, rfl⟩ := hp
  refine (Needs.write hmid (by omega) (by rw [length_tuple]; omega)).bind hle fun _ _ m hm => ?_
  obtain rfl := hm
  rw [Memory.store_nil]
  exact hf hmid

/-- What the loop leaves from the tuple `previous` on. -/
structure Chained (base used stop canonical previous : ℕ) (addresses : List IpAddr)
    (memory m : Memory) : Prop where
  tuples : base + stop ≤ 2 ^ 64 → Tuples m canonical previous addresses
  keeps : Memory.Keeps (Set.Ico previous (previous + 8) ∪ Set.Ico (base + used) (base + stop))
    memory m

/-- The loop goes on behind a tuple that has been written. -/
theorem packTuples_needs {canonical previous first : ℕ} {a : IpAddr} (hlen : len < 2 ^ 64)
    (hused : used ≤ len) (hprevious : base < previous) (hbelow : previous + 40 ≤ base + used)
    (hwritten : memory.load previous 40 = tuple 0 canonical a)
    (hstop : stopOf used (xs.map fun _ => (8, 40)) < 2 ^ 64) :
    Needs base len (packTuples canonical previous first xs) used memory
      (stopOf used (xs.map fun _ => (8, 40)))
      fun f m => f = first ∧ Chained base used
        (stopOf used (xs.map fun _ => (8, 40))) canonical previous
        (a :: xs.map AddressOut.address) memory m := by
  induction xs generalizing previous used memory a with
  | nil =>
    refine (Needs.pure hused first).mono fun _ f m hm => ?_
    obtain ⟨rfl, rfl⟩ := hm
    refine ⟨rfl, fun (hbound : base + used ≤ 2 ^ 64) => ?_, .refl _ _⟩
    exact ⟨⟨by omega, by omega⟩, 0, hwritten, rfl⟩
  | cons x xs ih =>
    have hround := le_roundUp (n := used) (show 0 < 8 by decide)
    rw [map_cons, stopOf_cons] at hstop ⊢
    -- Where the tuple begins and ends, and where the loop does.
    obtain ⟨next, hnext⟩ : ∃ next, next = roundUp 8 used + 40 := ⟨_, rfl⟩
    obtain ⟨slot, hslot⟩ : ∃ slot, slot = base + roundUp 8 used := ⟨_, rfl⟩
    have hle : next ≤ stopOf next (xs.map fun _ => (8, 40)) := le_stopOf (by simp)
    rw [← hnext] at hstop ⊢
    refine Needs.tuple hlen (by omega) (by omega) fun hmid => ?_
    rw [if_neg (by omega), ← hnext, ← hslot]
    rw [← hnext] at hmid
    refine (Needs.write hmid (by omega) (by rw [length_pointer]; omega)).bind hle fun _ _ m hm => ?_
    subst hm
    have hnew : ((memory.store slot (Nss.tuple 0 canonical x.address)).store previous
        (Packing.pointer slot)).load
        slot 40 = Nss.tuple 0 canonical x.address := by
      rw [Memory.load_store_of_disjoint (.inr (by rw [length_pointer]; omega)),
        Memory.load_store_eq (length_tuple _ _ _)]
    refine (ih hmid (by omega) (by omega) hnew hstop).mono fun hfit f m hm => ?_
    obtain ⟨rfl, hchain⟩ := hm
    refine ⟨rfl, fun hbound => ⟨⟨by omega, by omega⟩, slot, ?_, hchain.tuples hbound⟩, ?_⟩
    · -- Of the tuple before it only the first pointer has changed.
      have hkept : ∀ p n, p + n ≤ base + used → m.load p n =
          ((memory.store slot (Nss.tuple 0 canonical x.address)).store previous
            (Packing.pointer slot)).load p n :=
        fun p n hp => hchain.keeps.load (Set.disjoint_union_right.mpr
          ⟨Memory.disjoint_Ico (.inl (by omega)), Memory.disjoint_Ico (.inl (by omega))⟩)
      refine load_tuple_iff.mpr ⟨?_, ?_⟩
      · rw [hkept _ _ (by omega), Memory.load_store_eq (length_pointer _)]
      · rw [hkept _ _ (by omega), Memory.load_store_of_disjoint (.inr (by rw [length_pointer])),
          Memory.load_store_of_disjoint (.inl (by omega))]
        exact (load_tuple_iff.mp hwritten).2
    · refine ((Memory.keeps_store memory slot _).trans
        ((Memory.keeps_store _ previous _).trans hchain.keeps)).mono ?_
      intro y hy
      rw [length_pointer, length_tuple] at hy
      simp only [Set.mem_union, Set.mem_Ico] at hy ⊢
      omega

theorem packTuples_first_needs {canonical : ℕ} (hlen : len < 2 ^ 64) (hused : used ≤ len)
    (hpos : 0 < used) (hstop : stopOf used (xs.map fun _ => (8, 40)) < 2 ^ 64) :
    Needs base len (packTuples canonical 0 0 xs) used memory (stopOf used (xs.map fun _ => (8, 40)))
      fun f m => (base + stopOf used (xs.map fun _ => (8, 40)) ≤ 2 ^ 64 →
          Tuples m canonical f (xs.map AddressOut.address)) ∧
        Memory.Keeps (Set.Ico (base + used) (base + stopOf used (xs.map fun _ => (8, 40)))) memory
          m := by
  cases xs with
  | nil =>
    refine (Needs.pure hused 0).mono fun _ f m hm => ?_
    obtain ⟨rfl, rfl⟩ := hm
    exact ⟨fun _ => rfl, .refl _ _⟩
  | cons x xs =>
    have hround := le_roundUp (n := used) (show 0 < 8 by decide)
    rw [map_cons, stopOf_cons] at hstop ⊢
    obtain ⟨next, hnext⟩ : ∃ next, next = roundUp 8 used + 40 := ⟨_, rfl⟩
    have hle : next ≤ stopOf next (xs.map fun _ => (8, 40)) := le_stopOf (by simp)
    rw [← hnext] at hstop ⊢
    refine Needs.tuple hlen (by omega) (by omega) fun hmid => ?_
    rw [if_pos rfl, ← hnext]
    rw [← hnext] at hmid
    refine (packTuples_needs hlen hmid (by omega) (by omega)
      (Memory.load_store_eq (length_tuple _ _ _)) hstop).mono
      fun _ f m hm => ?_
    obtain ⟨rfl, hchain⟩ := hm
    refine ⟨hchain.tuples, ((Memory.keeps_store memory _ _).trans hchain.keeps).mono ?_⟩
    intro y hy
    rw [length_tuple] at hy
    simp only [Set.mem_union, Set.mem_Ico] at hy ⊢
    omega

theorem tuplesSize_le (a : Addresses) :
    tuplesSize a ≤ (octets a.canonical).length + 47 * a.addresses.length + 1 := by
  refine (stopOf_le (by simp)).trans ?_
  simp only [map_cons, map_const', map_replicate, sum_cons, sum_replicate_nat,
    length_append, length_singleton]
  omega

theorem packAddrtuples_needs {a : Addresses} (hlen : len < 2 ^ 64) (hname : 0 ∉ octets a.canonical)
    (hsize : tuplesSize a < 2 ^ 64) :
    Needs base len (packAddrtuples a) 0 memory (tuplesSize a) fun first m =>
      base + tuplesSize a ≤ 2 ^ 64 →
      CString m base (octets a.canonical) ∧
        Tuples m base first (a.addresses.map AddressOut.address) := by
  rw [tuplesSize, stopOf_cons] at hsize ⊢
  have hpos : 0 < roundUp 1 0 + (octets a.canonical ++ [0]).length := by simp
  refine (places_str hlen hname 0 memory (by decide)).bind (le_stopOf (by simp)) fun hfit p m hm =>
    ?_
  obtain ⟨hp, rfl⟩ := hm
  obtain rfl : base = p := hp.symm
  refine (packTuples_first_needs hlen hfit hpos hsize).mono fun _ first m hm hbound =>
    ⟨⟨hname, ?_⟩, hm.1 hbound⟩
  rw [hm.2.load (Memory.disjoint_Ico (.inl (by omega))), Memory.load_store]

end Tuples

/-! ### Convergence -/

/-- Retries with a larger buffer come to an end: the function succeeds exactly when the buffer has
`size` octets.  In a smaller one it returns `TRYAGAIN` with `ERANGE` and `NETDB_INTERNAL`, and has
set nothing else.  It never writes outside the buffer.  When it succeeds, in a buffer that lies in
the address space, `layout` holds of what the caller's variables were and what is returned. -/
structure Converges (entry : Entry) (size : ℕ) (layout : Outs → Returned → Prop) : Prop where
  success_iff : ∀ buffer buflen memory o, (entry buffer buflen memory o).status = .success ↔
    size ≤ buflen.toNat
  short : ∀ buffer buflen memory o, buflen.toNat < size →
    (entry buffer buflen memory o).status = .tryAgain ∧
    (entry buffer buflen memory o).outs =
      { o with errno := o.errno.map fun _ => Errno.erange, hErrno := o.hErrno.map fun _ => HErrno.netdbInternal }
  keeps : ∀ buffer buflen memory o,
    Memory.Keeps (Set.Ico buffer (buffer + buflen.toNat)) memory
      (entry buffer buflen memory o).memory
  laid : ∀ buffer buflen memory o, size ≤ buflen.toNat → buffer + buflen.toNat ≤ 2 ^ 64 →
    layout o (entry buffer buflen memory o)

section Converges

variable {entry : Entry} {size : ℕ} {layout layout' : Outs → Returned → Prop} {name : Bytes}

theorem Converges.mono (h : Converges entry size layout) (hl : ∀ o r, layout o r → layout' o r) :
    Converges entry size layout' :=
  ⟨h.success_iff, h.short, h.keeps, fun buffer buflen memory o hsize hbuffer =>
    hl _ _ (h.laid buffer buflen memory o hsize hbuffer)⟩

/-- A rendering converges when its run needs the buffer to reach so far. -/
theorem converges_of_needs {α : Type} {packing : Packing α} {write : α → Outs → Outs}
    {Q : α → Memory → Prop} (h : ∀ {base len memory}, len < 2 ^ 64 →
      Needs base len packing 0 memory size fun a m => base + size ≤ 2 ^ 64 → Q a m) :
    Converges (render packing write) size fun o r => ∃ a, Q a r.memory ∧ r.outs = write a o := by
  have hrun : ∀ buffer (buflen : UInt64) memory o,
      (size ≤ buflen.toNat ∧ ∃ a m, render packing write buffer buflen memory o =
        ⟨.success, write a o, m⟩ ∧
        Memory.Keeps (Set.Ico buffer (buffer + buflen.toNat)) memory m ∧
          (buffer + size ≤ 2 ^ 64 → Q a m)) ∨
      (buflen.toNat < size ∧ ∃ m, render packing write buffer buflen memory o =
        outOfRoom buffer buflen m o ∧
        Memory.Keeps (Set.Ico buffer (buffer + buflen.toNat)) memory m) := by
    intro buffer buflen memory o
    have hneeds : Needs buffer buflen.toNat packing 0 memory size _ := h buflen.toNat_lt
    unfold Needs at hneeds
    split at hneeds
    · next hle =>
      obtain ⟨a, m, hpack, hkeeps, hQ⟩ := hneeds
      refine .inl ⟨hle, a, m, ?_, hkeeps, hQ⟩
      simp only [render, Space.new, hpack]
    · next hle =>
      obtain ⟨s, hpack, hkeeps⟩ := hneeds
      refine .inr ⟨by omega, s.memory, ?_, hkeeps⟩
      simp only [render, Space.new, hpack]
  refine ⟨fun buffer buflen memory o => ?_, fun buffer buflen memory o hlt => ?_,
    fun buffer buflen memory o => ?_,
    fun buffer buflen memory o hsize hbuffer => ?_⟩
  · rcases hrun buffer buflen memory o with ⟨hle, a, m, heq, -⟩ | ⟨hlt, m, heq, -⟩
    · rw [heq]
      exact ⟨fun _ => hle, fun _ => rfl⟩
    · rw [heq]
      exact ⟨fun h => (by cases h), fun h => by omega⟩
  · rcases hrun buffer buflen memory o with ⟨hle, -⟩ | ⟨-, m, heq, -⟩
    · omega
    · rw [heq]
      exact ⟨rfl, rfl⟩
  · rcases hrun buffer buflen memory o with ⟨-, a, m, heq, hkeeps, -⟩ | ⟨-, m, heq, hkeeps⟩
    · rwa [heq]
    · rwa [heq]
  · rcases hrun buffer buflen memory o with ⟨-, a, m, heq, -, hQ⟩ | ⟨hlt, -⟩
    · rw [heq]
      exact ⟨a, hQ (by omega), rfl⟩
    · omega

/-- The room that `render_hostent` takes. -/
def hostentSize (a : Addresses) : ℕ :=
  laidSize (octets a.canonical) [] (a.addresses.map AddressOut.address)

/-- The room that the names for an address take. -/
def namesSize (names : List Bytes) (address : IpAddr) : ℕ :=
  laidSize names.headI names.tail [address]

/-- The addresses are in a `Vec`, of 24 octets each, and a `Vec` is at most `isize::MAX` octets
long. -/
def InVec (a : Addresses) : Prop := 24 * a.addresses.length < 2 ^ 63

instance (a : Addresses) : Decidable (InVec a) := inferInstanceAs (Decidable (_ < _))

/-- The records, of 80 octets each, and their texts are in memory side by side. -/
def InMemory (a : Answer) : Prop :=
  (a.records.map fun r => 80 + (octets r.text).length).sum ≤ 2 ^ 64

instance (a : Answer) : Decidable (InMemory a) := inferInstanceAs (Decidable (_ ≤ _))

theorem trimEndDots_sublist (s : Bytes) : (trimEndDots s).Sublist s :=
  ( rdropWhile_prefix _ s).sublist

/-- The names of an answer and 80 octets for each are not more than its records and their texts. -/
theorem ptrNames_sum_le (a : Answer) : ((ptrNames a).map fun t => 80 + t.length).sum ≤
    (a.records.map fun r => 80 + (octets r.text).length).sum := by
  calc ((ptrNames a).map fun t => 80 + t.length).sum
      = ((a.records.filter fun r => r.rtype == ptr).map fun r =>
        80 + (trimEndDots (octets r.text)).length).sum := by
        rw [ptrNames, map_map]
        rfl
    _ ≤ ((a.records.filter fun r => r.rtype == ptr).map fun r => 80 + (octets r.text).length).sum :=
        sum_le_sum fun r _ => Nat.add_le_add_left (trimEndDots_sublist _).length_le 80
    _ ≤ _ := (filter_sublist.map _).sum_le_sum fun _ _ => Nat.zero_le _

/-- A `hostent` is rendered. -/
theorem packLaid_converges {aliases : List Bytes} {addresses : List IpAddr}
    {write : ℕ × ℕ × ℕ → Outs → Outs} (hname : 0 ∉ name) (haliases : ∀ t ∈ aliases, 0 ∉ t)
    (hsize : laidSize name aliases addresses < 2 ^ 64) :
    Converges (render (packLaid name aliases addresses) write)
      (laidSize name aliases addresses) fun o r =>
      ∃ p, (∀ af length, Laid r.memory ⟨p.1, p.2.1, af, length, p.2.2⟩ name aliases addresses) ∧
        r.outs = write p o :=
  converges_of_needs fun hlen => packLaid_needs hlen hname haliases hsize

variable {a : Addresses} {n : Name}

theorem renderHostent_converges (af : Int32) (hname : octets a.canonical = n.display)
    (hvec : InVec a) :
    Converges (renderHostent a af) (hostentSize a) fun o r =>
      Laid r.memory r.outs.result n.display [] (a.addresses.map AddressOut.address) ∧
        r.outs = { o with
          result := { r.outs.result with hAddrtype := af, hLength := if af = afInet6 then 16 else 4 }
          ttl := o.ttl.map fun _ => leastTtl (a.addresses.map AddressOut.ttl)
          canon := o.canon.map fun _ => r.outs.result.hName } := by
  have hsize : hostentSize a < 2 ^ 64 := by
    have hle := laidSize_le n.display [] (a.addresses.map AddressOut.address)
    have hdisplay := n.length_display_le
    unfold InVec at hvec
    simp only [map_nil, sum_nil, length_nil, length_map] at hle
    rw [hostentSize, hname]
    omega
  rw [hostentSize, hname] at hsize ⊢
  rw [renderHostent, packHostent_eq, hname]
  refine (packLaid_converges n.zero_notMem_display (by simp) hsize).mono fun o r h => ?_
  obtain ⟨p, hlaid, houts⟩ := h
  rw [houts]
  exact ⟨hlaid _ _, rfl⟩

theorem renderAddrtuples_converges (hname : octets a.canonical = n.display) (hvec : InVec a) :
    Converges (renderAddrtuples a) (tuplesSize a) fun o r =>
      ∃ canonical first, CString r.memory canonical n.display ∧
      Tuples r.memory canonical first (a.addresses.map AddressOut.address) ∧
      r.outs = { o with
        pat := o.pat.map fun _ => first
        ttl := o.ttl.map fun _ => leastTtl (a.addresses.map AddressOut.ttl) } := by
  have hsize : tuplesSize a < 2 ^ 64 := by
    have hle := tuplesSize_le a
    have hdisplay := n.length_display_le
    unfold InVec at hvec
    rw [hname] at hle
    omega
  have hnul : 0 ∉ octets a.canonical := by
    rw [hname]
    exact n.zero_notMem_display
  refine (converges_of_needs (Q := fun first m => ∃ canonical, CString m canonical n.display ∧
    Tuples m canonical first (a.addresses.map AddressOut.address)) fun hlen =>
      ?_).mono fun o r h => ?_
  · refine (packAddrtuples_needs hlen hnul hsize).mono fun _ first m hm hbound => ?_
    rw [← hname]
    exact ⟨_, hm hbound⟩
  · obtain ⟨first, ⟨canonical, hstring, htuples⟩, houts⟩ := h
    exact ⟨canonical, first, hstring, htuples, houts⟩

theorem renderNames_converges {a : Answer} {address : IpAddr} (af : Int32) (len : UInt32)
    {first : Bytes} {others : List Bytes} (hnames : ptrNames a = first :: others)
    (htext : ∀ r ∈ a.records, r.rtype = ptr → ∃ n : Name, octets r.text = n.display)
    (hmem : InMemory a) :
    Converges (renderNames a address af len) (namesSize (ptrNames a) address) fun o r =>
      Laid r.memory r.outs.result first others [address] ∧
        r.outs = { o with
          result := { r.outs.result with hAddrtype := af, hLength := len.toInt32 }
          ttl := o.ttl.map fun _ => leastTtl (a.records.map RecordOut.ttl) } := by
  have hnul : ∀ t ∈ first :: others, 0 ∉ t := by
    intro t ht
    rw [← hnames, ptrNames, mem_map] at ht
    obtain ⟨r, hr, rfl⟩ := ht
    obtain ⟨hr, htype⟩ := mem_filter.mp hr
    obtain ⟨n, hn⟩ := htext r hr (by simpa using htype)
    exact fun h0 => n.zero_notMem_display (hn ▸ (trimEndDots_sublist _).subset h0)
  rw [forall_mem_cons] at hnul
  have hsize : laidSize first others [address] < 2 ^ 64 := by
    have hle := laidSize_le first others [address]
    have hsum := (ptrNames_sum_le a).trans hmem
    have hothers : (others.map fun t => t.length + 1).sum + 79 * others.length =
        (others.map fun t => 80 + t.length).sum := by
      simp only [sum_map_add, map_const', sum_replicate_nat]
      omega
    rw [hnames, map_cons, sum_cons] at hsum
    rw [length_singleton] at hle
    omega
  rw [renderNames, hnames]
  simp only [packNames_eq]
  refine (packLaid_converges hnul.1 hnul.2 hsize).mono fun o r h => ?_
  obtain ⟨p, hlaid, houts⟩ := h
  rw [houts]
  exact ⟨hlaid _ _, rfl⟩

/-- The module takes an answer for a value only when it has a name. -/
theorem ptrNames_of_classifyReverse {a : Answer} (h : classifyReverse a = .value a) :
    ∃ first others, ptrNames a = first :: others := by
  have hany : (a.records.any fun r => r.rtype == ptr) = true := by
    unfold classifyReverse at h
    split at h
    · cases h
    · cases h
    · split at h
      · next hany => exact hany
      · cases h
  obtain ⟨r, hr, htype⟩ := any_eq_true.mp hany
  refine exists_cons_of_ne_nil (ne_nil_of_mem (a := trimEndDots (octets r.text)) ?_)
  exact mem_map.mpr ⟨r, mem_filter.mpr ⟨hr, htype⟩, rfl⟩

/-- **Retries with a larger buffer converge**, in each of the renderings and for every answer whose
texts are those of names. -/
theorem retries_converge :
    (∀ (a : Addresses) (n : Name) (af : Int32), octets a.canonical = n.display → InVec a →
      Converges (renderHostent a af) (hostentSize a) fun o r =>
        Laid r.memory r.outs.result n.display [] (a.addresses.map AddressOut.address) ∧
          r.outs = { o with
            result := { r.outs.result with hAddrtype := af, hLength := if af = afInet6 then 16 else 4 }
            ttl := o.ttl.map fun _ => leastTtl (a.addresses.map AddressOut.ttl)
            canon := o.canon.map fun _ => r.outs.result.hName }) ∧
    (∀ (lookup : Bytes → Family → Got Addresses) (name : Bytes) (a : Addresses) (n : Name),
      resolveAddresses lookup name .any = .value a → octets a.canonical = n.display → InVec a →
      Converges (gethostbyname4 lookup (some name)) (tuplesSize a) fun o r => ∃ canonical first,
        CString r.memory canonical n.display ∧
          Tuples r.memory canonical first (a.addresses.map AddressOut.address) ∧
          r.outs = { o with
            pat := o.pat.map fun _ => first
            ttl := o.ttl.map fun _ => leastTtl (a.addresses.map AddressOut.ttl) }) ∧
    ∀ (reverse : IpAddr → Got Answer) (addr : Bytes) (len : UInt32) (af : Int32) (address : IpAddr)
      (a : Answer),
      addressOf addr af len = some address →
      (if address.isLoopback then .value loopbackAnswer else reverse address) = .value a →
      classifyReverse a = .value a →
      (∀ r ∈ a.records, r.rtype = ptr → ∃ n : Name, octets r.text = n.display) → InMemory a →
      ∃ first others, ptrNames a = first :: others ∧
        Converges (gethostbyaddr2 reverse (some addr) len af)
          (namesSize (ptrNames a) address) fun o r =>
          Laid r.memory r.outs.result first others [address] ∧
            r.outs = { o with
              result := { r.outs.result with hAddrtype := af, hLength := len.toInt32 }
              ttl := o.ttl.map fun _ => leastTtl (a.records.map RecordOut.ttl) } := by
  refine ⟨fun a n af hname hvec => renderHostent_converges af hname hvec, ?_, ?_⟩
  · intro lookup name a n hgot hname hvec
    rw [gethostbyname4]
    simp only [hgot, Got.render]
    exact renderAddrtuples_converges hname hvec
  · intro reverse addr len af address a haddr hgot hclass htext hmem
    obtain ⟨first, others, hnames⟩ := ptrNames_of_classifyReverse hclass
    refine ⟨first, others, hnames, ?_⟩
    rw [gethostbyaddr2]
    simp only [haddr, hgot, Got.render]
    exact renderNames_converges af len hnames htext hmem

theorem retries_converge_localhost :
    (∀ buffer buflen memory o,
      (renderHostent (localAddresses .any) afInet buffer buflen memory o).status = .success ↔
        84 ≤ buflen.toNat) ∧
    (∀ buffer buflen memory o,
      (gethostbyname4 (fun _ _ => .unavailable)
        (some (ascii "localhost")) buffer buflen memory o).status = .success ↔
        96 ≤ buflen.toNat) ∧
    ∀ buffer buflen memory o,
      (gethostbyaddr2 (fun _ => .unavailable)
        (some [127, 0, 0, 1]) 4 afInet buffer buflen memory o).status = .success ↔
        60 ≤ buflen.toNat := by
  obtain ⟨hhostent, htuples, hnames⟩ := retries_converge
  have hname : octets "localhost" = Engine.localhost.display := by decide
  refine ⟨?_, ?_, ?_⟩
  · exact (hhostent (localAddresses .any) Engine.localhost afInet hname (by decide)).success_iff
  · exact (htuples _ (ascii "localhost") (localAddresses .any) Engine.localhost rfl hname
      (by decide)).success_iff
  · obtain ⟨first, others, -, hconverges⟩ := hnames (fun _ => .unavailable) [127, 0, 0, 1] 4 afInet
      (.v4 IpAddr.localhost4) loopbackAnswer rfl rfl rfl
      (by simpa [loopbackAnswer] using ⟨Engine.localhost, hname⟩) (by decide)
    exact hconverges.success_iff

end Converges

end Resolvd.Nss
