import Resolvd.Engine.Cache
import Resolvd.Lib.Run

/-!
# What the cache keeps

The cache has room for `MAX_ENTRIES` entries.  `Inserted` says what an insertion may cost the other
entries, `Looked` what a lookup may; a cache that is only used through its methods never has more
entries than there is room for (`cache_keeps_its_bound`).
-/

namespace Resolvd.Engine.Cache

open Lib Dns

/-! ### Insertion -/

/-- The cache `c'` is the cache `c` after an insertion. -/
structure Inserted (c : Cache) (key : CacheKey) (entry : Entry) (now : Instant) (c' : Cache) :
    Prop where
  stored : c'.entries.get key = some entry
  bounded : c'.entries.len ≤ maxEntries
  /-- with room, or in the place of an older entry, it costs nothing -/
  room : c.entries.get key ≠ none ∨ c.entries.len < maxEntries →
    ∀ k, k ≠ key → c'.entries.get k = c.entries.get k
  /-- else it costs the expired entries -/
  swept : c.entries.get key = none → c.entries.len = maxEntries →
    ∀ k x, c.entries.get k = some x → x.expires ≤ now → c'.entries.get k = none
  /-- and no other, if there are such -/
  spared : c.entries.get key = none → c.entries.len = maxEntries →
    (∃ k x, c.entries.get k = some x ∧ x.expires ≤ now) →
    ∀ k x, c.entries.get k = some x → now < x.expires → c'.entries.get k = some x
  /-- but one of those that expire first, if there are none -/
  victim : c.entries.get key = none → c.entries.len = maxEntries →
    (∀ k x, c.entries.get k = some x → now < x.expires) →
    ∃ v y, c.entries.get v = some y ∧ (∀ k x, c.entries.get k = some x → y.expires ≤ x.expires) ∧
      c'.entries.get v = none ∧ ∀ k, k ≠ key → k ≠ v → c'.entries.get k = c.entries.get k

section Insert

variable {c : Cache} {key : CacheKey} {entry : Entry} {now : Instant}

/-- The entries that have not expired. -/
def live (c : Cache) (now : Instant) : Table CacheKey Entry :=
  c.entries.retain fun _ e => now < e.expires

theorem get_live (k : CacheKey) :
    (c.live now).get k = (c.entries.get k).filter fun x => now < x.expires :=
  Table.get_retain _ _ _

theorem insert_room (h : c.entries.get key ≠ none ∨ c.entries.len < maxEntries) :
    c.insert key entry now = ⟨c.entries.insert key entry⟩ := by
  rw [insert, if_neg]
  rintro ⟨hfull, hnone⟩
  rcases h with h | h
  · exact h hnone
  · omega

theorem insert_full (hnone : c.entries.get key = none) (hfull : c.entries.len = maxEntries) :
    c.insert key entry now = ⟨(if (c.live now).len ≥ maxEntries then
      match (c.live now).minByKey Entry.expires with
      | some victim => (c.live now).remove victim
      | none => c.live now
    else c.live now).insert key entry⟩ := by
  rw [insert, if_pos ⟨hfull.ge, hnone⟩]
  rfl

/-- Where an entry has expired, the sweep makes room. -/
theorem insert_swept (entry : Entry) (hnone : c.entries.get key = none)
    (hfull : c.entries.len = maxEntries)
    (hexp : ∃ k x, c.entries.get k = some x ∧ x.expires ≤ now) :
    c.insert key entry now = ⟨(c.live now).insert key entry⟩ ∧ (c.live now).len < maxEntries := by
  obtain ⟨k, x, hk, hx⟩ := hexp
  have hlt : (c.live now).len < maxEntries := hfull ▸ Table.len_retain_lt hk (by simpa using hx)
  rw [insert_full hnone hfull, if_neg (by omega)]
  exact ⟨rfl, hlt⟩

/-- Where none has, an entry that expires first makes room. -/
theorem insert_victim (entry : Entry) (hnone : c.entries.get key = none)
    (hfull : c.entries.len = maxEntries)
    (hlive : ∀ k x, c.entries.get k = some x → now < x.expires) :
    ∃ v y, c.entries.get v = some y ∧ (∀ k x, c.entries.get k = some x → y.expires ≤ x.expires) ∧
      c.insert key entry now = ⟨(c.entries.remove v).insert key entry⟩ := by
  have hself : c.live now = c.entries := Table.retain_eq_self fun k x hk =>
    decide_eq_true (hlive k x hk)
  rw [insert_full hnone hfull, hself, if_pos hfull.ge]
  cases hmin : c.entries.minByKey Entry.expires with
  | none =>
    have := Table.minByKey_eq_none hmin
    rw [hfull] at this
    cases this
  | some v =>
    obtain ⟨y, hy, hleast⟩ := Table.minByKey_eq_some hmin
    exact ⟨v, y, hy, hleast, rfl⟩

theorem insert_stored (c : Cache) (key : CacheKey) (entry : Entry) (now : Instant) :
    (c.insert key entry now).entries.get key = some entry := by
  unfold insert
  rw [Table.get_insert, if_pos rfl]

theorem insert_len (hc : c.entries.len ≤ maxEntries) :
    (c.insert key entry now).entries.len ≤ maxEntries := by
  by_cases hroom : c.entries.get key ≠ none ∨ c.entries.len < maxEntries
  · rw [insert_room hroom]
    cases hk : c.entries.get key with
    | none =>
      have hlt := hroom.resolve_left (fun h => h hk)
      have := c.entries.len_insert_le key entry
      dsimp only
      omega
    | some x => exact (Table.len_insert_of_some hk entry).le.trans hc
  · rw [not_or, not_ne_iff, not_lt] at hroom
    have hfull : c.entries.len = maxEntries := le_antisymm hc hroom.2
    by_cases hexp : ∃ k x, c.entries.get k = some x ∧ x.expires ≤ now
    · obtain ⟨heq, hlt⟩ := insert_swept entry hroom.1 hfull hexp
      have := (c.live now).len_insert_le key entry
      rw [heq]
      dsimp only
      omega
    · have hlive : ∀ k x, c.entries.get k = some x → now < x.expires := fun k x hk =>
        lt_of_not_ge fun hx => hexp ⟨k, x, hk, hx⟩
      obtain ⟨v, y, hv, -, heq⟩ := insert_victim entry hroom.1 hfull hlive
      have hlen := Table.len_remove hv
      have := (c.entries.remove v).len_insert_le key entry
      rw [heq]
      dsimp only
      omega

/-- **What an insertion does.** -/
theorem insert_spec (hc : c.entries.len ≤ maxEntries) :
    Inserted c key entry now (c.insert key entry now) where
  stored := insert_stored c key entry now
  bounded := insert_len hc
  room hroom k hk := by rw [insert_room hroom, Table.get_insert, if_neg hk]
  swept hnone hfull k x hk hx := by
    have hne := Table.ne_of_get hk hnone
    rw [(insert_swept entry hnone hfull ⟨k, x, hk, hx⟩).1, Table.get_insert, if_neg hne,
      get_live, hk]
    exact Option.filter_some_neg (by simpa using hx)
  spared hnone hfull hexp k x hk hx := by
    have hne := Table.ne_of_get hk hnone
    rw [(insert_swept entry hnone hfull hexp).1, Table.get_insert, if_neg hne, get_live, hk]
    exact Option.filter_some_pos (by simpa using hx)
  victim hnone hfull hlive := by
    obtain ⟨v, y, hv, hleast, heq⟩ := insert_victim entry hnone hfull hlive
    have hne := Table.ne_of_get hv hnone
    refine ⟨v, y, hv, hleast, ?_, fun k hkey hkv => ?_⟩
    · rw [heq, Table.get_insert, if_neg hne, Table.get_remove, if_pos rfl]
    · rw [heq, Table.get_insert, if_neg hkey, Table.get_remove, if_neg hkv]

end Insert

/-! ### Lookup -/

/-- What a lookup returns and leaves. -/
structure Looked (c : Cache) (key : CacheKey) (now : Instant) (out : Option Entry) (c' : Cache) :
    Prop where
  unexpired : ∀ entry, out = some entry → ∃ x, c.entries.get key = some x ∧ now < x.expires ∧
    entry = aged x now
  others : ∀ k, k ≠ key → c'.entries.get k = c.entries.get k
  asked : c'.entries.get key = (c.entries.get key).filter fun x => now < x.expires

theorem get_spec (c : Cache) (key : CacheKey) (now : Instant) :
    Looked c key now (c.get key now).1 (c.get key now).2 := by
  refine ⟨fun entry h => ?_, fun k hk => ?_, ?_⟩
  · obtain ⟨x, hx, hlive, heq, -⟩ := get_eq_some h
    exact ⟨x, hx, hlive, heq⟩
  · unfold get
    split
    · rfl
    · split
      · rw [Table.get_remove, if_neg hk]
      · rfl
  · unfold get
    split
    · next h => rw [h]; rfl
    · next x h =>
      split
      · next hexp =>
        rw [Table.get_remove, if_pos rfl, h, Option.filter_some_neg (by simpa using hexp)]
      · next hlive => rw [h, Option.filter_some_pos (by simpa using hlive)]

/-! ### Any sequence of calls -/

/-- A call of a method of the cache. -/
inductive Call where
  | insert (key : CacheKey) (entry : Entry) (now : Instant)
  | get (key : CacheKey) (now : Instant)
  | flushScope (scope : String)
  | clear

/-- The cache after a call, and what the call returned. -/
def call (c : Cache) : Call → Cache × List (Option Entry)
  | .insert key entry now => (c.insert key entry now, [])
  | .get key now => ((c.get key now).2, [(c.get key now).1])
  | .flushScope scope => (c.flushScope scope, [])
  | .clear => (c.clear, [])

/-- A cache that is used through its methods; between two calls its table may come into another
order. -/
def caching : Machine Cache Call (Option Entry) where
  start := fun c => c.entries.len ≤ maxEntries
  step := call
  idle := fun c c' => c.entries.Same c'.entries

theorem get_within (c : Cache) (key : CacheKey) (now : Instant) :
    (c.get key now).2.entries.Within c.entries := by
  intro k x hx
  exact get_entries hx

theorem call_bounded {c : Cache} (hc : c.entries.len ≤ maxEntries) (op : Call) :
    (c.call op).1.entries.len ≤ maxEntries := by
  cases op with
  | insert key entry now => exact insert_len hc
  | get key now => exact (get_within c key now).len_le.trans hc
  | flushScope scope => exact (Table.within_retain _ _).len_le.trans hc
  | clear => exact Nat.zero_le _

theorem run_bounded {log : Log Cache Call} {c : Cache} (h : caching.Run log c) :
    c.entries.len ≤ maxEntries :=
  Machine.Run.invariant (I := fun _ c => c.entries.len ≤ maxEntries) (fun _ h => h)
    (fun _ _ _ hc hidle => (Table.Same.len_eq hidle).le.trans hc)
      (fun _ _ op hc => call_bounded hc op) h

/-- **Insertion, eviction and lookup.**  An insertion into a cache within its bound stores the entry
and stays within the bound, at the cost of nothing, of the expired entries, or of one entry that
expires first; so every cache that is used through its methods is within its bound, and a lookup
there returns only what has not expired and forgets at most the entry it was for, and only when that
has. -/
theorem cache_keeps_its_bound :
    (∀ (c : Cache) key entry now, c.entries.len ≤ maxEntries →
      Inserted c key entry now (c.insert key entry now)) ∧
      ∀ log c, caching.Run log c → c.entries.len ≤ maxEntries ∧
        ∀ key now, Looked c key now (c.get key now).1 (c.get key now).2 :=
  ⟨fun _ _ _ _ hc => insert_spec hc, fun _ c h => ⟨run_bounded h, get_spec c⟩⟩

/-- An entry without records that expires after a nanosecond. -/
def briefly :
    Entry := { outcome := .found, records := [], rcode := 0, server := .v4 IpAddr.localhost4, expires := 1 }

/-- A cache with as many entries of different types. -/
theorem exists_entries {n : ℕ} (hn : n ≤ 65536) : ∃ t : Table CacheKey Entry,
    t.len = n ∧ ∀ k x, t.get k = some x → k.rtype.toNat < n ∧ x = briefly := by
  induction n with
  | zero => exact ⟨Table.empty, rfl, by simp⟩
  | succ n ih =>
    obtain ⟨t, hlen, hall⟩ := ih (by omega)
    have hrtype : (UInt16.ofNat n).toNat = n := by
      simp
      omega
    have hnew : t.get (CacheKey.new Name.root (UInt16.ofNat n) "") = none := by
      cases h : t.get (CacheKey.new Name.root (UInt16.ofNat n) "") with
      | none => rfl
      | some x =>
        have := (hall _ x h).1
        simp only [CacheKey.new] at this
        omega
    refine ⟨t.insert _ briefly, by rw [Table.len_insert hnew, hlen], fun k x hk => ?_⟩
    rw [Table.get_insert] at hk
    split at hk
    · next heq =>
      refine ⟨?_, (Option.some.inj hk).symm⟩
      rw [heq]
      simp only [CacheKey.new]
      omega
    · have := hall k x hk
      exact ⟨by omega, this.2⟩

/-- A full cache of entries that have not expired loses one of them. -/
theorem cache_keeps_its_bound_full : ∃ (c : Cache) (key v : CacheKey), c.entries.len = maxEntries ∧
    c.entries.get v = some briefly ∧ (c.insert key briefly 0).entries.get v = none ∧
    (c.call (.insert key briefly 0)).1.entries.len ≤ maxEntries := by
  obtain ⟨t, hlen, hall⟩ := exists_entries (n := maxEntries) (by decide)
  have hnew : t.get (CacheKey.new Name.root (UInt16.ofNat maxEntries) "") = none := by
    cases h : t.get (CacheKey.new Name.root (UInt16.ofNat maxEntries) "") with
    | none => rfl
    | some x => exact absurd (hall _ x h).1 (by decide)
  have hinserted := cache_keeps_its_bound.1 ⟨t⟩
    (CacheKey.new Name.root (UInt16.ofNat maxEntries) "") briefly 0 hlen.le
  obtain ⟨v, y, hv, -, hgone, -⟩ := hinserted.victim hnew hlen fun k x hk => by
    rw [(hall k x hk).2]
    exact Nat.one_pos
  have hrun : caching.Run [⟨⟨t⟩, _⟩] (call ⟨t⟩ _).1 :=
    .step (.start hlen.le) (List.Perm.refl _)
      (.insert (CacheKey.new Name.root (UInt16.ofNat maxEntries) "") briefly 0)
  exact ⟨⟨t⟩, _, v, hlen, (hall v y hv).2 ▸ hv, hgone, (cache_keeps_its_bound.2 _ _ hrun).1⟩

end Resolvd.Engine.Cache
