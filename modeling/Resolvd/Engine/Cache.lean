import Resolvd.Engine.Types

/-!
# The answer cache

`cache.rs`.  What the rest of the development needs to know is said by two inversions: a hit is a
live entry with its times to live lowered (`get_eq_some`), and every operation but `insert` only
removes (`get_entries`, `insert_entries`, `flushScope_entries`).
-/

namespace Resolvd.Engine.Cache

open Lib Dns

/-- The whole seconds an entry has left, as 32 bits. -/
def remaining (entry : Entry) (now : Instant) : UInt32 :=
  UInt32.ofNat ((entry.expires - now) / secs 1)

/-- The entry `get` hands out: its records' times to live reduced to what is left. -/
def aged (entry : Entry) (now : Instant) : Entry :=
  { entry with records := entry.records.map fun r => { r with ttl := min r.ttl (remaining entry now) } }

/-- `Cache::get`: a live entry; an expired one is removed. -/
def get (c : Cache) (key : CacheKey) (now : Instant) : Option Entry × Cache :=
  match c.entries.get key with
  | none => (none, c)
  | some entry =>
    if entry.expires ≤ now then (none, ⟨c.entries.remove key⟩) else (some (aged entry now), c)

/-- `Cache::insert`: a full cache first drops what has expired, then what expires soonest. -/
def insert (c : Cache) (key : CacheKey) (entry : Entry) (now : Instant) : Cache :=
  let entries :=
    if c.entries.len ≥ maxEntries ∧ c.entries.get key = none then
      let kept := c.entries.retain fun _ e => now < e.expires
      if kept.len ≥ maxEntries then
        match kept.minByKey Entry.expires with
        | some victim => kept.remove victim
        | none => kept
      else kept
    else c.entries
  ⟨entries.insert key entry⟩

/-- `Cache::flush_scope`. -/
def flushScope (c : Cache) (scope : String) : Cache :=
  ⟨c.entries.retain fun k _ => k.scope != scope⟩

/-- `Cache::clear`. -/
def clear (_ : Cache) : Cache := {}

variable {c : Cache} {key k : CacheKey} {entry x : Entry} {now : Instant}

theorem get_eq_some (h : (c.get key now).1 = some entry) :
    ∃ x, c.entries.get key = some x ∧ now < x.expires ∧ entry = aged x now ∧
      (c.get key now).2 = c := by
  unfold get at *
  split at h
  · cases h
  · next x hx =>
    split at h
    · cases h
    · next hlive =>
      rw [if_neg hlive]
      exact ⟨x, hx, not_le.mp hlive, (Option.some.inj h).symm, rfl⟩

/-- A miss forgets at most the entry that was asked for, and only when that has expired. -/
theorem get_eq_none (h : (c.get key now).1 = none) :
    (c.get key now).2 = c ∨
      (∃ x, c.entries.get key = some x ∧ x.expires ≤ now) ∧
        (c.get key now).2 = ⟨c.entries.remove key⟩ := by
  unfold get at *
  split at h
  · exact .inl rfl
  · next x hx =>
    split at h
    · next hexp => rw [if_pos hexp]; exact .inr ⟨⟨x, hx, hexp⟩, rfl⟩
    · cases h

/-- What `get` hands out, as a function of the entries. -/
theorem get_fst (c : Cache) (key : CacheKey) (now : Instant) :
    (c.get key now).1 = ((c.entries.get key).filter fun x => now < x.expires).map fun x =>
      aged x now := by
  unfold get
  split
  · next h => rw [h]; rfl
  · next x h =>
    rw [h]
    split
    · next hexp => rw [Option.filter_some_neg (by simpa using hexp)]; rfl
    · next hlive => rw [Option.filter_some_pos (by simpa using hlive)]; rfl

/-- That an expired entry is forgotten makes no difference. -/
theorem get_fst_remove (hx : c.entries.get k = some x) (hexp : x.expires ≤ now) (key : CacheKey) :
    ((⟨c.entries.remove k⟩ : Cache).get key now).1 = (c.get key now).1 := by
  rw [get_fst, get_fst, Table.get_remove]
  split
  · next hkey =>
    rw [hkey, hx, Option.filter_some_neg (by simpa using hexp)]
    rfl
  · rfl

theorem get_entries (h : (c.get key now).2.entries.get k = some x) : c.entries.get k = some x := by
  cases hr : (c.get key now).1 with
  | some entry =>
    obtain ⟨_, _, _, _, hc⟩ := get_eq_some hr
    rwa [hc] at h
  | none =>
    rcases get_eq_none hr with hc | ⟨-, hc⟩
    · rwa [hc] at h
    · rw [hc, Table.get_remove] at h
      split at h
      · cases h
      · exact h

theorem insert_entries (h : (c.insert key entry now).entries.get k = some x) :
    (k = key ∧ x = entry) ∨ (k ≠ key ∧ c.entries.get k = some x) := by
  simp only [insert, Table.get_insert] at h
  split at h
  · next hk => exact .inl ⟨hk, (Option.some.inj h).symm⟩
  · next hk =>
    refine .inr ⟨hk, ?_⟩
    have hkept : ((c.entries.retain fun _ e => now < e.expires).get k = some x) →
        c.entries.get k = some x := by
      rw [Table.get_retain, Option.filter_eq_some_iff]
      exact And.left
    split at h
    · split at h
      · split at h
        · rw [Table.get_remove] at h
          split at h
          · cases h
          · exact hkept h
        · exact hkept h
      · exact hkept h
    · exact h

theorem flushScope_entries {scope : String} :
    (c.flushScope scope).entries.get k = some x ↔ c.entries.get k = some x ∧ k.scope ≠ scope := by
  simp [flushScope, Table.get_retain, Option.filter_eq_some_iff]

end Resolvd.Engine.Cache
