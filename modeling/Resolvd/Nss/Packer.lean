import Resolvd.Lib.Memory

/-!
# Packing an answer into the caller's buffer

`nss::buffer::Packer` fills a buffer from its start: each call rounds up to its alignment, checks
that there is room and returns a pointer to what it has reserved.  `str`, `bytes` and `pointers`
also write there.  The model keeps the memory behind the buffer, so that what a call has written can
be read back when all calls are done.

`usize` has 64 bits.  Sums and products wrap where the source does not check them: the release
profile sets no overflow checks.  That matters in two places.  The size of an array of `count`
pointers, `(count + 1) * 8`, is taken modulo 2^64, so that the array of a large enough `count` is
given no room at all; and rounding up to a multiple of the alignment starts again at the front of
the buffer when the multiple is no `usize`.  With these exceptions every run of calls keeps to the
buffer, each call to octets of its own (`sound_iff`).
-/

namespace Resolvd.Nss

open Lib List

/-! ### The packer -/

/-- `usize` arithmetic that is not checked. -/
def wrap (n : ℕ) : ℕ := n % 2 ^ 64

/-- `Packer`. -/
structure Packer where
  base : ℕ
  len : ℕ
  used : ℕ

/-- The packer and the memory its pointer leads to. -/
structure Space extends Packer where
  memory : Memory

/-- A method of `Packer`, or a sequence of them that `None` ends. -/
def Packing (α : Type) := Space → Option α × Space

namespace Packing

variable {α β : Type}

/-- `?` and `let … else` between two calls. -/
instance : Monad Packing where
  pure a := fun s => (some a, s)
  bind m f := fun s =>
    match m s with
    | (none, s') => (none, s')
    | (some a, s') => f a s'

/-- `return None`. -/
def fail : Packing α := fun s => (none, s)

/-- A write through a pointer. -/
def write (dst : ℕ) (bs : Bytes) : Packing Unit := fun s =>
  (some (), { s with memory := s.memory.store dst bs })

/-- `Packer::offset`. -/
def offset (size align : ℕ) : Packing ℕ := fun s =>
  let start := wrap (roundUp align s.used)
  -- `start.checked_add(size)?`
  if 2 ^ 64 ≤ start + size then (none, s)
  else if start + size > s.len then (none, s)
  else (some start, { s with used := start + size })

/-- `self.base.add(start)`. -/
def address (start : ℕ) : Packing ℕ := fun s => (some (s.base + start), s)

/-- `Packer::reserve`. -/
def reserve (size align : ℕ) : Packing ℕ := do
  let start ← offset size align
  address start

/-- `Packer::str`, on the octets of the text. -/
def str (value : Bytes) : Packing ℕ :=
  if 0 ∈ value then fail
  else do
    let dst ← reserve (value.length + 1) 1
    write dst value
    write (dst + value.length) [0]
    return dst

/-- `Packer::bytes`. -/
def bytes (value : Bytes) (align : ℕ) : Packing ℕ := do
  let dst ← reserve value.length align
  write dst value
  return dst

/-- A pointer in memory. -/
def pointer (p : ℕ) : Bytes := toLe 8 p

/-- `dst.add(i).write(null_mut())` for the `n` first slots. -/
def nulls (dst : ℕ) : ℕ → Packing Unit
  | 0 => return ()
  | n + 1 => do
    nulls dst n
    write (dst + 8 * n) (pointer 0)

/-- `Packer::pointers`. -/
def pointers (count : ℕ) : Packing ℕ := do
  let dst ← reserve (wrap (wrap (count + 1) * 8)) 8
  nulls dst (count + 1)
  return dst

theorem bind_apply_some {m : Packing α} {f : α → Packing β} {s s' : Space} {a : α}
    (h : m s = (some a, s')) : (m >>= f) s = f a s' := by
  simp only [bind, h]

theorem bind_apply_none {m : Packing α} {f : α → Packing β} {s s' : Space} (h : m s = (none, s')) :
    (m >>= f) s = (none, s') := by
  simp only [bind, h]

end Packing

/-! ### What one call does -/

/-- Where a call with this alignment begins. -/
def Space.start (s : Space) (align : ℕ) : ℕ := wrap (roundUp align s.used)

/-- `size` octets at `align`, of which the first are `content`; nothing is changed where there is no
room. -/
def put (size align : ℕ) (content : Bytes) : Packing ℕ := fun s =>
  if s.start align + size ≤ s.len then
    (some (s.base + s.start align),
      { s with used := s.start align + size, memory := s.memory.store (s.base + s.start align) content })
  else (none, s)

/-- The length of the buffer is a `usize`, and no more of it is used than there is. -/
structure Space.Valid (s : Space) : Prop where
  len_lt : s.len < 2 ^ 64
  used_le : s.used ≤ s.len

section Put

variable {s : Space} {size align : ℕ} {content : Bytes}

theorem put_some (h : s.start align + size ≤ s.len) :
    put size align content s = (some (s.base + s.start align),
      { s with used := s.start align + size, memory := s.memory.store (s.base + s.start align) content }) := if_pos h

theorem put_none (h : ¬ s.start align + size ≤ s.len) :
    put size align content s = (none, s) := if_neg h

theorem reserve_eq (hlen : s.len < 2 ^ 64) :
    Packing.reserve size align s = put size align [] s := by
  by_cases hfit : s.start align + size ≤ s.len
  · have hoff : Packing.offset size align s = (some (s.start align),
        { s with used := s.start align + size }) := by
      rw [Space.start] at hfit ⊢
      simp only [Packing.offset]
      rw [if_neg (by omega), if_neg (by omega)]
    rw [Packing.reserve, Packing.bind_apply_some hoff, put_some hfit]
    simp [Packing.address]
  · have hoff : Packing.offset size align s = (none, s) := by
      rw [Space.start] at hfit
      simp only [Packing.offset]
      rw [if_pos (show _ > s.len by omega), ite_self]
    rw [Packing.reserve, Packing.bind_apply_none hoff, put_none hfit]

theorem reserve_write {f : ℕ → Packing ℕ} (hlen : s.len < 2 ^ 64)
    (hf : ∀ dst t, f dst t = (some dst, { t with memory := t.memory.store dst content })) :
    (Packing.reserve size align >>= f) s = put size align content s := by
  have hres : Packing.reserve size align s = _ := reserve_eq hlen
  by_cases hfit : s.start align + size ≤ s.len
  · rw [put_some hfit] at hres ⊢
    rw [Packing.bind_apply_some hres, hf]
    simp
  · rw [put_none hfit] at hres ⊢
    rw [Packing.bind_apply_none hres]

theorem nulls_eq (dst n : ℕ) (t : Space) : Packing.nulls dst n t =
    (some (), { t with memory := t.memory.store dst (List.replicate (8 * n) 0) }) := by
  induction n generalizing t with
  | zero => simp [Packing.nulls, Pure.pure]
  | succ n ih =>
    have hnull : Packing.pointer 0 = List.replicate 8 0 := by decide
    have hstore : (t.memory.store dst (List.replicate (8 * n) 0)).store (dst + 8 * n)
        (List.replicate 8 0) =
        t.memory.store dst (List.replicate (8 * n + 8) 0) := by
      have := t.memory.store_store dst (List.replicate (8 * n) 0) (List.replicate 8 0)
      rwa [length_replicate, replicate_append_replicate] at this
    rw [Packing.nulls, Packing.bind_apply_some (ih t), Packing.write, hnull, hstore, Nat.mul_succ]

theorem str_eq (hlen : s.len < 2 ^ 64) {value : Bytes} (hv : 0 ∉ value) :
    Packing.str value s = put (value.length + 1) 1 (value ++ [0]) s := by
  rw [Packing.str, if_neg hv]
  refine reserve_write hlen fun dst t => ?_
  rw [← Memory.store_store]
  rfl

theorem bytes_eq (hlen : s.len < 2 ^ 64) (value : Bytes) (align : ℕ) :
    Packing.bytes value align s = put value.length align value s :=
  reserve_write hlen fun _ _ => rfl

theorem pointers_eq (hlen : s.len < 2 ^ 64) (count : ℕ) :
    Packing.pointers count s =
      put (wrap (wrap (count + 1) * 8)) 8 (List.replicate (8 * (count + 1)) 0) s := by
  refine reserve_write hlen fun dst t => ?_
  rw [Packing.bind_apply_some (nulls_eq dst (count + 1) t)]
  rfl

/-- The size of an array is what it should be as long as it is a `usize`. -/
theorem wrap_pointers {count : ℕ} (h : 8 * (count + 1) < 2 ^ 64) :
    wrap (wrap (count + 1) * 8) = 8 * (count + 1) := by
  have h1 : wrap (count + 1) = count + 1 := Nat.mod_eq_of_lt (by omega)
  rw [h1, wrap, Nat.mod_eq_of_lt (by omega), Nat.mul_comm]

end Put

/-! ### Runs of calls -/

/-- A call of a method of `Packer` with its arguments. -/
inductive Call where
  | reserve (size align : UInt64)
  | str (value : Bytes)
  | bytes (value : Bytes) (align : UInt64)
  | pointers (count : UInt64)

namespace Call

/-- The method called. -/
def run : Call → Packing ℕ
  | reserve size align => Packing.reserve size.toNat align.toNat
  | str value => Packing.str value
  | bytes value align => Packing.bytes value align.toNat
  | pointers count => Packing.pointers count.toNat

def align : Call → ℕ
  | reserve _ align => align.toNat
  | str _ => 1
  | bytes _ align => align.toNat
  | pointers _ => 8

/-- What the call writes: a string with its NUL, an array with its null slot. -/
def content : Call → Bytes
  | reserve _ _ => []
  | str value => value ++ [0]
  | bytes value _ => value
  | pointers count => List.replicate (8 * (count.toNat + 1)) 0

/-- The number of octets from the pointer on that are the call's. -/
def extent : Call → ℕ
  | reserve size _ => size.toNat
  | c => c.content.length

/-- The number of octets for which the call looks for room. -/
def asked : Call → ℕ
  | pointers count => wrap (wrap (count.toNat + 1) * 8)
  | c => c.extent

/-- It is a string that holds a NUL. -/
def hasNul : Call → Bool
  | str value => decide (0 ∈ value)
  | _ => false

variable {c : Call} {s : Space}

theorem align_lt (c : Call) : c.align < 2 ^ 64 := by
  cases c with
  | reserve size align => exact align.toNat_lt
  | bytes value align => exact align.toNat_lt
  | str value => exact show 1 < 2 ^ 64 by decide
  | pointers count => exact show 8 < 2 ^ 64 by decide

theorem content_le_extent (c : Call) : c.content.length ≤ c.extent := by
  cases c <;> simp [content, extent]

theorem asked_eq (h : c.extent < 2 ^ 64) : c.asked = c.extent := by
  cases c with
  | pointers count =>
    have hlt : 8 * (count.toNat + 1) < 2 ^ 64 := by simpa [extent, content] using h
    rw [asked, wrap_pointers hlt]
    simp [extent, content]
  | _ => rfl

/-- **What a call does**: it puts its content where there is room; a string that holds a NUL is
refused. -/
theorem run_eq (hs : s.Valid) :
    c.run s = if c.hasNul then (none, s) else put c.asked c.align c.content s := by
  cases c with
  | reserve size align => exact reserve_eq hs.len_lt
  | str value =>
    by_cases hv : 0 ∈ value
    · rw [if_pos (by simpa [hasNul] using hv), run, Packing.str, if_pos hv]
      rfl
    · rw [if_neg (by simpa [hasNul] using hv), run, str_eq hs.len_lt hv]
      simp [asked, extent, content, align]
  | bytes value align => exact bytes_eq hs.len_lt value align.toNat
  | pointers count => exact pointers_eq hs.len_lt count.toNat

/-- A call changes nothing, or it takes its place where there is room. -/
theorem run_cases (hs : s.Valid) :
    c.run s = (none, s) ∨
      s.start c.align + c.asked ≤ s.len ∧
      c.run s = (some (s.base + s.start c.align),
        { s with
          used := s.start c.align + c.asked
          memory := s.memory.store (s.base + s.start c.align) c.content }) := by
  rw [run_eq hs]
  split
  · exact .inl rfl
  · by_cases hfit : s.start c.align + c.asked ≤ s.len
    · exact .inr ⟨hfit, put_some hfit⟩
    · exact .inl (put_none hfit)

end Call

/-- The calls one after the other: those that succeed with their pointers, and what is then there.
-/
def runCalls : List Call → Space → List (Call × ℕ) × Space
  | [], s => ([], s)
  | c :: calls, s =>
    let (p, s') := c.run s
    let (done, t) := runCalls calls s'
    ((p.map fun p => (c, p)).toList ++ done, t)

/-- `Packer::new`, on a memory. -/
def Space.new (base : ℕ) (len : UInt64) (memory : Memory) :
    Space := { base, len := len.toNat, used := 0, memory }

/-- What is to hold of a run: the octets of each call that succeeds lie in the buffer, behind those
of the calls before it, and hold what the call has written when all is done; no more is used than
there is at any time, and a call that is refused changes nothing. -/
structure Sound (calls : List Call) (s : Space) : Prop where
  inside : ∀ r ∈ (runCalls calls s).1, s.base ≤ r.2 ∧ r.2 + r.1.extent ≤ s.base + s.len
  apart : (runCalls calls s).1.Pairwise fun r r' => r.2 + r.1.extent ≤ r'.2
  holds : ∀ r ∈ (runCalls calls s).1,
    (runCalls calls s).2.memory.load r.2 r.1.content.length = r.1.content
  used_le : ∀ first, first <+: calls → (runCalls first s).2.used ≤ s.len
  refused : ∀ first c, first ++ [c] <+: calls → (c.run (runCalls first s).2).1 = none →
    (c.run (runCalls first s).2).2 = (runCalls first s).2

/-- The call finds room although the place where it should begin, or its size, is no `usize`. -/
def Call.Overshoots (c : Call) (s : Space) : Prop :=
  (2 ^ 64 ≤ roundUp c.align s.used ∨ 2 ^ 64 ≤ c.extent) ∧ s.start c.align + c.asked ≤ s.len

/-- No call of the run overshoots in what it finds. -/
def NoneOvershoots : List Call → Space → Prop
  | [], _ => True
  | c :: calls, s => ¬ c.Overshoots s ∧ NoneOvershoots calls (c.run s).2

section Runs

variable {c : Call} {calls : List Call} {s t : Space} {done : List (Call × ℕ)}

/-- The buffer stays where it is, and what is used of it stays within. -/
structure Space.Follows (s t : Space) : Prop where
  base_eq : t.base = s.base
  len_eq : t.len = s.len
  valid : t.Valid

theorem Call.run_follows (c : Call) (hs : s.Valid) : s.Follows (c.run s).2 := by
  rcases c.run_cases hs with h | ⟨hfit, h⟩
  · rw [h]
    exact ⟨rfl, rfl, hs⟩
  · rw [h]
    exact ⟨rfl, rfl, hs.len_lt, hfit⟩

theorem runCalls_follows (calls : List Call) (hs : s.Valid) : s.Follows (runCalls calls s).2 := by
  induction calls generalizing s with
  | nil => exact ⟨rfl, rfl, hs⟩
  | cons c calls ih =>
    have h1 := c.run_follows hs
    have h2 := ih h1.valid
    exact ⟨h2.base_eq.trans h1.base_eq, h2.len_eq.trans h1.len_eq, h2.valid⟩

/-- A call that does not overshoot begins behind what is used, and has the octets it should have. -/
theorem Call.run_cases_of_not_overshoots (hs : s.Valid) (ha : 0 < c.align) (ho : ¬ c.Overshoots s) :
    c.run s = (none, s) ∨
      ∃ p, s.base + s.used ≤ p ∧ (c.run s).1 = some p ∧ s.base + (c.run s).2.used = p + c.extent ∧
        (c.run s).2.memory = s.memory.store p c.content := by
  rcases c.run_cases hs with h | ⟨hfit, h⟩
  · exact .inl h
  · obtain ⟨hround, hext⟩ : roundUp c.align s.used < 2 ^ 64 ∧ c.extent < 2 ^ 64 := by
      constructor <;> by_contra hge
      · exact ho ⟨.inl (by omega), hfit⟩
      · exact ho ⟨.inr (by omega), hfit⟩
    have hstart : s.start c.align = roundUp c.align s.used := Nat.mod_eq_of_lt hround
    have hle := le_roundUp (n := s.used) ha
    refine .inr ⟨s.base + s.start c.align, by omega, by rw [h], ?_, by rw [h]⟩
    rw [h, Call.asked_eq hext]
    simp only
    omega

/-- What a run has put behind what was used before. -/
structure Fills (s : Space) (done : List (Call × ℕ)) (t : Space) : Prop where
  used_le : s.used ≤ t.used
  within : ∀ r ∈ done, s.base + s.used ≤ r.2 ∧ r.2 + r.1.extent ≤ s.base + t.used
  apart : done.Pairwise fun r r' => r.2 + r.1.extent ≤ r'.2
  keeps : Memory.Keeps (Set.Ico (s.base + s.used) (s.base + t.used)) s.memory t.memory
  holds : ∀ r ∈ done, t.memory.load r.2 r.1.content.length = r.1.content

/-- A call in front of a run: its octets, and behind them those of the run. -/
theorem Fills.cons {s' : Space} {p : ℕ} (h : Fills s' done t) (hbase : s'.base = s.base)
    (hp : s.base + s.used ≤ p) (hused : s.base + s'.used = p + c.extent)
    (hmem : s'.memory = s.memory.store p c.content) : Fills s ((c, p) :: done) t where
  used_le := by
    have := h.used_le
    omega
  within := by
    have ht := h.used_le
    rw [forall_mem_cons]
    refine ⟨⟨hp, by simp only; omega⟩, fun r hr => ?_⟩
    have := h.within r hr
    omega
  apart := by
    refine pairwise_cons.mpr ⟨fun r hr => ?_, h.apart⟩
    have := h.within r hr
    simp only
    omega
  keeps := by
    have hstore := s.memory.keeps_store p c.content
    rw [← hmem] at hstore
    have hcon := c.content_le_extent
    have ht := h.used_le
    refine (hstore.trans h.keeps).mono (Set.union_subset ?_ ?_)
    · exact Set.Ico_subset_Ico hp (by omega)
    · exact Set.Ico_subset_Ico (by omega) (by omega)
  holds := by
    rw [forall_mem_cons]
    refine ⟨?_, h.holds⟩
    have hcon := c.content_le_extent
    have hapart : Disjoint (Set.Ico p (p + c.content.length))
        (Set.Ico (s'.base + s'.used) (s'.base + t.used)) := by
      refine Set.disjoint_left.mpr fun x hx hx' => ?_
      have := hx.2
      have := hx'.1
      omega
    rw [h.keeps.load hapart, hmem, Memory.load_store]

theorem runCalls_cons_none (h : c.run s = (none, s)) :
    runCalls (c :: calls) s = runCalls calls s := by
  simp [runCalls, h]

theorem runCalls_cons_some {p : ℕ} (h : (c.run s).1 = some p) :
    runCalls (c :: calls) s = ((c, p) :: (runCalls calls (c.run s).2).1,
      (runCalls calls (c.run s).2).2) := by
  simp [runCalls, h]

/-- **A run in which no call overshoots fills the buffer in order.** -/
theorem runCalls_fills (hs : s.Valid) (ha : ∀ c ∈ calls, 0 < c.align)
    (ho : NoneOvershoots calls s) : Fills s (runCalls calls s).1 (runCalls calls s).2 := by
  induction calls generalizing s with
  | nil => exact ⟨le_rfl, by simp [runCalls], by simp [runCalls], .refl _ _, by simp [runCalls]⟩
  | cons c calls ih =>
    rw [forall_mem_cons] at ha
    obtain ⟨hc, ho⟩ := ho
    have hfol := c.run_follows hs
    have hfills := ih hfol.valid ha.2 ho
    rcases c.run_cases_of_not_overshoots hs ha.1 hc with h | ⟨p, hp, h, hused, hmem⟩
    · rw [h] at hfills
      rwa [runCalls_cons_none h]
    · rw [runCalls_cons_some h]
      exact hfills.cons hfol.base_eq hp hused hmem

/-- A call that overshoots is given a pointer: to the octets of the calls before it, or to fewer
than it should have. -/
theorem Call.Overshoots.run_eq (hs : s.Valid) (h : c.Overshoots s) :
    (c.run s).1 = some (s.base + s.start c.align) ∧
      (s.start c.align < s.used ∨ 2 ^ 64 ≤ c.extent) := by
  obtain ⟨hwrap, hfit⟩ := h
  have hlen := hs.len_lt
  have hused := hs.used_le
  -- A string overshoots in neither way, so that no NUL is in the way of the pointer.
  have hnul : c.hasNul = false := by
    cases c with
    | str value =>
      have hround : roundUp 1 s.used = s.used := by simp [roundUp, Nat.mod_one]
      simp only [align, hround, asked] at hwrap hfit
      omega
    | _ => rfl
  refine ⟨by rw [Call.run_eq hs, if_neg (by simp [hnul]), put_some hfit], ?_⟩
  rcases hwrap with hround | hext
  · refine .inl ?_
    rcases Nat.eq_zero_or_pos c.align with h0 | hpos
    · rw [h0, roundUp, Nat.mul_zero] at hround
      omega
    · have hlt := roundUp_lt (n := s.used) hpos
      have halign := c.align_lt
      rw [Space.start, wrap, Nat.mod_eq_sub_mod hround, Nat.mod_eq_of_lt (by omega)]
      omega
  · exact .inr hext

/-- A run whose calls are where they should be has none that overshoots. -/
theorem noneOvershoots_of_apart (hs : s.Valid) (ha : ∀ c ∈ calls, 0 < c.align)
    (hlt : ∀ r ∈ (runCalls calls s).1, r.1.extent < 2 ^ 64)
    (hle : ∀ r ∈ (runCalls calls s).1, s.base + s.used ≤ r.2)
    (hapart : (runCalls calls s).1.Pairwise fun r r' => r.2 + r.1.extent ≤ r'.2) :
    NoneOvershoots calls s := by
  induction calls generalizing s with
  | nil => trivial
  | cons c calls ih =>
    rw [forall_mem_cons] at ha
    have hfol := c.run_follows hs
    have hc : ¬ c.Overshoots s := by
      intro hover
      obtain ⟨hrun, hwrong⟩ := hover.run_eq hs
      rw [runCalls_cons_some hrun] at hlt hle
      have h1 : c.extent < 2 ^ 64 := hlt _ mem_cons_self
      have h2 : s.base + s.used ≤ s.base + s.start c.align := hle _ mem_cons_self
      omega
    refine ⟨hc, ?_⟩
    rcases c.run_cases_of_not_overshoots hs ha.1 hc with h | ⟨p, hp, h, hused, -⟩
    · rw [runCalls_cons_none h] at hlt hle hapart
      rw [h]
      exact ih hs ha.2 hlt hle hapart
    · rw [runCalls_cons_some h] at hlt hle hapart
      obtain ⟨hfirst, hrest⟩ := pairwise_cons.mp hapart
      refine ih hfol.valid ha.2 (fun r hr => hlt r (mem_cons_of_mem _ hr)) (fun r hr => ?_) hrest
      have : p + c.extent ≤ r.2 := hfirst r hr
      rw [hfol.base_eq]
      omega

theorem Space.new_valid (base : ℕ) (len : UInt64) (memory : Memory) :
    (Space.new base len memory).Valid :=
  ⟨len.toNat_lt, Nat.zero_le _⟩

/-- **A run of calls keeps to the buffer, each call to octets of its own, exactly when no call finds
room although its place or its size has wrapped.** -/
theorem sound_iff (calls : List Call) (base : ℕ) (len : UInt64) (memory : Memory)
    (ha : ∀ c ∈ calls, 0 < c.align) :
    Sound calls (Space.new base len memory) ↔ NoneOvershoots calls (Space.new base len memory) := by
  have hs := Space.new_valid base len memory
  constructor
  · intro h
    refine noneOvershoots_of_apart hs ha (fun r hr => ?_) (fun r hr => (h.inside r hr).1) h.apart
    have hin := h.inside r hr
    have hlen := hs.len_lt
    omega
  · intro h
    have hfills := runCalls_fills hs ha h
    have hused := runCalls_follows calls hs
    refine ⟨fun r hr => ?_, hfills.apart, hfills.holds, fun first _ => ?_,
      fun first c _ hnone => ?_⟩
    · have hin := hfills.within r hr
      have hle := hused.valid.used_le
      rw [hused.len_eq] at hle
      omega
    · have hfol := runCalls_follows first hs
      exact hfol.len_eq ▸ hfol.valid.used_le
    · rcases c.run_cases (runCalls_follows first hs).valid with h | ⟨-, h⟩
      · rw [h]
      · rw [h] at hnone
        cases hnone

/-- Calls that together need fewer than 2^64 octets do not overshoot. -/
theorem noneOvershoots_of_small (hs : s.Valid) (ha : ∀ c ∈ calls, 0 < c.align)
    (hn : s.used + (calls.map fun c => c.align + c.extent).sum < 2 ^ 64) :
    NoneOvershoots calls s := by
  induction calls generalizing s with
  | nil => trivial
  | cons c calls ih =>
    rw [forall_mem_cons] at ha
    rw [map_cons, sum_cons] at hn
    have hround := roundUp_lt (n := s.used) ha.1
    have hc : ¬ c.Overshoots s := by
      rintro ⟨hge | hge, -⟩ <;> omega
    refine ⟨hc, ?_⟩
    rcases c.run_cases hs with h | ⟨-, h⟩
    · rw [h]
      exact ih hs ha.2 (by simp only; omega)
    · refine ih (c.run_follows hs).valid ha.2 ?_
      rw [h, Call.asked_eq (by omega), Space.start, wrap, Nat.mod_eq_of_lt (by omega)]
      simp only
      omega

theorem sound_iff_small :
    Sound [.str [0x61, 0x62], .pointers 1, .bytes [127, 0, 0, 1] 4]
      (Space.new 4096 64 fun _ => 0xff) := by
  refine (sound_iff _ 4096 64 _ ?_).mpr (noneOvershoots_of_small (Space.new_valid ..) ?_ ?_)
  · simp [Call.align]
  · simp [Call.align]
  · decide

/-- A buffer of no octets. -/
def noBuffer : Space := .new 4096 0 fun _ => 0xff

/-- An array whose size wraps to nothing is given a pointer, and not its octets.  The number of
pointers is left open, so that nothing is computed from an array that long. -/
theorem not_sound_of_wrap {count : UInt64} (h : 8 * (count.toNat + 1) = 2 ^ 64) :
    (runCalls [.pointers count] noBuffer).1 = [(.pointers count, noBuffer.base)] ∧
      ¬ Sound [.pointers count] noBuffer := by
  have hext : (Call.pointers count).extent = 2 ^ 64 := by
    rw [← h]
    simp [Call.extent, Call.content]
  have hasked : (Call.pointers count).asked = 0 := by
    have hslots : wrap (count.toNat + 1) = count.toNat + 1 := Nat.mod_eq_of_lt (by omega)
    rw [Call.asked, hslots, Nat.mul_comm, h, wrap, Nat.mod_self]
  have hstart : noBuffer.start (Call.pointers count).align = 0 := by
    show noBuffer.start 8 = 0
    decide
  have hover : (Call.pointers count).Overshoots noBuffer := by
    refine ⟨.inr hext.ge, ?_⟩
    rw [hasked, hstart]
    exact Nat.zero_le _
  have hrun : (runCalls [.pointers count] noBuffer).1 = [(.pointers count, noBuffer.base)] := by
    have hvalid : noBuffer.Valid := Space.new_valid ..
    rw [runCalls_cons_some (hover.run_eq hvalid).1, hstart]
    rfl
  refine ⟨hrun, fun hsound => ?_⟩
  have hin := (hsound.inside (.pointers count, noBuffer.base) (by simp [hrun])).2
  have hlen : noBuffer.len = 0 := rfl
  simp only [hext, hlen] at hin
  omega

/-- An array of 2^61 slots is given a pointer into a buffer that has no room for one: its 2^64
octets are 0 octets of `usize`. -/
theorem pointers_overshoot :
    (runCalls [.pointers 0x1fffffffffffffff] noBuffer).1 =
      [(.pointers 0x1fffffffffffffff, noBuffer.base)] ∧
      ¬ Sound [.pointers 0x1fffffffffffffff] noBuffer :=
  not_sound_of_wrap (by decide)

end Runs

end Resolvd.Nss
