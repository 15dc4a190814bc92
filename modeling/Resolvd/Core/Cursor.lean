import Resolvd.Core.Values

/-!
# The reader with its position and its depth

`Reader` is a buffer, a position and a count of the containers that are open.  A method changes it
whether it succeeds or not: `read_int` on an integer that is out of range has advanced by the time
it fails, and `nested` leaves the count as it is when there is no deeper level.  A `Method` keeps
all of that, and a call that has not come back is `none`.

`Sim d m p` says that on a reader at depth `d` the method `m` does what `p` does to the octets that
are left: it advances over what `p` takes, with the count as it was, or fails with the same error.
Every method simulates the reader of `Msgpack` and `Values` of its name, `skip` the one with
`MAX_DEPTH - depth` levels left (`sim_skipUpTo`); that `skip` calls itself at most `MAX_DEPTH`
levels deep is part of the statement.
-/

namespace Resolvd.Msgpack

open Lib Lib.Parser

/-- `Reader`: the buffer, how far it is read, and how many containers are open. -/
structure Cursor where
  buf : Bytes
  pos : ℕ
  depth : UInt32
  deriving DecidableEq

namespace Cursor

/-- The octets that are left. -/
def rest (c : Cursor) : Bytes := c.buf.drop c.pos

/-- `self.pos += k`. -/
def advance (c : Cursor) (k : ℕ) : Cursor := { c with pos := c.pos + k }

/-- `Reader::remaining`. -/
def remaining (c : Cursor) : ℕ := c.buf.length - c.pos

variable (c : Cursor) (j k : ℕ)

@[simp] theorem advance_depth : (c.advance k).depth = c.depth := rfl

@[simp] theorem advance_advance : (c.advance j).advance k = c.advance (j + k) := by
  simp [advance, Nat.add_assoc]

@[simp] theorem rest_advance : (c.advance k).rest = c.rest.drop k := by
  simp [advance, rest, List.drop_drop]

@[simp] theorem length_rest : c.rest.length = c.remaining := by
  simp [rest, remaining]

end Cursor

/-- A method of `Reader` that changes it: `Err` keeps the changes, and a call that has not come back
is `none`. -/
def Method (α : Type) := Cursor → Option (Except Error α × Cursor)

namespace Method

variable {α β : Type}

/-- `?` between two calls. -/
instance : Monad Method where
  pure a := fun c => some (.ok a, c)
  bind m f := fun c =>
    match m c with
    | none => none
    | some (.error e, c') => some (.error e, c')
    | some (.ok a, c') => f a c'

/-- `return Err(e)`. -/
def fail (e : Error) : Method α := fun c => some (.error e, c)

theorem pure_apply (a : α) (c : Cursor) : (pure a : Method α) c = some (.ok a, c) := rfl

theorem bind_apply_ok {m : Method α} {f : α → Method β} {c c' : Cursor} {a : α}
    (h : m c = some (.ok a, c')) : (m >>= f) c = f a c' := by
  simp only [bind, h]

theorem bind_apply_error {m : Method α} {f : α → Method β} {c c' : Cursor} {e : Error}
    (h : m c = some (.error e, c')) : (m >>= f) c = some (.error e, c') := by
  simp only [bind, h]

/-! ### The methods -/

/-- `*self.buf.get(self.pos).ok_or(Error::Truncated)?`. -/
def front : Method UInt8 := fun c =>
  match c.buf[c.pos]? with
  | none => some (.error .truncated, c)
  | some b => some (.ok b, c)

/-- `Reader::byte`. -/
def byte : Method UInt8 := fun c =>
  match c.buf[c.pos]? with
  | none => some (.error .truncated, c)
  | some b => some (.ok b, c.advance 1)

/-- `Reader::take`. -/
def take (n : ℕ) : Method Bytes := fun c =>
  match slice? c.buf c.pos (c.pos + n) with
  | none => some (.error .truncated, c)
  | some s => some (.ok s, c.advance n)

/-- `Reader::be_u`. -/
def beU (n : ℕ) : Method ℕ := ofBe <$> take n

/-- A marker and the number it holds or announces. -/
def size (m : Marks) : Method ℕ := do
  let b ← byte
  if m.short ≤ b.toNat ∧ b.toNat < m.short + m.room then
    return b.toNat - m.short
  match m.wide.lookup b with
  | some w => beU w
  | none => fail .type

/-- `Reader::read_nil`. -/
def readNil : Method Unit := do
  if (← byte) = 0xc0 then return () else fail .type

/-- `Reader::read_bool`. -/
def readBool : Method Bool := do
  let b ← byte
  if b = 0xc2 then return false
  else if b = 0xc3 then return true
  else fail .type

/-- `Reader::read_int`. -/
def readInt : Method ℤ := do
  let b ← byte
  if b ≤ 0x7f then return b.toNat
  else if 0xe0 ≤ b then return signed 1 b.toNat
  else match uintMarks.wide.lookup b with
    | some w => do
      let v ← beU w
      if v < 2 ^ 63 then return v else fail .type
    | none => match intWide.lookup b with
      | some w => signed w <$> beU w
      | none => fail .type

/-- `Reader::read_uint`. -/
def readUint : Method ℕ := do
  let v ← readInt
  if 0 ≤ v then return v.toNat else fail .type

/-- `Reader::read_str`. -/
def readStr : Method String := do
  let n ← size strMarks
  let bs ← take n
  match String.fromUTF8? ⟨bs.toArray⟩ with
  | some s => return s
  | none => fail .utf8

/-- `Reader::read_bin`. -/
def readBin : Method Bytes := do
  let n ← size binMarks
  take n

/-- The number of items in a container; each takes at least `least` octets. -/
def readCount (m : Marks) (least : ℕ) : Method ℕ := do
  let n ← size m
  fun c => if n * least > c.remaining then some (.error .truncated, c) else some (.ok n, c)

/-- `Reader::read_array`. -/
def readArray : Method ℕ := readCount arrayMarks 1

/-- `Reader::read_map`. -/
def readMap : Method ℕ := readCount mapMarks 2

/-- `Reader::nested`.  Where there is no deeper level the count stays as it then is. -/
def nested (f : Method α) : Method α := fun c =>
  if c.depth + 1 > 32 then some (.error .depth, { c with depth := c.depth + 1 })
  else match f { c with depth := c.depth + 1 } with
    | none => none
    | some (r, c') => some (r, { c' with depth := c'.depth - 1 })

/-- `(0..n).try_for_each(|_| m)`. -/
def times (m : Method Unit) : ℕ → Method Unit
  | 0 => pure ()
  | n + 1 => do
    m
    times m n

/-- The arms of `Reader::skip`, where `again` is the call of `skip` for an item. -/
def skipArm (again : Method Unit) : Kind → Method Unit
  | .one => discard byte
  | .fixed => do
    let b ← byte
    discard (take ((fixedSizes.lookup b).getD 0))
  | .ext => do
    let n ← size extMarks
    discard byte
    discard (take n)
  | .str => discard readStr
  | .bin => discard readBin
  | .array => do
    let n ← readArray
    nested (times again n)
  | .map => do
    let n ← readMap
    nested (times (do again; again) n)
  | .reserved => fail .unsupported

/-- `Reader::skip`, cut off where more than `levels` calls of it are open. -/
def skipUpTo : ℕ → Method Unit
  | 0 => fun _ => none
  | levels + 1 => do
    skipArm (skipUpTo levels) (kind (← front))

/-- `Reader::skip`: one call for a value and one for each level there is. -/
def skip : Method Unit := skipUpTo (maxDepth + 1)

end Method

/-! ### A method and the reader it simulates -/

/-- On a reader at depth `d` the method does what `p` does to the octets that are left. -/
def Sim {α : Type} (d : ℕ) (m : Method α) (p : Reader α) : Prop :=
  ∀ c : Cursor, c.pos ≤ c.buf.length → c.depth.toNat = d →
    (∃ a, ∃ k ≤ c.remaining, p c.rest = .ok (a, c.rest.drop k) ∧ m c = some (.ok a, c.advance k)) ∨
      ∃ e c', p c.rest = .error e ∧ m c = some (.error e, c')

namespace Sim

variable {α β : Type} {d : ℕ} {m : Method α} {p : Reader α}

theorem pure (a : α) : Sim d (pure a) (pure a) := fun _ _ _ => .inl ⟨a, 0, Nat.zero_le _, rfl, rfl⟩

theorem fail (e : Error) : Sim d (Method.fail e : Method α) (throw e) :=
  fun c _ _ => .inr ⟨e, c, rfl, rfl⟩

theorem bind {f : α → Method β} {g : α → Reader β} (h : Sim d m p) (hf : ∀ a, Sim d (f a) (g a)) :
    Sim d (m >>= f) (p >>= g) := by
  intro c hc hd
  rcases h c hc hd with ⟨a, k, hk, hp, hm⟩ | ⟨e, c', hp, hm⟩
  · have hc' : (c.advance k).pos ≤ (c.advance k).buf.length := by
      simp only [Cursor.remaining] at hk
      simp only [Cursor.advance]
      omega
    rw [Parser.bind_apply_ok hp, Method.bind_apply_ok hm]
    rcases hf a (c.advance k) hc' hd with ⟨b, l, hl, hq, hn⟩ | ⟨e, c', hq, hn⟩
    · refine .inl ⟨b, k + l, ?_, ?_, ?_⟩
      · simp only [Cursor.remaining, Cursor.advance] at hk hl ⊢
        omega
      · simpa [List.drop_drop] using hq
      · simpa using hn
    · exact .inr ⟨e, c', by simpa using hq, hn⟩
  · refine .inr ⟨e, c', ?_, Method.bind_apply_error hm⟩
    show (p c.rest >>= fun r => g r.1 r.2) = _
    rw [hp]
    rfl

theorem map (f : α → β) (h : Sim d m p) : Sim d (f <$> m) (f <$> p) := by
  rw [map_eq_pure_bind f p]
  exact h.bind fun a => pure (f a)

theorem discard (h : Sim d m p) : Sim d (discard m) (discard p) := h.map _

theorem ite {P : Prop} [Decidable P] {m' : Method α} {p' : Reader α} (h : P → Sim d m p)
    (h' : ¬ P → Sim d m' p') : Sim d (if P then m else m') (if P then p else p') := by
  split
  · next hP => exact h hP
  · next hP => exact h' hP

theorem times {m : Method Unit} {p : Reader Unit} (h : Sim d m p) (n : ℕ) :
    Sim d (m.times n) (p.times n) := by
  induction n with
  | zero => exact pure ()
  | succ n ih => exact h.bind fun _ => ih

end Sim

section Methods

variable {d : ℕ}

theorem rest_of_getElem? {c : Cursor} {b : UInt8} (h : c.buf[c.pos]? = some b) :
    c.rest = b :: c.buf.drop (c.pos + 1) := by
  obtain ⟨hlt, rfl⟩ := List.getElem?_eq_some_iff.mp h
  exact List.drop_eq_getElem_cons hlt

theorem rest_eq_nil {c : Cursor} : c.rest = [] ↔ c.buf[c.pos]? = none := by
  simp [Cursor.rest]

theorem sim_front : Sim d Method.front front := by
  intro c _ _
  cases h : c.buf[c.pos]? with
  | none => exact .inr ⟨.truncated, c, by rw [rest_eq_nil.mpr h]; rfl, by simp [Method.front, h]⟩
  | some b =>
    refine .inl ⟨b, 0, Nat.zero_le _, ?_, by simp [Method.front, h, Cursor.advance]⟩
    rw [rest_of_getElem? h]
    rfl

theorem sim_byte : Sim d Method.byte byte := by
  intro c _ _
  cases h : c.buf[c.pos]? with
  | none => exact .inr ⟨.truncated, c, by rw [rest_eq_nil.mpr h]; rfl, by simp [Method.byte, h]⟩
  | some b =>
    have hlen : 1 ≤ c.remaining := by
      obtain ⟨hlt, -⟩ := List.getElem?_eq_some_iff.mp h
      simp only [Cursor.remaining]
      omega
    refine .inl ⟨b, 1, hlen, ?_, by simp [Method.byte, h]⟩
    rw [rest_of_getElem? h]
    rfl

theorem sim_take (n : ℕ) : Sim d (Method.take n) (take n) := by
  intro c hc _
  have hle : c.pos + n ≤ c.buf.length ↔ n ≤ c.rest.length := by
    simp only [Cursor.length_rest, Cursor.remaining]
    omega
  by_cases hn : n ≤ c.rest.length
  · refine .inl ⟨c.rest.take n, n, by simpa using hn, by simp only [take, if_pos hn], ?_⟩
    have hs : slice? c.buf c.pos (c.pos + n) = some (c.rest.take n) := by
      rw [slice?_eq_some]
      simp [Cursor.rest, hle.mpr hn]
    simp only [Method.take, hs]
  · refine .inr ⟨.truncated, c, by simp only [take, if_neg hn], ?_⟩
    have hs : slice? c.buf c.pos (c.pos + n) = none := by
      rw [Option.eq_none_iff_forall_ne_some]
      intro s hs
      exact hn (hle.mp (le_of_slice? hs))
    simp only [Method.take, hs]

theorem sim_beU (n : ℕ) : Sim d (Method.beU n) (beU n) := (sim_take n).map _

theorem sim_size (m : Marks) : Sim d (Method.size m) m.size := by
  refine sim_byte.bind fun b => .ite (fun _ => .pure _) fun _ => ?_
  cases m.wide.lookup b with
  | none => exact .fail _
  | some w => exact sim_beU w

theorem sim_readNil : Sim d Method.readNil readNil :=
  sim_byte.bind fun _ => .ite (fun _ => .pure _) fun _ => .fail _

theorem sim_readBool : Sim d Method.readBool readBool :=
  sim_byte.bind fun _ => .ite (fun _ => .pure _) fun _ => .ite (fun _ => .pure _) fun _ => .fail _

theorem sim_readInt : Sim d Method.readInt readInt := by
  refine sim_byte.bind fun b => .ite (fun _ => .pure _) fun _ => .ite (fun _ => .pure _) fun _ => ?_
  cases uintMarks.wide.lookup b with
  | some w => exact (sim_beU w).bind fun v => .ite (fun _ => .pure _) fun _ => .fail _
  | none =>
    cases intWide.lookup b with
    | some w => exact (sim_beU w).map _
    | none => exact .fail _

theorem sim_readUint : Sim d Method.readUint readUint :=
  sim_readInt.bind fun _ => .ite (fun _ => .pure _) fun _ => .fail _

theorem sim_readStr : Sim d Method.readStr readStr := by
  refine (sim_size _).bind fun n => (sim_take n).bind fun bs => ?_
  cases String.fromUTF8? ⟨bs.toArray⟩ with
  | some s => exact .pure s
  | none => exact .fail _

theorem sim_readBin : Sim d Method.readBin readBin := (sim_size _).bind fun n => sim_take n

theorem sim_readCount (m : Marks) (least : ℕ) :
    Sim d (Method.readCount m least) (readCount m least) := by
  refine (sim_size m).bind fun n => ?_
  intro c _ _
  show (∃ a, ∃ k ≤ _, (if n * least > c.rest.length then throw .truncated else pure n : Reader ℕ)
    c.rest = _ ∧ _) ∨
    ∃ e c', (if n * least > c.rest.length then throw .truncated else pure n : Reader ℕ) c.rest = _ ∧
      _
  rw [Cursor.length_rest]
  split
  · next h => exact .inr ⟨.truncated, c, rfl, if_pos h⟩
  · next h => exact .inl ⟨n, 0, Nat.zero_le _, rfl, if_neg h⟩

theorem Sim.nested {deeper : Option (Reader Unit)} {f : Reader Unit → Reader Unit} {m : Method Unit}
    (hd : d + 1 < 2 ^ 32) (hnone : maxDepth ≤ d → deeper = none)
    (hsome : d < maxDepth → ∃ r, deeper = some r ∧ Sim (d + 1) m (f r)) :
    Sim d (Method.nested m) (nested deeper f) := by
  intro c hc hcd
  have hdepth : (c.depth + 1).toNat = d + 1 := by
    rw [UInt32.toNat_add, hcd]
    exact Nat.mod_eq_of_lt hd
  have hgt : c.depth + 1 > 32 ↔ maxDepth ≤ d := by
    rw [gt_iff_lt, UInt32.lt_iff_toNat_lt, hdepth]
    exact Nat.lt_succ_iff
  by_cases hmax : maxDepth ≤ d
  · rw [hnone hmax]
    exact .inr ⟨.depth, _, rfl, if_pos (hgt.mpr hmax)⟩
  · obtain ⟨r, rfl, hr⟩ := hsome (by omega)
    have hif : ¬ c.depth + 1 > 32 := fun h => hmax (hgt.mp h)
    simp only [Method.nested, if_neg hif]
    rcases hr { c with depth := c.depth + 1 } hc hdepth with ⟨a, k, hk, hp, hm⟩ | ⟨e, c', hp, hm⟩
    · refine .inl ⟨a, k, hk, hp, ?_⟩
      rw [hm]
      simp [Cursor.advance]
    · exact .inr ⟨e, _, hp, by rw [hm]⟩

/-- **`skip` does what the reader with so many levels left does, and calls itself no deeper than
there are levels.** -/
theorem sim_skipUpTo {levels : ℕ} (hd : d + 1 < 2 ^ 32) (hl : maxDepth - d < levels) :
    Sim d (Method.skipUpTo levels) (skipAt (maxDepth - d)) := by
  induction levels generalizing d with
  | zero => omega
  | succ levels ih =>
    -- The reader one level deeper, if there is one, is that of the calls for the items.
    obtain ⟨deeper, hat, hnone, hsome⟩ : ∃ deeper, skipAt (maxDepth - d) = skipWith deeper ∧
        (maxDepth ≤ d → deeper = none) ∧
        (d < maxDepth → ∃ r, deeper = some r ∧ Sim (d + 1) (Method.skipUpTo levels) r) := by
      by_cases hmax : maxDepth ≤ d
      · exact ⟨none, by rw [Nat.sub_eq_zero_of_le hmax]; rfl, fun _ => rfl, by omega⟩
      · refine ⟨some (skipAt (maxDepth - (d + 1))), ?_, by omega, fun _ => ⟨_, rfl, ih ?_ ?_⟩⟩
        · rw [show maxDepth - d = maxDepth - (d + 1) + 1 by omega]
          rfl
        · simp only [maxDepth] at hmax
          omega
        · omega
    rw [hat]
    refine sim_front.bind fun b => ?_
    cases kind b with
    | one => exact sim_byte.discard
    | fixed => exact sim_byte.bind fun b => (sim_take _).discard
    | ext => exact (sim_size _).bind fun n => sim_byte.discard.bind fun _ => (sim_take n).discard
    | str => exact sim_readStr.discard
    | bin => exact sim_readBin.discard
    | array =>
      refine (sim_readCount _ _).bind fun n => .nested hd hnone fun hlt => ?_
      obtain ⟨r, rfl, hr⟩ := hsome hlt
      exact ⟨r, rfl, hr.times n⟩
    | map =>
      refine (sim_readCount _ _).bind fun n => .nested hd hnone fun hlt => ?_
      obtain ⟨r, rfl, hr⟩ := hsome hlt
      exact ⟨r, rfl, (hr.bind fun _ => hr).times n⟩
    | reserved => exact .fail _

theorem sim_skip (hd : d + 1 < 2 ^ 32) : Sim d Method.skip (skipAt (maxDepth - d)) :=
  sim_skipUpTo hd (by omega)

end Methods

end Resolvd.Msgpack
