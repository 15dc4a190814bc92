import Resolvd.Lib.Parser
import Resolvd.Lib.Lists

/-!
# The MessagePack codec

`resolvd_core::msgpack`: a `Writer` appends a value to a buffer, a `Reader` takes one from the front
of what is left.  A writer's method is modelled by the octets it appends, the reader by the octets
that remain.

A value begins with a marker.  The markers of a string, a binary, an array, a map and an unsigned
integer follow one pattern: some hold a small number themselves, the others announce a number in so
many octets.  `Marks` is such a set of markers, `Marks.write` and `Marks.size` write and read the
number, and `Marks.Head` says which octets may stand for it; the writer takes the shortest, the
reader takes any.
-/

namespace Resolvd.Msgpack

open Lib Lib.Parser

variable {s : String} {v b : Bytes}

/-- `msgpack::Error`. -/
inductive Error where
  | truncated
  | type
  | unsupported
  | utf8
  | depth
  deriving DecidableEq, Repr

/-- `impl Display for Error`. -/
def Error.display : Error → String
  | .truncated => "truncated message"
  | .type => "unexpected value type"
  | .unsupported => "unsupported value type"
  | .utf8 => "string is not UTF-8"
  | .depth => "nested too deeply"

/-- `Reader`: its methods. -/
abbrev Reader (α : Type) := Parser Error α

/-- `s.as_bytes()`. -/
def octets (s : String) : Bytes := s.toByteArray.data.toList

@[simp] theorem length_octets (s : String) : (octets s).length = s.utf8ByteSize := by
  rw [octets, Array.length_toList, ByteArray.size_data, String.utf8ByteSize]

/-! ### Single octets and runs of them -/

/-- `Reader::byte`. -/
def byte : Reader UInt8 := fun bs =>
  match bs with
  | [] => .error .truncated
  | b :: bs => .ok (b, bs)

/-- `Reader::take`. -/
def take (n : ℕ) : Reader Bytes := fun bs =>
  if n ≤ bs.length then .ok (bs.take n, bs.drop n) else .error .truncated

/-- `Reader::be_u`. -/
def beU (n : ℕ) : Reader ℕ := ofBe <$> take n

theorem byte_reads (b : UInt8) : Reads byte [b] b := fun _ => rfl

theorem byte_takes : Takes byte (fun v b => v = [b]) := by
  intro bs b rest h
  cases bs with
  | nil => simp [byte] at h
  | cons c bs =>
    obtain ⟨rfl, rfl⟩ : c = b ∧ bs = rest := by simpa [byte] using h
    exact ⟨[c], rfl, byte_reads c, rfl⟩

theorem take_reads (v : Bytes) : Reads (take v.length) v v := by
  intro rest
  simp [take]

theorem take_takes (n : ℕ) : Takes (take n) (fun v w => v = w ∧ v.length = n) := by
  intro bs w rest h
  unfold take at h
  split at h
  case isFalse => simp at h
  case isTrue hn =>
    obtain ⟨rfl, rfl⟩ : bs.take n = w ∧ bs.drop n = rest := by simpa using h
    have hlen : (bs.take n).length = n := by simpa using hn
    refine ⟨bs.take n, (List.take_append_drop n bs).symm, ?_, rfl, hlen⟩
    simpa [hlen] using take_reads (bs.take n)

theorem beU_reads {w n : ℕ} (h : n < 256 ^ w) : Reads (beU w) (toBe w n) n := by
  have hr := (take_reads (toBe w n)).map ofBe
  rwa [length_toBe, ofBe_toBe, Nat.mod_eq_of_lt h] at hr

/-! ### Numbers with their markers -/

/-- The markers of one kind of value: the `room` markers from `short` on hold a number, each marker
of `wide` announces one of so many octets. -/
structure Marks where
  short : ℕ
  room : ℕ
  wide : List (UInt8 × ℕ)
  fits : short + room ≤ 256 := by decide
  apart : ∀ e ∈ wide, e.1.toNat < short ∨ short + room ≤ e.1.toNat := by decide
  nodup : (wide.map Prod.fst).Nodup := by decide

namespace Marks

/-- The widest marker a number of this size needs, with the number; a number too large for every one
of them loses its high octets under the last (`n as u32`). -/
def writeWide (n : ℕ) : List (UInt8 × ℕ) → Bytes
  | [] => []
  | [(b, w)] => b :: toBe w n
  | (b, w) :: e :: wide => if n < 256 ^ w then b :: toBe w n else writeWide n (e :: wide)

/-- The shortest form of a number. -/
def write (m : Marks) (n : ℕ) : Bytes :=
  if n < m.room then [UInt8.ofNat (m.short + n)] else writeWide n m.wide

/-- A marker and the number it holds or announces. -/
def size (m : Marks) : Reader ℕ := do
  let b ← byte
  if m.short ≤ b.toNat ∧ b.toNat < m.short + m.room then
    return b.toNat - m.short
  match m.wide.lookup b with
  | some w => beU w
  | none => throw .type

/-- The octets `h` are a marker with the number `n`, in one of the forms there are. -/
def Head (m : Marks) (n : ℕ) (h : Bytes) : Prop :=
  (n < m.room ∧ h = [UInt8.ofNat (m.short + n)]) ∨ ∃ e ∈ m.wide, n < 256 ^ e.2 ∧
    h = e.1 :: toBe e.2 n

/-- The octet is one of the markers. -/
def Mark (m : Marks) (b : UInt8) : Prop :=
  (m.short ≤ b.toNat ∧ b.toNat < m.short + m.room) ∨ b ∈ m.wide.map Prod.fst

instance (m : Marks) (b : UInt8) : Decidable (m.Mark b) := inferInstanceAs (Decidable (_ ∨ _))

variable {m : Marks} {n : ℕ} {h : Bytes}

theorem toNat_short (hn : n < m.room) : (UInt8.ofNat (m.short + n)).toNat = m.short + n := by
  have := m.fits
  simp only [UInt8.toNat_ofNat']
  omega

theorem Head.mark (hh : m.Head n h) : ∃ b tail, h = b :: tail ∧ m.Mark b := by
  rcases hh with ⟨hn, rfl⟩ | ⟨e, he, -, rfl⟩
  · refine ⟨_, [], rfl, .inl ?_⟩
    rw [toNat_short hn]
    omega
  · exact ⟨e.1, _, rfl, .inr (List.mem_map_of_mem he)⟩

theorem Head.length_pos (hh : m.Head n h) : 0 < h.length := by
  obtain ⟨b, tail, rfl, -⟩ := hh.mark
  simp

/-- What stands for a number is read as that number. -/
theorem Head.reads (hh : m.Head n h) : Reads m.size h n := by
  unfold size
  rcases hh with ⟨hn, rfl⟩ | ⟨e, he, hlt, rfl⟩
  · refine (byte_reads _).bind (w := []) ?_
    rw [toNat_short hn, if_pos (by omega)]
    simpa using Reads.pure (ε := Error) n
  · refine (byte_reads e.1).bind (w := toBe e.2 n) ?_
    have := m.apart e he
    rw [if_neg (by omega)]
    simp only [lookup_of_mem m.nodup he]
    simpa using beU_reads hlt

theorem size_takes (m : Marks) : Takes m.size (fun h n => m.Head n h) := by
  intro bs n rest hs
  obtain ⟨b, mid, h1, h2⟩ := bind_eq_ok.mp hs
  obtain ⟨_, rfl, -, rfl⟩ := byte_takes h1
  suffices hh : ∃ h, [b] ++ mid = h ++ rest ∧ m.Head n h by
    obtain ⟨h, e, hh⟩ := hh
    exact ⟨h, e, hh.reads, hh⟩
  split at h2
  · next hb =>
    obtain ⟨rfl, rfl⟩ : b.toNat - m.short = n ∧ mid = rest := by simpa [pure_apply] using h2
    refine ⟨[b], rfl, .inl ⟨by omega, ?_⟩⟩
    rw [Nat.add_sub_cancel' hb.1, UInt8.ofNat_toNat]
  · cases hw : m.wide.lookup b with
    | none => simp [hw, throw_apply] at h2
    | some w =>
      simp only [hw] at h2
      obtain ⟨_, ht, rfl⟩ := map_eq_ok.mp h2
      obtain ⟨v, rfl, -, rfl, rfl⟩ := take_takes w ht
      refine ⟨b :: v, rfl, .inr ⟨(b, v.length), mem_of_lookup hw, ofBe_lt v, ?_⟩⟩
      rw [toBe_ofBe]

theorem writeWide_eq {wide : List (UInt8 × ℕ)} (hn : ∃ e ∈ wide, n < 256 ^ e.2) :
    ∃ e ∈ wide, n < 256 ^ e.2 ∧ writeWide n wide = e.1 :: toBe e.2 n := by
  fun_induction writeWide n wide with
  | case1 => simp at hn
  | case2 b w =>
    obtain ⟨e, he, hlt⟩ := hn
    obtain rfl := List.mem_singleton.mp he
    exact ⟨_, he, hlt, rfl⟩
  | case3 b w e wide hlt => exact ⟨(b, w), by simp, hlt, rfl⟩
  | case4 b w e wide hlt ih =>
    obtain ⟨c, hc, hclt⟩ := hn
    rcases List.mem_cons.mp hc with rfl | hc
    · exact absurd hclt hlt
    · obtain ⟨d, hd, h⟩ := ih ⟨c, hc, hclt⟩
      exact ⟨d, List.mem_cons_of_mem _ hd, h⟩

/-- The writer writes one of the forms when some form is wide enough. -/
theorem head_write (hn : ∃ e ∈ m.wide, n < 256 ^ e.2) : m.Head n (m.write n) := by
  unfold write
  split
  · next h => exact .inl ⟨h, rfl⟩
  · exact .inr (writeWide_eq hn)

end Marks

/-! ### The markers of each kind -/

def uintMarks :
    Marks := { short := 0x00, room := 0x80, wide := [(0xcc, 1), (0xcd, 2), (0xce, 4), (0xcf, 8)] }

def strMarks : Marks := { short := 0xa0, room := 32, wide := [(0xd9, 1), (0xda, 2), (0xdb, 4)] }

def binMarks : Marks := { short := 0, room := 0, wide := [(0xc4, 1), (0xc5, 2), (0xc6, 4)] }

def arrayMarks : Marks := { short := 0x90, room := 16, wide := [(0xdc, 2), (0xdd, 4)] }

def mapMarks : Marks := { short := 0x80, room := 16, wide := [(0xde, 2), (0xdf, 4)] }

def extMarks : Marks := { short := 0, room := 0, wide := [(0xc7, 1), (0xc8, 2), (0xc9, 4)] }

theorem Marks.Head.lt {m : Marks} {n k : ℕ} {h : Bytes} (hh : m.Head n h) (hroom : m.room ≤ k)
    (hwide : ∀ e ∈ m.wide, 256 ^ e.2 ≤ k) : n < k := by
  rcases hh with ⟨hn, -⟩ | ⟨e, he, hn, -⟩
  · omega
  · exact lt_of_lt_of_le hn (hwide e he)

/-! ### The writer -/

/-- `Writer::write_nil`. -/
def writeNil : Bytes := [0xc0]

/-- `Writer::write_bool`. -/
def writeBool (v : Bool) : Bytes := [if v then 0xc3 else 0xc2]

/-- `Writer::write_uint`. -/
def writeUint (v : UInt64) : Bytes := uintMarks.write v.toNat

/-- The low `w` octets of a number in two's complement: `v as i8 as u8`, `(v as i16).to_be_bytes()`
and so on. -/
def low (w : ℕ) (v : ℤ) : Bytes := toBe w (v % 2 ^ (8 * w)).toNat

/-- `Writer::write_int`. -/
def writeInt (v : Int64) : Bytes :=
  if 0 ≤ v.toInt then writeUint v.toUInt64
  else if -32 ≤ v.toInt then low 1 v.toInt
  else if -2 ^ 7 ≤ v.toInt then 0xd0 :: low 1 v.toInt
  else if -2 ^ 15 ≤ v.toInt then 0xd1 :: low 2 v.toInt
  else if -2 ^ 31 ≤ v.toInt then 0xd2 :: low 4 v.toInt
  else 0xd3 :: low 8 v.toInt

/-- `Writer::write_str`. -/
def writeStr (s : String) : Bytes := strMarks.write s.utf8ByteSize ++ octets s

/-- `Writer::write_bin`. -/
def writeBin (b : Bytes) : Bytes := binMarks.write b.length ++ b

/-- `Writer::write_array`. -/
def writeArray (count : UInt32) : Bytes := arrayMarks.write count.toNat

/-- `Writer::write_map`. -/
def writeMap (count : UInt32) : Bytes := mapMarks.write count.toNat

theorem writeUint_head (v : UInt64) : uintMarks.Head v.toNat (writeUint v) :=
  Marks.head_write ⟨(0xcf, 8), by simp [uintMarks], by simpa using v.toNat_lt⟩

theorem writeArray_head (count : UInt32) : arrayMarks.Head count.toNat (writeArray count) :=
  Marks.head_write ⟨(0xdd, 4), by simp [arrayMarks], by simpa using count.toNat_lt⟩

theorem writeMap_head (count : UInt32) : mapMarks.Head count.toNat (writeMap count) :=
  Marks.head_write ⟨(0xdf, 4), by simp [mapMarks], by simpa using count.toNat_lt⟩

/-! ### The reader -/

/-- `msgpack::Type`. -/
inductive Ty where
  | nil
  | bool
  | int
  | str
  | bin
  | array
  | map
  | other
  deriving DecidableEq, Repr

/-- The type a marker announces: the arms of `Reader::peek`. -/
def Ty.of (b : UInt8) : Ty :=
  if b = 0xc0 then .nil
  else if b = 0xc2 ∨ b = 0xc3 then .bool
  else if b ≤ 0x7f ∨ 0xe0 ≤ b ∨ (0xcc ≤ b ∧ b ≤ 0xd3) then .int
  else if (0xa0 ≤ b ∧ b ≤ 0xbf) ∨ (0xd9 ≤ b ∧ b ≤ 0xdb) then .str
  else if 0xc4 ≤ b ∧ b ≤ 0xc6 then .bin
  else if (0x90 ≤ b ∧ b ≤ 0x9f) ∨ b = 0xdc ∨ b = 0xdd then .array
  else if (0x80 ≤ b ∧ b ≤ 0x8f) ∨ b = 0xde ∨ b = 0xdf then .map
  else .other

/-- `Reader::peek`. -/
def peek : Reader (Option Ty) := fun bs => .ok (bs.head?.map Ty.of, bs)

/-- `Reader::read_nil`. -/
def readNil : Reader Unit := do
  if (← byte) = 0xc0 then return () else throw .type

/-- `Reader::read_bool`. -/
def readBool : Reader Bool := do
  let b ← byte
  if b = 0xc2 then return false
  else if b = 0xc3 then return true
  else throw .type

/-- The markers of the signed integers. -/
def intWide : List (UInt8 × ℕ) := [(0xd0, 1), (0xd1, 2), (0xd2, 4), (0xd3, 8)]

/-- The number of `w` octets in two's complement. -/
def signed (w n : ℕ) : ℤ := if n < 2 ^ (8 * w - 1) then n else n - 2 ^ (8 * w)

/-- `Reader::read_int`.  Of the unsigned forms only that of eight octets has values that `i64` has
not. -/
def readInt : Reader ℤ := do
  let b ← byte
  if b ≤ 0x7f then return b.toNat
  else if 0xe0 ≤ b then return signed 1 b.toNat
  else match uintMarks.wide.lookup b with
    | some w => do
      let v ← beU w
      if v < 2 ^ 63 then return v else throw .type
    | none => match intWide.lookup b with
      | some w => signed w <$> beU w
      | none => throw .type

/-- `Reader::read_uint`. -/
def readUint : Reader ℕ := do
  let v ← readInt
  if 0 ≤ v then return v.toNat else throw .type

/-- `Reader::read_str`. -/
def readStr : Reader String := do
  let n ← strMarks.size
  let bs ← take n
  match String.fromUTF8? ⟨bs.toArray⟩ with
  | some s => return s
  | none => throw .utf8

/-- `Reader::read_bin`. -/
def readBin : Reader Bytes := do
  let n ← binMarks.size
  take n

/-- The number of items in a container; each takes at least `least` octets, so that a number larger
than what is left cannot be honest. -/
def readCount (m : Marks) (least : ℕ) : Reader ℕ := do
  let n ← m.size
  if n * least > (← get).length then throw .truncated
  return n

/-- `Reader::read_array`. -/
def readArray : Reader ℕ := readCount arrayMarks 1

/-- `Reader::read_map`. -/
def readMap : Reader ℕ := readCount mapMarks 2

/-! ### Strings and binaries -/

/-- The octets are a string of MessagePack, the text `s`. -/
def Str (s : String) (v : Bytes) : Prop := ∃ h, strMarks.Head s.utf8ByteSize h ∧ v = h ++ octets s

/-- The octets are a binary of MessagePack, the octets `b`. -/
def Bin (b : Bytes) (v : Bytes) : Prop := ∃ h, binMarks.Head b.length h ∧ v = h ++ b

theorem fromUTF8?_eq_some {bs : Bytes} :
    String.fromUTF8? ⟨bs.toArray⟩ = some s ↔ octets s = bs := by
  unfold String.fromUTF8?
  constructor
  · intro h
    split at h
    · obtain rfl := Option.some.inj h
      simp [octets, String.fromUTF8]
    · cases h
  · rintro rfl
    have h : (⟨(octets s).toArray⟩ : ByteArray) = s.toByteArray := by simp [octets]
    simp [h, s.isValidUTF8, String.fromUTF8]

theorem Str.reads (h : Str s v) : Reads readStr v s := by
  obtain ⟨head, hh, rfl⟩ := h
  refine hh.reads.bind ?_
  have ht := take_reads (octets s)
  rw [length_octets] at ht
  rw [← List.append_nil (octets s)]
  refine ht.bind ?_
  simp only [fromUTF8?_eq_some.mpr rfl]
  exact Reads.pure s

theorem readStr_takes : Takes readStr (fun v s => Str s v) := by
  intro bs s rest h
  obtain ⟨n, mid, h1, h2⟩ := bind_eq_ok.mp h
  obtain ⟨head, rfl, -, hh⟩ := strMarks.size_takes h1
  obtain ⟨_, fin, h3, h4⟩ := bind_eq_ok.mp h2
  obtain ⟨data, rfl, -, rfl, rfl⟩ := take_takes n h3
  cases hs : String.fromUTF8? ⟨data.toArray⟩ with
  | none => simp [hs, throw_apply] at h4
  | some t =>
    simp only [hs] at h4
    obtain ⟨rfl, rfl⟩ : t = s ∧ fin = rest := by simpa [pure_apply] using h4
    obtain rfl := fromUTF8?_eq_some.mp hs
    rw [length_octets] at hh
    have hstr : Str t (head ++ octets t) := ⟨head, hh, rfl⟩
    exact ⟨head ++ octets t, by simp, hstr.reads, hstr⟩

theorem Bin.reads (h : Bin b v) : Reads readBin v b := by
  obtain ⟨head, hh, rfl⟩ := h
  exact hh.reads.bind (take_reads b)

theorem readBin_takes : Takes readBin (fun v b => Bin b v) := by
  refine (binMarks.size_takes.bind fun n => take_takes n).mono ?_
  rintro v b ⟨n, h, w, rfl, hh, rfl, rfl⟩
  exact ⟨h, hh, rfl⟩

theorem writeStr_str (h : s.utf8ByteSize < 2 ^ 32) : Str s (writeStr s) :=
  ⟨_, Marks.head_write ⟨(0xdb, 4), by simp [strMarks], by simpa using h⟩, rfl⟩

theorem writeBin_bin (h : b.length < 2 ^ 32) : Bin b (writeBin b) :=
  ⟨_, Marks.head_write ⟨(0xc6, 4), by simp [binMarks], by simpa using h⟩, rfl⟩

theorem Str.size_lt (h : Str s v) : s.utf8ByteSize < 2 ^ 32 := by
  obtain ⟨head, hh, -⟩ := h
  exact hh.lt (by decide) (by decide)

theorem Bin.length_lt (h : Bin b v) : b.length < 2 ^ 32 := by
  obtain ⟨head, hh, -⟩ := h
  exact hh.lt (by decide) (by decide)

end Resolvd.Msgpack
