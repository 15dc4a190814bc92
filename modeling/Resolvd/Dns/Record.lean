import Resolvd.Dns.Wire
import Resolvd.Lib.Net

/-!
# Resource records

`dns::RData` and `dns::Record`, with `write_rdata`, `read_rdata` and `Record::write`: typed data for
the types a stub resolver acts on, raw octets for the rest.  Names inside the data are read against
the whole message.

`RData.Agrees rtype d` says that the variant of `d` is the one `read_rdata` builds for `rtype`.

* `readRData_wire`: the data of a record is read back, with its character strings cut to 255 octets (`RData.cut`);
* `readRData_wf`: what was read agrees with its type and has no longer string;
* `readRData_safe`, `readRData_append`: no index is out of range; what follows the message changes nothing.
-/

namespace Resolvd.Dns

open Lib List

variable {b msg data : Bytes} {i start len fin : ℕ} {rtype : UInt16}

/-! ### Types and classes -/

namespace Rtype

abbrev a : UInt16 := 1
abbrev ns : UInt16 := 2
abbrev cname : UInt16 := 5
abbrev soa : UInt16 := 6
abbrev ptr : UInt16 := 12
abbrev mx : UInt16 := 15
abbrev txt : UInt16 := 16
abbrev aaaa : UInt16 := 28
abbrev srv : UInt16 := 33
abbrev opt : UInt16 := 41
abbrev any : UInt16 := 255

/-- The types whose data has a typed form. -/
def typed : List UInt16 := [a, aaaa, cname, ptr, ns, soa, mx, srv, txt, opt]

end Rtype

namespace Class

abbrev IN : UInt16 := 1

end Class

/-- `dns::RData`. -/
inductive RData where
  | a (addr : Ipv4Addr)
  | aaaa (addr : Ipv6Addr)
  | cname (n : Name)
  | ptr (n : Name)
  | ns (n : Name)
  | soa (mname rname : Name) (serial refresh retry expire minimum : UInt32)
  | mx (preference : UInt16) (exchange : Name)
  | srv (priority weight port : UInt16) (target : Name)
  | txt (strings : List Bytes)
  | opt (data : Bytes)
  | unknown (data : Bytes)
  deriving DecidableEq

/-- The variant is the one that stands for records of this type. -/
def RData.Agrees (rtype : UInt16) : RData → Prop
  | .a _ => rtype = Rtype.a
  | .aaaa _ => rtype = Rtype.aaaa
  | .cname _ => rtype = Rtype.cname
  | .ptr _ => rtype = Rtype.ptr
  | .ns _ => rtype = Rtype.ns
  | .soa .. => rtype = Rtype.soa
  | .mx .. => rtype = Rtype.mx
  | .srv .. => rtype = Rtype.srv
  | .txt _ => rtype = Rtype.txt
  | .opt _ => rtype = Rtype.opt
  | .unknown _ => rtype ∉ Rtype.typed

/-- No character string is longer than a length octet can say. -/
def RData.StringsFit : RData → Prop
  | .txt strings => ∀ s ∈ strings, s.length ≤ 255
  | _ => True

/-- The names inside the data. -/
def RData.names : RData → List Name
  | .cname n | .ptr n | .ns n => [n]
  | .soa mname rname .. => [mname, rname]
  | .mx _ exchange => [exchange]
  | .srv _ _ _ target => [target]
  | _ => []

/-- The data with every character string cut to 255 octets. -/
def RData.cut : RData → RData
  | .txt strings => .txt (strings.map (List.take 255))
  | d => d

variable {d : RData}

theorem RData.cut_of_stringsFit (h : d.StringsFit) : d.cut = d := by
  cases d with
  | txt strings =>
    simp only [RData.cut, RData.txt.injEq]
    exact (map_congr_left fun s hs => take_of_length_le (h s hs)).trans (map_id _)
  | _ => rfl

/-- `dns::Record`. -/
structure Record where
  name : Name
  rtype : UInt16
  class_ : UInt16
  ttl : UInt32
  rdata : RData
  deriving DecidableEq

/-- The data agrees with the type and its strings fit: nothing of the record is lost on the wire. -/
def Record.WellFormed (r : Record) : Prop := r.rdata.Agrees r.rtype ∧ r.rdata.StringsFit

/-- `Record::new`: class IN, and the type of the data; raw data has none. -/
def Record.new (name : Name) (ttl : UInt32) (rdata : RData) : Record where
  name := name
  rtype :=
    match rdata with
    | .a _ => Rtype.a
    | .aaaa _ => Rtype.aaaa
    | .cname _ => Rtype.cname
    | .ptr _ => Rtype.ptr
    | .ns _ => Rtype.ns
    | .soa .. => Rtype.soa
    | .mx .. => Rtype.mx
    | .srv .. => Rtype.srv
    | .txt _ => Rtype.txt
    | .opt _ => Rtype.opt
    | .unknown _ => 0
  class_ := Class.IN
  ttl := ttl
  rdata := rdata

/-- `Record::opt`: the EDNS pseudo-record that advertises `udpSize`. -/
def Record.opt (udpSize : UInt16) (doBit : Bool) : Record where
  name := Name.root
  rtype := Rtype.opt
  class_ := udpSize
  ttl := if doBit then 0x8000 else 0
  rdata := .opt []

/-! ### Integers -/

/-- `u16::to_be_bytes`. -/
def be16 (v : UInt16) : Bytes := toBe 2 v.toNat

/-- `u32::to_be_bytes`. -/
def be32 (v : UInt32) : Bytes := toBe 4 v.toNat

/-- `u16::from_be_bytes([b[i], b[i + 1]])`. -/
def u16From (b : Bytes) (i : ℕ) : Result Error UInt16 := do
  let x ← index b i
  let y ← index b (i + 1)
  .ok (UInt16.ofNat (ofBe [x, y]))

/-- `u32::from_be_bytes([b[i], b[i + 1], b[i + 2], b[i + 3]])`. -/
def u32From (b : Bytes) (i : ℕ) : Result Error UInt32 := do
  let x ← index b i
  let y ← index b (i + 1)
  let z ← index b (i + 2)
  let w ← index b (i + 3)
  .ok (UInt32.ofNat (ofBe [x, y, z, w]))

@[simp] theorem length_be16 (v : UInt16) : (be16 v).length = 2 := by simp [be16]

@[simp] theorem length_be32 (v : UInt32) : (be32 v).length = 4 := by simp [be32]

theorem u16From_be16 {v : UInt16} (h : At b i (be16 v)) : u16From b i = .ok v := by
  have hv : UInt16.ofNat (ofBe (be16 v)) = v := by
    rw [be16, ofBe_toBe, Nat.mod_eq_of_lt (by simpa using v.toNat_lt)]
    simp
  simp only [be16, toBe, nil_append, singleton_append] at hv h
  simpa [u16From, index, h.head, h.tail.head] using hv

theorem u32From_be32 {v : UInt32} (h : At b i (be32 v)) : u32From b i = .ok v := by
  have hv : UInt32.ofNat (ofBe (be32 v)) = v := by
    rw [be32, ofBe_toBe, Nat.mod_eq_of_lt (by simpa using v.toNat_lt)]
    simp
  simp only [be32, toBe, nil_append, cons_append] at hv h
  simpa [u32From, index, h.head, h.tail.head, h.tail.tail.head, h.tail.tail.tail.head] using hv

theorem u16From_safe (h : i + 2 ≤ b.length) : Safe (u16From b i) :=
  Safe.bind (Safe.index (by omega)) fun _ _ => Safe.bind (Safe.index (by omega)) fun _ _ =>
    Safe.ok _

theorem u32From_safe (h : i + 4 ≤ b.length) : Safe (u32From b i) :=
  Safe.bind (Safe.index (by omega)) fun _ _ => Safe.bind (Safe.index (by omega)) fun _ _ =>
    Safe.bind (Safe.index (by omega)) fun _ _ => Safe.bind (Safe.index (by omega)) fun _ _ =>
      Safe.ok _

theorem u16From_append (x : Bytes) {v : UInt16} (h : u16From b i = .ok v) :
    u16From (b ++ x) i = .ok v := by
  unfold u16From at *
  simp only [bind_eq_ok, index_eq_ok] at *
  obtain ⟨y, hy, z, hz, hv⟩ := h
  exact ⟨y, getElem?_append_some x hy, z, getElem?_append_some x hz, hv⟩

/-! ### Writing -/

/-- `write_rdata` appends the data to `out`, names uncompressed. -/
def writeRData (out : Bytes) : RData → Bytes
  | .a addr => out ++ addr.toList
  | .aaaa addr => out ++ addr.toList
  | .cname n => n.write out
  | .ptr n => n.write out
  | .ns n => n.write out
  | .soa mname rname serial refresh retry expire minimum =>
    [serial, refresh, retry, expire, minimum].foldl (fun out v => out ++ be32 v)
      (rname.write (mname.write out))
  | .mx preference exchange => exchange.write (out ++ be16 preference)
  | .srv priority weight port target =>
    target.write (out ++ be16 priority ++ be16 weight ++ be16 port)
  | .txt strings =>
    strings.foldl (fun out s =>
      let n := min s.length 255
      out ++ [UInt8.ofNat n] ++ s.take n) out
  | .opt data => out ++ data
  | .unknown data => out ++ data

/-- `Record::rdata_bytes`: the data as it appears on the wire. -/
def RData.wire (d : RData) : Bytes := writeRData [] d

/-- The octets of a list of character strings. -/
def stringsWire (strings : List Bytes) : Bytes :=
  strings.flatMap fun s => UInt8.ofNat (min s.length 255) :: s.take (min s.length 255)

theorem writeStrings_eq (strings : List Bytes) (out : Bytes) :
    strings.foldl (fun out s => out ++ [UInt8.ofNat (min s.length 255)] ++ s.take
      (min s.length 255)) out =
      out ++ stringsWire strings := by
  induction strings generalizing out with
  | nil => simp [stringsWire]
  | cons s ss ih =>
    rw [foldl_cons, ih]
    simp [stringsWire]

theorem writeRData_eq (out : Bytes) (d : RData) : writeRData out d = out ++ d.wire := by
  cases d with
  | txt strings => simp only [RData.wire, writeRData, writeStrings_eq, nil_append]
  | _ => simp [RData.wire, writeRData, Name.write_eq]

/-- `Record::write` appends the record to `out`; the length of the data is patched in behind it, as
16 bits. -/
def Record.write (r : Record) (out : Bytes) : Bytes :=
  let out := r.name.write out
  let out := out ++ be16 r.rtype
  let out := out ++ be16 r.class_
  let out := out ++ be32 r.ttl
  let at_ := out.length
  let out := out ++ [0, 0]
  let out := writeRData out r.rdata
  let len := UInt16.ofNat (out.length - at_ - 2)
  out.take at_ ++ be16 len ++ out.drop (at_ + 2)

/-- The fixed part of a record behind its name. -/
def Record.fixedWire (r : Record) : Bytes :=
  be16 r.rtype ++ be16 r.class_ ++ be32 r.ttl ++ be16 (UInt16.ofNat r.rdata.wire.length)

/-- What `Record::write` appends. -/
def Record.wire (r : Record) : Bytes := r.name.wire ++ r.fixedWire ++ r.rdata.wire

@[simp] theorem Record.length_fixedWire (r : Record) : r.fixedWire.length = 10 := by
  simp [Record.fixedWire]

theorem Record.write_eq (r : Record) (out : Bytes) : r.write out = out ++ r.wire := by
  unfold Record.write
  simp only [Name.write_eq, writeRData_eq]
  -- the octets up to the patched length, which stand unchanged
  set pre := out ++ r.name.wire ++ be16 r.rtype ++ be16 r.class_ ++ be32 r.ttl with hpre
  have hlen : (pre ++ [0, 0] ++ r.rdata.wire).length - pre.length - 2 = r.rdata.wire.length := by
    simp only [length_append, length_cons, length_nil]
    omega
  have htake : (pre ++ [0, 0] ++ r.rdata.wire).take pre.length = pre := by
    rw [append_assoc, take_left]
  have hdrop : (pre ++ [0, 0] ++ r.rdata.wire).drop (pre.length + 2) = r.rdata.wire :=
    drop_left' (by simp)
  rw [hlen, htake, hdrop, hpre]
  simp [Record.wire, Record.fixedWire]

/-! ### Reading -/

/-- `name_at` of `read_rdata`: a name that must not run past the data. -/
def nameAt (msg : Bytes) (fin pos : ℕ) : Result Error (Name × ℕ) := do
  let (n, next) ← Name.read msg pos
  if next > fin then .error (.err .badRData) else .ok (n, next)

/-- `u32_at` of `read_rdata`. -/
def u32At (msg : Bytes) (pos : ℕ) : Result Error UInt32 := do
  let b ← okOr (slice? msg pos (pos + 4)) .badRData
  u32From b 0

/-- `u16_at` of `read_rdata`. -/
def u16At (msg : Bytes) (pos : ℕ) : Result Error UInt16 := do
  let b ← okOr (slice? msg pos (pos + 2)) .badRData
  u16From b 0

/-- The loop over the character strings of a TXT record, from position `p` of its data. -/
def readStrings (data : Bytes) (p : ℕ) : Result Error (List Bytes) :=
  if p < data.length then
    match index data p with
    | .error e => .error e
    | .ok b =>
      match slice? data (p + 1) (p + 1 + b.toNat) with
      | none => .error (.err .badRData)
      | some s =>
        match readStrings data (p + 1 + b.toNat) with
        | .error e => .error e
        | .ok strings => .ok (s :: strings)
  else .ok []
termination_by data.length - p

/-! #### One reader for each arm of `read_rdata` -/

def readA (data : Bytes) (len : ℕ) : Result Error RData :=
  if len ≠ 4 then .error (.err .badRData)
  else do
    let x ← index data 0
    let y ← index data 1
    let z ← index data 2
    let w ← index data 3
    .ok (.a #v[x, y, z, w])

/-- `copy_from_slice` panics when the lengths differ. -/
def readAaaa (data : Bytes) (len : ℕ) : Result Error RData :=
  if len ≠ 16 then .error (.err .badRData)
  else if h : data.length = 16 then .ok (.aaaa ⟨data.toArray, by simpa using h⟩)
  else .error .panic

/-- CNAME, PTR and NS: one name that fills the data. -/
def readNamed (mk : Name → RData) (msg : Bytes) (start fin : ℕ) : Result Error RData := do
  let (n, next) ← nameAt msg fin start
  if next ≠ fin then .error (.err .badRData) else .ok (mk n)

def readSoa (msg : Bytes) (start fin : ℕ) : Result Error RData := do
  let (mname, p) ← nameAt msg fin start
  let (rname, p) ← nameAt msg fin p
  if p + 20 ≠ fin then .error (.err .badRData)
  else do
    let serial ← u32At msg p
    let refresh ← u32At msg (p + 4)
    let retry ← u32At msg (p + 8)
    let expire ← u32At msg (p + 12)
    let minimum ← u32At msg (p + 16)
    .ok (.soa mname rname serial refresh retry expire minimum)

def readMx (msg : Bytes) (start len fin : ℕ) : Result Error RData :=
  if len < 3 then .error (.err .badRData)
  else do
    let (exchange, next) ← nameAt msg fin (start + 2)
    if next ≠ fin then .error (.err .badRData)
    else do
      let preference ← u16At msg start
      .ok (.mx preference exchange)

def readSrv (msg : Bytes) (start len fin : ℕ) : Result Error RData :=
  if len < 7 then .error (.err .badRData)
  else do
    let (target, next) ← nameAt msg fin (start + 6)
    if next ≠ fin then .error (.err .badRData)
    else do
      let priority ← u16At msg start
      let weight ← u16At msg (start + 2)
      let port ← u16At msg (start + 4)
      .ok (.srv priority weight port target)

def readTxt (data : Bytes) : Result Error RData := do
  let strings ← readStrings data 0
  .ok (.txt strings)

/-- The arms of the `match rtype` of `read_rdata`. -/
inductive Arm where
  | a | aaaa | cname | ptr | ns | soa | mx | srv | txt | opt | unknown
  deriving DecidableEq

def armOf (rtype : UInt16) : Arm :=
  if rtype = Rtype.a then .a
  else if rtype = Rtype.aaaa then .aaaa
  else if rtype = Rtype.cname then .cname
  else if rtype = Rtype.ptr then .ptr
  else if rtype = Rtype.ns then .ns
  else if rtype = Rtype.soa then .soa
  else if rtype = Rtype.mx then .mx
  else if rtype = Rtype.srv then .srv
  else if rtype = Rtype.txt then .txt
  else if rtype = Rtype.opt then .opt
  else .unknown

def readArm (msg : Bytes) (start len : ℕ) (data : Bytes) : Arm → Result Error RData
  | .a => readA data len
  | .aaaa => readAaaa data len
  | .cname => readNamed .cname msg start (start + len)
  | .ptr => readNamed .ptr msg start (start + len)
  | .ns => readNamed .ns msg start (start + len)
  | .soa => readSoa msg start (start + len)
  | .mx => readMx msg start len (start + len)
  | .srv => readSrv msg start len (start + len)
  | .txt => readTxt data
  | .opt => .ok (.opt data)
  | .unknown => .ok (.unknown data)

/-- `read_rdata`: the data of a record of type `rtype` that takes the `len` octets from `start` on.
-/
def readRData (msg : Bytes) (rtype : UInt16) (start len : ℕ) : Result Error RData := do
  let data ← okOr (slice? msg start (start + len)) .truncated
  readArm msg start len data (armOf rtype)

/-- The arm that builds a variant. -/
def RData.arm : RData → Arm
  | .a _ => .a
  | .aaaa _ => .aaaa
  | .cname _ => .cname
  | .ptr _ => .ptr
  | .ns _ => .ns
  | .soa .. => .soa
  | .mx .. => .mx
  | .srv .. => .srv
  | .txt _ => .txt
  | .opt _ => .opt
  | .unknown _ => .unknown

theorem armOf_cases (rtype : UInt16) :
    (armOf rtype = .a ↔ rtype = Rtype.a) ∧ (armOf rtype = .aaaa ↔ rtype = Rtype.aaaa) ∧
    (armOf rtype = .cname ↔ rtype = Rtype.cname) ∧ (armOf rtype = .ptr ↔ rtype = Rtype.ptr) ∧
    (armOf rtype = .ns ↔ rtype = Rtype.ns) ∧ (armOf rtype = .soa ↔ rtype = Rtype.soa) ∧
    (armOf rtype = .mx ↔ rtype = Rtype.mx) ∧ (armOf rtype = .srv ↔ rtype = Rtype.srv) ∧
    (armOf rtype = .txt ↔ rtype = Rtype.txt) ∧ (armOf rtype = .opt ↔ rtype = Rtype.opt) ∧
    (armOf rtype = .unknown ↔ rtype ∉ Rtype.typed) := by
  by_cases h : rtype ∈ Rtype.typed
  · simp only [Rtype.typed, mem_cons, not_mem_nil, or_false] at h
    rcases h with rfl | rfl | rfl | rfl | rfl | rfl | rfl | rfl | rfl | rfl <;> decide
  · have h' := h
    simp only [Rtype.typed, mem_cons, not_mem_nil, or_false, not_or] at h'
    have hu : armOf rtype = .unknown := by simp only [armOf, h', if_false]
    simp [hu, h', h]

theorem RData.agrees_iff : d.Agrees rtype ↔ armOf rtype = d.arm := by
  obtain ⟨h1, h2, h3, h4, h5, h6, h7, h8, h9, h10, h11⟩ := armOf_cases rtype
  cases d <;> simp only [RData.Agrees, RData.arm] <;> simp only [*]

/-! ### What is written is read back -/

section RoundTrip

variable {msg : Bytes} {p : ℕ}

theorem nameAt_wire {n : Name} {fin : ℕ} (h : At msg p n.wire) (hfin : p + n.wire.length ≤ fin) :
    nameAt msg fin p = .ok (n, p + n.wire.length) := by
  simp only [nameAt, Name.read_wire h, ok_bind]
  rw [if_neg (by omega)]

theorem u16At_be16 {v : UInt16} (h : At msg p (be16 v)) : u16At msg p = .ok v := by
  have hs := h.slice
  rw [length_be16] at hs
  simp only [u16At, hs, okOr_some, ok_bind]
  exact u16From_be16 ⟨[], [], by simp, rfl⟩

theorem u32At_be32 {v : UInt32} (h : At msg p (be32 v)) : u32At msg p = .ok v := by
  have hs := h.slice
  rw [length_be32] at hs
  simp only [u32At, hs, okOr_some, ok_bind]
  exact u32From_be32 ⟨[], [], by simp, rfl⟩

/-- The strings of a TXT record, from any position of its data: each comes back as its first 255
octets. -/
theorem readStrings_wire (strings : List Bytes) (pre : Bytes) :
    readStrings (pre ++ stringsWire strings) pre.length = .ok (strings.map (List.take 255)) := by
  induction strings generalizing pre with
  | nil =>
    rw [readStrings]
    simp [stringsWire]
  | cons s ss ih =>
    set n := min s.length 255 with hn
    have hb : (UInt8.ofNat n).toNat = n := by
      simp; omega
    have hlen : (s.take n).length = n := by
      simp only [length_take]; omega
    have htake : s.take n = s.take 255 := by
      rw [hn, take_eq_take_iff]; omega
    have e : pre ++ stringsWire (s :: ss) = (pre ++ UInt8.ofNat n :: s.take n) ++
        stringsWire ss := by
      simp [stringsWire, hn]
    have hat : At (pre ++ stringsWire (s :: ss)) pre.length (UInt8.ofNat n :: s.take n) :=
      ⟨pre, stringsWire ss, e, rfl⟩
    have hslice := hat.tail.slice
    rw [hlen] at hslice
    have hrec := ih (pre ++ UInt8.ofNat n :: s.take n)
    have hcur : (pre ++ UInt8.ofNat n :: s.take n).length = pre.length + 1 + n := by
      simp only [length_append, length_cons, hlen]; omega
    rw [← e, hcur] at hrec
    rw [readStrings, if_pos (by have := hat.length_le; simp only [length_cons] at this; omega)]
    simp only [index, hat.head, hb, hslice, hrec, htake, map_cons]

theorem readA_wire (addr : Ipv4Addr) : readA addr.toList 4 = .ok (.a addr) := by
  have hi : ∀ i (hi : i < 4), (index addr.toList i : Result Error UInt8) = .ok addr[i] := by
    intro i hi
    simp [index, hi]
  have heta : #v[addr[0], addr[1], addr[2], addr[3]] = addr := by
    ext i hi
    obtain rfl | rfl | rfl | rfl : i = 0 ∨ i = 1 ∨ i = 2 ∨ i = 3 := by omega
    all_goals rfl
  simp only [readA, ne_eq, not_true_eq_false, if_false, hi 0 (by decide), hi 1 (by decide),
    hi 2 (by decide), hi 3 (by decide), ok_bind, heta]

theorem readAaaa_wire (addr : Ipv6Addr) : readAaaa addr.toList 16 = .ok (.aaaa addr) := by
  simp only [readAaaa, ne_eq, not_true_eq_false, if_false, Vector.length_toList, dif_pos]
  rfl

theorem readNamed_wire (mk : Name → RData) {n : Name} (h : At msg p n.wire) :
    readNamed mk msg p (p + n.wire.length) = .ok (mk n) := by
  simp [readNamed, nameAt_wire h le_rfl]

theorem readSoa_wire {mname rname : Name} {serial refresh retry expire minimum : UInt32} {fin : ℕ}
    (h : At msg p (mname.wire ++ (rname.wire ++
      (be32 serial ++ (be32 refresh ++ (be32 retry ++ (be32 expire ++ be32 minimum)))))))
    (hfin : fin = p + mname.wire.length + rname.wire.length + 20) :
    readSoa msg p fin = .ok (.soa mname rname serial refresh retry expire minimum) := by
  have h3 := h.right.right
  have h4 := h3.right
  have h5 := h4.right
  have h6 := h5.right
  have h7 := h6.right
  simp only [length_be32] at h4 h5 h6 h7
  simp only [readSoa, nameAt_wire h.left (show _ ≤ fin by omega), ok_bind,
    nameAt_wire h.right.left (show _ ≤ fin by omega)]
  rw [if_neg (by omega)]
  simp [u32At_be32 h3.left, u32At_be32 h4.left, u32At_be32 h5.left, u32At_be32 h6.left,
    u32At_be32 h7]

theorem readMx_wire {preference : UInt16} {exchange : Name}
    (h : At msg p (be16 preference ++ exchange.wire)) :
    readMx msg p (2 + exchange.wire.length) (p + (2 + exchange.wire.length)) = .ok
      (.mx preference exchange) := by
  have h2 := h.right
  have hpos := exchange.length_wire_pos
  simp only [length_be16] at h2
  rw [readMx, if_neg (by omega), nameAt_wire h2 (by omega)]
  simp only [ok_bind]
  rw [if_neg (by omega)]
  simp [u16At_be16 h.left]

theorem readSrv_wire {priority weight port : UInt16} {target : Name}
    (h : At msg p (be16 priority ++ (be16 weight ++ (be16 port ++ target.wire)))) :
    readSrv msg p (6 + target.wire.length) (p + (6 + target.wire.length)) =
      .ok (.srv priority weight port target) := by
  have h2 := h.right
  have h3 := h2.right
  have h4 := h3.right
  have hpos := target.length_wire_pos
  simp only [length_be16] at h2 h3 h4
  rw [readSrv, if_neg (by omega), nameAt_wire h4 (by omega)]
  simp only [ok_bind]
  rw [if_neg (by omega)]
  simp [u16At_be16 h.left, u16At_be16 h2.left, u16At_be16 h3.left]

/-- **The data of a record is read back**, its character strings cut to 255 octets. -/
theorem readRData_wire {d : RData} {rtype : UInt16} (hat : At msg p d.wire) (hd : d.Agrees rtype) :
    readRData msg rtype p d.wire.length = .ok d.cut := by
  rw [RData.agrees_iff] at hd
  unfold readRData
  rw [hat.slice, hd]
  simp only [okOr_some, ok_bind]
  cases d with
  | a addr =>
    have hw : (RData.a addr).wire = addr.toList := by simp [RData.wire, writeRData]
    rw [hw, Vector.length_toList]
    exact readA_wire addr
  | aaaa addr =>
    have hw : (RData.aaaa addr).wire = addr.toList := by simp [RData.wire, writeRData]
    rw [hw, Vector.length_toList]
    exact readAaaa_wire addr
  | cname n =>
    have hw : (RData.cname n).wire = n.wire := by simp [RData.wire, writeRData, Name.write_eq]
    rw [hw] at hat ⊢
    exact readNamed_wire .cname hat
  | ptr n =>
    have hw : (RData.ptr n).wire = n.wire := by simp [RData.wire, writeRData, Name.write_eq]
    rw [hw] at hat ⊢
    exact readNamed_wire .ptr hat
  | ns n =>
    have hw : (RData.ns n).wire = n.wire := by simp [RData.wire, writeRData, Name.write_eq]
    rw [hw] at hat ⊢
    exact readNamed_wire .ns hat
  | soa mname rname serial refresh retry expire minimum =>
    have hw : (RData.soa mname rname serial refresh retry expire minimum).wire = mname.wire ++
        (rname.wire ++
        (be32 serial ++ (be32 refresh ++ (be32 retry ++ (be32 expire ++ be32 minimum))))) := by
      simp [RData.wire, writeRData, Name.write_eq]
    rw [hw] at hat ⊢
    exact readSoa_wire hat (by simp only [length_append, length_be32]; omega)
  | mx preference exchange =>
    have hw : (RData.mx preference exchange).wire = be16 preference ++ exchange.wire := by
      simp [RData.wire, writeRData, Name.write_eq]
    rw [hw] at hat ⊢
    simp only [length_append, length_be16]
    exact readMx_wire hat
  | srv priority weight port target =>
    have hw : (RData.srv priority weight port target).wire =
        be16 priority ++ (be16 weight ++ (be16 port ++ target.wire)) := by
      simp [RData.wire, writeRData, Name.write_eq]
    have hlen : (be16 priority ++ (be16 weight ++ (be16 port ++ target.wire))).length =
        6 + target.wire.length := by
      simp only [length_append, length_be16]; omega
    rw [hw] at hat ⊢
    rw [hlen]
    exact readSrv_wire hat
  | txt strings =>
    have hw : (RData.txt strings).wire = stringsWire strings := by
      simp only [RData.wire, writeRData, writeStrings_eq, nil_append]
    have hr := readStrings_wire strings []
    rw [hw]
    simp only [nil_append, length_nil] at hr
    show readTxt (stringsWire strings) = _
    simp [readTxt, hr, RData.cut]
  | opt data =>
    rw [RData.wire, writeRData, nil_append]
    rfl
  | unknown data =>
    rw [RData.wire, writeRData, nil_append]
    rfl

end RoundTrip

/-! ### What is read is well formed -/

/-- **What one call of `read_rdata` can return**: the arm of its type, with the octets it ran over
inside the message. -/
theorem readRData_cases (h : readRData msg rtype start len = .ok d) :
    ∃ data, slice? msg start (start + len) = some data ∧
      readArm msg start len data (armOf rtype) = .ok d := by
  unfold readRData at h
  simp only [bind_eq_ok, okOr_eq_ok] at h
  exact h

theorem readRData_le (h : readRData msg rtype start len = .ok d) : start + len ≤ msg.length := by
  obtain ⟨data, hs, -⟩ := readRData_cases h
  exact le_of_slice? hs

theorem readA_ok (h : readA data len = .ok d) : ∃ v, d = .a v := by
  unfold readA at h
  split at h
  · cases h
  · simp only [bind_eq_ok, Except.ok.injEq] at h
    obtain ⟨_, _, _, _, _, _, _, _, rfl⟩ := h
    exact ⟨_, rfl⟩

theorem readAaaa_ok (h : readAaaa data len = .ok d) : ∃ v, d = .aaaa v := by
  unfold readAaaa at h
  split at h
  · cases h
  · split at h
    · exact ⟨_, (Except.ok.inj h).symm⟩
    · cases h

theorem readNamed_ok {mk : Name → RData} (h : readNamed mk msg start fin = .ok d) :
    ∃ n, nameAt msg fin start = .ok (n, fin) ∧ d = mk n := by
  unfold readNamed at h
  simp only [bind_eq_ok] at h
  obtain ⟨⟨n, next⟩, hn, h⟩ := h
  split at h
  · cases h
  · next hne =>
    simp only [ne_eq, not_not] at hne
    subst hne
    exact ⟨n, hn, (Except.ok.inj h).symm⟩

theorem readSoa_ok (h : readSoa msg start fin = .ok d) :
    ∃ mname rname p q serial refresh retry expire minimum, nameAt msg fin start = .ok (mname, p) ∧
      nameAt msg fin p = .ok (rname, q) ∧ q + 20 = fin ∧ u32At msg q = .ok serial ∧
      u32At msg (q + 4) = .ok refresh ∧ u32At msg (q + 8) = .ok retry ∧
      u32At msg (q + 12) = .ok expire ∧
      u32At msg (q + 16) = .ok minimum ∧
        d = .soa mname rname serial refresh retry expire minimum := by
  unfold readSoa at h
  simp only [bind_eq_ok] at h
  obtain ⟨⟨mname, p⟩, hm, ⟨rname, q⟩, hr, h⟩ := h
  split at h
  · cases h
  · next hne =>
    simp only [bind_eq_ok, Except.ok.injEq] at h
    obtain ⟨serial, h1, refresh, h2, retry, h3, expire, h4, minimum, h5, rfl⟩ := h
    exact ⟨mname, rname, p, q, serial, refresh, retry, expire, minimum, hm, hr, not_not.mp hne, h1,
      h2, h3, h4, h5, rfl⟩

theorem readMx_ok (h : readMx msg start len fin = .ok d) :
    3 ≤ len ∧ ∃ preference exchange, nameAt msg fin (start + 2) = .ok (exchange, fin) ∧
      u16At msg start = .ok preference ∧ d = .mx preference exchange := by
  unfold readMx at h
  split at h
  · cases h
  · next hlen =>
    simp only [bind_eq_ok] at h
    obtain ⟨⟨exchange, next⟩, hn, h⟩ := h
    split at h
    · cases h
    · next hne =>
      simp only [ne_eq, not_not] at hne
      subst hne
      simp only [bind_eq_ok, Except.ok.injEq] at h
      obtain ⟨preference, h1, rfl⟩ := h
      exact ⟨by omega, preference, exchange, hn, h1, rfl⟩

theorem readSrv_ok (h : readSrv msg start len fin = .ok d) :
    7 ≤ len ∧ ∃ priority weight port target, nameAt msg fin (start + 6) = .ok (target, fin) ∧
      u16At msg start = .ok priority ∧ u16At msg (start + 2) = .ok weight ∧
      u16At msg (start + 4) = .ok port ∧
      d = .srv priority weight port target := by
  unfold readSrv at h
  split at h
  · cases h
  · next hlen =>
    simp only [bind_eq_ok] at h
    obtain ⟨⟨target, next⟩, hn, h⟩ := h
    split at h
    · cases h
    · next hne =>
      simp only [ne_eq, not_not] at hne
      subst hne
      simp only [bind_eq_ok, Except.ok.injEq] at h
      obtain ⟨priority, h1, weight, h2, port, h3, rfl⟩ := h
      exact ⟨by omega, priority, weight, port, target, hn, h1, h2, h3, rfl⟩

theorem readTxt_ok (h : readTxt data = .ok d) :
    ∃ strings, readStrings data 0 = .ok strings ∧ d = .txt strings := by
  simp only [readTxt, bind_eq_ok, Except.ok.injEq] at h
  obtain ⟨strings, hs, rfl⟩ := h
  exact ⟨strings, hs, rfl⟩

theorem readStrings_le {p : ℕ} {strings : List Bytes} (h : readStrings data p = .ok strings) :
    ∀ s ∈ strings, s.length ≤ 255 := by
  fun_induction readStrings data p generalizing strings with
  | case1 => cases h
  | case2 => cases h
  | case3 => cases h
  | case4 p hp b hb s hs rest hrest ih =>
    obtain rfl := Except.ok.inj h
    intro t ht
    rcases mem_cons.mp ht with rfl | ht
    · have := length_of_slice? hs
      have := b.toNat_lt
      omega
    · exact ih hrest t ht
  | case5 =>
    obtain rfl := Except.ok.inj h
    simp

theorem readArm_wf {arm : Arm}
    (h : readArm msg start len data arm = .ok d) : d.arm = arm ∧ d.StringsFit := by
  cases arm with
  | a => obtain ⟨v, rfl⟩ := readA_ok h; exact ⟨rfl, trivial⟩
  | aaaa => obtain ⟨v, rfl⟩ := readAaaa_ok h; exact ⟨rfl, trivial⟩
  | cname => obtain ⟨n, -, rfl⟩ := readNamed_ok h; exact ⟨rfl, trivial⟩
  | ptr => obtain ⟨n, -, rfl⟩ := readNamed_ok h; exact ⟨rfl, trivial⟩
  | ns => obtain ⟨n, -, rfl⟩ := readNamed_ok h; exact ⟨rfl, trivial⟩
  | soa =>
    obtain ⟨_, _, _, _, _, _, _, _, _, -, -, -, -, -, -, -, -, rfl⟩ := readSoa_ok h
    exact ⟨rfl, trivial⟩
  | mx => obtain ⟨-, _, _, -, -, rfl⟩ := readMx_ok h; exact ⟨rfl, trivial⟩
  | srv => obtain ⟨-, _, _, _, _, -, -, -, -, rfl⟩ := readSrv_ok h; exact ⟨rfl, trivial⟩
  | txt => obtain ⟨strings, hs, rfl⟩ := readTxt_ok h; exact ⟨rfl, readStrings_le hs⟩
  | opt => obtain rfl := Except.ok.inj h; exact ⟨rfl, trivial⟩
  | unknown => obtain rfl := Except.ok.inj h; exact ⟨rfl, trivial⟩

/-- The data read agrees with the type it was read for, and its strings fit their length octet. -/
theorem readRData_wf
    (h : readRData msg rtype start len = .ok d) : d.Agrees rtype ∧ d.StringsFit := by
  obtain ⟨data, -, ht⟩ := readRData_cases h
  obtain ⟨h1, h2⟩ := readArm_wf ht
  exact ⟨RData.agrees_iff.mpr h1.symm, h2⟩

/-! ### What follows the message -/

section Append

variable {msg : Bytes} (x : Bytes) {fin pos start len : ℕ}

theorem nameAt_append {r : Name × ℕ} (h : nameAt msg fin pos = .ok r) :
    nameAt (msg ++ x) fin pos = .ok r := by
  simp only [nameAt, bind_eq_ok] at *
  obtain ⟨⟨n, next⟩, hn, h⟩ := h
  exact ⟨(n, next), Name.read_append x hn, h⟩

theorem u16At_append {v : UInt16} (h : u16At msg pos = .ok v) : u16At (msg ++ x) pos = .ok v := by
  simp only [u16At, bind_eq_ok, okOr_eq_ok] at *
  obtain ⟨b, hb, h⟩ := h
  exact ⟨b, slice?_append x hb, h⟩

theorem u32At_append {v : UInt32} (h : u32At msg pos = .ok v) : u32At (msg ++ x) pos = .ok v := by
  simp only [u32At, bind_eq_ok, okOr_eq_ok] at *
  obtain ⟨b, hb, h⟩ := h
  exact ⟨b, slice?_append x hb, h⟩

variable {d : RData}

theorem readNamed_append {mk : Name → RData}
    (h : readNamed mk msg start fin = .ok d) : readNamed mk (msg ++ x) start fin = .ok d := by
  obtain ⟨n, hn, rfl⟩ := readNamed_ok h
  simp [readNamed, nameAt_append x hn]

theorem readSoa_append (h : readSoa msg start fin = .ok d) :
    readSoa (msg ++ x) start fin = .ok d := by
  obtain ⟨mname, rname, p, q, serial, refresh, retry, expire, minimum, hm, hr, hq, h1, h2, h3, h4,
    h5, rfl⟩ :=
    readSoa_ok h
  simp [readSoa, nameAt_append x hm, nameAt_append x hr, hq, u32At_append x h1, u32At_append x h2,
    u32At_append x h3, u32At_append x h4, u32At_append x h5]

theorem readMx_append (h : readMx msg start len fin = .ok d) :
    readMx (msg ++ x) start len fin = .ok d := by
  obtain ⟨hlen, preference, exchange, hn, h1, rfl⟩ := readMx_ok h
  rw [readMx, if_neg (by omega)]
  simp [nameAt_append x hn, u16At_append x h1]

theorem readSrv_append (h : readSrv msg start len fin = .ok d) :
    readSrv (msg ++ x) start len fin = .ok d := by
  obtain ⟨hlen, priority, weight, port, target, hn, h1, h2, h3, rfl⟩ := readSrv_ok h
  rw [readSrv, if_neg (by omega)]
  simp [nameAt_append x hn, u16At_append x h1, u16At_append x h2, u16At_append x h3]

/-- Only the arms that read names and numbers look at the message again, and those do not mind what
follows it. -/
theorem readArm_append {data : Bytes} {arm : Arm} (h : readArm msg start len data arm = .ok d) :
    readArm (msg ++ x) start len data arm = .ok d := by
  cases arm with
  | cname => exact readNamed_append x h
  | ptr => exact readNamed_append x h
  | ns => exact readNamed_append x h
  | soa => exact readSoa_append x h
  | mx => exact readMx_append x h
  | srv => exact readSrv_append x h
  | a => exact h
  | aaaa => exact h
  | txt => exact h
  | opt => exact h
  | unknown => exact h

theorem readRData_append {rtype : UInt16}
    (h : readRData msg rtype start len = .ok d) : readRData (msg ++ x) rtype start len = .ok d := by
  obtain ⟨data, hs, ht⟩ := readRData_cases h
  simp [readRData, slice?_append x hs, readArm_append x ht]

end Append

/-! ### No panic -/

section Safety

variable {data : Bytes} {len : ℕ}

theorem nameAt_safe (msg : Bytes) (fin pos : ℕ) : Safe (nameAt msg fin pos) := by
  refine Safe.bind (Name.read_safe msg pos) fun r _ => ?_
  obtain ⟨n, next⟩ := r
  simp only
  split
  · exact Safe.err _
  · exact Safe.ok _

theorem u16At_safe (msg : Bytes) (pos : ℕ) : Safe (u16At msg pos) := by
  refine Safe.bind (Safe.okOr _ _) fun b hb => u16From_safe ?_
  have := length_of_slice? (okOr_eq_ok.mp hb)
  omega

theorem u32At_safe (msg : Bytes) (pos : ℕ) : Safe (u32At msg pos) := by
  refine Safe.bind (Safe.okOr _ _) fun b hb => u32From_safe ?_
  have := length_of_slice? (okOr_eq_ok.mp hb)
  omega

theorem readStrings_safe (data : Bytes) (p : ℕ) : Safe (readStrings data p) := by
  fun_induction readStrings data p with
  | case1 p hp e he =>
    have h : Safe (index data p : Result Error UInt8) := Safe.index hp
    rw [he] at h
    simpa [Safe] using h
  | case2 => exact Safe.err _
  | case3 p hp b hb s hs e he ih =>
    rw [he] at ih
    simpa [Safe] using ih
  | case4 => exact Safe.ok _
  | case5 => exact Safe.ok _

theorem readNamed_safe (mk : Name → RData) (msg : Bytes) (start fin : ℕ) :
    Safe (readNamed mk msg start fin) := by
  refine Safe.bind (nameAt_safe msg fin start) fun r _ => ?_
  obtain ⟨n, next⟩ := r
  simp only
  split
  · exact Safe.err _
  · exact Safe.ok _

theorem readSoa_safe (msg : Bytes) (start fin : ℕ) : Safe (readSoa msg start fin) := by
  refine Safe.bind (nameAt_safe msg fin start) fun r _ => ?_
  obtain ⟨mname, p⟩ := r
  refine Safe.bind (nameAt_safe msg fin p) fun r _ => ?_
  obtain ⟨rname, q⟩ := r
  simp only
  split
  · exact Safe.err _
  · exact Safe.bind (u32At_safe _ _) fun _ _ => Safe.bind (u32At_safe _ _) fun _ _ =>
      Safe.bind (u32At_safe _ _) fun _ _ => Safe.bind (u32At_safe _ _) fun _ _ =>
      Safe.bind (u32At_safe _ _) fun _ _ => Safe.ok _

theorem readMx_safe (msg : Bytes) (start len fin : ℕ) : Safe (readMx msg start len fin) := by
  unfold readMx
  split
  · exact Safe.err _
  · refine Safe.bind (nameAt_safe msg fin (start + 2)) fun r _ => ?_
    obtain ⟨exchange, next⟩ := r
    simp only
    split
    · exact Safe.err _
    · exact Safe.bind (u16At_safe _ _) fun _ _ => Safe.ok _

theorem readSrv_safe (msg : Bytes) (start len fin : ℕ) : Safe (readSrv msg start len fin) := by
  unfold readSrv
  split
  · exact Safe.err _
  · refine Safe.bind (nameAt_safe msg fin (start + 6)) fun r _ => ?_
    obtain ⟨target, next⟩ := r
    simp only
    split
    · exact Safe.err _
    · exact Safe.bind (u16At_safe _ _) fun _ _ => Safe.bind (u16At_safe _ _) fun _ _ =>
        Safe.bind (u16At_safe _ _) fun _ _ => Safe.ok _

theorem readA_safe (h : data.length = len) : Safe (readA data len) := by
  unfold readA
  split
  · exact Safe.err _
  · exact Safe.bind (Safe.index (by omega)) fun _ _ => Safe.bind (Safe.index (by omega)) fun _ _ =>
      Safe.bind (Safe.index (by omega)) fun _ _ => Safe.bind (Safe.index (by omega)) fun _ _ =>
        Safe.ok _

theorem readAaaa_safe (h : data.length = len) : Safe (readAaaa data len) := by
  unfold readAaaa
  split
  · exact Safe.err _
  · rw [dif_pos (by omega)]
    exact Safe.ok _

theorem readArm_safe (msg : Bytes) (start : ℕ) (arm : Arm) (h : data.length = len) :
    Safe (readArm msg start len data arm) := by
  cases arm with
  | a => exact readA_safe h
  | aaaa => exact readAaaa_safe h
  | cname => exact readNamed_safe _ _ _ _
  | ptr => exact readNamed_safe _ _ _ _
  | ns => exact readNamed_safe _ _ _ _
  | soa => exact readSoa_safe _ _ _
  | mx => exact readMx_safe _ _ _ _
  | srv => exact readSrv_safe _ _ _ _
  | txt => exact Safe.bind (readStrings_safe data 0) fun _ _ => Safe.ok _
  | opt => exact Safe.ok _
  | unknown => exact Safe.ok _

theorem readRData_safe (msg : Bytes) (rtype : UInt16) (start len : ℕ) :
    Safe (readRData msg rtype start len) := by
  refine Safe.bind (Safe.okOr _ _) fun data hdata => readArm_safe msg start _ ?_
  rw [length_of_slice? (okOr_eq_ok.mp hdata)]
  omega

end Safety

end Resolvd.Dns
