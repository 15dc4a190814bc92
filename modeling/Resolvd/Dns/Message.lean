import Resolvd.Dns.Record
import Mathlib.Tactic.IntervalCases

/-!
# Messages

`dns::Header`, `dns::Question` and `dns::Message`, with `encode` and `decode`.  `encode` is append
by append as in the source and `Message.wire` is what it comes to (`Message.encode_eq_ok`); `decode`
reads the counts from the header and then the four sections with `readMany`.

* `Message.decode_wire`: a message that was written is read back, its character strings cut to 255 octets;
* `Message.decode_encode`: so an encoding decodes to the message it was made from;
* `Message.decode_spec`: what an arbitrary octet string decodes to, and that decoding it never panics;
* `Message.encode_query`: a query always encodes.
-/

namespace Resolvd.Dns

open Lib List

/-! ### The header -/

namespace Rcode

abbrev noerror : UInt8 := 0
abbrev formerr : UInt8 := 1
abbrev servfail : UInt8 := 2
abbrev nxdomain : UInt8 := 3
abbrev notimp : UInt8 := 4
abbrev refused : UInt8 := 5

end Rcode

/-- `dns::Header`; opcode and response code are four bits on the wire. -/
structure Header where
  id : UInt16 := 0
  response : Bool := false
  opcode : UInt8 := 0
  authoritative : Bool := false
  truncated : Bool := false
  recursionDesired : Bool := false
  recursionAvailable : Bool := false
  authenticData : Bool := false
  checkingDisabled : Bool := false
  rcode : UInt8 := 0
  deriving DecidableEq

/-- `u16::from(b)`. -/
def bit (b : Bool) : UInt16 := if b then 1 else 0

namespace Header

/-- `Header::flags`: the second word of the header. -/
def flags (h : Header) : UInt16 :=
  (bit h.response <<< 15) ||| ((h.opcode.toUInt16 &&& 0xF) <<< 11) |||
    (bit h.authoritative <<< 10) |||
    (bit h.truncated <<< 9) ||| (bit h.recursionDesired <<< 8) |||
      (bit h.recursionAvailable <<< 7) |||
    (bit h.authenticData <<< 5) ||| (bit h.checkingDisabled <<< 4) ||| (h.rcode.toUInt16 &&& 0xF)

/-- `Header::from_flags`. -/
def fromFlags (id flags : UInt16) : Header where
  id := id
  response := flags &&& 0x8000 != 0
  opcode := ((flags >>> 11) &&& 0xF).toUInt8
  authoritative := flags &&& 0x0400 != 0
  truncated := flags &&& 0x0200 != 0
  recursionDesired := flags &&& 0x0100 != 0
  recursionAvailable := flags &&& 0x0080 != 0
  authenticData := flags &&& 0x0020 != 0
  checkingDisabled := flags &&& 0x0010 != 0
  rcode := (flags &&& 0xF).toUInt8

/-- Opcode and response code fit their four bits. -/
def Fits (h : Header) : Prop := h.opcode.toNat < 16 ∧ h.rcode.toNat < 16

end Header

theorem bne_twoPow (x : UInt16) {k : ℕ} (hk : k < 16) :
    (x &&& UInt16.ofBitVec (BitVec.twoPow 16 k) != 0) = x.toBitVec.getLsbD k := by
  rw [Bool.eq_iff_iff, bne_iff_ne, ne_eq, ← UInt16.toBitVec_inj, UInt16.toBitVec_and,
    BitVec.and_twoPow]
  cases h : x.toBitVec.getLsbD k with
  | false => simp
  | true =>
    simp only [if_true, iff_true]
    intro h'
    have := congrArg (fun v => BitVec.getLsbD v k) h'
    simp [hk] at this

theorem getElem_bit (b : Bool) {k : ℕ} (hk : k < 16) :
    (bit b).toBitVec[k] = (b && decide (k = 0)) := by
  cases b
  · simp [bit]
  · cases k <;> simp [bit]

theorem getElem_nibble {x : UInt8} (h : x.toNat < 16) {i : ℕ} (hi : i < 8) (h4 : 4 ≤ i) :
    x.toBitVec[i] = false := by
  rw [BitVec.getElem_eq_testBit_toNat]
  apply Nat.testBit_lt_two_pow
  calc x.toNat < 2 ^ 4 := h
    _ ≤ 2 ^ i := Nat.pow_le_pow_right (by decide) h4

namespace Header

/-- A one-bit field is read with the mask of its bit. -/
theorem flag (h : Header) {k : ℕ} {mask : UInt16} {b : Bool} (hk : k < 16)
    (hmask : mask = UInt16.ofBitVec (BitVec.twoPow 16 k)) (hb : h.flags.toBitVec.getLsbD k = b) :
    (h.flags &&& mask != 0) = b := by
  rw [hmask, bne_twoPow _ hk, hb]

variable {h : Header}

theorem opcode_flags (ho : h.opcode.toNat < 16) :
    ((h.flags >>> 11) &&& 0xF).toUInt8 = h.opcode := by
  rw [← UInt8.toBitVec_inj]
  ext i hi
  by_cases h4 : 4 ≤ i
  · have hmask : (15#8)[i] = false := by interval_cases i <;> decide +revert
    rw [getElem_nibble ho hi h4]
    simp [hmask]
  · interval_cases i <;> simp [flags, getElem_bit]

theorem rcode_flags (hr : h.rcode.toNat < 16) : (h.flags &&& 0xF).toUInt8 = h.rcode := by
  rw [← UInt8.toBitVec_inj]
  ext i hi
  by_cases h4 : 4 ≤ i
  · have hmask : (15#8)[i] = false := by interval_cases i <;> decide +revert
    rw [getElem_nibble hr hi h4]
    simp [hmask]
  · interval_cases i <;> simp [flags, getElem_bit]

/-- **The header survives the wire.** -/
theorem fromFlags_flags (hf : h.Fits) : fromFlags h.id h.flags = h := by
  have h15 : (h.flags &&& 0x8000 != 0) = h.response :=
    h.flag (k := 15) (by decide) rfl (by simp [flags, getElem_bit])
  have h10 : (h.flags &&& 0x0400 != 0) = h.authoritative :=
    h.flag (k := 10) (by decide) rfl (by simp [flags, getElem_bit])
  have h9 : (h.flags &&& 0x0200 != 0) = h.truncated :=
    h.flag (k := 9) (by decide) rfl (by simp [flags, getElem_bit])
  have h8 : (h.flags &&& 0x0100 != 0) = h.recursionDesired :=
    h.flag (k := 8) (by decide) rfl (by simp [flags, getElem_bit])
  have h7 : (h.flags &&& 0x0080 != 0) = h.recursionAvailable :=
    h.flag (k := 7) (by decide) rfl (by simp [flags, getElem_bit])
  have h5 : (h.flags &&& 0x0020 != 0) = h.authenticData :=
    h.flag (k := 5) (by decide) rfl (by simp [flags, getElem_bit])
  have h4 : (h.flags &&& 0x0010 != 0) = h.checkingDisabled :=
    h.flag (k := 4) (by decide) rfl (by simp [flags, getElem_bit])
  simp only [fromFlags, h15, h10, h9, h8, h7, h5, h4, opcode_flags hf.1, rcode_flags hf.2]

theorem and_nibble_lt (x : UInt16) : (x &&& 0xF).toUInt8.toNat < 16 := by
  have h : (x &&& 0xF).toNat ≤ 15 := by
    rw [UInt16.toNat_and]
    exact Nat.and_le_right
  have h' : (x &&& 0xF).toUInt8.toNat = (x &&& 0xF).toNat % 256 := UInt16.toNat_toUInt8 _
  omega

theorem fits_fromFlags (id flags : UInt16) : (fromFlags id flags).Fits :=
  ⟨and_nibble_lt _, and_nibble_lt _⟩

end Header

/-! ### Questions and messages -/

/-- `dns::Question`. -/
structure Question where
  name : Name
  rtype : UInt16
  class_ : UInt16
  deriving DecidableEq

/-- `Question::new`: class IN. -/
def Question.new (name : Name) (rtype : UInt16) : Question := ⟨name, rtype, Class.IN⟩

/-- The size `query` advertises (`EDNS_UDP_SIZE`). -/
abbrev ednsUdpSize : UInt16 := 1232

/-- `dns::Message`. -/
structure Message where
  header : Header := {}
  questions : List Question := []
  answers : List Record := []
  authority : List Record := []
  additional : List Record := []
  deriving DecidableEq

namespace Message

/-- `Message::query`: one question, recursion desired, with EDNS. -/
def query (id : UInt16) (question : Question) : Message where
  header := { id := id, recursionDesired := true }
  questions := [question]
  additional := [Record.opt ednsUdpSize false]

/-- `Message::opt`. -/
def opt (m : Message) : Option Record := m.additional.find? fun r => r.rtype == Rtype.opt

/-- `Message::rcode`: the response code with the eight bits EDNS adds. -/
def rcode (m : Message) : UInt16 :=
  let ext : UInt16 := (m.opt.map fun o =>
    ((o.ttl >>> (24 : UInt32)) &&& (0xFF : UInt32)).toUInt16).getD 0
  (ext <<< 4) ||| m.header.rcode.toUInt16

/-- `Message::question`: the question, when there is exactly one. -/
def question (m : Message) : Option Question :=
  match m.questions with
  | [q] => some q
  | _ => none

theorem question_eq_some {m : Message} {q : Question} :
    m.question = some q ↔ m.questions = [q] := by
  unfold question
  split
  · next q' h => simp [h]
  · next h =>
    simp only [reduceCtorEq, false_iff]
    exact h q

/-- The records of the three sections, in wire order. -/
def records (m : Message) : List Record := m.answers ++ m.authority ++ m.additional

/-- Every name of a message. -/
def names (m : Message) : List Name :=
  m.questions.map Question.name ++ m.records.flatMap fun r => r.name :: r.rdata.names

end Message

/-! ### Encoding -/

/-- One turn of the first loop of `encode`. -/
def Question.write (q : Question) (out : Bytes) : Bytes :=
  q.name.write out ++ be16 q.rtype ++ be16 q.class_

/-- The four counts; one that does not fit 16 bits is an error. -/
def writeCounts (out : Bytes) : List ℕ → Except Error Bytes
  | [] => .ok out
  | n :: ns => if n > 65535 then .error .tooLarge else writeCounts (out ++ be16 (UInt16.ofNat n)) ns

namespace Message

def counts (m : Message) : List ℕ :=
  [m.questions.length, m.answers.length, m.authority.length, m.additional.length]

/-- `Message::encode`. -/
def encode (m : Message) : Except Error Bytes :=
  match writeCounts (be16 m.header.id ++ be16 m.header.flags) m.counts with
  | .error e => .error e
  | .ok out =>
    let out := m.questions.foldl (fun out q => q.write out) out
    let out := m.records.foldl (fun out r => r.write out) out
    if out.length > maxMessageSize then .error .tooLarge else .ok out

end Message

/-- What `Question.write` appends. -/
def Question.wire (q : Question) : Bytes := q.name.wire ++ (be16 q.rtype ++ be16 q.class_)

theorem Question.write_eq (q : Question) (out : Bytes) : q.write out = out ++ q.wire := by
  simp [Question.write, Question.wire, Name.write_eq]

theorem foldl_write {α : Type} {write : α → Bytes → Bytes} {wire : α → Bytes}
    (h : ∀ a out, write a out = out ++ wire a) (as : List α) (out : Bytes) :
    as.foldl (fun out a => write a out) out = out ++ as.flatMap wire := by
  induction as generalizing out with
  | nil => simp
  | cons a as ih => rw [foldl_cons, ih, h, flatMap_cons, append_assoc]

theorem writeCounts_eq_ok {out b : Bytes} {ns : List ℕ} :
    writeCounts out ns = .ok b ↔
      (∀ n ∈ ns, n ≤ 65535) ∧ b = out ++ ns.flatMap fun n => be16 (UInt16.ofNat n) := by
  induction ns generalizing out with
  | nil => simp [writeCounts, eq_comm]
  | cons n ns ih =>
    rw [writeCounts]
    split
    · next hn =>
      simp only [reduceCtorEq, false_iff, not_and]
      intro h
      exact absurd (h n (by simp)) (by omega)
    · next hn =>
      rw [ih, forall_mem_cons]
      simp only [flatMap_cons, append_assoc]
      have hn' : n ≤ 65535 := by omega
      simp only [hn', true_and]

namespace Message

/-- The octets of a message. -/
def wire (m : Message) : Bytes :=
  be16 m.header.id ++ (be16 m.header.flags ++ (be16 (UInt16.ofNat m.questions.length) ++
    (be16 (UInt16.ofNat m.answers.length) ++ (be16 (UInt16.ofNat m.authority.length) ++
    (be16 (UInt16.ofNat m.additional.length) ++ (m.questions.flatMap Question.wire ++
    (m.answers.flatMap Record.wire ++
      (m.authority.flatMap Record.wire ++ m.additional.flatMap Record.wire))))))))

/-- **An encoding is the octets of the message**, and there is one exactly when the counts and the
whole fit 16 bits. -/
theorem encode_eq_ok {m : Message} {b : Bytes} :
    m.encode = .ok b ↔ (∀ n ∈ m.counts, n ≤ 65535) ∧ m.wire.length ≤ maxMessageSize ∧
      b = m.wire := by
  have hwire : ∀ out, out = be16 m.header.id ++ be16 m.header.flags ++
      (m.counts.flatMap fun n => be16 (UInt16.ofNat n)) →
      m.records.foldl (fun out r => r.write out)
        (m.questions.foldl (fun out q => q.write out) out) = m.wire := by
    rintro out rfl
    rw [foldl_write Record.write_eq, foldl_write Question.write_eq]
    simp [wire, records, counts]
  unfold encode
  constructor
  · intro h
    split at h
    · cases h
    · next out hout =>
      obtain ⟨hc, ho⟩ := writeCounts_eq_ok.mp hout
      simp only [hwire out ho] at h
      split at h
      · cases h
      · next hlen => exact ⟨hc, by omega, (Except.ok.inj h).symm⟩
  · rintro ⟨hc, hlen, rfl⟩
    rw [writeCounts_eq_ok.mpr ⟨hc, rfl⟩]
    simp only [hwire _ rfl]
    rw [if_neg (by omega)]

/-- **A query always encodes.** -/
theorem encode_query (id : UInt16) (q : Question) :
    (query id q).encode = .ok (query id q).wire := by
  refine encode_eq_ok.mpr ⟨?_, ?_, rfl⟩
  · simp [counts, query]
  · -- twelve octets of header, the question, and the eleven of the OPT record
    have hname : q.name.wire.length ≤ 255 := by rw [Name.length_wire]; exact q.name.fits.2
    have hroot : Name.root.wire.length = 1 := rfl
    simp only [wire, query, length_append, length_be16, flatMap_cons, flatMap_nil, Question.wire,
      Record.wire, Record.opt, Record.length_fixedWire, RData.wire, writeRData, hroot, length_nil,
        maxMessageSize]
    omega

end Message

/-! ### Decoding -/

/-- One turn of the loop of `decode` over the questions. -/
def readQuestion (msg : Bytes) (p : ℕ) : Result Error (Question × ℕ) := do
  let (name, next) ← Name.read msg p
  let b ← okOr (slice? msg next (next + 4)) .truncated
  let rtype ← u16From b 0
  let class_ ← u16From b 2
  .ok (⟨name, rtype, class_⟩, next + 4)

/-- One turn of the loop of `decode` over the records of a section. -/
def readRecord (msg : Bytes) (p : ℕ) : Result Error (Record × ℕ) := do
  let (name, next) ← Name.read msg p
  let b ← okOr (slice? msg next (next + 10)) .truncated
  let rtype ← u16From b 0
  let class_ ← u16From b 2
  let ttl ← u32From b 4
  let len ← u16From b 8
  let rdata ← readRData msg rtype (next + 10) len.toNat
  .ok (⟨name, rtype, class_, ttl, rdata⟩, next + 10 + len.toNat)

/-- `Message::decode`.  What stands after the last section is not looked at. -/
def Message.decode (msg : Bytes) : Result Error Message :=
  if msg.length < 12 then .error (.err .truncated)
  else do
    let id ← u16From msg 0
    let flags ← u16From msg 2
    let qdcount ← u16From msg 4
    let ancount ← u16From msg 6
    let nscount ← u16From msg 8
    let arcount ← u16From msg 10
    let (questions, p) ← readMany (readQuestion msg) qdcount.toNat 12
    let (answers, p) ← readMany (readRecord msg) ancount.toNat p
    let (authority, p) ← readMany (readRecord msg) nscount.toNat p
    let (additional, _) ← readMany (readRecord msg) arcount.toNat p
    .ok { header := Header.fromFlags id flags, questions, answers, authority, additional }

/-! ### Reading back what was written -/

section RoundTrip

variable {msg : Bytes} {p : ℕ}

theorem readQuestion_wire {q : Question} (h : At msg p q.wire) :
    readQuestion msg p = .ok (q, p + q.wire.length) := by
  have hs : slice? msg (p + q.name.wire.length) (p + q.name.wire.length + 4) =
      some (be16 q.rtype ++ be16 q.class_) := h.right.slice
  have h0 : u16From (be16 q.rtype ++ be16 q.class_) 0 = .ok q.rtype :=
    u16From_be16 (At.intro [] _ _)
  have h2 : u16From (be16 q.rtype ++ be16 q.class_) 2 = .ok q.class_ :=
    u16From_be16 ⟨be16 q.rtype, [], by simp, by simp⟩
  simp only [readQuestion, Name.read_wire h.left, ok_bind, hs, okOr_some, h0, h2]
  simp [Question.wire, Nat.add_assoc]

/-- A record with its character strings cut to 255 octets. -/
def Record.cut (r : Record) : Record := { r with rdata := r.rdata.cut }

theorem readRecord_wire {r : Record} (h : At msg p r.wire) (hd : r.rdata.Agrees r.rtype)
    (hlen : r.rdata.wire.length ≤ 65535) : readRecord msg p = .ok (r.cut, p + r.wire.length) := by
  have hl : (UInt16.ofNat r.rdata.wire.length).toNat = r.rdata.wire.length := by
    simp; omega
  have hs : slice? msg (p + r.name.wire.length) (p + r.name.wire.length + 10) =
      some r.fixedWire := by
    have := h.left.right.slice
    rwa [Record.length_fixedWire] at this
  have hfix : At r.fixedWire 0 r.fixedWire := ⟨[], [], by simp, rfl⟩
  have h0 : u16From r.fixedWire 0 = .ok r.rtype := u16From_be16 hfix.left.left.left
  have h2 : u16From r.fixedWire 2 = .ok r.class_ := u16From_be16 hfix.left.left.right
  have h4 : u32From r.fixedWire 4 = .ok r.ttl := u32From_be32 hfix.left.right
  have h8 : u16From r.fixedWire 8 = .ok (UInt16.ofNat r.rdata.wire.length) :=
    u16From_be16 hfix.right
  have hdata : readRData msg r.rtype (p + r.name.wire.length + 10) r.rdata.wire.length =
      .ok r.rdata.cut := by
    have := h.right
    simp only [length_append, Record.length_fixedWire, ← Nat.add_assoc] at this
    exact readRData_wire this hd
  simp only [readRecord, Name.read_wire h.left.left, ok_bind, hs, okOr_some, h0, h2, h4, h8,
    hl, hdata]
  simp [Record.wire, Record.cut, Nat.add_assoc]

end RoundTrip

namespace Message

/-- A message with every character string cut to 255 octets. -/
def cut (m : Message) : Message :=
  { m with
    answers := m.answers.map Record.cut
    authority := m.authority.map Record.cut
    additional := m.additional.map Record.cut }

/-- What `decode` needs to find again what was encoded: header fields that fit, and data of the
right variant. -/
structure Typed (m : Message) : Prop where
  /-- opcode and response code fit their four bits -/
  header : m.header.Fits
  /-- every record carries the data its type says -/
  records : ∀ r ∈ m.records, r.rdata.Agrees r.rtype

theorem wire_records_le {m : Message} {r : Record} (hr : r ∈ m.records) :
    r.rdata.wire.length ≤ m.wire.length := by
  have h1 : r.rdata.wire.length ≤ r.wire.length := by simp only [Record.wire, length_append]; omega
  have h2 : r.wire.length ≤ (m.records.flatMap Record.wire).length :=
    List.Sublist.length_le (sublist_flatten_of_mem (mem_map_of_mem hr))
  have h3 : (m.records.flatMap Record.wire).length ≤ m.wire.length := by
    simp only [records, flatMap_append, wire, length_append]
    omega
  omega

/-- **A message that was written is read back**, its character strings cut. -/
theorem decode_wire {m : Message} (hm : m.Typed) (hc : ∀ n ∈ m.counts, n ≤ 65535)
    (hlen : m.wire.length ≤ maxMessageSize) : decode m.wire = .ok m.cut := by
  -- the parts of the message and where they stand
  have hat : At m.wire 0 m.wire := ⟨[], [], by simp, rfl⟩
  have hid := u16From_be16 hat.left
  have hflags := u16From_be16 hat.right.left
  have hqd := u16From_be16 hat.right.right.left
  have han := u16From_be16 hat.right.right.right.left
  have hns := u16From_be16 hat.right.right.right.right.left
  have har := u16From_be16 hat.right.right.right.right.right.left
  have hsec := hat.right.right.right.right.right.right
  simp only [length_be16, Nat.reduceAdd] at hflags hqd han hns har hsec
  have hcount : ∀ n ∈ m.counts, (UInt16.ofNat n).toNat = n := by
    intro n hn
    have := hc n hn
    simp; omega
  have hrec : ∀ r ∈ m.records, ∀ p, At m.wire p r.wire →
      readRecord m.wire p = .ok (r.cut, p + r.wire.length) :=
    fun r hr p h => readRecord_wire h (hm.records r hr) ((wire_records_le hr).trans hlen)
  have h1 : readMany (readQuestion m.wire) m.questions.length 12 =
      .ok (m.questions.map id, 12 + (m.questions.flatMap Question.wire).length) :=
    readMany_wire m.questions 12 (fun q _ p h => readQuestion_wire h) hsec.left
  have h2 := readMany_wire m.answers _ (fun r hr => hrec r (by simp [records, hr])) hsec.right.left
  have h3 := readMany_wire m.authority _ (fun r hr => hrec r (by simp [records, hr]))
    hsec.right.right.left
  have h4 := readMany_wire m.additional _ (fun r hr => hrec r (by simp [records, hr]))
    hsec.right.right.right
  have h12 : ¬ m.wire.length < 12 := by
    simp only [wire, length_append, length_be16]
    omega
  unfold decode
  rw [if_neg h12]
  simp only [hid, hflags, hqd, han, hns, har, ok_bind]
  simp only [counts, forall_mem_cons] at hcount
  simp only [hcount, h1, h2, h3, h4, ok_bind]
  simp [cut, Header.fromFlags_flags hm.header]

end Message

/-! ### What was read -/

section Read

variable {msg : Bytes} {p next : ℕ}

theorem readQuestion_eq_ok {q : Question} :
    readQuestion msg p = .ok (q, next) ↔ ∃ k b, Name.read msg p = .ok (q.name, k) ∧
      slice? msg k (k + 4) = some b ∧ u16From b 0 = .ok q.rtype ∧ u16From b 2 = .ok q.class_ ∧
        k + 4 = next := by
  simp only [readQuestion, bind_eq_ok, okOr_eq_ok, Except.ok.injEq, Prod.mk.injEq]
  constructor
  · rintro ⟨⟨name, k⟩, hname, b, hb, rtype, h0, class_, h2, rfl, rfl⟩
    exact ⟨k, b, hname, hb, h0, h2, rfl⟩
  · rintro ⟨k, b, hname, hb, h0, h2, rfl⟩
    exact ⟨(q.name, k), hname, b, hb, q.rtype, h0, q.class_, h2, rfl, rfl⟩

theorem readRecord_eq_ok {r : Record} :
    readRecord msg p = .ok (r, next) ↔ ∃ k b len, Name.read msg p = .ok (r.name, k) ∧
      slice? msg k (k + 10) = some b ∧ u16From b 0 = .ok r.rtype ∧ u16From b 2 = .ok r.class_ ∧
      u32From b 4 = .ok r.ttl ∧ u16From b 8 = .ok len ∧
      readRData msg r.rtype (k + 10) len.toNat = .ok r.rdata ∧
      k + 10 + len.toNat = next := by
  simp only [readRecord, bind_eq_ok, okOr_eq_ok, Except.ok.injEq, Prod.mk.injEq]
  constructor
  · rintro ⟨⟨name, k⟩, hname, b, hb, rtype, h0, class_, h2, ttl, h4, len, h8, rdata, hd, rfl, rfl⟩
    exact ⟨k, b, len, hname, hb, h0, h2, h4, h8, hd, rfl⟩
  · rintro ⟨k, b, len, hname, hb, h0, h2, h4, h8, hd, rfl⟩
    exact ⟨(r.name, k), hname, b, hb, r.rtype, h0, r.class_, h2, r.ttl, h4, len, h8, r.rdata, hd,
      rfl, rfl⟩

theorem readQuestion_bounds {q : Question} (h : readQuestion msg p = .ok (q, next)) :
    p + 5 ≤ next ∧ next ≤ msg.length := by
  obtain ⟨k, b, hname, hb, -, -, rfl⟩ := readQuestion_eq_ok.mp h
  have := Name.read_bounds hname
  have := le_of_slice? hb
  omega

/-- A record takes at least eleven octets, and its data agrees with its type. -/
theorem readRecord_spec {r : Record} (h : readRecord msg p = .ok (r, next)) :
    (r.rdata.Agrees r.rtype ∧ r.rdata.StringsFit) ∧ p + 11 ≤ next ∧ next ≤ msg.length := by
  obtain ⟨k, b, len, hname, hb, -, -, -, -, hd, rfl⟩ := readRecord_eq_ok.mp h
  have := Name.read_bounds hname
  have := readRData_le hd
  exact ⟨readRData_wf hd, by omega, by omega⟩

theorem readQuestion_append (x : Bytes) {r : Question × ℕ} (h : readQuestion msg p = .ok r) :
    readQuestion (msg ++ x) p = .ok r := by
  obtain ⟨k, b, hname, hb, h0, h2, hk⟩ := readQuestion_eq_ok.mp h
  exact readQuestion_eq_ok.mpr ⟨k, b, Name.read_append x hname, slice?_append x hb, h0, h2, hk⟩

theorem readRecord_append (x : Bytes) {r : Record × ℕ} (h : readRecord msg p = .ok r) :
    readRecord (msg ++ x) p = .ok r := by
  obtain ⟨k, b, len, hname, hb, h0, h2, h4, h8, hd, hk⟩ := readRecord_eq_ok.mp h
  exact readRecord_eq_ok.mpr
    ⟨k, b, len, Name.read_append x hname, slice?_append x hb, h0, h2, h4, h8,
      readRData_append x hd, hk⟩

theorem readQuestion_safe (msg : Bytes) (p : ℕ) : Safe (readQuestion msg p) := by
  refine Safe.bind (Name.read_safe msg p) fun r _ => Safe.bind (Safe.okOr _ _) fun b hb => ?_
  have hlen := length_of_slice? (okOr_eq_ok.mp hb)
  exact Safe.bind (u16From_safe (by omega)) fun _ _ =>
    Safe.bind (u16From_safe (by omega)) fun _ _ => Safe.ok _

theorem readRecord_safe (msg : Bytes) (p : ℕ) : Safe (readRecord msg p) := by
  refine Safe.bind (Name.read_safe msg p) fun r _ => Safe.bind (Safe.okOr _ _) fun b hb => ?_
  have hlen := length_of_slice? (okOr_eq_ok.mp hb)
  exact Safe.bind (u16From_safe (by omega)) fun _ _ =>
    Safe.bind (u16From_safe (by omega)) fun _ _ =>
    Safe.bind (u32From_safe (by omega)) fun _ _ => Safe.bind (u16From_safe (by omega)) fun _ _ =>
      Safe.bind (readRData_safe _ _ _ _) fun _ _ => Safe.ok _

end Read

namespace Message

variable {msg : Bytes} {m : Message}

theorem decode_eq_ok :
    decode msg = .ok m ↔ 12 ≤ msg.length ∧ ∃ id flags qd an ns ar p₁ p₂ p₃ p₄,
      u16From msg 0 = .ok id ∧ u16From msg 2 = .ok flags ∧ u16From msg 4 = .ok qd ∧
      u16From msg 6 = .ok an ∧
      u16From msg 8 = .ok ns ∧ u16From msg 10 = .ok ar ∧ m.header = Header.fromFlags id flags ∧
      readMany (readQuestion msg) qd.toNat 12 = .ok (m.questions, p₁) ∧
      readMany (readRecord msg) an.toNat p₁ = .ok (m.answers, p₂) ∧
      readMany (readRecord msg) ns.toNat p₂ = .ok (m.authority, p₃) ∧
      readMany (readRecord msg) ar.toNat p₃ = .ok (m.additional, p₄) := by
  unfold decode
  split
  · next h =>
    simp only [reduceCtorEq, false_iff, not_and]
    intro h'
    omega
  · next h =>
    simp only [bind_eq_ok, Except.ok.injEq]
    constructor
    · rintro ⟨id, h0, flags, h2, qd, h4, an, h6, ns, h8, ar, h10, ⟨questions, p₁⟩, hq,
        ⟨answers, p₂⟩, ha, ⟨authority, p₃⟩, hn, ⟨additional, p₄⟩, hr, rfl⟩
      exact ⟨by omega, id, flags, qd, an, ns, ar, p₁, p₂, p₃, p₄, h0, h2, h4, h6, h8, h10, rfl, hq, ha, hn, hr⟩
    · rintro ⟨-, id, flags, qd, an, ns, ar, p₁, p₂, p₃, p₄, h0, h2, h4, h6, h8, h10, hh, hq,
        ha, hn, hr⟩
      refine ⟨id, h0, flags, h2, qd, h4, an, h6, ns, h8, ar, h10, _, hq, _, ha, _, hn, _, hr, ?_⟩
      rw [← hh]

theorem decode_safe (msg : Bytes) : Safe (decode msg) := by
  unfold decode
  split
  · exact Safe.err _
  · next h =>
    refine Safe.bind (u16From_safe (by omega)) fun _ _ =>
      Safe.bind (u16From_safe (by omega)) fun _ _ =>
      Safe.bind (u16From_safe (by omega)) fun _ _ => Safe.bind (u16From_safe (by omega)) fun _ _ =>
      Safe.bind (u16From_safe (by omega)) fun _ _ =>
        Safe.bind (u16From_safe (by omega)) fun _ _ => ?_
    refine Safe.bind (Safe.readMany (readQuestion_safe msg) _ _) fun _ _ =>
      Safe.bind (Safe.readMany (readRecord_safe msg) _ _) fun _ _ =>
      Safe.bind (Safe.readMany (readRecord_safe msg) _ _) fun _ _ =>
      Safe.bind (Safe.readMany (readRecord_safe msg) _ _) fun _ _ => Safe.ok _

/-- What follows the last section does not change the result. -/
theorem decode_append (x : Bytes) (h : decode msg = .ok m) : decode (msg ++ x) = .ok m := by
  obtain ⟨hlen, id, flags, qd, an, ns, ar, p₁, p₂, p₃, p₄, h0, h2, h4, h6, h8, h10, hh, hq, ha,
    hn, hr⟩ :=
    decode_eq_ok.mp h
  have hrec : ∀ p r, readRecord msg p = .ok r → readRecord (msg ++ x) p = .ok r :=
    fun _ _ => readRecord_append x
  refine decode_eq_ok.mpr ⟨by simp only [length_append]; omega, id, flags, qd, an, ns, ar, p₁, p₂, p₃, p₄,
    u16From_append x h0, u16From_append x h2, u16From_append x h4, u16From_append x h6,
    u16From_append x h8,
    u16From_append x h10, hh, ?_, readMany_mono hrec ha, readMany_mono hrec hn,
      readMany_mono hrec hr⟩
  exact readMany_mono (fun _ _ => readQuestion_append x) hq

/-- **What a decoded message is like**: its header fits, its records agree with their types and have
no string that does not fit, and every question and record took its share of the octets. -/
theorem decode_wf (h : decode msg = .ok m) :
    m.Typed ∧ (∀ r ∈ m.records, r.rdata.StringsFit) ∧
      12 + 5 * m.questions.length + 11 * m.records.length ≤ msg.length := by
  obtain ⟨hlen, id, flags, qd, an, ns, ar, p₁, p₂, p₃, p₄, -, -, -, -, -, -, hh, hq, ha, hn, hr⟩ :=
    decode_eq_ok.mp h
  obtain ⟨-, hq1, hq2⟩ :=
    readMany_spec (P := fun _ => True) (fun p a next h => ⟨trivial, readQuestion_bounds h⟩) hq hlen
  obtain ⟨ha0, ha1, ha2⟩ := readMany_spec (fun p a next h => readRecord_spec h) ha hq2
  obtain ⟨hn0, hn1, hn2⟩ := readMany_spec (fun p a next h => readRecord_spec h) hn ha2
  obtain ⟨hr0, hr1, hr2⟩ := readMany_spec (fun p a next h => readRecord_spec h) hr hn2
  have hall : ∀ r ∈ m.records, r.rdata.Agrees r.rtype ∧ r.rdata.StringsFit := by
    intro r hmem
    simp only [records, mem_append] at hmem
    rcases hmem with (hmem | hmem) | hmem
    · exact ha0 r hmem
    · exact hn0 r hmem
    · exact hr0 r hmem
  refine ⟨⟨hh ▸ Header.fits_fromFlags id flags, fun r hmem => (hall r hmem).1⟩, fun r hmem =>
    (hall r hmem).2, ?_⟩
  simp only [records, length_append]
  omega

theorem decode_wellFormed (h : decode msg = .ok m) : ∀ r ∈ m.records, r.WellFormed :=
  fun r hr => ⟨(decode_wf h).1.records r hr, (decode_wf h).2.1 r hr⟩

/-! ### The two directions together -/

theorem cut_of_stringsFit (h : ∀ r ∈ m.records, r.rdata.StringsFit) : m.cut = m := by
  have hcut : ∀ rs : List Record, (∀ r ∈ rs, r ∈ m.records) → rs.map Record.cut = rs := by
    intro rs hrs
    refine (map_congr_left fun r hr => ?_).trans (map_id rs)
    simp only [Record.cut, RData.cut_of_stringsFit (h r (hrs r hr)), id]
  have h1 := hcut m.answers fun r hr => by simp [records, hr]
  have h2 := hcut m.authority fun r hr => by simp [records, hr]
  have h3 := hcut m.additional fun r hr => by simp [records, hr]
  simp only [cut, h1, h2, h3]

theorem decode_query (id : UInt16) (q : Question) :
    decode (query id q).wire = .ok (query id q) := by
  have hrecords : ∀ r ∈ (query id q).records, r = Record.opt ednsUdpSize false := by
    simp [records, query]
  obtain ⟨hc, hlen, -⟩ := encode_eq_ok.mp (encode_query id q)
  have htyped : (query id q).Typed := by
    refine ⟨⟨Nat.zero_lt_succ _, Nat.zero_lt_succ _⟩, fun r hr => ?_⟩
    rw [hrecords r hr]
    rfl
  rw [decode_wire htyped hc hlen, cut_of_stringsFit fun r hr => by rw [hrecords r hr]; trivial]

/-- **An encoding decodes to the message it was made from.**  The names of a `Message` keep their
limits by type; given that opcode and response code fit their bits and each record carries the data
its type says, `decode` returns the message with every character string cut to 255 octets, which is
the message itself when none is longer.  No record's data was too long for its 16-bit length. -/
theorem decode_encode {m : Message} {b : Bytes} (hm : m.Typed) (hb : m.encode = .ok b) :
    decode b = .ok m.cut ∧ ((∀ r ∈ m.records, r.rdata.StringsFit) → decode b = .ok m) ∧
      ∀ r ∈ m.records, (UInt16.ofNat r.rdata.wire.length).toNat = r.rdata.wire.length := by
  obtain ⟨hc, hlen, rfl⟩ := encode_eq_ok.mp hb
  have hdec := decode_wire hm hc hlen
  refine ⟨hdec, fun hs => by rw [hdec, cut_of_stringsFit hs], fun r hr => ?_⟩
  have := wire_records_le hr
  simp only [UInt16.toNat_ofNat', maxMessageSize] at *
  omega

/-- A reply with an address, a name inside the data, and character strings. -/
def sampleReply : Message where
  header := { id := 7, response := true, rcode := Rcode.nxdomain }
  questions := [Question.new ⟨[ascii "wWw", ascii "org"], by decide⟩ Rtype.a]
  answers := [Record.new ⟨[ascii "WWW", ascii "org"], by decide⟩ 60 (.a #v[10, 0, 0, 1])]
  authority := [Record.new ⟨[ascii "org"], by decide⟩ 60
    (.mx 10 ⟨[ascii "mail", ascii "org"], by decide⟩)]
  additional := [Record.new ⟨[ascii "org"], by decide⟩ 60 (.txt [ascii "v=spf1", []])]

theorem decode_encode_sampleReply :
    ∃ b, sampleReply.encode = .ok b ∧ decode b = .ok sampleReply := by
  have henc : sampleReply.encode = .ok sampleReply.wire :=
    encode_eq_ok.mpr ⟨by decide, by decide +kernel, rfl⟩
  have hrecords : ∀ r ∈ sampleReply.records, r.rdata.Agrees r.rtype ∧ r.rdata.StringsFit := by
    intro r hr
    simp only [sampleReply, records, mem_append, mem_singleton] at hr
    rcases hr with (rfl | rfl) | rfl
    · exact ⟨rfl, trivial⟩
    · exact ⟨rfl, trivial⟩
    · exact ⟨rfl, by simp [Record.new, RData.StringsFit]; decide⟩
  have htyped : sampleReply.Typed := ⟨⟨by decide, by decide⟩, fun r hr => (hrecords r hr).1⟩
  exact ⟨sampleReply.wire, henc, (decode_encode htyped henc).2.1 fun r hr => (hrecords r hr).2⟩

/-- **Whatever `decode` returns is well formed and canonical**, for arbitrary octets.  It does not
panic.  A message it returns has names within the limits, data of the variant its type says,
character strings of at most 255 octets, and no more questions and records than the octets have room
for.  Encoding it, when that succeeds, and decoding again gives the same message, whose encoding is
the same octets.  What follows the last section makes no difference. -/
theorem decode_canonical (b : Bytes) :
    Safe (decode b) ∧ ∀ m, decode b = .ok m →
      (∀ n ∈ m.names, (∀ l ∈ n.labels, 1 ≤ l.length ∧ l.length ≤ 63) ∧ wireLenOf n.labels ≤ 255) ∧
      (∀ r ∈ m.records, r.rdata.Agrees r.rtype ∧ r.rdata.StringsFit) ∧
      12 + 5 * m.questions.length + 11 * m.records.length ≤ b.length ∧
      (∀ b₂, m.encode = .ok b₂ → decode b₂ = .ok m ∧ ∀ m', decode b₂ = .ok m' →
        m'.encode = .ok b₂) ∧
      ∀ x, decode (b ++ x) = decode b := by
  refine ⟨decode_safe b, fun m hm => ?_⟩
  obtain ⟨htyped, hstrings, hcount⟩ := decode_wf hm
  refine ⟨fun n _ => n.fits, fun r hr => ⟨htyped.records r hr, hstrings r hr⟩, hcount,
    fun b₂ hb₂ => ?_,
    fun x => by rw [decode_append x hm, hm]⟩
  obtain ⟨hc, hlen, rfl⟩ := encode_eq_ok.mp hb₂
  have hdec : decode m.wire = .ok m := by
    rw [decode_wire htyped hc hlen, cut_of_stringsFit hstrings]
  refine ⟨hdec, fun m' hm' => ?_⟩
  obtain rfl : m = m' := Except.ok.inj (hdec.symm.trans hm')
  exact hb₂

/-- A reply whose answer points back at its question. -/
def compressedReply : Bytes :=
  [0, 7, 0x80, 0, 0, 1, 0, 1, 0, 0, 0, 0, 3, 0x6F, 0x72, 0x67, 0, 0, 1, 0, 1,
    0xC0, 12, 0, 1, 0, 1, 0, 0, 0, 60, 0, 4, 10, 0, 0, 1]

theorem decode_canonical_compressedReply :
    ∃ m, decode compressedReply = .ok m ∧ m.records.length = 1 ∧
      decode (compressedReply ++ [0]) = .ok m := by
  have hdec : decode compressedReply = .ok
      { header := { id := 7, response := true }
        questions := [Question.new ⟨[ascii "org"], by decide⟩ Rtype.a]
        answers := [Record.new ⟨[ascii "org"], by decide⟩ 60 (.a #v[10, 0, 0, 1])] } := by
    decide +kernel
  refine ⟨_, hdec, rfl, ?_⟩
  rw [((decode_canonical compressedReply).2 _ hdec).2.2.2.2, hdec]

end Message

end Resolvd.Dns
