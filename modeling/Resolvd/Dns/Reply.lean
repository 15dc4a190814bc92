import Resolvd.Dns.Message
import Mathlib.Algebra.Order.BigOperators.Group.List

/-!
# Replies

`Message::reply_to`, `udp_size` and `encode_udp`, and how many octets a message takes.  Nothing is
compressed on the way out, so the size of an encoding is a sum over the sections
(`Message.length_wire`), and a message encodes exactly when that sum fits 16 bits
(`Message.encode_ok_iff`): the counts are then in range by themselves.

`encodeUdp` encodes the whole message first and only then looks at the limit
(`Message.encodeUdp_eq_ok`).
-/

namespace Resolvd.Dns

open Lib List

/-- What a client without EDNS takes (`CLASSIC_UDP_SIZE`). -/
abbrev classicUdpSize : UInt16 := 512

namespace Message

/-- `Message::reply_to`. -/
def replyTo (query : Message) : Message where
  header :=
    { id := query.header.id
      response := true
      opcode := query.header.opcode
      recursionDesired := query.header.recursionDesired
      recursionAvailable := true
      checkingDisabled := query.header.checkingDisabled }
  questions := query.questions

/-- `Message::udp_size`. -/
def udpSize (m : Message) : UInt16 :=
  (m.opt.map fun o => max o.class_ classicUdpSize).getD classicUdpSize

/-- `truncated` of `encode_udp`: no records but the OPT. -/
def truncate (m : Message) : Message where
  header := { m.header with truncated := true }
  questions := m.questions
  additional := m.opt.toList

/-- `Message::encode_udp`. -/
def encodeUdp (m : Message) (limit : UInt16) : Except Error Bytes :=
  match m.encode with
  | .error e => .error e
  | .ok full => if full.length ≤ limit.toNat then .ok full else m.truncate.encode

end Message

/-! ### Sizes -/

@[simp] theorem Question.length_wire (q : Question) : q.wire.length = q.name.wireLen + 4 := by
  simp [Question.wire, Name.length_wire]

@[simp] theorem Record.length_wire (r : Record) :
    r.wire.length = r.name.wireLen + 10 + r.rdata.wire.length := by
  simp [Record.wire, Name.length_wire, Nat.add_assoc]

theorem Name.wireLen_bounds (n : Name) : 1 ≤ n.wireLen ∧ n.wireLen ≤ 255 :=
  ⟨by simp [Name.wireLen, wireLenOf], n.fits.2⟩

/-- The OPT record a reply carries takes eleven octets. -/
theorem Record.length_wire_opt (size : UInt16) (doBit : Bool) :
    (Record.opt size doBit).wire.length = 11 :=
  rfl

namespace Message

variable {m : Message}

/-- **A message takes twelve octets, and what its questions and records take.** -/
theorem length_wire (m : Message) :
    m.wire.length = 12 + (m.questions.map fun q => q.name.wireLen + 4).sum +
      (m.records.map fun r => r.wire.length).sum := by
  simp only [wire, records, length_append, length_be16, length_flatMap, Question.length_wire,
    map_append, sum_append]
  omega

/-- The counts of a message are smaller than its size. -/
theorem counts_le_length_wire (m : Message) : ∀ n ∈ m.counts, n ≤ m.wire.length := by
  have hq := length_le_sum_of_one_le (m.questions.map fun q => q.name.wireLen + 4) (by simp)
  have hr := length_le_sum_of_one_le (m.records.map fun r => r.wire.length) (by simp; omega)
  have hlen := m.length_wire
  have hrecords : m.records.length = m.answers.length + m.authority.length +
      m.additional.length := by
    simp [records, Nat.add_assoc]
  simp only [length_map] at hq hr
  simp only [counts, forall_mem_cons, not_mem_nil, false_imp_iff, implies_true, and_true]
  omega

/-- **A message encodes exactly when its size fits 16 bits.** -/
theorem encode_ok_iff : (∃ b, m.encode = .ok b) ↔ m.wire.length ≤ maxMessageSize := by
  constructor
  · rintro ⟨b, hb⟩
    exact (encode_eq_ok.mp hb).2.1
  · intro hlen
    exact ⟨m.wire, encode_eq_ok.mpr ⟨fun n hn => (m.counts_le_length_wire n hn).trans hlen,
      hlen, rfl⟩⟩

/-- What was encoded is read back, when the records are well formed. -/
theorem decode_of_encode {b : Bytes} (hf : m.header.Fits) (hr : ∀ r ∈ m.records, r.WellFormed)
    (hb : m.encode = .ok b) : decode b = .ok m := by
  obtain ⟨hc, hlen, rfl⟩ := encode_eq_ok.mp hb
  rw [decode_wire ⟨hf, fun r h => (hr r h).1⟩ hc hlen, cut_of_stringsFit fun r h => (hr r h).2]

/-! ### The limit -/

/-- The limit is what the OPT advertises, and never less than the classic size. -/
theorem udpSize_spec (m : Message) :
    512 ≤ m.udpSize.toNat ∧ m.udpSize.toNat = max
      ((m.opt.map fun o => o.class_.toNat).getD 0) 512 := by
  unfold udpSize
  cases m.opt with
  | none => decide
  | some o =>
    have hmax : (max o.class_ classicUdpSize).toNat = max o.class_.toNat 512 := by
      change (if o.class_ ≤ classicUdpSize then classicUdpSize else o.class_).toNat = _
      have hle : o.class_ ≤ classicUdpSize ↔ o.class_.toNat ≤ 512 := UInt16.le_iff_toNat_le
      split
      · next h => exact (Nat.max_eq_right (hle.mp h)).symm
      · next h => rw [Nat.max_eq_left (by rw [hle] at h; omega)]
    simp [hmax]

/-- **What `encode_udp` returns**: the message when it fits, else its truncated form; nothing when
the whole message has no encoding. -/
theorem encodeUdp_eq_ok {limit : UInt16} {b : Bytes} :
    m.encodeUdp limit = .ok b ↔ m.wire.length ≤ maxMessageSize ∧
      if m.wire.length ≤ limit.toNat then b = m.wire else m.truncate.encode = .ok b := by
  unfold encodeUdp
  cases hfull : m.encode with
  | error e =>
    simp only [reduceCtorEq, false_iff, not_and]
    intro hlen
    obtain ⟨b', hb'⟩ := encode_ok_iff.mpr hlen
    rw [hfull] at hb'
    cases hb'
  | ok full =>
    obtain ⟨-, hlen, rfl⟩ := encode_eq_ok.mp hfull
    simp only [hlen, true_and]
    split
    · simp [eq_comm]
    · rfl

theorem opt_truncate (m : Message) : m.truncate.opt = m.opt := by
  have hopt : m.truncate.opt = m.opt.toList.find? fun r => r.rtype == Rtype.opt := rfl
  cases hm : m.opt with
  | none => rw [hopt, hm]; rfl
  | some o =>
    rw [hopt, hm]
    exact List.find?_cons_of_pos (List.find?_some hm :)

theorem mem_records_truncate {r : Record} (h : r ∈ m.truncate.records) : r ∈ m.records := by
  have hopt : m.opt = some r := by simpa [truncate, records] using h
  simp [records, mem_of_find?_eq_some hopt]

/-- The truncated form is not longer than the message. -/
theorem length_wire_truncate_le (m : Message) : m.truncate.wire.length ≤ m.wire.length := by
  have hsum : (m.truncate.records.map fun r => r.wire.length).sum ≤
      (m.records.map fun r => r.wire.length).sum := by
    cases hm : m.opt with
    | none => simp [truncate, records, hm]
    | some o =>
      have hmem : o ∈ m.records := mem_records_truncate (by simp [truncate, records, hm])
      simpa [truncate, records, hm] using
        single_le_sum (fun _ _ => Nat.zero_le _) _
          (mem_map_of_mem (f := fun r : Record => r.wire.length) hmem)
  rw [length_wire, length_wire]
  exact Nat.add_le_add_left hsum _

/-- One question and the OPT of a reply always fit the classic size. -/
theorem length_wire_truncate {q : Question} (hq : m.questions = [q])
    (hopt : ∀ o ∈ m.opt, o.wire.length = 11) : m.truncate.wire.length ≤ 282 := by
  have hname := q.name.wireLen_bounds
  have hsum : (m.truncate.records.map fun r => r.wire.length).sum ≤ 11 := by
    cases hm : m.opt with
    | none => simp [truncate, records, hm]
    | some o => simp [truncate, records, hm, hopt o hm, - Record.length_wire]
  rw [length_wire]
  have hquestions : (m.truncate.questions.map fun q => q.name.wireLen + 4).sum =
      q.name.wireLen + 4 := by
    simp [truncate, hq]
  omega

end Message

end Resolvd.Dns
