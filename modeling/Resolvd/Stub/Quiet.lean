import Resolvd.Stub.Render

/-!
# The stub listener: no loops of replies

Whatever the stub sends, an error reply of `parse_query` or the rendering of an answer, is a DNS
message with QR set (`decode_errorReply`, `decode_buildReply`).  Another stub that reads it, or the
same one, drops it without a word.
-/

namespace Resolvd.Stub

open Lib Dns Engine

variable {bytes r : Bytes} {m : Message}

theorem parseQuery_of_response (h : Message.decode bytes = .ok m)
    (hr : m.header.response = true) : parseQuery bytes = .error (.err none) := by
  simp [parseQuery, h, hr]

/-- What was encoded reads back with its header, whatever the length of the strings in its records.
-/
theorem decode_header_of_encode {b : Bytes} (hf : m.header.Fits)
    (hr : ∀ r ∈ m.records, r.rdata.Agrees r.rtype) (hb : m.encode = .ok b) :
    ∃ m', Message.decode b = .ok m' ∧ m'.header = m.header := by
  obtain ⟨hc, hlen, rfl⟩ := Message.encode_eq_ok.mp hb
  exact ⟨m.cut, Message.decode_wire ⟨hf, hr⟩ hc hlen, rfl⟩

theorem id_of_decode (h : Message.decode bytes = .ok m) : u16From bytes 0 = .ok m.header.id := by
  obtain ⟨-, id, flags, qd, an, ns, ar, p₁, p₂, p₃, p₄, hid, -, -, -, -, -, hheader, -⟩ :=
    Message.decode_eq_ok.mp h
  rw [hid, hheader]
  rfl

/-! ### Error replies -/

/-- The error reply to a message reads back as it was built. -/
theorem decode_errorReply {message : Message} {code : UInt8} (hf : message.header.Fits)
    (hcode : code.toNat < 16) (h : (errorReply message code).encode = .ok r) :
    Message.decode r = .ok (errorReply message code) := by
  refine Message.decode_of_encode ?_ ?_ h
  · rw [errorReply_eq]
    exact ⟨hf.1, hcode⟩
  · rw [errorReply_eq]
    intro rec hrec
    simp only [Message.records, List.append_nil, List.nil_append, List.mem_map] at hrec
    obtain ⟨opt, -, rfl⟩ := hrec
    exact ⟨rfl, trivial⟩

/-- The reply to what is no message reads back as it was built. -/
theorem decode_formerrReply {id : UInt16} (h : (formerrReply id).encode = .ok r) :
    Message.decode r = .ok (formerrReply id) := by
  refine Message.decode_of_encode ⟨show 0 < 16 by decide, show 1 < 16 by decide⟩ ?_ h
  simp [formerrReply, Message.records]

/-- **An error reply is a response with the id of the query, one of two codes and no answers.** -/
theorem decode_of_parseQuery_reply (h : parseQuery bytes = .error (.err (some r))) :
    ∃ m, Message.decode r = .ok m ∧ m.header.response = true ∧ u16From bytes 0 = .ok m.header.id ∧
      (m.header.rcode = Rcode.formerr ∨ m.header.rcode = Rcode.notimp) ∧ m.answers = [] := by
  rcases parseQuery_reply h with ⟨-, id, hid, henc⟩ | ⟨message, code, hdec, hcode, henc⟩
  · exact ⟨_, decode_formerrReply henc, rfl, hid, .inl rfl, rfl⟩
  · have hcode' : code.toNat < 16 := by rcases hcode with rfl | rfl <;> decide
    refine ⟨_, decode_errorReply (Message.decode_wf hdec).1.header hcode' henc, ?_⟩
    rw [errorReply_eq]
    exact ⟨rfl, (id_of_decode hdec :), hcode, rfl⟩

/-! ### Answers -/

/-- **The rendering of an answer is a response**, whole or truncated, as long as the data of its
records agree with their types. -/
theorem parseQuery_of_buildReply {query : Message} (hopcode : query.header.opcode = 0) {a : Answer}
    (ha : ∀ r ∈ a.records, r.rdata.Agrees r.rtype) {b : Bytes}
    (hb : (buildReply query a).encode = .ok b ∨
      ∃ limit, (buildReply query a).encodeUdp limit = .ok b) :
    parseQuery b = .error (.err none) := by
  have hfits := fits_buildReply hopcode a
  have hagrees := agrees_buildReply query ha
  have hresponse := (echoes_buildReply query a).response
  have hwhole : ∀ {b}, (buildReply query a).encode = .ok b → parseQuery b = .error (.err none) := by
    intro b hb
    obtain ⟨m, hm, hheader⟩ := decode_header_of_encode hfits hagrees hb
    exact parseQuery_of_response hm (hheader ▸ hresponse)
  rcases hb with hb | ⟨limit, hb⟩
  · exact hwhole hb
  · obtain ⟨hlen, hb⟩ := Message.encodeUdp_eq_ok.mp hb
    split at hb
    · obtain ⟨b', hb'⟩ := Message.encode_ok_iff.mpr hlen
      rw [hb, ← (Message.encode_eq_ok.mp hb').2.2]
      exact hwhole hb'
    · -- the truncated form differs in a bit of the header, and has fewer records
      obtain ⟨m, hm, hheader⟩ :=
        decode_header_of_encode (m := (buildReply query a).truncate) ⟨hfits.1, hfits.2⟩
        (fun r hr => hagrees r (Message.mem_records_truncate hr)) hb
      exact parseQuery_of_response hm (hheader ▸ hresponse)

/-- **Nothing the stub sends makes a stub answer.**  For every octet string: `parse_query` accepts
exactly the messages that are no response, have opcode 0 and one question, of class IN; what it
replies with is a response that has the id in the first two octets, says FORMERR or NOTIMP and
answers nothing, and is dropped when it is parsed itself; and to an accepted query, whatever records
the answer has, as long as their data agree with their types, the rendered answer is dropped too,
whole or within any limit.  The answers that the engine gives in its runs are such answers. -/
theorem stub_stays_quiet (bytes : Bytes) :
    (∀ m, parseQuery bytes = .ok m ↔ Message.decode bytes = .ok m ∧ m.header.response = false ∧
      m.header.opcode = 0 ∧ ∃ q, m.questions = [q] ∧ q.class_ = Class.IN) ∧
    (∀ r, parseQuery bytes = .error (.err (some r)) →
      (∃ m, Message.decode r = .ok m ∧ m.header.response = true ∧
        u16From bytes 0 = .ok m.header.id ∧
        (m.header.rcode = Rcode.formerr ∨ m.header.rcode = Rcode.notimp) ∧ m.answers = []) ∧
      parseQuery r = .error (.err none)) ∧
    (∀ query, parseQuery bytes = .ok query →
      ∀ a : Answer, (∀ r ∈ a.records, r.rdata.Agrees r.rtype) → ∀ b,
      ((buildReply query a).encode = .ok b ∨
        ∃ limit, (buildReply query a).encodeUdp limit = .ok b) →
      parseQuery b = .error (.err none)) ∧
    ∀ entropy log e, Runs entropy log e → ∀ st ∈ log, ∀ qid a, .done qid (.answer a) ∈ actions st →
      ∀ r ∈ a.records, r.rdata.Agrees r.rtype := by
  refine ⟨fun m => parseQuery_eq_ok, fun r hr => ?_, fun query hquery a ha b hb => ?_,
    fun entropy log e h st hst qid a hdone r hr => (h.answer_wellFormed hst hdone r hr).1⟩
  · obtain ⟨m, hm, hresponse, hrest⟩ := decode_of_parseQuery_reply hr
    exact ⟨⟨m, hm, hresponse, hrest⟩, parseQuery_of_response hm hresponse⟩
  · obtain ⟨-, -, hopcode, -⟩ := parseQuery_eq_ok.mp hquery
    exact parseQuery_of_buildReply hopcode ha hb

/-- A query of opcode 2 is refused with a reply that another stub drops, and so is the answer to an
ordinary one. -/
theorem stub_stays_quiet_lan :
    ∃ r, parseQuery (Message.wire { header := { id := 5, opcode := 2 } }) = .error (.err (some r)) ∧
      parseQuery r = .error (.err none) ∧ parseQuery clientQuery.wire = .ok clientQuery ∧
      parseQuery (buildReply clientQuery lanAnswer).wire = .error (.err none) := by
  have hrefused : parseQuery (Message.wire { header := { id := 5, opcode := 2 } }) =
      .error (.err (some (errorReply { header := { id := 5, opcode := 2 } }
        Rcode.notimp).wire)) := by
    decide +kernel
  have hquery : parseQuery clientQuery.wire = .ok clientQuery := by decide +kernel
  have hencode : (buildReply clientQuery lanAnswer).encode =
      .ok (buildReply clientQuery lanAnswer).wire := by
    decide +kernel
  have hrecords : ∀ r ∈ lanAnswer.records, r.rdata.Agrees r.rtype := by
    intro r hr
    obtain rfl := List.mem_singleton.mp hr
    rfl
  exact ⟨_, hrefused, ((stub_stays_quiet _).2.1 _ hrefused).2, hquery,
    (stub_stays_quiet _).2.2.1 _ hquery lanAnswer hrecords _ (.inl hencode)⟩

end Resolvd.Stub
