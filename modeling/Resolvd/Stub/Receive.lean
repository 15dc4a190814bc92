import Resolvd.Dns.Reply

/-!
# The stub listener: receiving queries

`parse_query` of `stub.rs` and what `receive_udp` does with one datagram.  A query is handed on,
answered at once with an error reply, or dropped.

An error reply repeats the questions of the query, written without compression, and goes out as it
was encoded, not through `encode_udp`.  `errorReply_within_limit_iff` says when it keeps to the
limit that answers keep to.
-/

namespace Resolvd.Stub

open Lib Dns

/-- The reply to octets that are no message: their id, and no question. -/
def formerrReply (id : UInt16) : Message where
  header := { id := id, response := true, rcode := Rcode.formerr }

/-- `WithClass::with_class`. -/
def withClass (r : Record) (class_ : UInt16) : Record := { r with class_ := class_ }

/-- The message `error` of `parse_query` encodes. -/
def errorReply (message : Message) (code : UInt8) : Message :=
  let r := Message.replyTo message
  let r := { r with header := { r.header with rcode := code } }
  match message.opt with
  | some opt =>
    { r with additional := r.additional ++ [withClass (Record.opt ednsUdpSize false) opt.class_] }
  | none => r

/-- `parse_query`: the query, or the error reply it deserves, if any. -/
def parseQuery (bytes : Bytes) : Result (Option Bytes) Message :=
  match Message.decode bytes with
  | .error .panic => .error .panic
  | .error (.err _) =>
    if 12 ≤ bytes.length then
      match u16From bytes 0 with
      | .ok id => .error (.err (formerrReply id).encode.toOption)
      | .error _ => .error .panic
    else .error (.err none)
  | .ok message =>
    if message.header.response then .error (.err none)
    else if message.header.opcode ≠ 0
      then .error (.err (errorReply message Rcode.notimp).encode.toOption)
    else
      match message.question with
      | none => .error (.err (errorReply message Rcode.formerr).encode.toOption)
      | some question =>
        if question.class_ ≠ Class.IN
          then .error (.err (errorReply message Rcode.notimp).encode.toOption)
        else .ok message

/-- The buffer `receive_udp` reads a datagram into. -/
abbrev receiveSize : ℕ := 4096

/-- What becomes of a datagram. -/
inductive Received where
  | query (query : Message)
  | reply (bytes : Bytes)
  | nothing
  deriving DecidableEq

/-- `receive_udp`, one datagram: only loopback may ask. -/
def receiveUdp (peer : IpAddr) (datagram : Bytes) : Received :=
  if !peer.isLoopback then .nothing
  else
    match parseQuery (datagram.take receiveSize) with
    | .ok query => .query query
    | .error (.err (some reply)) => .reply reply
    | .error _ => .nothing

/-! ### Queries -/

/-- **The queries that are accepted**: one question, of class IN, in a message that is no response.
-/
theorem parseQuery_eq_ok {bytes : Bytes} {query : Message} :
    parseQuery bytes = .ok query ↔ Message.decode bytes = .ok query ∧
      query.header.response = false ∧
      query.header.opcode = 0 ∧ ∃ q, query.questions = [q] ∧ q.class_ = Class.IN := by
  constructor
  · intro h
    unfold parseQuery at h
    split at h
    · cases h
    · split at h
      · split at h <;> cases h
      · cases h
    · next message hdec =>
      split at h
      · cases h
      · next hresponse =>
        split at h
        · cases h
        · next hopcode =>
          split at h
          · cases h
          · next q hq =>
            split at h
            · cases h
            · next hclass =>
              obtain rfl := Except.ok.inj h
              exact ⟨hdec, by simpa using hresponse, by simpa using hopcode, q, Message.question_eq_some.mp hq,
                by simpa using hclass⟩
  · rintro ⟨hdec, hresponse, hopcode, q, hq, hclass⟩
    simp [parseQuery, hdec, hresponse, hopcode, Message.question_eq_some.mpr hq, hclass]

/-! ### Error replies -/

theorem toOption_eq_some {x : Except Error Bytes} {b : Bytes} :
    x.toOption = some b ↔ x = .ok b := by
  cases x <;> simp [Except.toOption]

theorem errorReply_eq (message : Message) (code : UInt8) :
    errorReply message code =
      { header := { (Message.replyTo message).header with rcode := code }
        questions := message.questions
        additional := message.opt.toList.map fun opt =>
          withClass (Record.opt ednsUdpSize false) opt.class_ } := by
  unfold errorReply
  cases message.opt <;> rfl

/-- The octets of an error reply, counted on the query. -/
def errorSize (message : Message) : ℕ :=
  12 + (message.questions.map fun q => q.name.wireLen + 4).sum + if message.opt.isSome
    then 11 else 0

theorem length_wire_errorReply (message : Message) (code : UInt8) :
    (errorReply message code).wire.length = errorSize message := by
  rw [errorReply_eq, Message.length_wire, errorSize]
  cases message.opt with
  | none => simp [Message.records]
  | some opt => simp [Message.records, withClass, Record.opt, RData.wire, writeRData]; rfl

/-- **What `parse_query` replies with**: a bare header for what is no message, else the error reply
to the message, with one of two codes. -/
theorem parseQuery_reply {bytes r : Bytes} (h : parseQuery bytes = .error (.err (some r))) :
    ((∃ e, Message.decode bytes = .error (.err e)) ∧
        ∃ id, u16From bytes 0 = .ok id ∧ (formerrReply id).encode = .ok r) ∨
      ∃ message code, Message.decode bytes = .ok message ∧
        (code = Rcode.formerr ∨ code = Rcode.notimp) ∧
        (errorReply message code).encode = .ok r := by
  unfold parseQuery at h
  split at h
  · cases h
  · next e hdec =>
    split at h
    · split at h
      · next id hid =>
          exact .inl ⟨⟨e, hdec⟩, id, hid, toOption_eq_some.mp (Fault.err.inj (Except.error.inj h))⟩
      · cases h
    · cases h
  · next message hdec =>
    -- whichever check fails, the reply is the encoding of `errorReply`
    have herror : ∀ code, code = Rcode.formerr ∨ code = Rcode.notimp →
        (.error (.err (errorReply message code).encode.toOption) : Result (Option Bytes) Message) =
          .error (.err (some r)) → ∃ message code, Message.decode bytes = .ok message ∧
            (code = Rcode.formerr ∨ code = Rcode.notimp) ∧
              (errorReply message code).encode = .ok r :=
      fun code hcode h => ⟨message, code, hdec, hcode,
        toOption_eq_some.mp (Fault.err.inj (Except.error.inj h))⟩
    refine .inr ?_
    split at h
    · cases h
    · split at h
      · exact herror _ (.inr rfl) h
      · split at h
        · exact herror _ (.inl rfl) h
        · split at h
          · exact herror _ (.inr rfl) h
          · cases h

/-- The limit for what is sent to the sender of the datagram: the size its OPT advertises, at least
512, and 512 when it is no message. -/
def replyLimit (datagram : Bytes) : ℕ :=
  match Message.decode datagram with
  | .ok message => max ((message.opt.map fun o => o.class_.toNat).getD 0) 512
  | .error _ => 512

/-- **When an error reply keeps to the limit**: exactly when the questions of the query, each name
written out, fit next to the header and the OPT record.  The reply to what is no message always
does. -/
theorem errorReply_within_limit_iff (peer : IpAddr) (datagram : Bytes) {r : Bytes}
    (hlen : datagram.length ≤ receiveSize) (h : receiveUdp peer datagram = .reply r) :
    r.length ≤ replyLimit datagram ↔
      ∀ message, Message.decode datagram = .ok message →
        12 + (message.questions.map fun q => q.name.wireLen + 4).sum +
          (if message.opt.isSome then 11 else 0) ≤
          max ((message.opt.map fun o => o.class_.toNat).getD 0) 512 := by
  have hparse : parseQuery datagram = .error (.err (some r)) := by
    unfold receiveUdp at h
    rw [List.take_of_length_le hlen] at h
    split at h
    · cases h
    · split at h
      · cases h
      · next reply hreply => rw [hreply, Received.reply.inj h]
      · cases h
  unfold replyLimit
  rcases parseQuery_reply hparse with ⟨⟨e, hdec⟩, id, -, henc⟩ | ⟨message, code, hdec, -, henc⟩
  · obtain ⟨-, -, rfl⟩ := Message.encode_eq_ok.mp henc
    simp [hdec, Message.length_wire, formerrReply, Message.records]
  · obtain ⟨-, -, rfl⟩ := Message.encode_eq_ok.mp henc
    simp only [hdec, length_wire_errorReply, Except.ok.injEq, forall_eq', errorSize]

/-- A query with two questions and an OPT record. -/
def twoQuestions : Message where
  header := { id := 7, recursionDesired := true }
  questions := [Question.new ⟨[[97], [98]], by decide⟩ Rtype.a,
    Question.new ⟨[[99], [98]], by decide⟩ Rtype.aaaa]
  additional := [Record.opt 1232 false]

/-- It gets its questions and the OPT record back. -/
theorem errorReply_within_limit_twoQuestions :
    receiveUdp (.v4 IpAddr.localhost4) twoQuestions.wire = .reply
      (errorReply twoQuestions Rcode.formerr).wire ∧
      (errorReply twoQuestions Rcode.formerr).wire.length ≤ replyLimit twoQuestions.wire := by
  have hreply : receiveUdp (.v4 IpAddr.localhost4) twoQuestions.wire =
      .reply (errorReply twoQuestions Rcode.formerr).wire := by decide +kernel
  have hdec : Message.decode twoQuestions.wire = .ok twoQuestions := by decide +kernel
  refine ⟨hreply, (errorReply_within_limit_iff _ _ (by decide +kernel) hreply).mpr fun message hm =>
    ?_⟩
  obtain rfl : twoQuestions = message := Except.ok.inj (hdec.symm.trans hm)
  decide +kernel

/-- A name of 255 octets. -/
def longName : Name :=
  ⟨[List.replicate 63 97, List.replicate 63 97, List.replicate 63 97,
    List.replicate 61 97], by decide⟩

/-- A datagram of 277 octets that asks about the long name twice, the second time by a pointer to
the first. -/
def twiceLong : Bytes :=
  [0, 7, 1, 0, 0, 2, 0, 0, 0, 0, 0, 0] ++ longName.wire ++ [0, 1, 0, 1] ++ [0xC0, 12, 0, 1, 0, 1]

/-- Both questions are written out in the error reply, which has 530 octets; the sender takes 512.
-/
theorem errorReply_exceeds_limit :
    twiceLong.length ≤ receiveSize ∧ ∃ r, receiveUdp (.v4 IpAddr.localhost4) twiceLong = .reply r ∧
      r.length = 530 ∧ replyLimit twiceLong = 512 := by
  refine ⟨by decide +kernel, (errorReply ⟨{ id := 7, recursionDesired := true },
    [Question.new longName Rtype.a, Question.new longName Rtype.a], [], [], []⟩ Rcode.formerr).wire,
      ?_, ?_, ?_⟩
  · decide +kernel
  · decide +kernel
  · decide +kernel

end Resolvd.Stub
