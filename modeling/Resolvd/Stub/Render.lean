import Resolvd.Stub.Receive
import Resolvd.Engine.Provenance
import Resolvd.Daemon.Model

/-!
# The stub listener: rendering replies

`build_reply` and `Stub::answer`: an answer of the engine becomes a DNS message, which goes back
over UDP within the size the client takes, or whole over TCP.

* `udp_reply_fits`: over UDP, what is sent is within the limit and reads back as the reply or as its truncated form;
* `answered_iff_fits`: something is sent exactly when the whole reply, written without compression, has at most 65535
  octets.  A longer one is not even truncated: `encode_udp` fails with `encode`.
-/

namespace Resolvd.Stub

open Lib Dns Engine List
open Daemon (SocketAddr Stream)

variable {query : Message} {a : Answer} {data : Bytes}

/-- `build_reply`. -/
def buildReply (query : Message) (answer : Answer) : Message :=
  let reply := Message.replyTo query
  let question := query.question
  let reply :=
    match answer.outcome with
    | .found =>
      let reply := { reply with header := { reply.header with rcode := Rcode.noerror } }
      let reply :=
        -- the answer may be at an expanded name; a CNAME says so
        match question, answer.resolvedName with
        | some q, some resolved =>
          if !q.name.eq resolved then
            let ttl := minTtl answer.records answer.negativeTtl
            { reply with answers := reply.answers ++ [Record.new q.name ttl (.cname resolved)] }
          else reply
        | _, _ => reply
      { reply with answers := reply.answers ++ answer.records }
    | .notFound => { reply with header := { reply.header with rcode := Rcode.nxdomain } }
    | .unavailable => { reply with header := { reply.header with rcode := Rcode.servfail } }
  if query.opt.isSome then { reply with additional := reply.additional ++ [Record.opt ednsUdpSize false] }
  else reply

/-- The frame of `send_tcp`. -/
def tcpFrame (message : Bytes) : Bytes := be16 (UInt16.ofNat message.length) ++ message

/-- `Stub::answer`: the octets that are sent, if any. -/
def answer (origin : Daemon.Origin) (a : Answer) : Option Bytes :=
  match origin with
  | .udp _ query => ((buildReply query a).encodeUdp query.udpSize).toOption
  | .tcp _ query => (buildReply query a).encode.toOption.map tcpFrame

/-! ### The parts of a reply -/

/-- The response code of an outcome. -/
def replyCode : Outcome → UInt8
  | .found => Rcode.noerror
  | .notFound => Rcode.nxdomain
  | .unavailable => Rcode.servfail

/-- The CNAME record from the name asked for to the name that was found. -/
def expansion (query : Message) (a : Answer) : List Record :=
  match query.question, a.resolvedName with
  | some q, some resolved =>
    if q.name.eq resolved then []
    else [Record.new q.name (minTtl a.records a.negativeTtl) (.cname resolved)]
  | _, _ => []

/-- The answer section of the reply. -/
def replyAnswers (query : Message) (a : Answer) : List Record :=
  if a.outcome = .found then expansion query a ++ a.records else []

/-- **The reply, section by section.** -/
theorem buildReply_eq (query : Message) (a : Answer) :
    buildReply query a =
      { header := { (Message.replyTo query).header with rcode := replyCode a.outcome }
        questions := query.questions
        answers := replyAnswers query a
        additional := if query.opt.isSome then [Record.opt ednsUdpSize false] else [] } := by
  unfold buildReply replyAnswers expansion
  cases a.outcome with
  | notFound => cases query.opt.isSome <;> rfl
  | unavailable => cases query.opt.isSome <;> rfl
  | found =>
    -- the CNAME is there or not; either way the records follow
    cases query.question with
    | none => cases query.opt.isSome <;> rfl
    | some q =>
      cases a.resolvedName with
      | none => cases query.opt.isSome <;> rfl
      | some resolved =>
        cases hname : q.name.eq resolved <;> cases query.opt.isSome <;>
          simp [hname, Message.replyTo, replyCode]

theorem opt_buildReply (query : Message) (a : Answer) :
    (buildReply query a).opt = if query.opt.isSome then some (Record.opt ednsUdpSize false)
      else none := by
  rw [buildReply_eq, Message.opt]
  cases query.opt.isSome <;> rfl

theorem fits_buildReply (h : query.header.opcode = 0) (a : Answer) :
    (buildReply query a).header.Fits := by
  rw [buildReply_eq]
  refine ⟨?_, ?_⟩
  · simp [Message.replyTo, h]
  · change (replyCode a.outcome).toNat < 16
    cases a.outcome <;> decide

/-- What holds of the records of the answer, of every CNAME record and of the OPT record holds of
the records of the reply. -/
theorem forall_buildReply {P : Record → Prop} (query : Message)
    (hcname : ∀ owner ttl target, P (Record.new owner ttl (.cname target)))
    (hopt : P (Record.opt ednsUdpSize false)) (h : ∀ r ∈ a.records, P r) :
    ∀ r ∈ (buildReply query a).records, P r := by
  have hexpansion : ∀ r ∈ expansion query a, P r := by
    unfold expansion
    split
    · split
      · simp
      · rintro r hr
        obtain rfl := mem_singleton.mp hr
        exact hcname _ _ _
    · simp
  rw [buildReply_eq]
  simp only [Message.records, replyAnswers, append_nil, forall_mem_append]
  constructor
  · split
    · exact forall_mem_append.mpr ⟨hexpansion, h⟩
    · simp
  · split
    · rintro r hr
      obtain rfl := mem_singleton.mp hr
      exact hopt
    · simp

/-- The records of the reply are as well formed as those of the answer. -/
theorem wellFormed_buildReply (query : Message) (h : ∀ r ∈ a.records, r.WellFormed) :
    ∀ r ∈ (buildReply query a).records, r.WellFormed :=
  forall_buildReply query (fun _ _ _ => ⟨rfl, trivial⟩) ⟨rfl, trivial⟩ h

theorem agrees_buildReply (query : Message) (h : ∀ r ∈ a.records, r.rdata.Agrees r.rtype) :
    ∀ r ∈ (buildReply query a).records, r.rdata.Agrees r.rtype :=
  forall_buildReply (P := fun r => r.rdata.Agrees r.rtype) query (fun _ _ _ => rfl) rfl h

/-- What a reply takes over from its query. -/
structure Echoes (query m : Message) : Prop where
  id : m.header.id = query.header.id
  opcode : m.header.opcode = query.header.opcode
  recursionDesired : m.header.recursionDesired = query.header.recursionDesired
  checkingDisabled : m.header.checkingDisabled = query.header.checkingDisabled
  response : m.header.response = true
  questions : m.questions = query.questions
  opt : m.opt.isSome ↔ query.opt.isSome

theorem echoes_buildReply (query : Message) (a : Answer) : Echoes query (buildReply query a) := by
  have hopt : (buildReply query a).opt.isSome ↔ query.opt.isSome := by
    rw [opt_buildReply]
    cases query.opt.isSome <;> simp
  refine ⟨?_, ?_, ?_, ?_, ?_, ?_, hopt⟩ <;> rw [buildReply_eq] <;> rfl

theorem Echoes.truncate {m : Message} (h : Echoes query m) : Echoes query m.truncate :=
  ⟨h.id, h.opcode, h.recursionDesired, h.checkingDisabled, h.response, h.questions,
    m.opt_truncate ▸ h.opt⟩

/-! ### Over UDP -/

/-- **A UDP reply fits the client's buffer and reads back.**  Whatever answer the engine gives in
any of its runs and whatever query was accepted: the octets `encode_udp` returns are within the size
the query's OPT advertises, which is never taken below 512, and decode to a reply that takes over
what it has to from the query; it carries all records of the reply in order, or TC and none. -/
theorem udp_reply_fits {entropy : Entropy} {log : EngineLog} {e : Engine} (h : Runs entropy log e)
    {st : Step Engine Op} (hst : st ∈ log) {qid : Qid} {a : Answer}
    (hdone : .done qid (.answer a) ∈ actions st) {bytes : Bytes} {query : Message}
    (hquery : parseQuery bytes = .ok query) {b : Bytes}
    (hb : (buildReply query a).encodeUdp query.udpSize = .ok b) :
    b.length ≤ query.udpSize.toNat ∧
      query.udpSize.toNat = max ((query.opt.map fun o => o.class_.toNat).getD 0) 512 ∧
      ∃ m, Message.decode b = .ok m ∧ Echoes query m ∧
        (m.header.truncated = false ∧ m.answers = (buildReply query a).answers ∨
          m.header.truncated = true ∧ m.answers = [] ∧ m.authority = []) := by
  obtain ⟨-, -, hopcode, q, hq, -⟩ := parseQuery_eq_ok.mp hquery
  have hwf := wellFormed_buildReply query (h.answer_wellFormed hst hdone)
  have hfits := fits_buildReply hopcode a
  have hechoes := echoes_buildReply query a
  obtain ⟨hlimit, hadvertised⟩ := query.udpSize_spec
  obtain ⟨hlen, hb⟩ := Message.encodeUdp_eq_ok.mp hb
  split at hb
  · next hfit =>
    obtain ⟨b', hb'⟩ := Message.encode_ok_iff.mpr hlen
    have hdec := Message.decode_of_encode hfits hwf hb'
    obtain ⟨-, -, rfl⟩ := Message.encode_eq_ok.mp hb'
    subst hb
    exact ⟨hfit, hadvertised, _, hdec, hechoes, .inl ⟨by rw [buildReply_eq]; rfl, rfl⟩⟩
  · -- the header, a question of at most 259 octets and the OPT record: at most 282
    have hoptLen : ∀ o ∈ (buildReply query a).opt, o.wire.length = 11 := by
      intro o ho
      rw [opt_buildReply, Option.mem_def, Option.ite_none_right_eq_some] at ho
      rw [← Option.some.inj ho.2, Record.length_wire_opt]
    have hlen' := Message.length_wire_truncate (hechoes.questions.trans hq) hoptLen
    have hdec := Message.decode_of_encode (m := (buildReply query a).truncate) ⟨hfits.1, hfits.2⟩
      (fun r hr => hwf r (Message.mem_records_truncate hr)) hb
    obtain ⟨-, -, rfl⟩ := Message.encode_eq_ok.mp hb
    exact ⟨by omega, hadvertised, _, hdec, hechoes.truncate, .inr ⟨rfl, rfl, rfl⟩⟩

/-- A client's query for the address of the name. -/
def clientQuery : Message := Message.query 9 (Question.new peiosExample Rtype.a)

/-- The answer that the server of the small run brings. -/
def lanAnswer : Answer where
  outcome := .found
  records := [lanRecord]
  source := .dns
  server := some lanServer
  interface := some "eth0"
  resolvedName := some peiosExample

theorem udp_reply_fits_lanAnswer :
    ∃ b m, (buildReply clientQuery lanAnswer).encodeUdp clientQuery.udpSize = .ok b ∧
      b.length ≤ 1232 ∧
      Message.decode b = .ok m ∧ Echoes clientQuery m := by
  have hrun := (runs_ran zeros askOnLan).step (Reorder.refl _)
    (.received 2 (replyOnLan {} [lanRecord]) (secs 1))
  have hb : (buildReply clientQuery lanAnswer).encodeUdp clientQuery.udpSize =
      .ok (buildReply clientQuery lanAnswer).wire := by
    decide +kernel
  have hdone : .done 7 (.answer lanAnswer) ∈ actions ⟨(ran zeros askOnLan).2,
      .received 2 (replyOnLan {} [lanRecord]) (secs 1)⟩ := by
    decide +kernel
  obtain ⟨hlen, -, m, hm, hechoes, -⟩ := udp_reply_fits hrun mem_cons_self hdone
    (parseQuery_eq_ok.mpr ⟨Message.decode_query _ _, rfl, rfl, _, rfl, rfl⟩) hb
  exact ⟨_, m, hb, hlen, hm, hechoes⟩

/-! ### Replies that are not sent -/

/-- The octets of the CNAME record from the name asked for to the name that was found. -/
def expansionSize (query : Message) (a : Answer) : ℕ :=
  match query.question, a.resolvedName with
  | some q, some resolved =>
    if q.name.eq resolved then 0 else q.name.wireLen + 10 + resolved.wireLen
  | _, _ => 0

/-- The octets of the whole reply, counted on the query and the answer, every name written out. -/
def replySize (query : Message) (a : Answer) : ℕ :=
  12 + (query.questions.map fun q => q.name.wireLen + 4).sum +
    (if a.outcome = .found then
      expansionSize query a + (a.records.map fun r => r.name.wireLen + 10 + r.rdata.wire.length).sum
    else 0) +
    if query.opt.isSome then 11 else 0

theorem sum_expansion (query : Message) (a : Answer) :
    ((expansion query a).map fun r => r.wire.length).sum = expansionSize query a := by
  unfold expansion expansionSize
  split
  · split
    · rfl
    · simp [Record.new, RData.wire, writeRData, Name.write_eq, Name.length_wire]
  · rfl

theorem length_wire_buildReply (query : Message) (a : Answer) :
    (buildReply query a).wire.length = replySize query a := by
  have hopt : ((if query.opt.isSome then [Record.opt ednsUdpSize false] else []).map fun r =>
      r.wire.length).sum =
      if query.opt.isSome then 11 else 0 := by
    split <;> rfl
  have hanswers : ((replyAnswers query a).map fun r => r.wire.length).sum =
      if a.outcome = .found then
        expansionSize query a + (a.records.map fun r =>
          r.name.wireLen + 10 + r.rdata.wire.length).sum
      else 0 := by
    unfold replyAnswers
    split
    · rw [map_append, sum_append, sum_expansion]
      simp only [Record.length_wire]
    · rfl
  rw [buildReply_eq, Message.length_wire, Message.records, map_append, map_append, sum_append,
    sum_append, hopt, hanswers, map_nil, sum_nil, Nat.add_zero, ← Nat.add_assoc]
  rfl

theorem fits_of_answer_udp {peer : SocketAddr} {b : Bytes}
    (h : answer (.udp peer query) a = some b) : replySize query a ≤ 65535 := by
  rw [← length_wire_buildReply]
  exact (Message.encodeUdp_eq_ok.mp (toOption_eq_some.mp h)).1

theorem fits_of_answer_tcp {stream : Stream} {b : Bytes}
    (h : answer (.tcp stream query) a = some b) : replySize query a ≤ 65535 := by
  rw [answer, Option.map_eq_some_iff] at h
  obtain ⟨b', hb', -⟩ := h
  rw [← length_wire_buildReply]
  exact (Message.encode_eq_ok.mp (toOption_eq_some.mp hb')).2.1

/-- **An answer is sent exactly when the whole reply fits a DNS message.**  For every query and
answer, the client gets something over UDP, or over TCP, when the reply, every name written out, has
at most 65535 octets, and nothing when it has more.  In the first case UDP brings the reply or its
truncated form, and TCP the whole reply. -/
theorem answered_iff_fits (peer : SocketAddr) (stream : Stream) (query : Message) (a : Answer) :
    ((∃ b, answer (.udp peer query) a = some b) ↔ replySize query a ≤ 65535) ∧
      ((∃ b, answer (.tcp stream query) a = some b) ↔ replySize query a ≤ 65535) ∧
      (replySize query a ≤ 65535 →
        answer (.udp peer query) a = some (if replySize query a ≤ query.udpSize.toNat
          then (buildReply query a).wire
          else (buildReply query a).truncate.wire) ∧
        answer (.tcp stream query) a = some (tcpFrame (buildReply query a).wire)) := by
  set m := buildReply query a with hm
  have hsize : m.wire.length = replySize query a := length_wire_buildReply query a
  have hsent : replySize query a ≤ 65535 →
      answer (.udp peer query) a = some (if replySize query a ≤ query.udpSize.toNat then m.wire
        else m.truncate.wire) ∧
        answer (.tcp stream query) a = some (tcpFrame m.wire) := by
    intro hle
    rw [← hsize] at hle ⊢
    obtain ⟨b, hb⟩ := Message.encode_ok_iff.mpr hle
    obtain ⟨b', hb'⟩ := Message.encode_ok_iff.mpr (m.length_wire_truncate_le.trans hle)
    obtain ⟨-, -, rfl⟩ := Message.encode_eq_ok.mp hb
    obtain ⟨-, -, rfl⟩ := Message.encode_eq_ok.mp hb'
    constructor
    · refine toOption_eq_some.mpr (Message.encodeUdp_eq_ok.mpr ⟨hle, ?_⟩)
      split
      · rfl
      · exact hb'
    · rw [answer, ← hm, toOption_eq_some.mpr hb]
      rfl
  refine ⟨⟨?_, fun h => ⟨_, (hsent h).1⟩⟩, ⟨?_, fun h => ⟨_, (hsent h).2⟩⟩, hsent⟩
  · rintro ⟨b, hb⟩
    exact fits_of_answer_udp hb
  · rintro ⟨b, hb⟩
    exact fits_of_answer_tcp hb

/-! ### An answer that grows -/

/-- A question for records of a type without a typed form. -/
def blobQuestion : Question := Question.new peiosExample 65280

/-- A record of that type. -/
def blob (data : Bytes) : Record := ⟨peiosExample, 65280, Class.IN, 60, .unknown data⟩

/-- The reply of the server, without an OPT record. -/
def blobReply (data : Bytes) : Message where
  header := { response := true }
  questions := [blobQuestion]
  answers := [blob data]

/-- The question is asked, and the server's first reply is truncated: the query goes out again, over
TCP. -/
def blobOnLan : List Op :=
  [.setScopes [lan], .resolveQuestion 7 blobQuestion 1000,
    .received 2 (Message.wire { header := { response := true, truncated := true }, questions := [blobQuestion] }) (secs 1)]

/-- The server's reply over TCP. -/
def blobStep (data : Bytes) : Step Engine Op :=
  ⟨(ran zeros blobOnLan).2, .received 3 (blobReply data).wire (secs 2)⟩

theorem length_wire_blobReply (data : Bytes) : (blobReply data).wire.length = 56 + data.length := by
  have hname : peiosExample.wireLen = 15 := by decide
  simp [Message.length_wire, Message.records, blobReply, blob, blobQuestion, Question.new,
    RData.wire, writeRData, hname]
  omega

theorem decode_blobReply (h : data.length ≤ 65479) :
    Message.decode (blobReply data).wire = .ok (blobReply data) := by
  have hlen := length_wire_blobReply data
  obtain ⟨b, hb⟩ := Message.encode_ok_iff.mpr (show (blobReply data).wire.length ≤ 65535 by omega)
  have hwf : ∀ r ∈ (blobReply data).records, r.WellFormed := by
    intro r hr
    obtain rfl : r = blob data := by simpa [blobReply, Message.records] using hr
    exact ⟨by simp [blob, RData.Agrees]; decide, trivial⟩
  have hdec := Message.decode_of_encode (m := blobReply data)
    ⟨Nat.zero_lt_succ _, Nat.zero_lt_succ _⟩ hwf hb
  rwa [(Message.encode_eq_ok.mp hb).2.2] at hdec

/-- The transaction over TCP. -/
def blobTx : Tx := ⟨1, 0, blobQuestion, lanServer, true, secs 3⟩

/-- The task that waits for it. -/
def blobTask : Task where
  owner := .resolve 7
  original := peiosExample
  rtype := 65280
  noCache := false
  current := some peiosExample
  scope := some "lan"
  attempt := 2
  tried := [lanServer]
  tx := some 3

theorem rcode_blobReply (data : Bytes) : (blobReply data).rcode = 0 := by
  simp [Message.rcode, Message.opt, blobReply]

theorem answers_blobStep (h : data.length ≤ 65479) :
    Answers (blobStep data) 3 blobTx blobTask (blobReply data) := by
  have hx : (ran zeros blobOnLan).2.txs.get 3 = some blobTx := by decide +kernel
  have ht : (ran zeros blobOnLan).2.tasks.get 1 = some blobTask := by decide +kernel
  have hM : (ran zeros blobOnLan).2.matchingResponse 3 (blobReply data).wire =
      some (blobReply data) :=
    matchingResponse_eq_some.mpr ⟨blobTx, hx, decode_blobReply h, ⟨rfl, rfl, rfl⟩⟩
  exact ⟨⟨⟨_, _, rfl, hM⟩, hx, ht⟩, rfl, by rw [rcode_blobReply]; rfl⟩

/-- The reply completes the question with the record. -/
theorem blobStep_done (h : data.length ≤ 65479) :
    ∃ a, .done 7 (.answer a) ∈ actions (blobStep data) ∧ a.outcome = .found ∧
      a.records = [blob data] ∧
      a.resolvedName = some peiosExample := by
  obtain ⟨e, hacts⟩ := (answers_blobStep h).done rfl (rcode_blobReply data)
  rw [rcode_blobReply] at hacts
  exact ⟨_, by rw [hacts]; exact mem_singleton_self _, rfl, rfl, rfl⟩

/-- The client's query, with an OPT record. -/
def blobQuery : Message := Message.query 9 blobQuestion

theorem replySize_blobQuery (hout : a.outcome = .found) (hrecords : a.records = [blob data]) :
    67 + data.length ≤ replySize blobQuery a := by
  have hname : peiosExample.wireLen = 15 := by decide
  have hopt : blobQuery.opt.isSome = true := rfl
  have hquestions : blobQuery.questions = [blobQuestion] := rfl
  simp [replySize, hopt, hquestions, hout, hrecords, blobQuestion, Question.new, blob, RData.wire,
    writeRData, hname]
  omega

/-- **A reply of 65535 octets that the client never hears of.**  The question was asked for the
client's query, and is completed with the record; with the OPT record the reply to the client is
eleven octets longer than what the server sent, and nothing goes out, over UDP or over TCP. -/
theorem unanswered_blob :
    ∃ data e a, (blobReply data).wire.length = 65535 ∧
      Runs zeros (blobStep data :: (ran zeros blobOnLan).1) e ∧
      .done 7 (.answer a) ∈ actions (blobStep data) ∧
      parseQuery blobQuery.wire = .ok blobQuery ∧ blobQuery.question = some blobQuestion ∧
      ∀ peer stream, answer (.udp peer blobQuery) a = none ∧
        answer (.tcp stream blobQuery) a = none := by
  have hlen : (List.replicate 65479 (0 : UInt8)).length = 65479 := length_replicate
  obtain ⟨a, hdone, hout, hrecords, hname⟩ := blobStep_done hlen.le
  have hsize : ¬ replySize blobQuery a ≤ 65535 := by
    have := replySize_blobQuery hout hrecords
    omega
  refine ⟨_, _, a, by rw [length_wire_blobReply, hlen], (runs_ran zeros blobOnLan).step (Reorder.refl _) _, hdone,
    parseQuery_eq_ok.mpr ⟨Message.decode_query _ _, rfl, rfl, _, rfl, rfl⟩, rfl, fun peer stream =>
      ⟨?_, ?_⟩⟩
  · exact Option.eq_none_iff_forall_ne_some.mpr fun b hb => hsize (fits_of_answer_udp hb)
  · exact Option.eq_none_iff_forall_ne_some.mpr fun b hb => hsize (fits_of_answer_tcp hb)

end Resolvd.Stub
