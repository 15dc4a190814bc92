import Resolvd.Api.Library

/-!
# What a call returns

`Client.call_sound` says what a caller can rely on, whatever octets come from the socket and however
they come: the call has not returned, or it returns an error, or the value of exactly the reply in
the first frame, which is of the right kind.  In no case does it read memory that is not there.
`Client.call_complete` says when it does return, and what.

Both come from `ask`, which is the exchange up to the reply, and from `Client.call_eq`: behind it,
the five methods are one.
-/

namespace Resolvd.Api

open Lib Lib.Arena Resolvd.Core List
open Abi (Cell)
open Msgpack (octets fromUTF8?_eq_some)

variable {pending : Bytes}

/-! ### What goes over the socket -/

/-- What has become of octets that were to be written: a front of them was written, and all of them
with success alone. -/
structure Sent (pending : Bytes) (r : Option (Except Failure Unit) × Bytes) : Prop where
  front : r.2 <+: pending
  whole : r.1 = some (.ok ()) ↔ r.2 = pending

theorem Sent.fails (hne : pending ≠ []) {r : Option (Except Failure Unit)}
    (hr : r ≠ some (.ok ())) : Sent pending (r, []) :=
  ⟨ nil_prefix, fun h => absurd h hr, fun h => absurd h.symm hne⟩

theorem Sent.behind {r : Option (Except Failure Unit) × Bytes} (h : Sent pending r)
    (front : Bytes) : Sent (front ++ pending) (r.1, front ++ r.2) :=
  ⟨(prefix_append_right_inj front).mpr h.front, h.whole.trans (append_right_inj front).symm⟩

/-- **A request goes out whole, or the call fails.** -/
theorem sent_sendLoop (errno : Errno) (pending : Bytes) (turns : List SendTurn) :
    Sent pending (sendLoop errno pending turns) := by
  induction turns generalizing pending with
  | nil =>
    cases pending with
    | nil => exact ⟨prefix_rfl, by simp [sendLoop]⟩
    | cons b pending => exact .fails (by simp) (by simp)
  | cons turn turns ih =>
    unfold sendLoop
    split
    · next hempty => exact ⟨ nil_prefix, by simp [isEmpty_iff.mp hempty]⟩
    rename_i hempty
    have hne : pending ≠ [] := fun h => hempty (isEmpty_iff.mpr h)
    split
    · exact .fails hne (by simp)
    split
    · exact .fails hne (by simp)
    · next count _ _ =>
      have hsent := (ih (pending.drop count)).behind (pending.take count)
      rwa [take_append_drop] at hsent
    · exact ih pending
    · split
      · exact ih pending
      · exact .fails hne (by simp)
    · exact .fails hne (by simp)

/-- A reply that was received is what the first frame of the stream says. -/
theorem receive_ok (T : AddressText) (debug : String → String) (ch : Channel) (turns : List Turn)
    {reply : Reply} (h : (ch.receive T debug turns).1 = some (.ok reply)) :
    ∃ payload rest, nativeFraming.split (ch.incoming ++ ch.stream.unread) = some (payload, rest) ∧
      Reply.decode T payload = .ok reply := by
  have hwhole : ∀ (ch : Channel), (arrived ch.incoming).received T debug = some (.ok reply) →
      ∃ payload rest, nativeFraming.split (ch.incoming ++ ch.stream.unread) = some (payload, rest) ∧
        Reply.decode T payload = .ok reply := by
    intro ch h
    cases harrived : arrived ch.incoming with
    | less needed => simp [harrived, Arrived.received] at h
    | tooLarge => simp [harrived, Arrived.received] at h
    | whole payload =>
      refine ⟨payload, _, split_of_arrived harrived _, ?_⟩
      simp only [harrived, Arrived.received, Core.replyResult, Option.some.injEq] at h
      split at h
      · next p hp => rwa [← Except.ok.inj h]
      · cases h
  induction turns generalizing ch with
  | nil => exact hwhole ch h
  | cons turn turns ih =>
    rw [Channel.receive] at h
    split at h
    · cases h
    split at h
    · next result hresult => exact hwhole ch (hresult.trans h)
    · -- whatever a read takes, it takes from the front of what is unread
      have hread := (ch.stream.read_spec (frameRoom ch.incoming) turn.attempt).2.1
      generalize ch.stream.read (frameRoom ch.incoming) turn.attempt = r at hread h
      obtain ⟨a, stream⟩ := r
      dsimp only at hread
      rw [hread, ← append_assoc]
      split at h
      · cases h
      · next heq =>
        cases heq
        exact ih _ h
      · next heq =>
        cases heq
        simpa only [Io.chunk, append_nil] using ih _ h
      · next heq =>
        cases heq
        split at h
        · simpa only [Io.chunk, append_nil] using ih _ h
        · cases h
      · cases h

/-! ### Nothing stops on the way -/

/-- The turn does not fail. -/
structure SendTurn.Goes (turn : SendTurn) : Prop where
  inTime : turn.inTime = true
  wait : turn.wait = .ok ()
  noError : turn.write ≠ .error
  notClosed : turn.write ≠ .ok 0

/-- The turn writes. -/
def SendTurn.writes (turn : SendTurn) : Bool :=
  match turn.write with
  | .ok _ => true
  | _ => false

/-- With as many writes as there are octets, they have gone. -/
theorem sendLoop_complete (errno : Errno) {turns : List SendTurn}
    (hturns : ∀ turn ∈ turns, turn.Goes) (hcount : pending.length ≤ turns.countP SendTurn.writes) :
    (sendLoop errno pending turns).1 = some (.ok ()) := by
  induction turns generalizing pending with
  | nil =>
    obtain rfl : pending = [] := eq_nil_of_length_eq_zero (by simpa using hcount)
    rfl
  | cons turn turns ih =>
    obtain ⟨⟨hin, hwait, hnoError, hnotClosed⟩, hturns⟩ := forall_mem_cons.mp hturns
    rw [countP_cons] at hcount
    rw [sendLoop, hin]
    split
    · rfl
    simp only [Bool.not_true, Bool.false_eq_true, if_false]
    split
    · next hwrite => exact absurd hwrite hnotClosed
    · next count hne hwrite =>
      refine ih hturns ?_
      have hle : (if turn.writes = true then 1 else 0) ≤ 1 := by split <;> omega
      have hpos : count ≠ 0 := hne
      rw [length_drop]
      omega
    · next hwrite =>
      rw [SendTurn.writes, hwrite] at hcount
      exact ih hturns hcount
    · next hwrite =>
      rw [SendTurn.writes, hwrite] at hcount
      rw [hwait]
      exact ih hturns hcount
    · next hwrite => exact absurd hwrite hnoError

/-- The turn does not fail. -/
structure Goes (turn : Turn) : Prop where
  punctual : turn.Punctual
  noError : turn.attempt ≠ .error

/-- The turn reads. -/
def reads (turn : Turn) : Bool :=
  match turn.attempt with
  | .ready _ => true
  | _ => false

/-- With as many reads as a frame has octets, it is there. -/
theorem receive_complete (T : AddressText) (debug : String → String) {ch : Channel}
    (hexact : Exact ch.incoming) {payload rest : Bytes}
    (hsplit : nativeFraming.split (ch.incoming ++ ch.stream.unread) = some (payload, rest))
    {turns : List Turn} (hturns : ∀ turn ∈ turns, Goes turn)
    (hcount : 4 + payload.length ≤ ch.incoming.length + turns.countP reads) :
    (ch.receive T debug turns).1 = some (Core.replyResult T debug payload) := by
  induction turns generalizing ch with
  | nil =>
    obtain ⟨hle, hwhole, -⟩ := hexact.arrived_of_split hsplit
    rw [Channel.receive, hwhole.mpr (le_antisymm hle (by simpa using hcount))]
    rfl
  | cons turn turns ih =>
    obtain ⟨⟨⟨hin, hwaited⟩, hnoError⟩, hturns⟩ := forall_mem_cons.mp hturns
    obtain ⟨hle, hwhole, hless⟩ := hexact.arrived_of_split hsplit
    rw [countP_cons] at hcount
    rw [Channel.receive, hin]
    simp only [Bool.not_true, Bool.false_eq_true, if_false]
    rcases hle.lt_or_eq with hlt | heq
    · obtain ⟨needed, harrived⟩ := hless hlt
      have hroom := hexact.room_of_less harrived
      rw [harrived]
      simp only [Arrived.received]
      cases hattempt : turn.attempt with
      | ready n =>
        -- there is an octet to read, for the frame has come
        have hunread : ch.stream.unread ≠ [] := by
          intro hnil
          obtain ⟨header, heq, hwidth, -⟩ := Framing.split_eq_some.mp hsplit
          have hlen := congrArg List.length heq
          have hwidth : header.length = 4 := hwidth
          simp only [hnil, append_nil, length_append] at hlen
          omega
        have hchunk : ch.stream.unread.take (min (n + 1) (frameRoom ch.incoming)) ≠ [] := by
          rw [Ne, take_eq_nil_iff]
          exact fun h => h.elim (fun h => by omega) hunread
        have hmore : 1 ≤ (ch.stream.unread.take (min (n + 1) (frameRoom ch.incoming))).length :=
          length_pos_iff.mpr hchunk
        have hexact' : Exact (ch.incoming ++ ch.stream.unread.take
            (min (n + 1) (frameRoom ch.incoming))) :=
          hexact.append hroom (by rw [length_take]; omega)
        have hrest := take_append_drop (min (n + 1) (frameRoom ch.incoming)) ch.stream.unread
        have hone : (if reads turn = true then 1 else 0) ≤ 1 := by split <;> omega
        simp only [Socket.read]
        generalize ch.stream.unread.take (min (n + 1) (frameRoom ch.incoming)) = chunk at *
        refine ih hexact' ?_ hturns ?_
        · simpa only [append_assoc, hrest] using hsplit
        · rw [length_append]
          omega
      | wouldBlock =>
        rw [reads, hattempt] at hcount
        simp only [Socket.read, hwaited]
        exact ih hexact hsplit hturns hcount
      | interrupted =>
        rw [reads, hattempt] at hcount
        exact @ih ⟨_, ch.incoming⟩ hexact hsplit hturns hcount
      | error => exact absurd hattempt hnoError
    · rw [hwhole.mpr heq]
      rfl

/-- The session lasts for so many writes and so many reads. -/
structure Session.Lasts (s : Session) (writes reads : ℕ) : Prop where
  fits : s.fits = true
  connected : s.connected = .ok ()
  sending : ∀ turn ∈ s.sending, turn.Goes
  writes_le : writes ≤ s.sending.countP SendTurn.writes
  receiving : ∀ turn ∈ s.receiving, Goes turn
  reads_le : reads ≤ s.receiving.countP Api.reads

/-! ### What comes back -/

section Call

variable (T : AddressText) (debug : String → String) (osText : Errno → String) {α : Type}
    {request : Request} {s : Session}

/-- The exchange, up to the reply. -/
def ask (path : Bytes) (timeoutMs : UInt64) (request : Request) (s : Session) :
    Operation Reply := do
  MonadExcept.ofExcept (deadline timeoutMs s)
  MonadExcept.ofExcept (connect path s)
  ExceptT.mk (send T request s).1
  receiveComplete T debug request s

theorem exchange_eq (path : Bytes) (timeoutMs : UInt64) (request : Request) (s : Session) :
    exchange T debug path timeoutMs request s =
      ask T debug path timeoutMs request s >>= fun reply =>
        MonadExcept.ofExcept (replyResult T reply) := by
  simp only [exchange, ask, bind_assoc]

/-- A reply, as the caller of a method sees it. -/
def heard : Except Failure Reply → Reader Error Reply
  | .error e => throw (e.seen osText)
  | .ok (.error message) => throw (Error.mk EIO message)
  | .ok reply => pure reply

/-- A method for a request reads every result as it has to: an error as an error, and a reply that
is expected as the reply. -/
structure Observes (request : Request) (get : ResultHandle → Reader Error Reply) : Prop where
  failure : ∀ e, get (.ofFailure osText e) = throw (e.seen osText)
  reply : ∀ reply result, expected request reply = true → replyResult T reply = .ok result →
    get result = pure reply

theorem take_ofFailure (e : Failure) : take (.ofFailure osText e) = throw (e.seen osText) := by
  have htext := (builds_text (e.text osText) []).reads _ prefix_rfl
  have hcode : (ResultHandle.ofFailure osText e).error ≠ 0 := e.code_ne_zero
  have hmessage : Decode.text (ResultHandle.ofFailure osText e).arena
      (ResultHandle.ofFailure osText e).message =
      pure (e.text osText) := htext
  rw [take, if_pos hcode, hmessage]
  rfl

theorem take_ok {result : ResultHandle} (h : result.error = 0) : take result = pure result := by
  rw [take, if_neg (by simpa using h)]

/-- The replies of one kind can be copied from their views. -/
def Copies {V α : Type} (view : ResultHandle → Option V) (copy : List Cell → V → Reader Error α)
    (wrap : α → Reply) : Prop :=
  ∀ a, ∃ result v, replyResult T (wrap a) = .ok result ∧ result.error = 0 ∧ view result = some v ∧
    copy result.arena v = pure a

theorem copies_answer : Copies T ResultHandle.answer Decode.answer .answer :=
  fun a => ⟨_, _, rfl, rfl, rfl, (builds_answer a []).reads _ prefix_rfl⟩

theorem copies_addresses : Copies T ResultHandle.addresses (Decode.addresses T) .addresses :=
  fun a => ⟨_, _, rfl, rfl, rfl, (builds_addresses T a []).reads _ prefix_rfl⟩

theorem copies_statusReport : Copies T ResultHandle.statusReport Decode.statusReport .status :=
  fun r => ⟨_, _, rfl, rfl, rfl, (builds_statusReport r []).reads _ prefix_rfl⟩

/-- A method that copies a view, where only replies of its kind are expected. -/
theorem observes_copied (request : Request) {V : Type} {view : ResultHandle → Option V}
    {copy : List Cell → V → Reader Error α} {wrap : α → Reply} (h : Copies T view copy wrap)
    (hkind : ∀ reply, expected request reply = true → (∃ message, reply = .error message) ∨
      ∃ a, reply = wrap a) :
    Observes T osText request fun result => wrap <$> copied view copy result where
  failure e := by
    rw [copied, take_ofFailure]
    rfl
  reply reply result hexpected hresult := by
    obtain ⟨message, rfl⟩ | ⟨a, rfl⟩ := hkind reply hexpected
    · cases hresult
    obtain ⟨result', v, hresult', hok, hview, hcopy⟩ := h a
    obtain rfl : result = result' := Except.ok.inj (hresult.symm.trans hresult')
    rw [copied, take_ok hok, pure_bind, hview]
    show wrap <$> copy result.arena v = pure (wrap a)
    rw [hcopy, map_pure]

theorem Observes.finish {get : ResultHandle → Reader Error Reply}
    (h : Observes T osText request get) {x : Operation Reply}
    (hx : ∀ reply, x = some (.ok reply) → expected request reply = true) :
    (Api.finish osText (x >>= fun reply => MonadExcept.ofExcept (replyResult T reply))).map get =
      x.run.map (heard osText) := by
  rcases x with _ | e | reply
  · rfl
  · exact congrArg some (h.failure e)
  · have hreply := fun result => h.reply reply result (hx reply rfl)
    cases reply with
    | error message => exact congrArg some (h.failure (.other message))
    | ok => exact congrArg some (hreply _ rfl)
    | answer a => exact congrArg some (hreply _ rfl)
    | addresses a => exact congrArg some (hreply _ rfl)
    | status r => exact congrArg some (hreply _ rfl)

theorem Operation.bind_eq_ok {β : Type} {x : Operation α} {f : α → Operation β} {b : β}
    (h : x >>= f = some (.ok b)) : ∃ a, x = some (.ok a) ∧ f a = some (.ok b) := by
  rcases x with _ | e | a
  · cases h
  · cases h
  · exact ⟨a, rfl, h⟩

/-- The reply is the one in the first frame of what the daemon has sent, the request was sent whole,
and the one is of the kind that the other wants. -/
structure Answered (request : Request) (s : Session) (reply : Reply) : Prop where
  sent : (send T request s).2 = requestFrame T request
  first : ∃ payload rest, nativeFraming.split s.answer = some (payload, rest) ∧
    Reply.decode T payload = .ok reply
  kind : expected request reply = true

theorem send_ok (h : (send T request s).1 = some (.ok ())) :
    (send T request s).2 = requestFrame T request := by
  unfold send at h ⊢
  split at h
  · cases h
  · next hlen =>
    rw [if_neg hlen]
    exact (sent_sendLoop _ _ _).whole.mp h

theorem answered_of_ask {path : Bytes} {timeoutMs : UInt64} {reply : Reply}
    (h : ask T debug path timeoutMs request s = some (.ok reply)) : Answered T request s reply := by
  obtain ⟨-, -, h⟩ := Operation.bind_eq_ok h
  obtain ⟨-, -, h⟩ := Operation.bind_eq_ok h
  obtain ⟨⟨⟩, hsend, h⟩ := Operation.bind_eq_ok h
  obtain ⟨reply', hreceive, h⟩ := Operation.bind_eq_ok h
  cases hexpected : expected request reply' with
  | false =>
    rw [hexpected] at h
    cases h
  | true =>
    rw [hexpected] at h
    cases h
    refine ⟨send_ok T hsend, ?_, hexpected⟩
    obtain ⟨r, hr, hmap⟩ := Option.map_eq_some_iff.mp hreceive
    cases r with
    | error e => cases hmap
    | ok reply =>
      cases hmap
      exact receive_ok T debug _ _ hr

theorem ask_complete {path : Bytes} (hpath : PathOk path) {timeoutMs : UInt64}
    (htimeout : timeoutMs ≠ 0) (hlen : (request.encode T).length ≤ maxMessageBytes)
    {payload rest : Bytes} (hsplit : nativeFraming.split s.answer = some (payload, rest))
    (hs : s.Lasts (requestFrame T request).length (4 + payload.length)) {reply : Reply}
    (hreply : Reply.decode T payload = .ok reply) :
    ask T debug path timeoutMs request s =
      some (if expected request reply then .ok reply
        else .error (.invalidInput "unexpected reply type")) := by
  have hdeadline : deadline timeoutMs s = .ok () := by
    rw [deadline, if_neg htimeout, if_pos hs.fits]
  have hconnect : connect path s = .ok () := by
    have hpath' : ¬ (path.isEmpty || path.contains 0 || path.length ≥ 108) = true := by
      rw [Bool.or_right_comm]
      exact hpath
    rw [connect, if_neg hpath', hs.connected]
  have hsend : (send T request s).1 = some (.ok ()) := by
    rw [send, if_neg (by omega)]
    exact sendLoop_complete _ hs.sending hs.writes_le
  have hreceive : receive T debug s = some (.ok reply) := by
    have hresult := @receive_complete T debug ⟨⟨s.answer, []⟩, []⟩ exact_nil payload rest hsplit _
      hs.receiving
      (by simpa using hs.reads_le)
    rw [receive, hresult, Core.replyResult, hreply]
    rfl
  rw [ask, hdeadline, hconnect, hsend, receiveComplete, hreceive]
  show (if (!expected request reply) = true then throw _ >>= fun _ => pure reply
    else pure reply : Operation Reply) = _
  cases expected request reply <;> rfl

/-- The text that a method is given is not too long for the library. -/
def TextFits : Method → Prop
  | .resolve text _ _ | .lookup text _ | .reverse text => text.utf8ByteSize ≤ Inputs.maxTextBytes
  | _ => True

theorem bytes_live {octets : Bytes} (h : octets.length ≤ Inputs.maxTextBytes) :
    Inputs.bytes (.live octets) = .ok octets := by
  rw [Inputs.bytes, if_neg (by simpa [Span.len] using h)]
  rfl

theorem text_live {s : String} (h : s.utf8ByteSize ≤ Inputs.maxTextBytes) :
    Inputs.text (.live (octets s)) = .ok s := by
  have hutf8 : String.fromUTF8? ⟨(octets s).toArray⟩ = some s := fromUTF8?_eq_some.mpr rfl
  simp only [Inputs.text, bytes_live (by simpa using h : (octets s).length ≤ Inputs.maxTextBytes),
    bind, Except.bind, hutf8]
  rfl

theorem text_long {s : String} (h : ¬ s.utf8ByteSize ≤ Inputs.maxTextBytes) :
    Inputs.text (.live (octets s)) = .error (.invalidInput "input span exceeds 4 MiB") := by
  rw [Inputs.text, Inputs.bytes, if_pos (by simpa [Span.len] using h)]
  rfl

theorem ofExcept_ok (a : α) :
    (MonadExcept.ofExcept (.ok a : Except Failure α) : Operation α) = pure a :=
  rfl

theorem family_number (f : Family) : Inputs.family (familyNumber f) = .ok f := by cases f <;> rfl

theorem boolean_flag (b : Bool) : Inputs.boolean (Views.flag b) = .ok b := by cases b <;> rfl

namespace Client

variable (c : Client) (s : Session)

theorem bytes_path : Inputs.bytes (.live c.path) = .ok c.path := by
  have hpath := c.path_ok
  simp only [PathOk, Bool.or_eq_true, decide_eq_true_eq, not_or, not_le] at hpath
  exact bytes_live (by unfold Inputs.maxTextBytes; omega)

/-- The methods differ in what they copy, and in nothing else. -/
theorem call_eq {m : Method} {request : Request} (hm : m.request T = some request)
    (hfits : TextFits m) :
    c.call T debug osText s m = (ask T debug c.path c.timeoutMs request s).run.map
      (heard osText) := by
  have hx : ∀ reply, ask T debug c.path c.timeoutMs request s = some (.ok reply) →
      expected request reply = true :=
    fun _ h => (answered_of_ask T debug h).kind
  cases m with
  | status =>
    cases hm
    have hobs := observes_copied T osText .status (copies_statusReport T) fun reply h => by
      cases reply <;> simp [expected] at h ⊢
    rw [call, status, peiosResolvdGetStatus, bytes_path, Option.map_map, ← hobs.finish T osText hx,
      ← exchange_eq]
    rfl
  | lookup name family =>
    cases hm
    have hobs := observes_copied T osText (.lookup name family)
      (copies_addresses T) fun reply h => by
      cases reply <;> simp [expected] at h ⊢
    rw [call, lookup, peiosResolvdLookup, bytes_path, text_live hfits, family_number,
      Option.map_map, ← hobs.finish T osText hx, ← exchange_eq]
    rfl
  | resolve name rtype noCache =>
    cases hm
    have hobs := observes_copied T osText (.resolve name rtype noCache)
      (copies_answer T) fun reply h => by
      cases reply <;> simp [expected] at h ⊢
    rw [call, resolve, peiosResolvdResolve, bytes_path, text_live hfits, boolean_flag,
      Option.map_map, ← hobs.finish T osText hx, ← exchange_eq]
    rfl
  | reverse text =>
    obtain ⟨address, hparse, rfl⟩ := Option.map_eq_some_iff.mp hm
    have hobs := observes_copied T osText (.reverse address) (copies_answer T) fun reply h => by
      cases reply <;> simp [expected] at h ⊢
    rw [call, reverse, peiosResolvdReverse, bytes_path, text_live hfits, Option.map_map,
      ← hobs.finish T osText hx, ← exchange_eq]
    simp only [ofExcept_ok, pure_bind, hparse]
    rfl
  | flush =>
    cases hm
    have hobs : Observes T osText .flush fun result =>
        (fun _ => Reply.ok) <$> (do let _ ← take result; return ()) := by
      refine ⟨fun e => by rw [take_ofFailure]; rfl, fun reply result hexpected hresult => ?_⟩
      cases reply with
      | ok =>
        cases hresult
        rw [take_ok rfl]
        rfl
      | error message => cases hresult
      | answer a => cases hexpected
      | addresses a => cases hexpected
      | status r => cases hexpected
    rw [call, flush, peiosResolvdFlush, bytes_path, Option.map_map, ← hobs.finish T osText hx,
      ← exchange_eq]
    rfl

theorem call_refused {m : Method} (h : ¬ TextFits m ∨ m.request T = none) :
    ∃ e, c.call T debug osText s m = some (throw e) := by
  -- whichever method it is, it copies the failure
  have hcopied : ∀ {V α} (view : ResultHandle → Option V) (copy : List Cell → V → Reader Error α)
      (wrap : α → Reply) e,
      ∃ e', some (wrap <$> copied view copy (ResultHandle.ofFailure osText e)) =
        some (throw e') := by
    intro V α view copy wrap e
    rw [copied, take_ofFailure]
    exact ⟨_, rfl⟩
  cases m with
  | lookup name family =>
    rw [call, lookup, peiosResolvdLookup, bytes_path,
      text_long (h.resolve_right (by simp [Method.request]))]
    exact hcopied _ _ .addresses _
  | resolve name rtype noCache =>
    rw [call, resolve, peiosResolvdResolve, bytes_path,
      text_long (h.resolve_right (by simp [Method.request]))]
    exact hcopied _ _ .answer _
  | reverse text =>
    rw [call, reverse, peiosResolvdReverse, bytes_path]
    by_cases hfits : text.utf8ByteSize ≤ Inputs.maxTextBytes
    · have hparse : T.parse text = none :=
        Option.map_eq_none_iff.mp (h.resolve_left (not_not.mpr hfits))
      rw [text_live hfits]
      simp only [ofExcept_ok, pure_bind, hparse]
      exact hcopied _ _ .answer _
    · rw [text_long hfits]
      exact hcopied _ _ .answer _
  | status => exact absurd trivial (h.resolve_right (by simp [Method.request]))
  | flush => exact absurd trivial (h.resolve_right (by simp [Method.request]))

theorem call_defined (m : Method) {x : Reader Error Reply}
    (h : c.call T debug osText s m = some x) :
    (∃ e, x = throw e) ∨
      ∃ request reply, m.request T = some request ∧ x = pure reply ∧
        Answered T request s reply := by
  by_cases hrefused : ¬ TextFits m ∨ m.request T = none
  · obtain ⟨e, he⟩ := call_refused T debug osText c s hrefused
    exact .inl ⟨e, Option.mem_unique h he⟩
  · obtain ⟨hfits, hsome⟩ := not_or.mp hrefused
    obtain ⟨request, hm⟩ := Option.ne_none_iff_exists'.mp hsome
    rw [call_eq T debug osText c s hm (not_not.mp hfits)] at h
    obtain ⟨r, hr, rfl⟩ := Option.map_eq_some_iff.mp h
    rcases r with e | reply
    · exact .inl ⟨_, rfl⟩
    · have hanswered := answered_of_ask T debug hr
      cases reply with
      | error message => exact .inl ⟨_, rfl⟩
      | ok => exact .inr ⟨_, _, hm, rfl, hanswered⟩
      | answer a => exact .inr ⟨_, _, hm, rfl, hanswered⟩
      | addresses a => exact .inr ⟨_, _, hm, rfl, hanswered⟩
      | status r => exact .inr ⟨_, _, hm, rfl, hanswered⟩

/-- **Nothing but the daemon's reply.**  Whatever octets come from the socket, and however reads,
writes and waits go, a method has not returned, or it returns an error, or it returns the value of
the reply in the first frame, which is of the kind it wants, and then its arguments make a request
and it has sent that request whole. -/
theorem call_sound (m : Method) :
    c.call T debug osText s m = none ∨ (∃ e, c.call T debug osText s m = some (throw e)) ∨
      ∃ request reply, m.request T = some request ∧ c.call T debug osText s m = some (pure reply) ∧
        Answered T request s reply := by
  cases hcall : c.call T debug osText s m with
  | none => exact .inl rfl
  | some x =>
    obtain ⟨e, rfl⟩ | ⟨request, reply, hm, rfl, hanswered⟩ :=
      call_defined T debug osText c s m hcall
    · exact .inr (.inl ⟨e, rfl⟩)
    · exact .inr (.inr ⟨request, reply, hm, rfl, hanswered⟩)

/-- **A call that is served returns**: the reply, the daemon's error as an error with its text, and
an error for a reply of another kind. -/
theorem call_complete {m : Method} {request : Request} (hm : m.request T = some request)
    (hfits : TextFits m) (hlen : (request.encode T).length ≤ maxMessageBytes) {payload rest : Bytes}
    (hsplit : nativeFraming.split s.answer = some (payload, rest))
    (hs : s.Lasts (requestFrame T request).length (4 + payload.length)) {reply : Reply}
    (hreply : Reply.decode T payload = .ok reply) :
    c.call T debug osText s m =
      some (if expected request reply then heard osText (.ok reply)
        else throw (invalid "unexpected reply type")) := by
  rw [call_eq T debug osText c s hm hfits,
    ask_complete T debug c.path_ok c.timeoutMs_ne_zero hlen hsplit hs hreply]
  cases expected request reply <;> rfl

end Client

end Call

/-- A client of the daemon at `/s`, with a second for every call. -/
def atSlash : Client := ⟨[47, 115], 1000, by decide, by decide⟩

/-- The daemon answers `ok`.  Writes take two octets and reads three, and the first read is too
early. -/
def okSession : Session where
  sending := List.replicate 32 ⟨true, .ok 2, .ok ()⟩
  receiving := ⟨true, .wouldBlock, .ok ()⟩ :: List.replicate 16 ⟨true, .ready 2, .ok ()⟩
  answer := toLe 4 (Reply.encode octetText .ok).length ++ Reply.encode octetText .ok
  errno := Subtype.mk EIO EIO_ne_zero

/-- The cache is flushed. -/
theorem Client.call_complete_flush :
    atSlash.call octetText id (fun _ => "") okSession .flush = some (pure .ok) := by
  have hsplit : nativeFraming.split okSession.answer = some (Reply.encode octetText .ok, []) := by
    decide +kernel
  have hdecode : Reply.decode octetText (Reply.encode octetText .ok) = .ok .ok := by decide +kernel
  have hs : okSession.Lasts (requestFrame octetText .flush).length
      (4 + (Reply.encode octetText .ok).length) := by
    refine ⟨rfl, rfl, fun turn h => ?_, by decide +kernel, fun turn h => ?_, by decide +kernel⟩
    · rw [eq_of_mem_replicate h]
      exact ⟨rfl, rfl, nofun, nofun⟩
    · rcases mem_cons.mp h with rfl | h
      · exact ⟨⟨rfl, rfl⟩, nofun⟩
      · rw [eq_of_mem_replicate h]
        exact ⟨⟨rfl, rfl⟩, nofun⟩
  exact Client.call_complete octetText id (fun _ => "") atSlash okSession (m := .flush) rfl trivial
    (by decide +kernel)
    hsplit hs hdecode

end Resolvd.Api
