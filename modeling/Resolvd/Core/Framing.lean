import Resolvd.Core.RoundTrip
import Resolvd.Lib.Frames
import Resolvd.Lib.Socket

/-!
# One message on a stream

A message of the native protocol stands behind its length, four octets with the low one first, and
is no longer than `MAX_MESSAGE_BYTES`.  `control::Client::read` reads one request in any number of
calls, libresolvd's `Channel::receive` one reply in a single call that waits.  Both read the header
first and then what it declares, so that no octet behind the message is taken from the stream, and
both decide by what has arrived (`arrived`) alone: `Exact` is the invariant of their loops, and
`Exact.arrived_of_split` says what it means for the stream.
-/

namespace Resolvd.Core

open Lib Msgpack List

variable {buf : Bytes} {socket : Socket UInt8}

/-- `MAX_MESSAGE_BYTES`. -/
abbrev maxMessageBytes : ℕ := 65536

/-- How a message stands on the stream. -/
def nativeFraming : Framing UInt8 := .littleEndian 4 maxMessageBytes Framing.four_pos

/-- What the head of the loop makes of the buffer. -/
inductive Arrived where
  /-- less than so many octets -/
  | less (needed : ℕ)
  | tooLarge
  | whole (payload : Bytes)
  deriving DecidableEq

/-- The head of the loop, in `Client::read` and in `Channel::receive`. -/
def arrived (buf : Bytes) : Arrived :=
  if buf.length < 4 then .less 4
  else if ofLe (buf.take 4) > maxMessageBytes then .tooLarge
  else if buf.length = 4 + ofLe (buf.take 4) then .whole (buf.drop 4)
  else .less (4 + ofLe (buf.take 4))

/-- The room the next read is given: `chunk.len().min(target - self.buf.len())`. -/
def frameRoom (buf : Bytes) : ℕ :=
  match arrived buf with
  | .less needed => min 4096 (needed - buf.length)
  | _ => 0

/-! ### What the buffer holds -/

/-- The buffer holds no octet behind the first message. -/
structure Exact (buf : Bytes) : Prop where
  header : ofLe (buf.take 4) > maxMessageBytes → buf.length ≤ 4
  payload : 4 ≤ buf.length → ofLe (buf.take 4) ≤ maxMessageBytes →
    buf.length ≤ 4 + ofLe (buf.take 4)

theorem exact_nil : Exact [] := ⟨by simp, by simp⟩

theorem Exact.length_le (h : Exact buf) : buf.length ≤ 4 + maxMessageBytes := by
  by_cases hlen : buf.length < 4
  · omega
  · by_cases hmax : ofLe (buf.take 4) > maxMessageBytes
    · have := h.header hmax
      omega
    · have := h.payload (by omega) (by omega)
      omega

/-- There is no room exactly when the loop is done. -/
theorem Exact.room_eq_zero (h : Exact buf) :
    frameRoom buf = 0 ↔ arrived buf = .tooLarge ∨ arrived buf = .whole (buf.drop 4) := by
  have hpayload := h.payload
  unfold frameRoom arrived
  split_ifs with hlen hmax hwhole
  · simp only [or_self, iff_false]
    omega
  · simp
  · simp
  · simp only [or_self, iff_false]
    omega

/-- A read that is given the room keeps the buffer exact. -/
theorem Exact.append {chunk : Bytes} (h : Exact buf) (hroom : frameRoom buf ≠ 0)
    (hchunk : chunk.length ≤ frameRoom buf) : Exact (buf ++ chunk) := by
  by_cases hlen : buf.length < 4
  · -- no more than the header is read
    have hle : (buf ++ chunk).length ≤ 4 := by
      simp only [frameRoom, arrived, if_pos hlen] at hchunk
      rw [length_append]
      omega
    exact ⟨fun _ => hle, fun _ _ => le_trans hle (Nat.le_add_right _ _)⟩
  · have htake : (buf ++ chunk).take 4 = buf.take 4 := take_append_of_le_length (by omega)
    unfold frameRoom arrived at hroom hchunk
    rw [if_neg hlen] at hroom hchunk
    split_ifs at hroom hchunk with hmax hwhole
    · simp at hroom
    · simp at hroom
    · dsimp only at hchunk
      have := h.payload (by omega) (by omega)
      refine ⟨fun hc => absurd (htake ▸ hc) hmax, fun _ _ => ?_⟩
      rw [htake, length_append]
      omega

/-- What an exact buffer says of a stream that begins with a whole message. -/
theorem Exact.arrived_of_split {unread payload rest : Bytes} (h : Exact buf)
    (hsplit : nativeFraming.split (buf ++ unread) = some (payload, rest)) :
    buf.length ≤ 4 + payload.length ∧
      (arrived buf = .whole payload ↔ buf.length = 4 + payload.length) ∧
      (buf.length < 4 + payload.length → ∃ needed, arrived buf = .less needed) := by
  obtain ⟨header, heq, hwidth, hsize⟩ := Framing.split_eq_some.mp hsplit
  have hwidth : header.length = 4 := hwidth
  obtain ⟨hsmall, hlen⟩ : ofLe header ≤ maxMessageBytes ∧ ofLe header = payload.length := by
    simp only [nativeFraming, Framing.littleEndian] at hsize
    split at hsize
    · next hle => exact ⟨hle, Option.some.inj hsize⟩
    · cases hsize
  by_cases hshort : buf.length < 4
  · have harrived : arrived buf = .less 4 := if_pos hshort
    rw [harrived]
    refine ⟨by omega, ⟨fun hc => (by cases hc), fun hc => absurd hc (by omega)⟩, fun _ => ⟨4, rfl⟩⟩
  · have htake : buf.take 4 = header := by
      have := congrArg (List.take 4) heq
      rwa [take_append_of_le_length (by omega), ← hwidth, take_left, hwidth] at this
    have hle := h.payload (by omega) (htake ▸ hsmall)
    rw [htake, hlen] at hle
    have hbuf : buf.length = 4 + payload.length → buf.drop 4 = payload := by
      intro hc
      have := congrArg (fun l => (l.drop 4).take payload.length) heq
      rw [← hwidth, drop_left, take_left, hwidth, drop_append_of_le_length (by omega)] at this
      rw [← this, take_append_of_le_length (by simp; omega), take_of_length_le (by simp; omega)]
    unfold arrived
    rw [if_neg hshort, htake, if_neg (by omega), hlen]
    refine ⟨hle, ?_, fun hlt => ⟨_, if_neg (by omega)⟩⟩
    constructor
    · intro hc
      by_contra hne
      rw [if_neg hne] at hc
      cases hc
    · intro hc
      rw [if_pos hc, hbuf hc]

/-- What an exact buffer says of a stream that begins with the header of too large a message. -/
theorem Exact.arrived_of_bad {unread : Bytes} (h : Exact buf)
    (hbad : nativeFraming.bad (buf ++ unread) = true) :
    buf.length ≤ 4 ∧ (arrived buf = .tooLarge ↔ buf.length = 4) ∧
      (buf.length < 4 → arrived buf = .less 4) := by
  obtain ⟨hlen, hsize⟩ : 4 ≤ (buf ++ unread).length ∧
    nativeFraming.size ((buf ++ unread).take 4) = none := by
    simpa [Framing.bad, nativeFraming, Framing.littleEndian] using hbad
  by_cases hshort : buf.length < 4
  · have harrived : arrived buf = .less 4 := if_pos hshort
    rw [harrived]
    exact ⟨by omega, ⟨fun hc => (by cases hc), fun hc => absurd hc (by omega)⟩, fun _ => rfl⟩
  · rw [take_append_of_le_length (by omega)] at hsize
    have hmax : ofLe (buf.take 4) > maxMessageBytes := by
      simp only [nativeFraming, Framing.littleEndian] at hsize
      split at hsize
      · cases hsize
      · omega
    have hle := h.header hmax
    unfold arrived
    rw [if_neg hshort, if_pos hmax]
    exact ⟨hle, ⟨fun _ => by omega, fun _ => rfl⟩, fun hc => absurd hc hshort⟩

theorem split_of_arrived {payload : Bytes} (h : arrived buf = .whole payload) (unread : Bytes) :
    nativeFraming.split (buf ++ unread) = some (payload, unread) := by
  unfold arrived at h
  split_ifs at h with hshort hmax hwhole
  cases h
  refine Framing.split_eq_some.mpr ⟨buf.take 4, ?_, ?_, ?_⟩
  · rw [← append_assoc, take_append_drop]
  · simp only [nativeFraming, Framing.littleEndian, length_take]
    omega
  · simp only [nativeFraming, Framing.littleEndian, length_drop]
    rw [if_pos (by omega)]
    congr 1
    omega

theorem bad_of_arrived (h : arrived buf = .tooLarge) (unread : Bytes) :
    nativeFraming.bad (buf ++ unread) = true := by
  unfold arrived at h
  split_ifs at h with hshort hmax
  simp only [Framing.bad, nativeFraming, Framing.littleEndian]
  rw [take_append_of_le_length (by omega), if_neg (by omega), length_append]
  simp only [Option.isNone_none, Bool.and_true]
  exact decide_eq_true (by omega)

/-! ### `control::Client::read` -/

/-- `control::Progress`. -/
inductive Progress where
  | incomplete
  | request (r : Request)
  | reply (p : Reply)
  | closed

/-- `control::Client`: a connection that has not yet sent a whole request. -/
structure Client where
  socket : Socket UInt8
  buf : Bytes := []

section Client

variable (T : AddressText) (debug : String → String)

/-- The result of `Request::decode`, as the loop returns it. -/
def requestProgress (payload : Bytes) : Progress :=
  match Request.decode T payload with
  | .ok r => .request r
  | .error e => .reply (.error (e.display debug))

/-- What the head of the loop returns, if it does. -/
def Arrived.progress : Arrived → Progress
  | .less _ => .incomplete
  | .tooLarge => .reply (.error "request too large")
  | .whole payload => requestProgress T debug payload

/-- `Client::read`. -/
def Client.read (c : Client) (attempts : List Attempt) : Progress × Client :=
  let (stop, buf, socket) := fill frameRoom attempts c.buf c.socket
  let progress := match stop with
    | .full => (arrived buf).progress T debug
    | .blocked => .incomplete
    | .eof => .closed
    | .failed => .closed
  (progress, ⟨socket, buf⟩)

/-- Calls of `Client::read`, until one has a result. -/
def Client.reads (c : Client) : List (List Attempt) → Progress × Client
  | [] => (.incomplete, c)
  | attempts :: calls =>
    match c.read T debug attempts with
    | (.incomplete, c) => c.reads calls
    | done => done

end Client

/-- What has become of a stream: how much of it was read, and with what result. -/
structure Outcome {ρ : Type} (verdict : Arrived → ρ) (Closed : ρ → Prop) (stream : Bytes)
    (result : ρ) (socket : Socket UInt8) : Prop where
  stream : socket.received ++ socket.unread = stream
  exact : Exact socket.received
  ended : socket.Ended → Closed result ∧ ∃ needed, arrived socket.received = .less needed
  goesOn : ¬ socket.Ended → result = verdict (arrived socket.received)

theorem Outcome.not_ended {ρ : Type} {verdict : Arrived → ρ} {Closed : ρ → Prop} {stream : Bytes}
    {result : ρ} (h : Outcome verdict Closed stream result socket) {a : Arrived}
    (harrived : arrived socket.received = a) (ha : ∀ needed, a ≠ .less needed) :
    ¬ socket.Ended := by
  intro he
  obtain ⟨-, needed, hneeded⟩ := h.ended he
  exact ha needed (harrived.symm.trans hneeded)

theorem arrived_of_room (h : frameRoom buf ≠ 0) : ∃ needed, arrived buf = .less needed := by
  unfold frameRoom at h
  split at h
  · next needed harrived => exact ⟨needed, harrived⟩
  · exact absurd rfl h

section Client

variable (T : AddressText) (debug : String → String) {c : Client}

theorem Client.read_spec (hreading : Reading c.buf c.socket) (hexact : Exact c.buf)
    (attempts : List Attempt) :
    Outcome (Arrived.progress T debug) (· = .closed) (c.socket.received ++ c.socket.unread)
        (c.read T debug attempts).1 (c.read T debug attempts).2.socket ∧
      (c.read T debug attempts).2.buf = (c.read T debug attempts).2.socket.received := by
  have hexact' := fill_invariant (fun buf chunk h => Exact.append h) attempts c.socket hexact
  obtain ⟨new, hfill⟩ := fill_spec frameRoom attempts c.buf c.socket
  unfold Client.read
  generalize fill frameRoom attempts c.buf c.socket = r at hfill hexact' ⊢
  obtain ⟨stop, buf, socket⟩ := r
  obtain rfl : socket.received = buf := hfill.received hreading
  have hended : socket.Ended ↔ stop.Ends := hfill.ended_iff hreading.goesOn
  have hless : stop ≠ .full → ∃ needed, arrived socket.received = .less needed :=
    fun hstop => arrived_of_room (fun hroom => hstop (hfill.full.mpr hroom))
  refine ⟨⟨hfill.stream, hexact', fun he => ?_, fun hno => ?_⟩, rfl⟩
  · cases stop with
    | full => exact (hended.mp he).elim
    | blocked => exact (hended.mp he).elim
    | eof => exact ⟨rfl, hless (by simp)⟩
    | failed => exact ⟨rfl, hless (by simp)⟩
  · rw [hended] at hno
    cases stop with
    | full => rfl
    | blocked =>
      obtain ⟨needed, harrived⟩ := hless (by simp)
      show Progress.incomplete = _
      rw [harrived]
      rfl
    | eof => exact absurd trivial hno
    | failed => exact absurd trivial hno

/-- A call without a result leaves the client between two calls. -/
theorem Client.reads_spec (hreading : Reading c.buf c.socket) (hexact : Exact c.buf)
    (hless : (arrived c.buf).progress T debug = .incomplete) (calls : List (List Attempt)) :
    Outcome (Arrived.progress T debug) (· = .closed) (c.socket.received ++ c.socket.unread)
        (c.reads T debug calls).1 (c.reads T debug calls).2.socket ∧
      (c.reads T debug calls).2.buf = (c.reads T debug calls).2.socket.received := by
  induction calls generalizing c with
  | nil =>
    rw [Client.reads, hreading.received]
    exact ⟨⟨by rw [hreading.received], hreading.received ▸ hexact, fun he => absurd he hreading.goesOn,
      fun _ => by rw [hreading.received, hless]⟩, rfl⟩
  | cons attempts calls ih =>
    obtain ⟨hout, hbuf⟩ := Client.read_spec T debug hreading hexact attempts
    rw [Client.reads]
    split
    · next c' heq =>
      rw [heq] at hout hbuf
      have hgoes : ¬ c'.socket.Ended := fun he => by
        have := (hout.ended he).1
        cases this
      have := ih ⟨hbuf.symm, hgoes⟩ (hbuf ▸ hout.exact) (by rw [hbuf, ← hout.goesOn hgoes])
      rwa [hout.stream] at this
    · exact ⟨hout, hbuf⟩

end Client

/-! ### libresolvd's `Channel::receive` -/

/-- The errors `Channel::receive` returns, with their texts. -/
inductive ReceiveError where
  | timedOut
  | invalidInput (text : String)
  | invalidData (text : String)
  | unexpectedEof (text : String)
  /-- the error of the read, or of the wait for it -/
  | read
  deriving DecidableEq

/-- `Channel`, from the first octet of the reply that is next. -/
structure Channel where
  stream : Socket UInt8
  incoming : Bytes := []

/-- One turn of the loop, as the clock and the kernel have it. -/
structure Turn where
  /-- `remaining(end)` is not an error -/
  inTime : Bool
  attempt : Attempt
  /-- how a `wait` for the stream to be readable ends -/
  wait : Except ReceiveError Unit

/-- The result of `Reply::decode`, as the loop returns it. -/
def replyResult (T : AddressText) (debug : String → String) (payload : Bytes) :
    Except ReceiveError Reply :=
  match Reply.decode T payload with
  | .ok p => .ok p
  | .error e => .error (.invalidData (e.display debug))

/-- What the head of the loop returns, if it does. -/
def Arrived.received (T : AddressText) (debug : String → String) :
    Arrived → Option (Except ReceiveError Reply)
  | .less _ => none
  | .tooLarge => some (.error (.invalidInput "reply exceeds the protocol message limit"))
  | .whole payload => some (replyResult T debug payload)

/-- `self.incoming.clear()`, with a whole reply. -/
def Channel.cleared (ch : Channel) : Channel :=
  match arrived ch.incoming with
  | .whole _ => { ch with incoming := [] }
  | _ => ch

/-- `Channel::receive`, for so many turns: `none` while it waits for more. -/
def Channel.receive (T : AddressText) (debug : String → String) (ch : Channel) :
    List Turn → Option (Except ReceiveError Reply) × Channel
  | [] => ((arrived ch.incoming).received T debug, ch.cleared)
  | turn :: turns =>
    if !turn.inTime then (some (.error .timedOut), ch)
    else match (arrived ch.incoming).received T debug with
      | some result => (some result, ch.cleared)
      | none =>
        match ch.stream.read (frameRoom ch.incoming) turn.attempt with
        | (.ok [], stream) =>
          (some (.error (.unexpectedEof "resolvd closed mid-reply")), { ch with stream })
        | (.ok chunk, stream) => Channel.receive T debug ⟨stream, ch.incoming ++ chunk⟩ turns
        | (.interrupted, stream) => Channel.receive T debug { ch with stream } turns
        | (.wouldBlock, stream) =>
          match turn.wait with
          | .ok () => Channel.receive T debug { ch with stream } turns
          | .error e => (some (.error e), { ch with stream })
        | (.error, stream) => (some (.error .read), { ch with stream })

/-- The deadline does not pass in this turn, and a wait does not fail. -/
def Turn.Punctual (turn : Turn) : Prop := turn.inTime = true ∧ turn.wait = .ok ()

/-- The stream has ended before the reply, or has failed. -/
def ReceiveClosed (result : Option (Except ReceiveError Reply)) : Prop :=
  result = some (.error (.unexpectedEof "resolvd closed mid-reply")) ∨ result = some (.error .read)

theorem less_of_waiting {T : AddressText} {debug : String → String} {a : Arrived}
    (h : a.received T debug = none) : ∃ needed, a = .less needed := by
  cases a with
  | less needed => exact ⟨needed, rfl⟩
  | tooLarge => cases h
  | whole payload => cases h

theorem Exact.room_of_less (h : Exact buf) {needed : ℕ} (hless : arrived buf = .less needed) :
    frameRoom buf ≠ 0 := by
  rw [Ne, h.room_eq_zero, hless]
  simp

/-- However the turns go, the buffer never holds more than a frame. -/
theorem Channel.receive_exact (T : AddressText) (debug : String → String) {ch : Channel}
    (h : Exact ch.incoming) (turns : List Turn) : Exact (ch.receive T debug turns).2.incoming := by
  have hcleared : ∀ ch : Channel, Exact ch.incoming → Exact ch.cleared.incoming := by
    intro ch h
    unfold Channel.cleared
    split
    · exact exact_nil
    · exact h
  induction turns generalizing ch with
  | nil => exact hcleared ch h
  | cons turn turns ih =>
    rw [Channel.receive]
    split
    · exact h
    split
    · exact hcleared ch h
    · next hnone =>
      obtain ⟨needed, hless⟩ := less_of_waiting hnone
      have hroom := (ch.stream.read_spec (frameRoom ch.incoming) turn.attempt).2.2
      generalize ch.stream.read (frameRoom ch.incoming) turn.attempt = r at hroom ⊢
      obtain ⟨a, stream⟩ := r
      split
      · exact h
      · next heq =>
        cases heq
        exact ih (h.append (h.room_of_less hless) hroom)
      · exact ih h
      · split
        · exact ih h
        · exact h
      · exact h

theorem Channel.receive_spec (T : AddressText) (debug : String → String) (ch : Channel)
    (hreading : Reading ch.incoming ch.stream) (hexact : Exact ch.incoming) {turns : List Turn}
    (hturns : ∀ turn ∈ turns, turn.Punctual) :
    Outcome (Arrived.received T debug) ReceiveClosed (ch.stream.received ++ ch.stream.unread)
      (ch.receive T debug turns).1 (ch.receive T debug turns).2.stream := by
  have hcleared : ∀ ch : Channel, ch.cleared.stream = ch.stream := by
    intro ch
    unfold Channel.cleared
    split <;> rfl
  induction turns generalizing ch with
  | nil =>
    rw [Channel.receive, hcleared]
    exact ⟨rfl, hreading.received ▸ hexact, fun he => absurd he hreading.goesOn,
      fun _ => by rw [hreading.received]⟩
  | cons turn turns ih =>
    obtain ⟨⟨hin, hwaited⟩, hturns⟩ := forall_mem_cons.mp hturns
    rw [Channel.receive, hin]
    simp only [Bool.not_true, Bool.false_eq_true, if_false]
    split
    · next result hresult =>
      rw [hcleared]
      exact ⟨rfl, hreading.received ▸ hexact, fun he => absurd he hreading.goesOn,
        fun _ => by rw [hreading.received, hresult]⟩
    · next hnone =>
      -- the loop goes on with a read
      obtain ⟨needed, hless⟩ := less_of_waiting hnone
      obtain ⟨hreceived, hended, hstream⟩ := hreading.read (frameRoom ch.incoming) turn.attempt
      have hroom := (ch.stream.read_spec (frameRoom ch.incoming) turn.attempt).2.2
      generalize ch.stream.read (frameRoom ch.incoming) turn.attempt =
        r at hreceived hended hstream hroom ⊢
      obtain ⟨a, stream⟩ := r
      have hcloses : ∀ result, a.Ends → a.chunk = [] → ReceiveClosed result →
          Outcome (Arrived.received T debug) ReceiveClosed
            (ch.stream.received ++ ch.stream.unread) result stream := by
        intro result hends hchunk hresult
        have hsame : stream.received = ch.incoming := by rw [hreceived, hchunk, append_nil]
        exact ⟨hstream, hsame ▸ hexact, fun _ => ⟨hresult, needed, hsame ▸ hless⟩, fun hno =>
          absurd (hended.mpr hends) hno⟩
      have hgoesOn : ¬ a.Ends → Outcome (Arrived.received T debug) ReceiveClosed
          (ch.stream.received ++ ch.stream.unread)
          (Channel.receive T debug ⟨stream, ch.incoming ++ a.chunk⟩ turns).1
          (Channel.receive T debug ⟨stream, ch.incoming ++ a.chunk⟩ turns).2.stream := by
        intro hno
        have := ih ⟨stream, ch.incoming ++ a.chunk⟩ ⟨hreceived, fun he => hno (hended.mp he)⟩
          (hexact.append (hexact.room_of_less hless) hroom) hturns
        rwa [hstream] at this
      split
      · next h =>
        cases h
        exact hcloses _ rfl rfl (.inl rfl)
      · next chunk _ hne h =>
        cases h
        exact hgoesOn hne
      · next h =>
        cases h
        simpa only [Io.chunk, append_nil] using hgoesOn (fun hc => hc)
      · next h =>
        cases h
        rw [hwaited]
        simpa only [Io.chunk, append_nil] using hgoesOn (fun hc => hc)
      · next h =>
        cases h
        exact hcloses _ trivial rfl (.inr rfl)

/-! ### Framing does not depend on chunking -/

/-- What a reader of one frame has to do with the stream, however it comes. -/
structure ReadsFrame {ρ : Type} (decoded : Bytes → ρ) (tooLarge waiting : ρ) (Closed : ρ → Prop)
    (stream : Bytes) (result : ρ) (socket : Socket UInt8) : Prop where
  sent : socket.received ++ socket.unread = stream
  bounded : socket.received.length ≤ 4 + maxMessageBytes
  closed : Closed result ↔ socket.Ended
  /-- no octet behind the frame is taken, and with its last octet there is a result -/
  whole : ∀ payload rest, nativeFraming.split stream = some (payload, rest) →
    socket.received.length ≤ 4 + payload.length ∧
      (socket.received.length = 4 + payload.length → result = decoded payload) ∧
      (socket.received.length < 4 + payload.length → ¬ socket.Ended → result = waiting)
  /-- no octet behind the header is taken, and with its last octet there is a result -/
  oversized : nativeFraming.bad stream = true →
    socket.received.length ≤ 4 ∧ (socket.received.length = 4 → result = tooLarge) ∧
      (socket.received.length < 4 → ¬ socket.Ended → result = waiting)
  /-- a stream that has less than a frame -/
  short : nativeFraming.split stream = none → nativeFraming.bad stream = false → ¬ socket.Ended →
    result = waiting

theorem Outcome.readsFrame {ρ : Type} {verdict : Arrived → ρ} {Closed : ρ → Prop} {stream : Bytes}
    {result : ρ} (h : Outcome verdict Closed stream result socket)
    (hverdict : ∀ a, ¬ Closed (verdict a)) {waiting : ρ}
    (hwaiting : ∀ needed, verdict (.less needed) = waiting) :
    ReadsFrame (fun payload => verdict (.whole payload))
      (verdict .tooLarge) waiting Closed stream result socket where
  sent := h.stream
  bounded := h.exact.length_le
  closed := by
    refine ⟨fun hc => ?_, fun he => (h.ended he).1⟩
    by_contra hno
    exact hverdict _ (h.goesOn hno ▸ hc)
  whole payload rest hsplit := by
    obtain ⟨hle, hwhole, hless⟩ := h.exact.arrived_of_split (h.stream ▸ hsplit)
    refine ⟨hle, fun heq => ?_, fun hlt hgoes => ?_⟩
    · have harrived := hwhole.mpr heq
      rw [h.goesOn (h.not_ended harrived nofun), harrived]
    · obtain ⟨needed, hneeded⟩ := hless hlt
      rw [h.goesOn hgoes, hneeded, hwaiting]
  oversized hbad := by
    obtain ⟨hle, hlarge, hless⟩ := h.exact.arrived_of_bad (h.stream ▸ hbad)
    refine ⟨hle, fun heq => ?_, fun hlt hgoes => ?_⟩
    · have harrived := hlarge.mpr heq
      rw [h.goesOn (h.not_ended harrived nofun), harrived]
    · rw [h.goesOn hgoes, hless hlt, hwaiting]
  short hsplit hbad hgoes := by
    rw [h.goesOn hgoes]
    cases harrived : arrived socket.received with
    | less needed => exact hwaiting needed
    | tooLarge =>
      rw [← h.stream, bad_of_arrived harrived] at hbad
      cases hbad
    | whole payload =>
      rw [← h.stream, split_of_arrived harrived] at hsplit
      cases hsplit

/-- **One message, however it is cut.**  For every stream, and every way its octets, its end and its
interruptions come in reads and calls, `Client::read` has the request, or the decoder's error, of
exactly the first frame's payload with its last octet, `request too large` with the last octet of
such a header, and is closed when the stream ends or fails before; it takes nothing behind the frame
and never holds more than a frame.  So does `Channel::receive` for replies, unless its deadline
passes or a wait fails, and then too its buffer never holds more than a frame. -/
theorem native_framing_any_chunks (T : AddressText) (debug : String → String) (stream : Bytes) :
    (∀ calls, ∃ progress client, Client.reads T debug ⟨⟨stream, []⟩, []⟩ calls =
      (progress, client) ∧
      client.buf = client.socket.received ∧
      ReadsFrame (requestProgress T debug) (.reply (.error "request too large")) .incomplete
        (· = .closed) stream
        progress client.socket) ∧
    ∀ turns, ∃ result channel, Channel.receive T debug
      ⟨⟨stream, []⟩, []⟩ turns = (result, channel) ∧
      channel.incoming.length ≤ 4 + maxMessageBytes ∧
      ((∀ turn ∈ turns, turn.Punctual) →
        ReadsFrame (fun payload => some (replyResult T debug payload))
        (some (.error (.invalidInput "reply exceeds the protocol message limit")))
          none ReceiveClosed stream
        result channel.stream) := by
  constructor
  · intro calls
    obtain ⟨hout, hbuf⟩ := Client.reads_spec T debug (c := ⟨⟨stream, []⟩, []⟩)
      (reading_nil stream) exact_nil rfl calls
    refine ⟨_, _, rfl, hbuf, hout.readsFrame ?_ (fun _ => rfl)⟩
    intro a
    cases a with
    | less needed => simp [Arrived.progress]
    | tooLarge => simp [Arrived.progress]
    | whole payload =>
      simp only [Arrived.progress, requestProgress]
      split <;> simp
  · intro turns
    refine ⟨_, _, rfl, (Channel.receive_exact T debug exact_nil turns).length_le, fun hturns => ?_⟩
    have hout := Channel.receive_spec T debug ⟨⟨stream, []⟩, []⟩
      (reading_nil stream) exact_nil hturns
    refine hout.readsFrame ?_ (fun _ => rfl)
    intro a
    cases a with
    | less needed => simp [Arrived.received, ReceiveClosed]
    | tooLarge => simp [Arrived.received, ReceiveClosed]
    | whole payload =>
      simp only [Arrived.received, replyResult, ReceiveClosed]
      split <;> simp

/-- The frame of a request for the daemon's status, and an octet behind it. -/
def statusFrame : Bytes :=
  toLe 4 (Request.encode octetText .status).length ++ Request.encode octetText .status ++ [7]

/-- The frame is read in two calls, and in three turns; as a reply it is an error. -/
theorem native_framing_any_chunks_status :
    (∃ client, Client.reads octetText id ⟨⟨statusFrame, []⟩, []⟩
      [[.ready 1], [.interrupted, .ready 1, .ready 99]] =
      (requestProgress octetText id (Request.encode octetText .status), client)) ∧
    ∃ channel, Channel.receive octetText id ⟨⟨statusFrame, []⟩, []⟩
        [⟨true, .wouldBlock, .ok ()⟩, ⟨true, .ready 9, .ok ()⟩, ⟨true, .ready 99, .ok ()⟩] =
      (some (replyResult octetText id (Request.encode octetText .status)), channel) := by
  have hsplit : nativeFraming.split statusFrame = some (Request.encode octetText .status, [7]) := by
    decide +kernel
  constructor
  · obtain ⟨progress, client, heq, -, h⟩ := (native_framing_any_chunks octetText id statusFrame).1
      [[.ready 1], [.interrupted, .ready 1, .ready 99]]
    have hlen : (Client.reads octetText id ⟨⟨statusFrame, []⟩, []⟩
        [[.ready 1], [.interrupted, .ready 1, .ready 99]]).2.socket.received.length =
          4 + (Request.encode octetText .status).length := by decide +kernel
    rw [heq] at hlen ⊢
    exact ⟨client, by rw [(h.whole _ _ hsplit).2.1 hlen]⟩
  · obtain ⟨result, channel, heq, -, h⟩ := (native_framing_any_chunks octetText id statusFrame).2
      [⟨true, .wouldBlock, .ok ()⟩, ⟨true, .ready 9, .ok ()⟩, ⟨true, .ready 99, .ok ()⟩]
    have hlen : (Channel.receive octetText id ⟨⟨statusFrame, []⟩, []⟩
        [⟨true, .wouldBlock, .ok ()⟩, ⟨true, .ready 9, .ok ()⟩,
          ⟨true, .ready 99, .ok ()⟩]).2.stream.received.length =
          4 + (Request.encode octetText .status).length := by decide +kernel
    rw [heq] at hlen ⊢
    exact ⟨channel, by rw [((h (by simp [Turn.Punctual])).whole _ _ hsplit).2.1 hlen]⟩

end Resolvd.Core
