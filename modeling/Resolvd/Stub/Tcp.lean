import Resolvd.Daemon.Framing
import Resolvd.Stub.Render

/-!
# The stub listener: queries on a stream

A TCP connection carries one query.  Each time the connection is ready, `Stub::service_client` reads
all there is and then looks for the first frame.  A connection with more octets than the largest
frame has is closed, whatever they are.

`TcpClient.calls_spec` says what becomes of a connection in terms of what was read from it, and of
nothing else.
-/

namespace Resolvd.Stub

open Lib Dns Engine Daemon List

/-- `TCP_TIMEOUT`. -/
abbrev tcpTimeout : ℕ := secs 10

/-- The length of the largest frame. -/
abbrev bufferCeiling : ℕ := 2 + maxMessageSize

/-- `stub::TcpClient`: a connection that is still sending its query.  There is none with a longer
buffer. -/
structure TcpClient where
  stream : Stream
  socket : Socket UInt8
  buf : Bytes := []
  since : Instant
  fits : buf.length ≤ bufferCeiling := by decide

/-- The room for a read of `service_client`, which stops reading when it has too much. -/
def readRoom (buf : Bytes) : ℕ := if bufferCeiling < buf.length then 0 else 4096

/-- What `parse_query` makes of a message. -/
def Received.of (message : Bytes) : Received :=
  match parseQuery message with
  | .ok q => .query q
  | .error (.err (some bytes)) => .reply bytes
  | .error _ => .nothing

/-- What `service_client` does when it has read: the connection stays in the table, or this becomes
of it. -/
def TcpClient.judge (c : TcpClient) (stop : Stop) (buf : Bytes) (socket : Socket UInt8) :
    Except Received TcpClient :=
  if fits : buf.length ≤ bufferCeiling then
    if stop = .failed then .error .nothing
    else match dnsFraming.split buf with
      | some (message, _) => .error (.of message)
      | none => if stop = .eof then .error .nothing else .ok { c with socket, buf, fits }
  else .error .nothing

/-- `Stub::service_client`, for a connection in the table.  The socket is given as the call leaves
it. -/
def TcpClient.service (c : TcpClient) (attempts : List Attempt) :
    Except Received TcpClient × Socket UInt8 :=
  let (stop, buf, socket) := fill readRoom attempts c.buf c.socket
  (c.judge stop buf socket, socket)

end Resolvd.Stub

namespace Resolvd

open Lib Dns Engine Daemon Stub List

/-- `stub::Stub`: the connections that are still sending their query. -/
structure Stub where
  clients : Table ℕ TcpClient := Table.empty
  nextClient : ℕ := 1

end Resolvd

namespace Resolvd.Stub

open Lib Dns Engine Daemon List

/-- `Stub::service_client`.  A connection that leaves the table is given with what becomes of it. -/
def serviceClient (s : Stub) (id : ℕ) (attempts : List Attempt) :
    Stub × Option (Stream × Received) :=
  match s.clients.get id with
  | none => (s, none)
  | some c =>
    match (c.service attempts).1 with
    | .ok c => ({ s with clients := s.clients.insert id c }, none)
    | .error received => ({ s with clients := s.clients.remove id }, some (c.stream, received))

/-- A connection that comes from the listener: who it is from, whether it can be made nonblocking,
and what its peer is going to send. -/
structure Connection where
  stream : Stream
  peer : IpAddr
  nonblocking : Bool
  bytes : Bytes

/-- The loop of `Stub::accept`. -/
def acceptAll (now : Instant) (limit : ℕ) : List (Io Connection) → Stub → Stub
  | [], s => s
  | .ok c :: accepts, s =>
    if limit ≤ s.clients.len || !c.peer.isLoopback || !c.nonblocking
      then acceptAll now limit accepts s
    else
      acceptAll now limit accepts
        { clients := s.clients.insert s.nextClient { stream := c.stream, socket := ⟨c.bytes, []⟩, since := now },
          nextClient := s.nextClient + 1 }
  | .interrupted :: accepts, s => acceptAll now limit accepts s
  | .wouldBlock :: _, s => s
  | .error :: _, s => s

/-- `Stub::accept`. -/
def accept (s : Stub) (now : Instant) (limit : ℕ) (accepts : List (Io Connection)) : Stub :=
  s.acceptAll now limit (accepts.take ioBatchLimit)

/-- `Stub::expire`. -/
def expire (s : Stub) (now : Instant) : Stub :=
  { s with clients := s.clients.retain fun _ c => now - c.since < tcpTimeout }

/-! ### Any number of calls -/

/-- Calls for a connection, until it leaves the table. -/
def serviceCalls (s : Stub) (id : ℕ) : List (List Attempt) → Stub × Option (Stream × Received)
  | [] => (s, none)
  | attempts :: calls =>
    match s.serviceClient id attempts with
    | (s, some left) => (s, some left)
    | (s, none) => s.serviceCalls id calls

/-- The same calls, with the socket as the last one leaves it. -/
def TcpClient.calls (c : TcpClient) : List (List Attempt) → Except Received TcpClient × Socket UInt8
  | [] => (.ok c, c.socket)
  | attempts :: calls =>
    match c.service attempts with
    | (.ok c, _) => c.calls calls
    | (.error received, socket) => (.error received, socket)

/-- The connection has sent less than a frame. -/
structure TcpClient.Waits (c : TcpClient) : Prop where
  reading : Reading c.buf c.socket
  short : dnsFraming.split c.buf = none

/-- What becomes of a connection from which this was read. -/
structure Fate (c : TcpClient) (socket : Socket UInt8) (result : Except Received TcpClient) :
    Prop where
  stream : socket.received ++ socket.unread = c.socket.received ++ c.socket.unread
  waits : ∀ c', result = .ok c' → c'.Waits ∧ c'.socket = socket ∧ c'.stream = c.stream ∧
    c'.since = c.since
  closed : bufferCeiling < socket.received.length ∨ .error ∈ socket.answers →
    result = .error .nothing
  query : socket.received.length ≤ bufferCeiling → .error ∉ socket.answers →
    ∀ message rest, dnsFraming.split socket.received = some (message, rest) →
      result = .error (.of message)
  short : dnsFraming.split socket.received = none → socket.Ended → result = .error .nothing
  goesOn : dnsFraming.split socket.received = none → ¬ socket.Ended → ∃ c', result = .ok c'

/-- A string that does not begin with a complete frame is shorter than the largest one. -/
theorem length_le_of_short {buf : Bytes} (h : dnsFraming.split buf = none) :
    buf.length ≤ bufferCeiling := by
  rcases Framing.split_eq_none.mp h with hshort | hbad | ⟨n, hn, hshort⟩
  · exact le_trans (Nat.le_of_lt hshort) (by decide)
  · cases hbad
  · cases hn
    have hlt := ofBe_lt (buf.take 2)
    have htake : (buf.take 2).length ≤ 2 := length_take_le 2 buf
    have hpow : 256 ^ (buf.take 2).length ≤ 256 ^ 2 := Nat.pow_le_pow_right (by decide) htake
    have hshort : buf.length < 2 + ofBe (buf.take 2) := hshort
    have hle : 2 + ofBe (buf.take 2) ≤ 2 + 65535 := by omega
    exact Nat.le_of_lt (lt_of_lt_of_le hshort hle)

variable {c : TcpClient}

theorem TcpClient.service_spec (h : c.Waits) (attempts : List Attempt) :
    Fate c (c.service attempts).2 (c.service attempts).1 := by
  obtain ⟨new, hfill⟩ := fill_spec readRoom attempts c.buf c.socket
  unfold TcpClient.service
  generalize fill readRoom attempts c.buf c.socket = r at hfill ⊢
  obtain ⟨stop, buf, socket⟩ := r
  obtain rfl : socket.received = buf := hfill.received h.reading
  have hended : socket.Ended ↔ stop.Ends := hfill.ended_iff h.reading.goesOn
  have hfailed : .error ∈ socket.answers ↔ stop = .failed := hfill.failed_iff h.reading.goesOn
  have hstream := hfill.stream
  show Fate c socket (c.judge stop socket.received socket)
  unfold TcpClient.judge
  by_cases hfits : socket.received.length ≤ bufferCeiling
  · rw [dif_pos hfits]
    by_cases hstop : stop = .failed
    · rw [if_pos hstop]
      have herror := hfailed.mpr hstop
      refine ⟨hstream, fun c' hc' => (by cases hc'), fun _ => rfl, fun _ hno => absurd herror hno,
        fun _ _ => rfl,
        fun _ hno => absurd ⟨.error, herror, trivial⟩ hno⟩
    · rw [if_neg hstop]
      have hno : .error ∉ socket.answers := fun he => hstop (hfailed.mp he)
      have hopen : ¬ (bufferCeiling < socket.received.length ∨ .error ∈ socket.answers) := by
        rintro (hlt | herror)
        · exact absurd hlt (Nat.not_lt.mpr hfits)
        · exact hno herror
      cases hsplit : dnsFraming.split socket.received with
      | some pr =>
        obtain ⟨message, rest⟩ := pr
        have hne : dnsFraming.split socket.received ≠ none := by simp [hsplit]
        refine ⟨hstream, fun c' hc' => (by cases hc'), fun hc => absurd hc hopen,
          fun _ _ message' rest' h' => ?_,
          fun h' => absurd h' hne, fun h' => absurd h' hne⟩
        cases hsplit.symm.trans h'
        rfl
      | none =>
        have hne : ∀ message rest, dnsFraming.split socket.received ≠ some (message, rest) := by
          simp [hsplit]
        by_cases heof : stop = .eof
        · simp only [if_pos heof]
          refine ⟨hstream, fun c' hc' => (by cases hc'), fun _ => rfl, fun _ _ _ _ h' =>
            absurd h' (hne _ _), fun _ _ => rfl,
            fun _ hgoes => absurd (hended.mpr (by rw [heof]; trivial)) hgoes⟩
        · simp only [if_neg heof]
          have hgoes : ¬ socket.Ended := by
            rw [hended, Stop.ends_iff]
            exact not_or.mpr ⟨heof, hstop⟩
          refine ⟨hstream, fun c' hc' => ?_, fun hc => absurd hc hopen, fun _ _ _ _ h' =>
            absurd h' (hne _ _), fun _ hends => absurd hends hgoes, fun _ _ => ⟨_, rfl⟩⟩
          cases hc'
          exact ⟨⟨⟨rfl, hgoes⟩, hsplit⟩, rfl, rfl, rfl⟩
  · rw [dif_neg hfits]
    have hlong : ¬ dnsFraming.split socket.received = none :=
      fun h' => hfits (length_le_of_short h')
    exact ⟨hstream, fun c' hc' => (by cases hc'), fun _ => rfl, fun hle => absurd hle hfits,
      fun _ _ => rfl,
      fun h' => absurd h' hlong⟩

/-- **What becomes of a connection depends on what was read from it**, and not on the pieces or on
the calls. -/
theorem TcpClient.calls_spec (h : c.Waits) (calls : List (List Attempt)) :
    Fate c (c.calls calls).2 (c.calls calls).1 := by
  induction calls generalizing c with
  | nil =>
    have hreceived := h.reading.received
    refine ⟨rfl, fun c' hc' => ?_, fun hc => ?_, fun _ _ message rest hsplit => ?_, fun _ hends =>
      ?_, fun _ _ => ⟨c, rfl⟩⟩
    · cases hc'
      exact ⟨h, rfl, rfl, rfl⟩
    · rcases hc with hlong | herror
      · rw [TcpClient.calls, hreceived] at hlong
        exact absurd c.fits (Nat.not_le.mpr hlong)
      · exact absurd ⟨_, herror, trivial⟩ h.reading.goesOn
    · rw [TcpClient.calls, hreceived, h.short] at hsplit
      cases hsplit
    · exact absurd hends h.reading.goesOn
  | cons attempts calls ih =>
    have hcall := c.service_spec h attempts
    rw [TcpClient.calls]
    generalize c.service attempts = r at hcall ⊢
    obtain ⟨received | c₁, socket⟩ := r
    · exact hcall
    · obtain ⟨hwaits, rfl, hstream, hsince⟩ := hcall.waits c₁ rfl
      have hlater := ih hwaits
      refine ⟨hlater.stream.trans hcall.stream, fun c' hc' => ?_, hlater.closed, hlater.query,
        hlater.short, hlater.goesOn⟩
      obtain ⟨hwaits', hsocket, hstream', hsince'⟩ := hlater.waits c' hc'
      exact ⟨hwaits', hsocket, hstream'.trans hstream, hsince'.trans hsince⟩

/-- What becomes of a connection does not depend on the others. -/
theorem serviceCalls_eq {s : Stub} {id : ℕ} (hc : s.clients.get id = some c) (h : c.Waits)
    (calls : List (List Attempt)) :
    (∀ received, (c.calls calls).1 = .error received →
      (s.serviceCalls id calls).2 = some (c.stream, received)) ∧
      ∀ c', (c.calls calls).1 = .ok c' → (s.serviceCalls id calls).2 = none := by
  induction calls generalizing s c with
  | nil => exact ⟨fun received h' => (by cases h'), fun c' _ => rfl⟩
  | cons attempts calls ih =>
    have hcall := c.service_spec h attempts
    rw [TcpClient.calls, serviceCalls, serviceClient, hc]
    dsimp only
    generalize c.service attempts = r at hcall ⊢
    obtain ⟨received | c₁, socket⟩ := r
    · refine ⟨fun received' h' => ?_, fun c' h' => (by cases h')⟩
      cases h'
      rfl
    · obtain ⟨hwaits, -, hstream, -⟩ := hcall.waits c₁ rfl
      rw [← hstream]
      have hinsert : ((s.clients.insert id c₁).get id) = some c₁ := by
        rw [Table.get_insert, if_pos rfl]
      exact ih hinsert hwaits

/-- A connection that was just accepted, with what its peer is going to send. -/
def accepted (stream : Bytes) : TcpClient := { stream := 40, socket := ⟨stream, []⟩, since := 0 }

theorem accepted_unread (stream : Bytes) : (accepted stream).socket.unread = stream := rfl

/-- **A query on a stream is checked as it stands, unless too much comes with it.**  From a
connection that was just accepted these calls read without an error.  Once the first frame of the
stream was read, what becomes of the connection is what `parse_query` makes of that frame, exactly
if no more octets were read by then than the largest frame has, or if `parse_query` would not reply
either.  If more were read, the connection is closed without a reply.  A stream that ends before its
first frame is complete is closed without a reply. -/
theorem tcp_query_iff_below_ceiling {s : Stub} {id : ℕ} {c : TcpClient}
    (hc : s.clients.get id = some c) {stream : Bytes} (hsocket : c.socket = ⟨stream, []⟩)
    (hbuf : c.buf = []) (calls : List (List Attempt)) (hread : .error ∉ (c.calls calls).2.answers) :
    (∀ message rest, dnsFraming.split stream = some (message, rest) →
      2 + message.length ≤ (c.calls calls).2.received.length →
      ((s.serviceCalls id calls).2 = some (c.stream, .of message) ↔
        (c.calls calls).2.received.length ≤ bufferCeiling ∨ Received.of message = .nothing)) ∧
    (bufferCeiling < (c.calls calls).2.received.length →
      (s.serviceCalls id calls).2 = some (c.stream, .nothing)) ∧
    (dnsFraming.split (c.calls calls).2.received = none → (c.calls calls).2.Ended →
      (s.serviceCalls id calls).2 = some (c.stream, .nothing)) := by
  have hwaits : c.Waits := ⟨by rw [hbuf, hsocket]; exact reading_nil stream, by rw [hbuf]; rfl⟩
  have hfate := c.calls_spec hwaits calls
  have hcalls := (serviceCalls_eq hc hwaits calls).1
  have hclosed : bufferCeiling < (c.calls calls).2.received.length →
      (s.serviceCalls id calls).2 = some (c.stream, .nothing) :=
        fun hlong => hcalls _ (hfate.closed (.inl hlong))
  refine ⟨fun message rest hsplit hlen => ?_, hclosed, fun hshort hends =>
    hcalls _ (hfate.short hshort hends)⟩
  have hstream : (c.calls calls).2.received ++ (c.calls calls).2.unread = stream := by
    rw [hfate.stream, hsocket]
    rfl
  rw [← hstream] at hsplit
  obtain ⟨rest', hsplit⟩ := Framing.split_of_append hsplit hlen
  by_cases hle : (c.calls calls).2.received.length ≤ bufferCeiling
  · exact iff_of_true (hcalls _ (hfate.query hle hread message rest' hsplit)) (.inl hle)
  · rw [hclosed (Nat.not_le.mp hle)]
    simp [hle, eq_comm]

/-- The query of a client in two pieces, and the end of the stream behind it. -/
theorem tcp_query_iff_below_ceiling_pieces :
    (serviceCalls { clients := Table.empty.insert 1 (accepted (tcpFrame clientQuery.wire)) } 1
      [[.ready 0, .wouldBlock], [.interrupted, .ready 4095, .ready 4095]]).2 =
        some (40, .query clientQuery) := by
  have hof : Received.of clientQuery.wire = .query clientQuery := by decide +kernel
  have hc : (Table.empty.insert 1 (accepted (tcpFrame clientQuery.wire))).get 1 =
      some (accepted (tcpFrame clientQuery.wire)) := rfl
  have h := (tcp_query_iff_below_ceiling
    (s := ⟨Table.empty.insert 1 (accepted (tcpFrame clientQuery.wire)), 1⟩) hc rfl
    rfl [[.ready 0, .wouldBlock], [.interrupted, .ready 4095, .ready 4095]]
      (by decide +kernel)).1 clientQuery.wire []
    (by decide +kernel) (by decide +kernel)
  rw [hof] at h
  exact h.mpr (.inl (by decide +kernel))

theorem ceiling_lt_fill {k : ℕ} {buf : Bytes} {socket : Socket UInt8}
    (hreads : bufferCeiling < buf.length + 4096 * k)
    (hstream : bufferCeiling < buf.length + socket.unread.length) :
    bufferCeiling < (fill readRoom (List.replicate k (.ready 4095)) buf socket).2.1.length := by
  induction k generalizing buf socket with
  | zero =>
    have hroom : readRoom buf = 0 := if_pos hreads
    rw [replicate_zero, fill, if_pos hroom]
    exact hreads
  | succ k ih =>
    rw [replicate_succ, fill]
    by_cases hlong : bufferCeiling < buf.length
    · have hroom : readRoom buf = 0 := if_pos hlong
      rw [if_pos hroom]
      exact hlong
    · have hroom : readRoom buf = 4096 := if_neg hlong
      have hread : socket.read 4096 (.ready 4095) =
          (.ok (socket.unread.take 4096),
          ⟨socket.unread.drop 4096, socket.answers ++ [.ok (socket.unread.take 4096)]⟩) := rfl
      rw [hroom, if_neg (by decide), hread]
      cases hchunk : socket.unread.take 4096 with
      | nil =>
        have hnil : socket.unread = [] := by simpa using hchunk
        simp only [hnil, length_nil, Nat.add_zero] at hstream
        exact absurd hstream hlong
      | cons b chunk =>
        have hlen := congrArg List.length hchunk
        rw [length_take] at hlen
        apply ih
        · rw [length_append, ← hlen]
          omega
        · simp only [length_append, length_drop, ← hlen]
          omega

/-- So does a call that is not held up, which then is the last. -/
theorem ceiling_lt_calls {k : ℕ} (hwaits : c.Waits)
    (hreads : bufferCeiling < c.buf.length + 4096 * k)
    (hstream : bufferCeiling < c.buf.length + c.socket.unread.length) :
    bufferCeiling < (c.calls [List.replicate k (.ready 4095)]).2.received.length := by
  have hservice : bufferCeiling <
      (c.service (List.replicate k (.ready 4095))).2.received.length := by
    obtain ⟨new, hfill⟩ := fill_spec readRoom (List.replicate k (.ready 4095)) c.buf c.socket
    have hreceived := hfill.received hwaits.reading
    rw [TcpClient.service, hreceived]
    exact ceiling_lt_fill hreads hstream
  have hclosed := (c.service_spec hwaits _).closed (.inl hservice)
  rw [TcpClient.calls]
  generalize c.service (List.replicate k (.ready 4095)) = r at hservice hclosed ⊢
  obtain ⟨result, socket⟩ := r
  cases hclosed
  exact hservice

/-- The query of a client, and as many octets behind it as the largest frame has, in the queue of
the socket at once. -/
def flooding : TcpClient := accepted (tcpFrame clientQuery.wire ++ List.replicate bufferCeiling 0)

/-- **A query is dropped because of what comes behind it.**  The first frame of the stream is a
query that `parse_query` accepts, all of it was read, and the connection is closed without a reply.
-/
theorem flooded_query_is_dropped :
    (∃ rest, dnsFraming.split flooding.socket.unread = some (clientQuery.wire, rest)) ∧
    parseQuery clientQuery.wire = .ok clientQuery ∧
    2 + clientQuery.wire.length ≤
      (flooding.calls [List.replicate 17 (.ready 4095)]).2.received.length ∧
    (serviceCalls { clients := Table.empty.insert 1 flooding } 1
      [List.replicate 17 (.ready 4095)]).2 =
      some (40, .nothing) := by
  have hframe : dnsFraming.split (tcpFrame clientQuery.wire) = some (clientQuery.wire, []) := by
    decide +kernel
  have hwaits : flooding.Waits := ⟨reading_nil _, rfl⟩
  have hlong : bufferCeiling <
      (flooding.calls [List.replicate 17 (.ready 4095)]).2.received.length := by
    refine ceiling_lt_calls hwaits (by decide) ?_
    have hlen : 0 < (tcpFrame clientQuery.wire).length := by decide +kernel
    rw [flooding, accepted_unread, length_append, length_replicate]
    omega
  refine ⟨⟨_, Framing.split_append hframe _⟩, by decide +kernel, ?_, ?_⟩
  · have hlen : 2 + clientQuery.wire.length ≤ bufferCeiling := by decide +kernel
    omega
  · exact (serviceCalls_eq rfl hwaits _).1 _ ((flooding.calls_spec hwaits _).closed (.inl hlong))

end Resolvd.Stub
