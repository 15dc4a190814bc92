import Resolvd.Engine.Types
import Resolvd.Lib.Frames
import Resolvd.Lib.Run
import Resolvd.Lib.Socket

/-!
# The channel from the network service

`netd_link.rs`: a connection on which whole snapshots come, one frame each.  `NetdLink.maintain`
connects when it is time, `NetdLink.service` reads; a connection that ends, fails, or brings
something that is not wanted is given up, and the next attempt waits twice as long as the last one,
up to a bound.

What a payload decodes to is a parameter.  `Watched` is the link together with what was read and
what was returned on the connection it has, or on the one it had last; `netd_link_faithful` holds
these against each other.
-/

namespace Resolvd.Daemon

open Lib Engine

/-- `MIN_BACKOFF`: 500 ms. -/
abbrev minBackoff : ℕ := 500000000

/-- `MAX_BACKOFF`. -/
abbrev maxBackoff : ℕ := secs 10

/-- `netd_core::MAX_MESSAGE_BYTES`. -/
abbrev netdMaxMessageBytes : ℕ := 65536

/-- The frames of the channel. -/
def netdFraming : Framing UInt8 := .littleEndian 4 netdMaxMessageBytes Framing.four_pos

/-- What `netd_core::Reply::decode` makes of a payload. -/
inductive NetdReply (σ : Type) where
  | snapshot (s : σ)
  | error
  | other
  | unreadable

/-- `netd_link::NetdLink`. -/
structure NetdLink where
  stream : Option (Socket UInt8) := none
  buf : Bytes := []
  nextTry : Instant
  backoff : ℕ := minBackoff
  warned : Bool := false

namespace NetdLink

variable {σ : Type}

/-- The next attempt is put off. -/
def postpone (l : NetdLink) (now : Instant) : NetdLink :=
  { l with nextTry := now + l.backoff, backoff := min (l.backoff * 2) maxBackoff }

/-- `NetdLink::maintain`.  When it connects, `connect` says whether that succeeds, and what the
service is going to send then. -/
def maintain (l : NetdLink) (now : Instant) (connect : Option Bytes) : NetdLink :=
  if l.stream.isSome || now < l.nextTry then l
  else match connect with
    | some bytes => { l with stream := some ⟨bytes, []⟩, buf := [], warned := false }
    | none => { l.postpone now with warned := true }

/-- The room for a read. -/
def room (buf : Bytes) : ℕ := min 8192 (netdMaxMessageBytes + 4 - buf.length)

/-- What the loop over the complete frames of the buffer has. -/
structure Drained (σ : Type) where
  snapshots : List σ := []
  lost : Bool := false
  backoff : ℕ
  buf : Bytes

/-- The loop over the complete frames of a buffer, of which there are at most `n`. -/
def drain (decode : Bytes → NetdReply σ) : ℕ → Drained σ → Drained σ
  | 0, d => d
  | n + 1, d =>
    match netdFraming.split d.buf with
    | none => if netdFraming.bad d.buf then { d with lost := true } else d
    | some (payload, buf) =>
      match decode payload with
      | .snapshot s =>
        drain decode n { d with snapshots := d.snapshots ++ [s], backoff := minBackoff, buf }
      | .error | .unreadable => drain decode n { d with lost := true, buf }
      | .other => drain decode n { d with buf }

/-- `NetdLink::service`. -/
def service (decode : Bytes → NetdReply σ) (l : NetdLink) (now : Instant)
    (attempts : List Attempt) : NetdLink × List σ :=
  match l.stream with
  | none => (l, [])
  | some socket =>
    let (stop, buf, socket) := fill room attempts l.buf socket
    let ended := stop = .eof || stop = .failed
    -- one more than the octets: a bad header may be all there is
    let d := drain decode (buf.length + 1) { lost := ended, backoff := l.backoff, buf }
    if d.lost then
      ({ ({ l with backoff := d.backoff } : NetdLink).postpone now with stream := none, buf := [], warned := true },
        d.snapshots)
    else ({ l with stream := some socket, buf := d.buf, backoff := d.backoff }, d.snapshots)

end NetdLink

/-- The snapshot a reply brings. -/
def NetdReply.snapshot? {σ : Type} : NetdReply σ → Option σ
  | .snapshot s => some s
  | _ => none

namespace NetdLink

variable {decode : Bytes → NetdReply σ}

/-- The snapshots among the complete frames of a stream. -/
def snapshots (decode : Bytes → NetdReply σ) (stream : Bytes) : List σ :=
  (netdFraming.frames stream).filterMap fun payload => (decode payload).snapshot?

theorem snapshots_append (stream chunk : Bytes) : snapshots decode (stream ++ chunk) =
    snapshots decode stream ++ snapshots decode (netdFraming.rest stream ++ chunk) := by
  rw [snapshots, Framing.frames_append, List.filterMap_append]
  rfl

/-- What the loop does to the whole buffer. -/
structure Drains (decode : Bytes → NetdReply σ) (d d' : Drained σ) : Prop where
  snapshots : d'.snapshots = d.snapshots ++ NetdLink.snapshots decode d.buf
  buf : d'.buf = netdFraming.rest d.buf
  backoff : d'.backoff = if (NetdLink.snapshots decode d.buf).isEmpty then d.backoff else minBackoff
  lost : d.lost = true → d'.lost = true
  bad : d'.lost = false → netdFraming.bad (netdFraming.rest d.buf) = false

theorem Drains.cons {d d₁ d' : Drained σ} {payload : Bytes} (h : Drains decode d₁ d')
    (hsplit : netdFraming.split d.buf = some (payload, d₁.buf))
    (hsnapshots : d₁.snapshots = d.snapshots ++ (decode payload).snapshot?.toList)
    (hbackoff : d₁.backoff = if (decode payload).snapshot?.isNone then d.backoff else minBackoff)
    (hlost : d.lost = true → d₁.lost = true) : Drains decode d d' := by
  have hframes : NetdLink.snapshots decode d.buf =
      (decode payload).snapshot?.toList ++ NetdLink.snapshots decode d₁.buf := by
    rw [NetdLink.snapshots, Framing.frames_of_some hsplit, List.filterMap_cons]
    cases (decode payload).snapshot? <;> rfl
  have hrest := Framing.rest_of_some hsplit
  refine ⟨?_, h.buf.trans hrest.symm, ?_, fun hd => h.lost (hlost hd), fun hd => hrest ▸ h.bad hd⟩
  · rw [h.snapshots, hsnapshots, hframes, List.append_assoc]
  · rw [h.backoff, hbackoff, hframes]
    cases (decode payload).snapshot? <;> simp

theorem drain_spec {n : ℕ} {d : Drained σ} (hn : d.buf.length < n) :
    Drains decode d (drain decode n d) := by
  induction n generalizing d with
  | zero => exact absurd hn (Nat.not_lt_zero _)
  | succ n ih =>
    rw [drain]
    cases hsplit : netdFraming.split d.buf with
    | none =>
      have hnone : snapshots decode d.buf = [] := by
        rw [snapshots, Framing.frames_of_none hsplit]; rfl
      have hrest := Framing.rest_of_none hsplit
      cases hbad : netdFraming.bad d.buf with
      | true =>
        exact ⟨by simp [hnone], hrest.symm, by simp [hnone], fun _ => rfl, fun h => (by cases h)⟩
      | false =>
        exact ⟨by simp [hnone], hrest.symm, by simp [hnone], fun h => h, fun _ => by rw [hrest, hbad]⟩
    | some pr =>
      obtain ⟨payload, buf⟩ := pr
      have hlen : buf.length < n :=
        Nat.lt_of_lt_of_le (Framing.length_of_split hsplit) (Nat.lt_succ_iff.mp hn)
      dsimp only
      cases hdecode : decode payload with
      | snapshot s =>
        exact .cons (ih hlen) hsplit (by rw [hdecode]; rfl) (by rw [hdecode]; rfl) fun h => h
      | error =>
        exact .cons (ih hlen) hsplit (by simp [hdecode, NetdReply.snapshot?])
          (by rw [hdecode]; rfl) fun _ => rfl
      | other =>
        exact .cons (ih hlen) hsplit (by simp [hdecode, NetdReply.snapshot?])
          (by rw [hdecode]; rfl) fun h => h
      | unreadable =>
        exact .cons (ih hlen) hsplit (by simp [hdecode, NetdReply.snapshot?])
          (by rw [hdecode]; rfl) fun _ => rfl

variable {l : NetdLink}

/-- A link that has a connection, or that has to wait, is left alone. -/
theorem maintain_of_busy {now : Instant} (h : l.stream.isSome ∨ now < l.nextTry)
    (connect : Option Bytes) : l.maintain now connect = l := by
  unfold maintain
  rw [if_pos (by simpa using h)]

theorem maintain_of_due {now : Instant} (h : l.stream = none) (hdue : ¬ now < l.nextTry)
    (connect : Option Bytes) : l.maintain now connect = match connect with
      | some bytes => { l with stream := some ⟨bytes, []⟩, buf := [], warned := false }
      | none => { l.postpone now with warned := true } := by
  unfold maintain
  rw [if_neg (by simpa [h] using hdue)]

/-- The delay after an attempt that failed. -/
def doubled (backoff : ℕ) : ℕ := min (backoff * 2) maxBackoff

theorem maintain_backoff (l : NetdLink) (now : Instant) (connect : Option Bytes) :
    (l.maintain now connect).backoff =
    if l.stream = none ∧ l.nextTry ≤ now ∧ connect = none then doubled l.backoff
      else l.backoff := by
  cases hstream : l.stream with
  | some socket =>
    rw [maintain_of_busy (.inl (by rw [hstream]; rfl)), if_neg (by simp)]
  | none =>
    by_cases hearly : now < l.nextTry
    · rw [maintain_of_busy (.inr hearly), if_neg (by simp [Nat.not_le.mpr hearly])]
    · rw [maintain_of_due hstream hearly]
      cases connect with
      | some bytes => rw [if_neg (by simp)]
      | none => rw [if_pos ⟨rfl, Nat.not_lt.mp hearly, rfl⟩]; rfl

/-- A call of `service` on a connection. -/
theorem service_of_some (decode : Bytes → NetdReply σ) {socket : Socket UInt8}
    (h : l.stream = some socket) (now : Instant) (attempts : List Attempt) {stop : Stop}
    {buf : Bytes} {socket' : Socket UInt8}
    (hfill : fill room attempts l.buf socket = (stop, buf, socket')) :
    ∃ d, Drains decode { lost := stop = .eof || stop = .failed, backoff := l.backoff, buf } d ∧
      l.service decode now attempts =
        (if d.lost then
          { ({ l with backoff := d.backoff } : NetdLink).postpone
            now with stream := none, buf := [], warned := true }
        else { l with stream := some socket', buf := d.buf, backoff := d.backoff },
          d.snapshots) := by
  refine ⟨_, drain_spec (Nat.lt_succ_self _), ?_⟩
  simp only [service, h, hfill]
  split <;> rfl

/-- A snapshot resets the delay; when the connection is lost, it is doubled. -/
theorem service_backoff (decode : Bytes → NetdReply σ) (l : NetdLink) (now : Instant)
    (attempts : List Attempt) :
    (l.service decode now attempts).1.backoff =
      (if l.stream.isSome && (l.service decode now attempts).1.stream.isNone then doubled else id)
        (if (l.service decode now attempts).2.isEmpty then l.backoff else minBackoff) := by
  cases hstream : l.stream with
  | none => simp [service, hstream]
  | some socket =>
    obtain ⟨d, hdrain, hservice⟩ := service_of_some decode hstream now attempts rfl
    have hbackoff : d.backoff = if d.snapshots.isEmpty then l.backoff else minBackoff := by
      rw [hdrain.backoff, hdrain.snapshots, List.nil_append]
    rw [hservice, ← hbackoff]
    cases d.lost <;> rfl

/-- The buffer never gets longer than the longest frame, in the middle of a call as little as at its
end. -/
theorem length_fill_le {buf : Bytes} (h : buf.length ≤ netdMaxMessageBytes + 4)
    (attempts : List Attempt) (socket : Socket UInt8) :
    (fill room attempts buf socket).2.1.length ≤ netdMaxMessageBytes + 4 := by
  refine fill_invariant (P := fun buf => buf.length ≤ netdMaxMessageBytes + 4)
    (fun buf chunk hbuf _ hchunk => ?_) attempts
    socket h
  have hroom : room buf ≤ netdMaxMessageBytes + 4 - buf.length := Nat.min_le_right ..
  rw [List.length_append]
  omega

end NetdLink

/-! ### Any number of calls -/

variable {σ : Type}

/-- The link, with the stream of the connection it has or had last, and the snapshots that were
returned on it. -/
structure Watched (σ : Type) where
  link : NetdLink
  socket : Socket UInt8 := ⟨[], []⟩
  got : List σ := []

/-- A call. -/
inductive NetdOp where
  | maintain (now : Instant) (connect : Option Bytes)
  | service (now : Instant) (attempts : List Attempt)

namespace Watched

/-- The stream as a call of `service` leaves it. -/
def readBy (w : Watched σ) (attempts : List Attempt) : Socket UInt8 :=
  match w.link.stream with
  | some socket => (fill NetdLink.room attempts w.link.buf socket).2.2
  | none => w.socket

def step (decode : Bytes → NetdReply σ) (w : Watched σ) : NetdOp → Watched σ × List σ
  | .maintain now connect =>
    let link := w.link.maintain now connect
    match w.link.stream, link.stream with
    -- a new connection
    | none, some socket => (⟨link, socket, []⟩, [])
    | _, _ => ({ w with link }, [])
  | .service now attempts =>
    let (link, snapshots) := w.link.service decode now attempts
    (⟨link, w.readBy attempts, w.got ++ snapshots⟩, snapshots)

/-- The link, from `NetdLink::new` on. -/
def machine (decode : Bytes → NetdReply σ) : Machine (Watched σ) NetdOp σ where
  start := fun w => ∃ now, w = ⟨{ nextTry := now }, ⟨[], []⟩, []⟩
  step := step decode
  idle := fun w w' => w' = w

abbrev Runs (decode : Bytes → NetdReply σ) (log : Log (Watched σ) NetdOp) (w : Watched σ) : Prop :=
  (machine decode).Run log w

variable {decode : Bytes → NetdReply σ}

/-- What was returned is what was read, and the link is ready to go on. -/
structure Faithful (decode : Bytes → NetdReply σ) (w : Watched σ) : Prop where
  got : w.got = NetdLink.snapshots decode w.socket.received
  connected : ∀ socket, w.link.stream = some socket → socket = w.socket ∧ ¬ socket.Ended ∧
    w.link.buf = netdFraming.rest socket.received ∧ netdFraming.bad w.link.buf = false
  lost : w.link.stream = none → w.link.buf = []
  backoff : minBackoff ≤ w.link.backoff ∧ w.link.backoff ≤ maxBackoff

theorem postpone_backoff {l : NetdLink} (h : minBackoff ≤ l.backoff ∧ l.backoff ≤ maxBackoff)
    (now : Instant) :
    minBackoff ≤ (l.postpone now).backoff ∧ (l.postpone now).backoff ≤ maxBackoff := by
  show minBackoff ≤ min (l.backoff * 2) maxBackoff ∧ min (l.backoff * 2) maxBackoff ≤ maxBackoff
  have hle : minBackoff ≤ maxBackoff := by decide
  omega

theorem Faithful.maintain {w : Watched σ} (h : Faithful decode w) (now : Instant)
    (connect : Option Bytes) : Faithful decode (w.step decode (.maintain now connect)).1 := by
  rw [step]
  cases hstream : w.link.stream with
  | some socket =>
    rw [NetdLink.maintain_of_busy (.inl (by rw [hstream]; rfl))]
    exact h
  | none =>
    by_cases hearly : now < w.link.nextTry
    · rw [NetdLink.maintain_of_busy (.inr hearly), hstream]
      exact h
    · rw [NetdLink.maintain_of_due hstream hearly]
      cases connect with
      | some bytes =>
        refine ⟨?_, fun socket hs => ?_, fun hs => (by cases hs), h.backoff⟩
        · show [] = NetdLink.snapshots decode []
          rw [NetdLink.snapshots, Framing.frames_of_none rfl]
          rfl
        · cases hs
          exact ⟨rfl, by simp [Socket.Ended], (Framing.rest_of_none rfl).symm, rfl⟩
      | none =>
        have hnone : (w.link.postpone now).stream = none := hstream
        simp only [hnone]
        exact ⟨h.got, fun socket hs => (by cases hs), fun _ => h.lost hstream,
          postpone_backoff h.backoff now⟩

theorem Faithful.service {w : Watched σ} (h : Faithful decode w) (now : Instant)
    (attempts : List Attempt) : Faithful decode (w.step decode (.service now attempts)).1 := by
  cases hstream : w.link.stream with
  | none =>
    have hstep : (w.step decode (.service now attempts)).1 = w := by
      simp only [step, NetdLink.service, readBy, hstream, List.append_nil]
    rw [hstep]
    exact h
  | some socket =>
    obtain ⟨rfl, hgoes, hbuf, hbad⟩ := h.connected socket hstream
    obtain ⟨new, hfill⟩ := fill_spec NetdLink.room attempts w.link.buf w.socket
    generalize hr : fill NetdLink.room attempts w.link.buf w.socket = r at hfill
    obtain ⟨stop, buf, socket'⟩ := r
    obtain ⟨d, hdrain, hservice⟩ := NetdLink.service_of_some decode hstream now attempts hr
    have hread : w.readBy attempts = socket' := by simp only [readBy, hstream, hr]
    simp only [step, hservice, hread]
    have hreceived : socket'.received = w.socket.received ++ delivered new := hfill.received_eq
    have hbuf' : buf = netdFraming.rest w.socket.received ++ delivered new := by
      rw [← hbuf, ← hfill.buf_eq]
    have hgot : w.got ++ d.snapshots = NetdLink.snapshots decode socket'.received := by
      rw [hreceived, NetdLink.snapshots_append, ← hbuf', ← h.got, hdrain.snapshots, List.nil_append]
    have hbackoff : minBackoff ≤ d.backoff ∧ d.backoff ≤ maxBackoff := by
      rw [hdrain.backoff]
      split
      · exact h.backoff
      · exact ⟨le_rfl, by decide⟩
    cases hlost : d.lost with
    | true =>
      exact ⟨hgot, fun socket hs => (by cases hs), fun _ => rfl,
        postpone_backoff (l := { w.link with backoff := d.backoff }) hbackoff now⟩
    | false =>
      refine ⟨hgot, fun socket hs => ?_, fun hs => (by cases hs), hbackoff⟩
      cases hs
      have hrest : d.buf = netdFraming.rest socket'.received := by
        rw [hdrain.buf, hreceived, Framing.rest_append, ← hbuf']
      have hstop : ¬ stop.Ends := by
        intro hends
        have hlost' : d.lost = true := hdrain.lost (by simpa using Stop.ends_iff.mp hends)
        rw [hlost] at hlost'
        cases hlost'
      refine ⟨rfl, fun hended => hstop ((hfill.ended_iff hgoes).mp hended), hrest, ?_⟩
      rw [hdrain.buf]
      exact hdrain.bad hlost

theorem Runs.faithful {log : Log (Watched σ) NetdOp} {w : Watched σ} (h : Runs decode log w) :
    Faithful decode w := by
  refine Machine.Run.invariant (M := machine decode) (I := fun _ w => Faithful decode w) ?_ ?_ ?_ h
  · rintro w ⟨now, rfl⟩
    refine ⟨?_, fun socket hs => (by cases hs), fun _ => rfl, le_rfl,
      show minBackoff ≤ maxBackoff by decide⟩
    show [] = NetdLink.snapshots decode []
    rw [NetdLink.snapshots, Framing.frames_of_none rfl]
    rfl
  · rintro log w w' hw rfl
    exact hw
  · intro log w op hw
    cases op with
    | maintain now connect => exact hw.maintain now connect
    | service now attempts => exact hw.service now attempts

/-- **The channel is read faithfully, and attempts are spaced out.**  In every run of the link,
whatever the payloads decode to: the snapshots returned on a connection are those of the complete
frames read on it, up to a frame that is too long, in their order.  While it is connected, the link
has the rest of what was read on that connection in its buffer; there is room for more, since that
is less than a frame of a legal length, and no call makes it longer than the longest frame.  A
connection that is lost leaves nothing behind.  The delay of the next attempt stays within its
bounds; it is doubled when an attempt fails or a connection is lost, and only a snapshot resets it.
-/
theorem netd_link_faithful {log : Log (Watched σ) NetdOp} {w : Watched σ} (h : Runs decode log w) :
    w.got = (netdFraming.frames w.socket.received).filterMap
      (fun payload => (decode payload).snapshot?) ∧
    (∀ socket, w.link.stream = some socket → socket = w.socket ∧
      w.link.buf = netdFraming.rest socket.received ∧
      w.link.buf.length < netdMaxMessageBytes + 4 ∧ 0 < NetdLink.room w.link.buf) ∧
    (∀ attempts socket, (fill NetdLink.room attempts w.link.buf socket).2.1.length ≤
      netdMaxMessageBytes + 4) ∧
    (w.link.stream = none → w.link.buf = []) ∧
    minBackoff ≤ w.link.backoff ∧ w.link.backoff ≤ maxBackoff ∧
    (∀ st ∈ log, ∀ now connect, st.input = .maintain now connect →
      ((machine decode).after st).link.backoff =
      if st.before.link.stream = none ∧ st.before.link.nextTry ≤ now ∧ connect = none then
        NetdLink.doubled st.before.link.backoff
      else st.before.link.backoff) ∧
    ∀ st ∈ log, ∀ now attempts, st.input = .service now attempts →
      ((machine decode).after st).link.backoff =
      (if st.before.link.stream.isSome && ((machine decode).after st).link.stream.isNone
        then NetdLink.doubled else id)
        (if ((machine decode).out st).isEmpty then st.before.link.backoff else minBackoff) := by
  have hw := h.faithful
  have hshort : ∀ socket, w.link.stream = some socket →
      w.link.buf.length < netdMaxMessageBytes + 4 := by
    intro socket hs
    obtain ⟨-, -, hbuf, hbad⟩ := hw.connected socket hs
    have hsplit : netdFraming.split w.link.buf = none := hbuf ▸ Framing.split_rest _
    have := Framing.length_lt_of_short hsplit hbad
    omega
  have hle : w.link.buf.length ≤ netdMaxMessageBytes + 4 := by
    cases hs : w.link.stream with
    | none => rw [hw.lost hs]; exact Nat.zero_le _
    | some socket => exact Nat.le_of_lt (hshort socket hs)
  refine ⟨hw.got, fun socket hs => ?_, NetdLink.length_fill_le hle, hw.lost, hw.backoff.1,
    hw.backoff.2, fun st _ now connect hinput => ?_, fun st _ now attempts hinput => ?_⟩
  · obtain ⟨hsocket, -, hbuf, -⟩ := hw.connected socket hs
    have hlt := hshort socket hs
    refine ⟨hsocket, hbuf, hlt, ?_⟩
    unfold NetdLink.room
    omega
  · obtain ⟨before, input⟩ := st
    subst hinput
    have hafter : ((machine decode).after ⟨before, .maintain now connect⟩).link =
        before.link.maintain now connect := by
      show (before.step decode (.maintain now connect)).1.link = _
      rw [step]
      split <;> rfl
    rw [hafter]
    exact NetdLink.maintain_backoff before.link now connect
  · obtain ⟨before, input⟩ := st
    subst hinput
    exact NetdLink.service_backoff decode before.link now attempts

/-- Payloads of one octet are snapshots, and an empty one is an error. -/
def octetSnapshots : Bytes → NetdReply UInt8
  | [] => .error
  | [b] => .snapshot b
  | _ => .other

/-- Two snapshots in pieces, with another frame between them; then an error, and an attempt to
connect that fails. -/
def refusedLater : List NetdOp :=
  [.maintain 0 (some [1, 0, 0, 0, 7, 2, 0, 0, 0, 0, 0, 1, 0, 0, 0, 8, 0, 0, 0, 0, 1, 0, 0, 0, 9]),
    .service 5 [.ready 2, .wouldBlock], .service 6 [.ready 3, .interrupted, .ready 8],
    .service 7 [.ready 99],
    .maintain (secs 9) none]

theorem netd_link_faithful_refusedLater :
    ∃ w : Watched UInt8, w.got = [7, 8, 9] ∧ w.link.backoff = 2 * secs 1 ∧ w.link.buf = [] ∧
      (netdFraming.frames w.socket.received).filterMap
        (fun payload => (octetSnapshots payload).snapshot?) = [7, 8, 9] := by
  have hrun := Machine.Run.exec (M := machine octetSnapshots) (fun _ => rfl)
    (.start ⟨0, rfl⟩) refusedLater
  have h := netd_link_faithful hrun
  exact ⟨_, by decide, by decide, h.2.2.2.1 (by decide), h.1.symm.trans (by decide)⟩

end Watched

end Resolvd.Daemon
