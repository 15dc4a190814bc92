import Resolvd.Dns.Record
import Resolvd.Engine.Types
import Resolvd.Lib.Socket

/-!
# Sockets to upstream servers

`upstream.rs`: one socket per transaction, in one of two tables.  What the kernel answers to a
system call is an argument: `Os` for the calls that open a socket and send the query, `Ready` for
those made when a socket is ready.

`service_spec` says what `service` does to the tables: while it reports nothing every socket stays
open, and the socket whose end it reports is closed.
-/

namespace Resolvd.Daemon

open Lib Dns Engine

/-! ### Errors -/

/-- `io::Error`: the error number, when it came from the system. -/
structure IoError where
  rawOsError : Option ℕ
  deriving DecidableEq

/-- `io::Error::from_raw_os_error`. -/
def IoError.fromRawOsError (errno : ℕ) : IoError := ⟨some errno⟩

/-- `io::Error::new(ErrorKind::InvalidInput, ..)`. -/
def IoError.invalidInput : IoError := ⟨none⟩

namespace Libc

abbrev EPERM : ℕ := 1
abbrev ENOMEM : ℕ := 12
abbrev EACCES : ℕ := 13
abbrev ENODEV : ℕ := 19
abbrev ENFILE : ℕ := 23
abbrev EMFILE : ℕ := 24
abbrev EADDRINUSE : ℕ := 98
abbrev EADDRNOTAVAIL : ℕ := 99
abbrev ENOBUFS : ℕ := 105

end Libc

/-- `is_local_failure`: the error describes this host, not the server. -/
def isLocalFailure (error : IoError) : Bool :=
  match error.rawOsError with
  | some errno =>
    [Libc.EMFILE, Libc.ENFILE, Libc.ENOMEM, Libc.ENOBUFS, Libc.ENODEV, Libc.EADDRNOTAVAIL,
      Libc.EADDRINUSE, Libc.EACCES, Libc.EPERM].contains errno
  | none => false

/-! ### Addresses -/

/-- `std::net::SocketAddr`. -/
structure SocketAddr where
  ip : IpAddr
  port : UInt16
  scopeId : UInt32 := 0
  deriving DecidableEq

/-- `DNS_PORT`. -/
abbrev dnsPort : UInt16 := 53

/-- What the kernel answers while actions are carried out. -/
structure Os where
  /-- `if_nametoindex`, zero when there is no such interface -/
  ifNametoindex : String → UInt32
  /-- the error of `socket`, `bind`, `connect` or `send` for a transaction, when one of them fails
  -/
  connect : Txid → Option IoError

/-- `interface_index`. -/
def interfaceIndex (os : Os) (interface : String) : Except IoError UInt32 :=
  -- `CString::new` does not take a NUL
  if interface.toList.contains '\x00' then .error .invalidInput
  else if os.ifNametoindex interface = 0 then .error (.fromRawOsError Libc.ENODEV)
  else .ok (os.ifNametoindex interface)

/-- `server_address`. -/
def serverAddress (os : Os) (server : IpAddr) (interface : Option String) :
    Except IoError SocketAddr :=
  if server.isUnicastLinkLocal then
    match interface with
    | none => .error (.fromRawOsError Libc.EADDRNOTAVAIL)
    | some interface => do
      let index ← interfaceIndex os interface
      return { ip := server, port := dnsPort, scopeId := index }
  else .ok { ip := server, port := dnsPort }

/-! ### The tables -/

inductive TcpState where
  | connecting
  | sending (frame : Bytes) (sent : ℕ)
  | receiving (buf : Bytes)
  deriving DecidableEq

/-- `upstream::Tcp`: a stream, known by the address it is connected to. -/
structure Tcp where
  stream : SocketAddr
  state : TcpState
  deriving DecidableEq

inductive Event where
  | received (bytes : Bytes)
  | failed
  deriving DecidableEq

/-- `upstream::Upstream`.  A UDP socket is known by the address it is connected to. -/
structure Upstream where
  udp : Table Txid SocketAddr := Table.empty
  tcp : Table Txid Tcp := Table.empty

namespace Upstream

variable {tx : Txid} {accepts : Bytes → Bool}

/-- The frame of a message on a stream: its length in two octets, and the message. -/
def frame (payload : Bytes) : Bytes := be16 (UInt16.ofNat payload.length) ++ payload

/-- `Upstream::send`. -/
def send (u : Upstream) (os : Os) (tx : Txid) (server : IpAddr) (interface : Option String)
    (tcp : Bool) (payload : Bytes) : Except IoError Upstream := do
  let addr ← serverAddress os server interface
  match os.connect tx with
  | some error => .error error
  | none =>
    if tcp then .ok { u with tcp := u.tcp.insert tx ⟨addr, .sending (frame payload) 0⟩ }
    else .ok { u with udp := u.udp.insert tx addr }

/-- `Upstream::cancel`. -/
def cancel (u : Upstream) (tx : Txid) :
    Upstream := { udp := u.udp.remove tx, tcp := u.tcp.remove tx }

/-! ### A socket is ready -/

/-- What the kernel answers when a socket is serviced. -/
structure Ready where
  /-- `POLLERR` or `POLLHUP` -/
  hangup : Bool
  /-- a datagram, at most 4096 octets of it -/
  recv : Io Bytes
  /-- `take_error` found an error, or failed -/
  connectError : Bool
  /-- the number of octets written -/
  write : Io ℕ
  /-- at most 4096 octets of a stream, none at its end -/
  read : Io Bytes

/-- The first frame of a buffer, when it is complete, and what follows it. -/
def splitFrame (buf : Bytes) : Option (Bytes × Bytes) :=
  match buf with
  | hi :: lo :: rest =>
    let len := ofBe [hi, lo]
    if len ≤ rest.length then some (rest.take len, rest.drop len) else none
  | _ => none

/-- The complete frames of a buffer are taken out until one is accepted; the second part is what is
left in the buffer.  A frame has two octets at least, so that the length of the buffer bounds their
number. -/
def drainFrames (accepts : Bytes → Bool) : ℕ → Bytes → Option Bytes × Bytes
  | 0, buf => (none, buf)
  | n + 1, buf =>
    match splitFrame buf with
    | none => (none, buf)
    | some (message, rest) =>
      if accepts message then (some message, rest) else drainFrames accepts n rest

/-- The `Receiving` state of `service`: complete frames first, then one read, then complete frames
again. -/
def receive (buf : Bytes) (read : Io Bytes) (accepts : Bytes → Bool) : Option Event × Bytes :=
  match drainFrames accepts buf.length buf with
  | (some message, rest) => (some (.received message), rest)
  | (none, rest) =>
    match read with
    | .ok [] => (some .failed, rest)
    | .ok chunk =>
      let (message, rest) := drainFrames accepts (rest ++ chunk).length (rest ++ chunk)
      (message.map .received, rest)
    | .wouldBlock | .interrupted => (none, rest)
    | .error => (some .failed, rest)

def TcpState.isReceiving : TcpState → Bool
  | .receiving _ => true
  | _ => false

/-- `Upstream::service`. -/
def service (u : Upstream) (tx : Txid) (ready : Ready) (accepts : Bytes → Bool) :
    Upstream × Option Event :=
  match u.udp.get tx with
  | some _ =>
    match ready.recv with
    | .ok buf =>
      if accepts buf then ({ u with udp := u.udp.remove tx }, some (.received buf)) else (u, none)
    | .wouldBlock => (u, none)
    | .interrupted | .error => ({ u with udp := u.udp.remove tx }, some .failed)
  | none =>
    match u.tcp.get tx with
    | none => (u, none)
    | some t =>
      let failed := ({ u with tcp := u.tcp.remove tx }, some Event.failed)
      if ready.hangup && !TcpState.isReceiving t.state then failed
      else match t.state with
        | .connecting => (u, none)
        | .sending frame sent =>
          -- the first `POLLOUT` is connect completing
          if sent == 0 && ready.connectError then failed
          else match ready.write with
            | .ok n =>
              let state := if sent + n = frame.length then .receiving []
                else .sending frame (sent + n)
              ({ u with tcp := u.tcp.insert tx { t with state } }, none)
            | .wouldBlock => (u, none)
            | .interrupted | .error => failed
        | .receiving buf =>
          match receive buf ready.read accepts with
          | (some event, _) => ({ u with tcp := u.tcp.remove tx }, some event)
          | (none, buf) =>
            ({ u with tcp := u.tcp.insert tx { t with state := .receiving buf } }, none)

/-! ### Which sockets are open -/

/-- There is a socket for the transaction. -/
def Open (u : Upstream) (tx : Txid) : Prop := (u.udp.get tx).isSome ∨ (u.tcp.get tx).isSome

/-- No transaction has a socket in both tables. -/
def Apart (u : Upstream) : Prop := ∀ tx, u.udp.get tx = none ∨ u.tcp.get tx = none

variable {u : Upstream}

theorem open_cancel {tx' : Txid} : (u.cancel tx).Open tx' ↔ u.Open tx' ∧ tx' ≠ tx := by
  simp only [Open, cancel, Table.get_remove]
  by_cases h : tx' = tx <;> simp [h]

theorem Apart.cancel (h : u.Apart) (tx : Txid) : (u.cancel tx).Apart := by
  intro tx'
  simp only [Upstream.cancel, Table.get_remove]
  have := h tx'
  grind

/-- A query that was sent has a socket in one of the tables. -/
theorem send_eq_ok {u' : Upstream} {os : Os} {server : IpAddr} {interface : Option String}
    {tcp : Bool} {payload : Bytes} (h : u.send os tx server interface tcp payload = .ok u') :
    (∃ t, u' = { u with tcp := u.tcp.insert tx t }) ∨
      ∃ addr, u' = { u with udp := u.udp.insert tx addr } := by
  unfold send at h
  cases haddr : serverAddress os server interface with
  | error e => simp [haddr, bind, Except.bind] at h
  | ok addr =>
    simp only [haddr, bind, Except.bind] at h
    cases hc : os.connect tx with
    | some e => simp [hc] at h
    | none =>
      simp only [hc] at h
      split at h
      · exact .inl ⟨_, (Except.ok.inj h).symm⟩
      · exact .inr ⟨_, (Except.ok.inj h).symm⟩

section Send

variable {u u' : Upstream} {os : Os} {tx : Txid} {server : IpAddr} {interface : Option String}
  {tcp : Bool}
  {payload : Bytes}

theorem open_send (h : u.send os tx server interface tcp payload = .ok u') (tx' : Txid) :
    u'.Open tx' ↔ u.Open tx' ∨ tx' = tx := by
  rcases send_eq_ok h with ⟨t, rfl⟩ | ⟨addr, rfl⟩ <;> simp only [Open, Table.get_insert] <;>
    by_cases heq : tx' = tx <;> simp [heq]

theorem Apart.send (hu : u.Apart) (hopen : ¬ u.Open tx)
    (h : u.send os tx server interface tcp payload = .ok u') : u'.Apart := by
  simp only [Open, not_or, Bool.not_eq_true, Option.isSome_eq_false_iff,
    Option.isNone_iff_eq_none] at hopen
  intro tx'
  have := hu tx'
  rcases send_eq_ok h with ⟨t, rfl⟩ | ⟨addr, rfl⟩ <;> grind

end Send

theorem accepts_of_drainFrames {n : ℕ} {buf message rest : Bytes}
    (h : drainFrames accepts n buf = (some message, rest)) : accepts message = true := by
  induction n generalizing buf with
  | zero => cases h
  | succ n ih =>
    unfold drainFrames at h
    split at h
    · cases h
    · next message' rest' _ =>
      split at h
      · next hacc =>
        cases h
        exact hacc
      · exact ih h

theorem accepts_of_receive {buf message rest : Bytes} {read : Io Bytes}
    (h : receive buf read accepts = (some (.received message), rest)) : accepts message = true := by
  unfold receive at h
  split at h
  · next message' rest' hd =>
    cases h
    exact accepts_of_drainFrames hd
  · split at h
    · cases h
    · next rest' _ _ chunk _ =>
      cases hd : drainFrames accepts (rest' ++ chunk).length (rest' ++ chunk) with
      | mk m r =>
        simp only [hd, Prod.mk.injEq, Option.map_eq_some_iff, Event.received.injEq] at h
        obtain ⟨⟨m', rfl, rfl⟩, -⟩ := h
        exact accepts_of_drainFrames hd
    · cases h
    · cases h
    · cases h

/-- **What `service` does.**  Either it reports nothing, and the same sockets are open; or it
reports the end of a transaction whose socket was open and is closed now, and a reply it reports is
one the caller accepts. -/
structure Serviced (u : Upstream) (tx : Txid) (accepts : Bytes → Bool) (u' : Upstream)
    (event : Option Event) : Prop where
  apart : u.Apart → u'.Apart
  others : ∀ tx', tx' ≠ tx → (u'.Open tx' ↔ u.Open tx')
  silent : event = none → (u'.Open tx ↔ u.Open tx)
  closed : event ≠ none → u.Apart → u.Open tx ∧ ¬ u'.Open tx
  accepted : ∀ bytes, event = some (.received bytes) → accepts bytes = true

theorem serviced_refl (u : Upstream) (tx : Txid) (accepts : Bytes → Bool) :
    Serviced u tx accepts u none :=
  ⟨fun h => h, fun _ _ => Iff.rfl, fun _ => Iff.rfl, fun h => absurd rfl h, fun _ h => by cases h⟩

/-- The datagram socket of a transaction is closed. -/
theorem serviced_udp {event : Event} (h : (u.udp.get tx).isSome)
    (hacc : ∀ bytes, event = .received bytes → accepts bytes = true) :
    Serviced u tx accepts { u with udp := u.udp.remove tx } (some event) := by
  refine ⟨fun hu tx' => ?_, fun tx' hne => ?_, fun h => (by cases h), fun _ hu => ⟨.inl h, ?_⟩,
    fun bytes hb => ?_⟩
  · have := hu tx'
    grind
  · simp only [Open, Table.get_remove, if_neg hne]
  · have := hu tx
    simp only [Open, Table.get_remove]
    grind
  · exact hacc bytes (Option.some.inj hb)

theorem serviced_tcp {event : Event} (h : (u.tcp.get tx).isSome)
    (hacc : ∀ bytes, event = .received bytes → accepts bytes = true) :
    Serviced u tx accepts { u with tcp := u.tcp.remove tx } (some event) := by
  refine ⟨fun hu tx' => ?_, fun tx' hne => ?_, fun h => (by cases h), fun _ hu => ⟨.inr h, ?_⟩,
    fun bytes hb => ?_⟩
  · have := hu tx'
    grind
  · simp only [Open, Table.get_remove, if_neg hne]
  · have := hu tx
    simp only [Open, Table.get_remove]
    grind
  · exact hacc bytes (Option.some.inj hb)

theorem serviced_state {t t' : Tcp} (h : u.tcp.get tx = some t) :
    Serviced u tx accepts { u with tcp := u.tcp.insert tx t' } none := by
  refine ⟨fun hu tx' => ?_, fun tx' hne => ?_, fun _ => ?_, fun h => absurd rfl h,
    fun bytes hb => by cases hb⟩
  · have := hu tx'
    grind
  · simp only [Open, Table.get_insert, if_neg hne]
  · simp only [Open, Table.get_insert, if_true, h, Option.isSome_some, or_true]

theorem service_spec (u : Upstream) (tx : Txid) (ready : Ready) (accepts : Bytes → Bool) :
    Serviced u tx accepts (u.service tx ready accepts).1 (u.service tx ready accepts).2 := by
  have hfailed : ∀ bytes, Event.failed = .received bytes → accepts bytes = true :=
    fun _ h => by cases h
  unfold service
  cases hudp : u.udp.get tx with
  | some s =>
    have hs : (u.udp.get tx).isSome := by rw [hudp]; rfl
    simp only
    split
    · split
      · next hacc =>
        refine serviced_udp hs fun bytes hb => ?_
        cases hb
        exact hacc
      · exact serviced_refl u tx accepts
    · exact serviced_refl u tx accepts
    · exact serviced_udp hs hfailed
    · exact serviced_udp hs hfailed
  | none =>
    cases htcp : u.tcp.get tx with
    | none => exact serviced_refl u tx accepts
    | some t =>
      have hs : (u.tcp.get tx).isSome := by rw [htcp]; rfl
      simp only
      split
      · exact serviced_tcp hs hfailed
      · split
        · exact serviced_refl u tx accepts
        · split
          · exact serviced_tcp hs hfailed
          · split
            · exact serviced_state htcp
            · exact serviced_refl u tx accepts
            · exact serviced_tcp hs hfailed
            · exact serviced_tcp hs hfailed
        · split
          · next event rest hr =>
            refine serviced_tcp hs fun bytes hb => ?_
            subst hb
            exact accepts_of_receive hr
          · exact serviced_state htcp

end Upstream

end Resolvd.Daemon
