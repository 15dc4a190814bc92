import Resolvd.Core.Framing
import Resolvd.Daemon.Model

/-!
# What the service says

`to_record`, `to_answer`, `to_addresses` and `Resolvd::status` of `main.rs`, with
`Record::rdata_text`: how the engine's answers and its state become replies of the native protocol;
and `control::response_frame`, which puts a reply on the stream and replaces one that is too long.

`decode_responseFrame` says that a client can read every reply the service makes: what is not too
long is never too large for the format either, so that only the counters of a report are left to ask
about.
-/

namespace Resolvd.Service

open Lib Dns Resolvd.Core Msgpack List

variable {fields : List (String × Bytes)} {n : ℕ}

/-! ### Texts -/

/-- A text all of whose characters are octets. -/
def asciiText (bs : Bytes) : String := String.ofList (bs.map octetChar)

/-- `{}` of a number. -/
def number (n : ℕ) : String := asciiText (decimal n)

/-- `to_string` of a name. -/
def nameText (n : Name) : String := asciiText n.display

/-- Texts with a space between them. -/
def spaced (texts : List String) : String := " ".intercalate texts

/-- A character string between quotes. -/
def quoted (s : String) : String :=
  "\"" ++ String.ofList (s.toList.flatMap fun c => if c = '"' then ['\\', '"'] else [c]) ++ "\""

/-- `{:02x}` of every octet. -/
def hexText (bs : Bytes) : String :=
  asciiText (bs.flatMap fun b : UInt8 =>
    hexadecimal (b >>> 4).toNat ++ hexadecimal (b &&& 0xF).toNat)

/-- `Record::rdata_text`.  `lossy` is `String::from_utf8_lossy`. -/
def rdataText (T : AddressText) (lossy : Bytes → String) : RData → String
  | .a a => T.display (.v4 a)
  | .aaaa a => T.display (.v6 a)
  | .cname n | .ptr n | .ns n => nameText n
  | .soa mname rname serial refresh retry expire minimum =>
    spaced [nameText mname, nameText rname, number serial.toNat, number refresh.toNat,
      number retry.toNat, number expire.toNat, number minimum.toNat]
  | .mx preference exchange => spaced [number preference.toNat, nameText exchange]
  | .srv priority weight port target =>
    spaced [number priority.toNat, number weight.toNat, number port.toNat, nameText target]
  | .txt strings => spaced (strings.map fun s => quoted (lossy s))
  | .opt b | .unknown b => spaced ["\\#", number b.length, hexText b]

/-- `Source::as_str`. -/
def sourceStr : Engine.Source → String
  | .local => "local"
  | .synthetic => "synthetic"
  | .hosts => "hosts"
  | .cache => "cache"
  | .dns => "dns"

/-! ### Replies -/

section Replies

variable (T : AddressText) (lossy : Bytes → String)

/-- `to_record`. -/
def toRecord (r : Record) : RecordOut where
  name := nameText r.name
  rtype := r.rtype
  ttl := r.ttl
  data := r.rdata.wire
  text := rdataText T lossy r.rdata

/-- `to_answer`. -/
def toAnswer (a : Engine.Answer) : Answer where
  outcome := a.outcome
  records := a.records.map (toRecord T lossy)
  source := sourceStr a.source
  server := a.server.map T.display
  interface := a.interface
  validation := .unvalidated
  rcode := a.rcode

/-- `to_addresses`. -/
def toAddresses (a : Engine.Addresses) : Addresses where
  outcome := a.outcome
  canonical := nameText a.canonical
  addresses := a.addresses.map fun x => ⟨x.1, x.2⟩
  source := sourceStr a.source
  validation := .unvalidated

/-- `Resolvd::status`, for one scope. -/
def scopeStatus (e : Engine) (now : Engine.Instant) (s : Engine.Scope) : ScopeStatus where
  interface := s.interface
  servers := s.servers.map T.display
  domains := s.domains.map nameText
  defaultRoute := s.defaultRoute
  exclusive := s.exclusive
  metric := s.metric
  subnets := s.addresses.map fun x => T.display x.1 ++ "/" ++ number x.2.toNat
  demoted := (s.servers.filter fun a => e.isDemoted a s.id now).map T.display

/-- `Resolvd::status`, with `netd` for whether the network service is connected. -/
def status (e : Engine) (netd : Bool) (now : Engine.Instant) : StatusReport where
  hostname := (e.hostname.map nameText).getD ""
  netd := netd
  scopes := e.scopes.map (scopeStatus T e now)
  fallbackServers := e.fallbackServers.map T.display
  cacheEntries := UInt64.ofNat e.cache.entries.len
  counters :=
    { queries := UInt64.ofNat e.counters.queries
      synthetic := UInt64.ofNat e.counters.synthetic
      cacheHits := UInt64.ofNat e.counters.cacheHits
      upstreamSent := UInt64.ofNat e.counters.upstreamSent
      upstreamAnswered := UInt64.ofNat e.counters.upstreamAnswered
      upstreamFailed := UInt64.ofNat e.counters.upstreamFailed
      refused := UInt64.ofNat e.counters.refused }

/-- The reply the daemon gives, as the protocol has it. -/
def toReply (e : Engine) (netd : Bool) (now : Engine.Instant) : Daemon.Reply → Reply
  | .answer a => .answer (toAnswer T lossy a)
  | .addresses a => .addresses (toAddresses a)
  | .status => .status (status T e netd now)
  | .ok => .ok
  | .error text => .error text

end Replies

/-- The payload of `response_frame`. -/
def responsePayload (T : AddressText) (reply : Reply) : Bytes :=
  let bytes := reply.encode T
  if maxMessageBytes < bytes.length then Reply.encode T (.error "reply too large") else bytes

/-- `control::response_frame`. -/
def responseFrame (T : AddressText) (reply : Reply) : Bytes :=
  toLe 4 (responsePayload T reply).length ++ responsePayload T reply

/-! ### What is short fits -/

theorem length_le_writeFields {key : String} {value : Bytes}
    (h : (key, value) ∈ fields) : value.length ≤ (writeFields fields).length := by
  unfold writeFields
  induction fields with
  | nil => cases h
  | cons f fields ih =>
    rw [flatMap_cons, length_append]
    rcases mem_cons.mp h with rfl | h
    · simp only [length_append]
      omega
    · exact le_trans (ih h) (Nat.le_add_left _ _)

theorem length_le_writeStr (s : String) : s.utf8ByteSize ≤ (writeStr s).length := by
  rw [writeStr, length_append, length_octets]
  exact Nat.le_add_left _ _

theorem length_le_writeBin (b : Bytes) : b.length ≤ (writeBin b).length := by
  rw [writeBin, length_append]
  exact Nat.le_add_left _ _

section Lists

variable {α : Type} {write : α → Bytes} {items : List α}

theorem length_le_writeList {a : α} (h : a ∈ items) :
    (write a).length ≤ (writeList write items).length := by
  rw [writeList, length_append]
  refine le_trans ?_ (Nat.le_add_left _ _)
  induction items with
  | nil => cases h
  | cons b items ih =>
    rw [flatMap_cons, length_append]
    rcases mem_cons.mp h with rfl | h
    · exact Nat.le_add_right _ _
    · exact le_trans (ih h) (Nat.le_add_left _ _)

theorem items_le_writeList (hpos : ∀ a, 0 < (write a).length) (items : List α) :
    items.length ≤ (writeList write items).length := by
  rw [writeList, length_append]
  refine le_trans ?_ (Nat.le_add_left _ _)
  induction items with
  | nil => exact le_rfl
  | cons a items ih =>
    have := hpos a
    rw [flatMap_cons, length_append, length_cons]
    omega

end Lists

theorem writeStr_pos (s : String) : 0 < (writeStr s).length := by
  have hmark : 0 < (strMarks.write s.utf8ByteSize).length := by
    simp only [Marks.write, strMarks, Marks.writeWide]
    split_ifs <;> exact Nat.succ_pos _
  rw [writeStr, length_append]
  omega

theorem smallAll_of_length {l : List String} (h : (writeStrList l).length < 2 ^ 32) :
    SmallAll l where
  length := lt_of_le_of_lt (items_le_writeList writeStr_pos l) h
  items s hs := lt_of_le_of_lt (le_trans (length_le_writeStr s) (length_le_writeList hs)) h

/-- Fields behind a map's header, all of which together are short. -/
theorem field_lt {count : UInt32} (h : (writeMap count ++ writeFields fields).length < n)
    (key : String) {value : Bytes} (hmem : (key, value) ∈ fields) : value.length < n := by
  rw [length_append] at h
  have := length_le_writeFields hmem
  omega

theorem writeMap_pos {count : UInt32} (h : 0 < (writeMap count).length)
    (fields : List (String × Bytes)) : 0 < (writeMap count ++ writeFields fields).length := by
  rw [length_append]
  omega

theorem str_lt {s : String} (h : (writeStr s).length < n) : s.utf8ByteSize < n :=
  lt_of_le_of_lt (length_le_writeStr s) h

theorem optStr_lt {o : Option String} (h : (writeOptStr o).length < n) :
    ∀ s ∈ o, s.utf8ByteSize < n := by
  rintro s ⟨⟩
  exact str_lt h

theorem recordOut_fits {r : RecordOut} (h : r.encode.length < 2 ^ 32) : r.Fits where
  name := str_lt (field_lt h "name" (by simp))
  data := lt_of_le_of_lt (length_le_writeBin _) (field_lt h "data" (by simp))
  text := str_lt (field_lt h "text" (by simp))

theorem scopeStatus_fits {sc : ScopeStatus} (h : sc.encode.length < 2 ^ 32) : sc.Fits where
  interface := str_lt (field_lt h "interface" (by simp))
  servers := smallAll_of_length (field_lt h "servers" (by simp))
  domains := smallAll_of_length (field_lt h "domains" (by simp))
  subnets := smallAll_of_length (field_lt h "subnets" (by simp))
  demoted := smallAll_of_length (field_lt h "demoted" (by simp))

/-- The numbers of a report can be read. -/
def CountsBelow : Reply → Prop
  | .status s => Below s.cacheEntries ∧ s.counters.Fits
  | _ => True

/-- **A short reply fits the format**, but for its counters. -/
theorem fits_of_length {T : AddressText} {p : Reply} (h : (p.encode T).length < 2 ^ 32)
    (hcounts : CountsBelow p) : p.Fits := by
  cases p with
  | ok => trivial
  | error message => exact str_lt (field_lt h "error" (by simp))
  | answer a =>
    have hrecords : (writeList RecordOut.encode a.records).length < 2 ^ 32 :=
      field_lt h "records" (by simp)
    exact {
      length := lt_of_le_of_lt (items_le_writeList (fun r => writeMap_pos (by decide) _) _) hrecords
      records := fun r hr => recordOut_fits (lt_of_le_of_lt (length_le_writeList hr) hrecords)
      source := str_lt (field_lt h "source" (by simp))
      server := optStr_lt (field_lt h "server" (by simp))
      interface := optStr_lt (field_lt h "interface" (by simp)) }
  | addresses a =>
    have haddresses : (writeList (AddressOut.encode T) a.addresses).length < 2 ^ 32 :=
      field_lt h "addresses" (by simp)
    exact {
      canonical := str_lt (field_lt h "canonical" (by simp))
      length := lt_of_le_of_lt (items_le_writeList (fun x => writeMap_pos (by decide) _) _)
        haddresses
      source := str_lt (field_lt h "source" (by simp)) }
  | status s =>
    have hscopes : (writeList ScopeStatus.encode s.scopes).length < 2 ^ 32 :=
      field_lt h "scopes" (by simp)
    exact {
      hostname := str_lt (field_lt h "hostname" (by simp))
      length := lt_of_le_of_lt (items_le_writeList (fun sc => writeMap_pos (by decide) _) _) hscopes
      scopes := fun sc hsc => scopeStatus_fits (lt_of_le_of_lt (length_le_writeList hsc) hscopes)
      fallbackServers := smallAll_of_length (field_lt h "fallback_servers" (by simp))
      cacheEntries := hcounts.1
      counters := hcounts.2 }

/-! ### The frame of a reply -/

/-- The reply that a client gets to see. -/
def sentReply (T : AddressText) (reply : Reply) : Reply :=
  if maxMessageBytes < (reply.encode T).length then .error "reply too large" else reply

theorem responsePayload_eq (T : AddressText) (reply : Reply) :
    responsePayload T reply = (sentReply T reply).encode T := by
  unfold responsePayload sentReply
  dsimp only
  split_ifs <;> rfl

theorem length_responsePayload (T : AddressText) (reply : Reply) :
    (responsePayload T reply).length ≤ maxMessageBytes := by
  unfold responsePayload
  dsimp only
  split
  · have hlen : (Reply.encode octetText (.error "reply too large")).length ≤ maxMessageBytes := by
      decide +kernel
    exact hlen
  · next h => exact Nat.not_lt.mp h

/-- **A client can read every reply.**  The frame of a reply is one whole message within the limit,
and what is read from it is the reply, or says that the reply was too large. -/
theorem decode_responseFrame (T : AddressText) {reply : Reply} (hcounts : CountsBelow reply) :
    nativeFraming.split (responseFrame T reply) = some (responsePayload T reply, []) ∧
      Reply.decode T (responsePayload T reply) = .ok (sentReply T reply) := by
  have hle := length_responsePayload T reply
  constructor
  · have hsplit := Framing.split_littleEndian (h := Framing.four_pos) hle
      (lt_of_le_of_lt hle (by decide)) []
    rwa [append_nil] at hsplit
  · rw [responsePayload_eq] at hle ⊢
    refine Reply.decode_of_encode (fits_of_length (lt_of_le_of_lt hle (by decide)) ?_)
    unfold sentReply
    split
    · trivial
    · exact hcounts

end Resolvd.Service
