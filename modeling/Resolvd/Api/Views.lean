import Resolvd.Core.RoundTrip
import Resolvd.Lib.Arena

/-!
# The C interface

`libresolvd` hands a reply to its caller as views into an arena (`views.rs`, with the layouts of
`resolvd-abi`), and `resolvd-client` copies them into values of its own (`decode.rs`).
`view_decode` says that this loses nothing and reads nothing that is not there: every value comes
out as it went in, whatever else is put into the arena before or after.

An absent text is a null pointer, and an empty one is not: `maybeText` relies on it.
-/

namespace Resolvd.Abi

open Lib

/-- `abi::Bytes`. -/
abbrev Bytes := Slice UInt8

/-- `abi::Strings`. -/
abbrev Strings := Slice Bytes

/-- `abi::RecordOut`. -/
structure RecordOut where
  name : Bytes
  rtype : UInt16
  ttl : UInt32
  data : Bytes
  text : Bytes

/-- `abi::Answer`. -/
structure Answer where
  outcome : UInt32
  records : Slice RecordOut
  source : Bytes
  server : Bytes
  interface : Bytes
  validation : UInt32
  rcode : UInt16

/-- `abi::AddressOut`. -/
structure AddressOut where
  address : Bytes
  ttl : UInt32

/-- `abi::Addresses`. -/
structure Addresses where
  outcome : UInt32
  canonical : Bytes
  addresses : Slice AddressOut
  source : Bytes
  validation : UInt32

/-- `abi::Counters`. -/
structure Counters where
  queries : UInt64
  synthetic : UInt64
  cacheHits : UInt64
  upstreamSent : UInt64
  upstreamAnswered : UInt64
  upstreamFailed : UInt64
  refused : UInt64

/-- `abi::ScopeStatus`. -/
structure ScopeStatus where
  interface : Bytes
  servers : Strings
  domains : Strings
  defaultRoute : UInt32
  exclusive : UInt32
  metric : UInt32
  subnets : Strings
  demoted : Strings

/-- `abi::StatusReport`. -/
structure StatusReport where
  hostname : Bytes
  netd : UInt32
  scopes : Slice ScopeStatus
  fallbackServers : Strings
  cacheEntries : UInt64
  counters : Counters

/-- An allocation of `views::Arena`. -/
inductive Cell where
  | octets (xs : List UInt8)
  | texts (xs : List Bytes)
  | records (xs : List RecordOut)
  | addresses (xs : List AddressOut)
  | scopes (xs : List ScopeStatus)

instance : Stores Cell UInt8 where
  put := .octets
  get
    | .octets xs => some xs
    | _ => none
  get_put _ := rfl

instance : Stores Cell Bytes where
  put := .texts
  get
    | .texts xs => some xs
    | _ => none
  get_put _ := rfl

instance : Stores Cell RecordOut where
  put := .records
  get
    | .records xs => some xs
    | _ => none
  get_put _ := rfl

instance : Stores Cell AddressOut where
  put := .addresses
  get
    | .addresses xs => some xs
    | _ => none
  get_put _ := rfl

instance : Stores Cell ScopeStatus where
  put := .scopes
  get
    | .scopes xs => some xs
    | _ => none
  get_put _ := rfl

end Resolvd.Abi

namespace Resolvd.Api

open Lib Lib.Arena Resolvd.Core
open Engine (Outcome)
open Abi (Cell)
open Msgpack (octets fromUTF8?_eq_some)

/-! ### Views -/

namespace Views

/-- `views::absent`. -/
def absent : Abi.Bytes := ⟨none, 0⟩

/-- `Arena::bytes`. -/
def bytes (value : Bytes) : Builder Cell Abi.Bytes := alloc value

/-- `Arena::text`. -/
def text (value : String) : Builder Cell Abi.Bytes := bytes (octets value)

/-- `Arena::maybe_text`. -/
def maybeText : Option String → Builder Cell Abi.Bytes
  | none => pure absent
  | some value => text value

/-- `Arena::strings`. -/
def strings (values : List String) : Builder Cell Abi.Strings := do alloc (← values.mapM text)

/-- `Arena::record_out`. -/
def recordOut (value : RecordOut) : Builder Cell Abi.RecordOut := do
  let name ← text value.name
  let data ← bytes value.data
  let text ← text value.text
  return { name, rtype := value.rtype, ttl := value.ttl, data, text }

/-- `Arena::record_out_list`. -/
def recordOutList (values : List RecordOut) : Builder Cell (Slice Abi.RecordOut) := do
  alloc (← values.mapM recordOut)

/-- The number of an outcome. -/
def outcome : Outcome → UInt32
  | .found => 0
  | .notFound => 1
  | .unavailable => 2

/-- The number of a validation. -/
def validation : Validation → UInt32
  | .unvalidated => 0
  | .secure => 1
  | .insecure => 2
  | .bogus => 3

/-- `Arena::answer`. -/
def answer (value : Answer) : Builder Cell Abi.Answer := do
  let records ← recordOutList value.records
  let source ← text value.source
  let server ← maybeText value.server
  let interface ← maybeText value.interface
  return { outcome := outcome value.outcome, records, source, server, interface
           validation := validation value.validation, rcode := value.rcode }

/-- `Arena::address_out`. -/
def addressOut (T : AddressText) (value : AddressOut) : Builder Cell Abi.AddressOut := do
  let address ← text (T.display value.address)
  return { address, ttl := value.ttl }

/-- `Arena::address_out_list`. -/
def addressOutList (T : AddressText) (values : List AddressOut) :
    Builder Cell (Slice Abi.AddressOut) := do
  alloc (← values.mapM (addressOut T))

/-- `Arena::addresses`. -/
def addresses (T : AddressText) (value : Addresses) : Builder Cell Abi.Addresses := do
  let canonical ← text value.canonical
  let addresses ← addressOutList T value.addresses
  let source ← text value.source
  return { outcome := outcome value.outcome, canonical, addresses, source, validation := validation value.validation }

/-- `Arena::counters`. -/
def counters (value : Counters) : Abi.Counters where
  queries := value.queries
  synthetic := value.synthetic
  cacheHits := value.cacheHits
  upstreamSent := value.upstreamSent
  upstreamAnswered := value.upstreamAnswered
  upstreamFailed := value.upstreamFailed
  refused := value.refused

/-- `u32::from`, for a flag. -/
def flag (b : Bool) : UInt32 := if b then 1 else 0

/-- `Arena::scope_status`. -/
def scopeStatus (value : ScopeStatus) : Builder Cell Abi.ScopeStatus := do
  let interface ← text value.interface
  let servers ← strings value.servers
  let domains ← strings value.domains
  let subnets ← strings value.subnets
  let demoted ← strings value.demoted
  return { interface, servers, domains, defaultRoute := flag value.defaultRoute, exclusive := flag value.exclusive
           metric := value.metric, subnets, demoted }

/-- `Arena::scope_status_list`. -/
def scopeStatusList (values : List ScopeStatus) : Builder Cell (Slice Abi.ScopeStatus) := do
  alloc (← values.mapM scopeStatus)

/-- `Arena::status_report`. -/
def statusReport (value : StatusReport) : Builder Cell Abi.StatusReport := do
  let hostname ← text value.hostname
  let scopes ← scopeStatusList value.scopes
  let fallbackServers ← strings value.fallbackServers
  return { hostname, netd := flag value.netd, scopes, fallbackServers, cacheEntries := value.cacheEntries
           counters := counters value.counters }

end Views

/-! ### Copies -/

/-- `resolvd_client::Error`. -/
structure Error where
  code : Int
  message : String
  deriving DecidableEq

/-- `EINVAL`. -/
abbrev EINVAL : Int := 22

/-- `resolvd_client::invalid`. -/
def invalid (message : String) : Error := ⟨EINVAL, message⟩

namespace Decode

/-- `decode::bytes`. -/
def bytes (A : List Cell) (value : Abi.Bytes) : Reader Error Bytes := read A value

/-- `decode::text`. -/
def text (A : List Cell) (value : Abi.Bytes) : Reader Error String := do
  match String.fromUTF8? ⟨(← bytes A value).toArray⟩ with
  | some s => return s
  | none => throw (invalid "invalid library UTF-8")

/-- `decode::maybe_text`. -/
def maybeText (A : List Cell) (value : Abi.Bytes) : Reader Error (Option String) :=
  match value.data with
  | none => return none
  | some _ => do return some (← text A value)

/-- `decode::strings`. -/
def strings (A : List Cell) (value : Abi.Strings) : Reader Error (List String) := do
  (← read A value).mapM (text A)

/-- `decode::record_out`. -/
def recordOut (A : List Cell) (value : Abi.RecordOut) : Reader Error RecordOut := do
  let name ← text A value.name
  let data ← bytes A value.data
  let text ← text A value.text
  return { name, rtype := value.rtype, ttl := value.ttl, data, text }

/-- `decode::record_out_list`. -/
def recordOutList (A : List Cell) (value : Slice Abi.RecordOut) :
    Reader Error (List RecordOut) := do
  (← read A value).mapM (recordOut A)

/-- The outcome with the number. -/
def outcome (n : UInt32) : Reader Error Outcome :=
  if n = 0 then return .found
  else if n = 1 then return .notFound
  else if n = 2 then return .unavailable
  else throw (invalid "unknown library enum")

/-- The validation with the number. -/
def validation (n : UInt32) : Reader Error Validation :=
  if n = 0 then return .unvalidated
  else if n = 1 then return .secure
  else if n = 2 then return .insecure
  else if n = 3 then return .bogus
  else throw (invalid "unknown library enum")

/-- `decode::answer`. -/
def answer (A : List Cell) (value : Abi.Answer) : Reader Error Answer := do
  let outcome ← outcome value.outcome
  let records ← recordOutList A value.records
  let source ← text A value.source
  let server ← maybeText A value.server
  let interface ← maybeText A value.interface
  let validation ← validation value.validation
  return { outcome, records, source, server, interface, validation, rcode := value.rcode }

/-- `decode::address_out`. -/
def addressOut (T : AddressText) (A : List Cell) (value : Abi.AddressOut) :
    Reader Error AddressOut := do
  match T.parse (← text A value.address) with
  | some address => return { address, ttl := value.ttl }
  | none => throw (invalid "invalid library IP address")

/-- `decode::address_out_list`. -/
def addressOutList (T : AddressText) (A : List Cell) (value : Slice Abi.AddressOut) :
    Reader Error (List AddressOut) := do
  (← read A value).mapM (addressOut T A)

/-- `decode::addresses`. -/
def addresses (T : AddressText) (A : List Cell) (value : Abi.Addresses) :
    Reader Error Addresses := do
  let outcome ← outcome value.outcome
  let canonical ← text A value.canonical
  let addresses ← addressOutList T A value.addresses
  let source ← text A value.source
  let validation ← validation value.validation
  return { outcome, canonical, addresses, source, validation }

/-- `decode::counters`. -/
def counters (value : Abi.Counters) : Counters where
  queries := value.queries
  synthetic := value.synthetic
  cacheHits := value.cacheHits
  upstreamSent := value.upstreamSent
  upstreamAnswered := value.upstreamAnswered
  upstreamFailed := value.upstreamFailed
  refused := value.refused

/-- `decode::scope_status`. -/
def scopeStatus (A : List Cell) (value : Abi.ScopeStatus) : Reader Error ScopeStatus := do
  let interface ← text A value.interface
  let servers ← strings A value.servers
  let domains ← strings A value.domains
  let subnets ← strings A value.subnets
  let demoted ← strings A value.demoted
  return { interface, servers, domains, defaultRoute := value.defaultRoute != 0, exclusive := value.exclusive != 0
           metric := value.metric, subnets, demoted }

/-- `decode::scope_status_list`. -/
def scopeStatusList (A : List Cell) (value : Slice Abi.ScopeStatus) :
    Reader Error (List ScopeStatus) := do
  (← read A value).mapM (scopeStatus A)

/-- `decode::status_report`. -/
def statusReport (A : List Cell) (value : Abi.StatusReport) : Reader Error StatusReport := do
  let hostname ← text A value.hostname
  let scopes ← scopeStatusList A value.scopes
  let fallbackServers ← strings A value.fallbackServers
  return { hostname, netd := value.netd != 0, scopes, fallbackServers, cacheEntries := value.cacheEntries
           counters := counters value.counters }

end Decode

/-! ### Every part comes out as it went in -/

theorem builds_bytes (b : Bytes) (A : List Cell) : Builds A (Views.bytes b) Decode.bytes (pure b) :=
  builds_read b A

theorem builds_text (s : String) (A : List Cell) :
    Builds A (Views.text s) Decode.text (pure s) := by
  obtain ⟨hgrows, hreads⟩ := builds_bytes (octets s) A
  refine ⟨hgrows, fun B hB => ?_⟩
  have hbytes : Decode.bytes B (Views.text s A).1 = pure (octets s) := hreads B hB
  rw [Decode.text, hbytes, pure_bind, fromUTF8?_eq_some.mpr rfl]

/-- An absent text is told apart from an empty one. -/
theorem builds_maybeText (s : Option String) (A : List Cell) :
    Builds A (Views.maybeText s) Decode.maybeText (pure s) := by
  cases s with
  | none => exact .pure fun _ _ => rfl
  | some s =>
    obtain ⟨hgrows, hreads⟩ := builds_text s A
    refine ⟨hgrows, fun B hB => ?_⟩
    have htext : Decode.text B (Views.text s A).1 = pure s := hreads B hB
    show (do return some (← Decode.text B (Views.text s A).1) : Reader Error (Option String)) =
      pure (some s)
    rw [htext, pure_bind]

theorem builds_strings (ss : List String) (A : List Cell) :
    Builds A (Views.strings ss) Decode.strings (pure ss) := by
  have h := builds_list (fun A s => builds_text s A) ss A
  rwa [List.map_id'] at h

theorem builds_recordOut (r : RecordOut) (A : List Cell) :
    Builds A (Views.recordOut r) Decode.recordOut (pure r) := by
  refine (builds_text r.name A).bind fun A₁ name _ hname =>
    (builds_bytes r.data A₁).bind fun A₂ data hA₂ hdata =>
    (builds_text r.text A₂).bind fun A₃ text hA₃ htext => .pure fun B hB => ?_
  simp only [Decode.recordOut, hname B (hA₂.trans (hA₃.trans hB)), hdata B (hA₃.trans hB),
    htext B hB, pure_bind]

theorem outcome_decode (o : Outcome) : Decode.outcome (Views.outcome o) = pure o := by
  cases o <;> rfl

theorem validation_decode (v : Validation) : Decode.validation (Views.validation v) = pure v := by
  cases v <;> rfl

theorem flag_decode (b : Bool) : (Views.flag b != 0) = b := by cases b <;> rfl

theorem builds_answer (a : Answer) (A : List Cell) :
    Builds A (Views.answer a) Decode.answer (pure a) := by
  have hrecords := builds_list (fun A r => builds_recordOut r A) a.records A
  rw [List.map_id'] at hrecords
  refine hrecords.bind fun A₁ records _ hrecords =>
    (builds_text a.source A₁).bind fun A₂ source hA₂ hsource =>
    (builds_maybeText a.server A₂).bind fun A₃ server hA₃ hserver =>
    (builds_maybeText a.interface A₃).bind fun A₄ interface hA₄ hinterface => .pure fun B hB => ?_
  have hB₃ := hA₄.trans hB
  have hB₂ := hA₃.trans hB₃
  have hrecords' : Decode.recordOutList B records = pure a.records := hrecords B (hA₂.trans hB₂)
  simp only [Decode.answer, outcome_decode, validation_decode, hrecords', hsource B hB₂,
    hserver B hB₃, hinterface B hB, pure_bind]

theorem builds_addressOut (T : AddressText) (a : AddressOut) (A : List Cell) :
    Builds A (Views.addressOut T a) (Decode.addressOut T) (pure a) := by
  refine (builds_text (T.display a.address) A).bind fun A₁ address _ haddress =>
    .pure fun B hB => ?_
  simp only [Decode.addressOut, haddress B hB, pure_bind, T.parse_display]

theorem builds_addresses (T : AddressText) (a : Addresses) (A : List Cell) :
    Builds A (Views.addresses T a) (Decode.addresses T) (pure a) := by
  refine (builds_text a.canonical A).bind fun A₁ canonical _ hcanonical => ?_
  have hlist := builds_list (fun A r => builds_addressOut T r A) a.addresses A₁
  rw [List.map_id'] at hlist
  refine hlist.bind fun A₂ addresses hA₂ haddresses =>
    (builds_text a.source A₂).bind fun A₃ source hA₃ hsource =>
    .pure fun B hB => ?_
  have hB₂ := hA₃.trans hB
  have haddresses' : Decode.addressOutList T B addresses = pure a.addresses := haddresses B hB₂
  simp only [Decode.addresses, outcome_decode, validation_decode, hcanonical B (hA₂.trans hB₂),
    haddresses', hsource B hB, pure_bind]

theorem builds_scopeStatus (v : ScopeStatus) (A : List Cell) :
    Builds A (Views.scopeStatus v) Decode.scopeStatus (pure v) := by
  refine (builds_text v.interface A).bind fun A₁ interface _ hinterface =>
    (builds_strings v.servers A₁).bind fun A₂ servers hA₂ hservers =>
    (builds_strings v.domains A₂).bind fun A₃ domains hA₃ hdomains =>
    (builds_strings v.subnets A₃).bind fun A₄ subnets hA₄ hsubnets =>
    (builds_strings v.demoted A₄).bind fun A₅ demoted hA₅ hdemoted => .pure fun B hB => ?_
  have hB₄ := hA₅.trans hB
  have hB₃ := hA₄.trans hB₄
  have hB₂ := hA₃.trans hB₃
  simp only [Decode.scopeStatus, hinterface B (hA₂.trans hB₂), hservers B hB₂, hdomains B hB₃,
    hsubnets B hB₄, hdemoted B hB, flag_decode, pure_bind]

theorem builds_statusReport (v : StatusReport) (A : List Cell) :
    Builds A (Views.statusReport v) Decode.statusReport (pure v) := by
  refine (builds_text v.hostname A).bind fun A₁ hostname _ hhostname => ?_
  have hlist := builds_list (fun A r => builds_scopeStatus r A) v.scopes A₁
  rw [List.map_id'] at hlist
  refine hlist.bind fun A₂ scopes hA₂ hscopes =>
    (builds_strings v.fallbackServers A₂).bind fun A₃ servers hA₃ hservers =>
    .pure fun B hB => ?_
  have hB₂ := hA₃.trans hB
  have hscopes' : Decode.scopeStatusList B scopes = pure v.scopes := hscopes B hB₂
  simp only [Decode.statusReport, hhostname B (hA₂.trans hB₂), hscopes', hservers B hB, flag_decode,
    pure_bind]
  rfl

/-- **The C interface loses nothing.**  Behind whatever is in the arena, and whatever is put into it
afterwards, the views of an answer, of addresses or of a status report are copied as the value they
were made of, and every pointer that is followed leads to an allocation of its kind that is long
enough. -/
theorem view_decode (T : AddressText) (A : List Cell) :
    (∀ a, Builds A (Views.answer a) Decode.answer (pure a)) ∧
    (∀ a, Builds A (Views.addresses T a) (Decode.addresses T) (pure a)) ∧
    ∀ r, Builds A (Views.statusReport r) Decode.statusReport (pure r) :=
  ⟨fun a => builds_answer a A, fun a => builds_addresses T a A, fun r => builds_statusReport r A⟩

end Resolvd.Api
