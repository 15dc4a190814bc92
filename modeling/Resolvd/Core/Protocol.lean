import Resolvd.Core.Fields
import Resolvd.Engine.Types

/-!
# The native protocol

`resolvd_core`: the requests and replies of `/run/resolvd/resolv.sock`, each a MessagePack map, with
the functions that write them and the functions that read them.  A writer fixes the order of the
fields and states their number itself; a reader takes them in any order, by their keys.

The variables that a decoder fills while it walks the map are a structure (`RequestVars`,
`ReplyVars`, …), what one arm reads is a constructor (`RequestField`, `ReplyField`, …), and the arms
themselves are a `Schema`.

The texts of addresses are `std`'s; what is assumed of them is `AddressText`.
-/

namespace Resolvd.Core

open Lib Lib.Parser Msgpack
open Engine (Outcome)

/-- `Display` and `FromStr` of `IpAddr`: the text of an address is parsed to the address, and is
never longer than that of an IPv6 address written out. -/
structure AddressText where
  display : IpAddr → String
  parse : String → Option IpAddr
  parse_display : ∀ a, parse (display a) = some a
  short : ∀ a, (display a).utf8ByteSize ≤ 39

/-! ### Requests -/

/-- `resolvd_core::Family`. -/
inductive Family where
  | any
  | v4
  | v6
  deriving DecidableEq, Repr

/-- `Family::as_str`. -/
def Family.asStr : Family → String
  | .any => "any"
  | .v4 => "inet"
  | .v6 => "inet6"

/-- `Family::parse`. -/
def Family.parse (s : String) : Option Family :=
  if s = "any" then some .any
  else if s = "inet" then some .v4
  else if s = "inet6" then some .v6
  else none

/-- `resolvd_core::Request`. -/
inductive Request where
  | resolve (name : String) (rtype : UInt16) (noCache : Bool)
  | lookup (name : String) (family : Family)
  | reverse (address : IpAddr)
  | status
  | flush
  deriving DecidableEq

/-- Fields written one behind the other: `w.write_str(key)` and the value, again and again. -/
def writeFields (fields : List (String × Bytes)) : Bytes :=
  fields.flatMap fun (key, value) => writeStr key ++ value

/-- `Request::encode`. -/
def Request.encode (T : AddressText) : Request → Bytes
  | .resolve name rtype noCache =>
    writeMap 4 ++ writeFields
      [("query", writeStr "resolve"), ("name", writeStr name), ("type", writeUint rtype.toUInt64),
        ("no_cache", writeBool noCache)]
  | .lookup name family =>
    writeMap 3 ++ writeFields
      [("query", writeStr "lookup"), ("name", writeStr name), ("family", writeStr family.asStr)]
  | .reverse address =>
    writeMap 2 ++ writeFields [("query", writeStr "reverse"),
      ("address", writeStr (T.display address))]
  | .status => writeMap 1 ++ writeFields [("query", writeStr "status")]
  | .flush => writeMap 1 ++ writeFields [("query", writeStr "flush")]

/-- The variables of `Request::decode`. -/
structure RequestVars where
  query : Option String := none
  name : Option String := none
  rtype : Option UInt16 := none
  noCache : Bool := false
  family : Option Family := none
  address : Option String := none

/-- What the arms of `Request::decode` read. -/
inductive RequestField where
  | query (s : String)
  | name (s : String)
  | rtype (n : UInt16)
  | noCache (b : Bool)
  | family (f : Option Family)
  | address (s : String)

/-- `u16::try_from(r.read_uint()?).map_err(|_| WireError::Missing("type"))?`. -/
def readType : Parser WireError UInt16 := do
  let n ← wire readUint
  if n < 2 ^ 16 then return UInt16.ofNat n else throw (.missing "type")

/-- The arms of `Request::decode`. -/
def requestSchema : Schema RequestVars RequestField where
  known :=
    [("query", .query <$> wire readStr), ("name", .name <$> wire readStr),
      ("type", .rtype <$> readType), ("no_cache", .noCache <$> wire readBool),
      ("family", (fun s => .family (Family.parse s)) <$> wire readStr),
      ("address", .address <$> wire readStr)]
  tag
    | .query _ => "query"
    | .name _ => "name"
    | .rtype _ => "type"
    | .noCache _ => "no_cache"
    | .family _ => "family"
    | .address _ => "address"
  store s
    | .query q => { s with query := some q }
    | .name n => { s with name := some n }
    | .rtype t => { s with rtype := some t }
    | .noCache b => { s with noCache := b }
    | .family f => { s with family := f }
    | .address a => { s with address := some a }

/-- `v.ok_or(WireError::Missing(field))`. -/
def required {α : Type} (v : Option α) (field : String) : Except WireError α :=
  match v with
  | some a => .ok a
  | none => .error (.missing field)

/-- What `Request::decode` makes of its variables. -/
def RequestVars.request (T : AddressText) (v : RequestVars) : Except WireError Request :=
  match v.query with
  | none => .error (.missing "query")
  | some query =>
    if query = "resolve" then do
      return .resolve (← required v.name "name") (← required v.rtype "type") v.noCache
    else if query = "lookup" then do
      return .lookup (← required v.name "name") (v.family.getD .any)
    else if query = "reverse" then do
      let a ← required v.address "address"
      return .reverse (← required (T.parse a) "address")
    else if query = "status" then .ok .status
    else if query = "flush" then .ok .flush
    else .error (.unknownQuery query)

/-- `Request::decode`. -/
def Request.decode (T : AddressText) (bytes : Bytes) : Except WireError Request := do
  let (v, _) ← requestSchema.forEachField {} bytes
  v.request T

/-! ### Replies -/

/-- `Outcome::as_str`. -/
def outcomeStr : Outcome → String
  | .found => "found"
  | .notFound => "notfound"
  | .unavailable => "unavailable"

/-- `Outcome::parse`. -/
def parseOutcome (s : String) : Option Outcome :=
  if s = "found" then some .found
  else if s = "notfound" then some .notFound
  else if s = "unavailable" then some .unavailable
  else none

/-- `resolvd_core::Validation`. -/
inductive Validation where
  | unvalidated
  | secure
  | insecure
  | bogus
  deriving DecidableEq, Repr

/-- `Validation::as_str`. -/
def Validation.asStr : Validation → String
  | .unvalidated => "unvalidated"
  | .secure => "secure"
  | .insecure => "insecure"
  | .bogus => "bogus"

/-- `Validation::parse`. -/
def Validation.parse (s : String) : Option Validation :=
  if s = "unvalidated" then some .unvalidated
  else if s = "secure" then some .secure
  else if s = "insecure" then some .insecure
  else if s = "bogus" then some .bogus
  else none

/-- `RecordOut`. -/
structure RecordOut where
  name : String := ""
  rtype : UInt16 := 0
  ttl : UInt32 := 0
  data : Bytes := []
  text : String := ""
  deriving DecidableEq

/-- `resolvd_core::Answer`. -/
structure Answer where
  outcome : Outcome := .unavailable
  records : List RecordOut := []
  source : String := ""
  server : Option String := none
  interface : Option String := none
  validation : Validation := .unvalidated
  rcode : UInt16 := 0
  deriving DecidableEq

/-- `AddressOut`. -/
structure AddressOut where
  address : IpAddr
  ttl : UInt32
  deriving DecidableEq

/-- `resolvd_core::Addresses`. -/
structure Addresses where
  outcome : Outcome := .unavailable
  canonical : String := ""
  addresses : List AddressOut := []
  source : String := ""
  validation : Validation := .unvalidated
  deriving DecidableEq

/-- `ScopeStatus`. -/
structure ScopeStatus where
  interface : String := ""
  servers : List String := []
  domains : List String := []
  defaultRoute : Bool := false
  exclusive : Bool := false
  metric : UInt32 := 0
  subnets : List String := []
  demoted : List String := []
  deriving DecidableEq

/-- `resolvd_core::Counters`. -/
structure Counters where
  queries : UInt64 := 0
  synthetic : UInt64 := 0
  cacheHits : UInt64 := 0
  upstreamSent : UInt64 := 0
  upstreamAnswered : UInt64 := 0
  upstreamFailed : UInt64 := 0
  refused : UInt64 := 0
  deriving DecidableEq

/-- `StatusReport`. -/
structure StatusReport where
  hostname : String := ""
  netd : Bool := false
  scopes : List ScopeStatus := []
  fallbackServers : List String := []
  cacheEntries : UInt64 := 0
  counters : Counters := {}
  deriving DecidableEq

/-- `resolvd_core::Reply`. -/
inductive Reply where
  | ok
  | error (message : String)
  | answer (a : Answer)
  | addresses (a : Addresses)
  | status (s : StatusReport)
  deriving DecidableEq

/-! ### Writing a reply -/

/-- `items.len() as u32` and the items. -/
def writeList {α : Type} (write : α → Bytes) (items : List α) : Bytes :=
  writeArray (UInt32.ofNat items.length) ++ items.flatMap write

/-- `write_str_list`, without the key. -/
def writeStrList (items : List String) : Bytes := writeList writeStr items

/-- `write_opt_str`, without the key. -/
def writeOptStr : Option String → Bytes
  | some s => writeStr s
  | none => writeNil

def RecordOut.encode (r : RecordOut) : Bytes :=
  writeMap 5 ++ writeFields
    [("name", writeStr r.name), ("type", writeUint r.rtype.toUInt64),
      ("ttl", writeUint r.ttl.toUInt64), ("data", writeBin r.data), ("text", writeStr r.text)]

def AddressOut.encode (T : AddressText) (x : AddressOut) : Bytes :=
  writeMap 2 ++ writeFields [("address", writeStr (T.display x.address)),
    ("ttl", writeUint x.ttl.toUInt64)]

def ScopeStatus.encode (sc : ScopeStatus) : Bytes :=
  writeMap 8 ++ writeFields
    [("interface", writeStr sc.interface), ("servers", writeStrList sc.servers),
      ("domains", writeStrList sc.domains), ("default_route", writeBool sc.defaultRoute),
      ("exclusive", writeBool sc.exclusive), ("metric", writeUint sc.metric.toUInt64),
      ("subnets", writeStrList sc.subnets), ("demoted", writeStrList sc.demoted)]

def Counters.encode (c : Counters) : Bytes :=
  writeMap 7 ++ writeFields
    [("queries", writeUint c.queries), ("synthetic", writeUint c.synthetic),
      ("cache_hits", writeUint c.cacheHits), ("upstream_sent", writeUint c.upstreamSent),
      ("upstream_answered", writeUint c.upstreamAnswered),
      ("upstream_failed", writeUint c.upstreamFailed), ("refused", writeUint c.refused)]

/-- `Reply::encode`. -/
def Reply.encode (T : AddressText) : Reply → Bytes
  | .ok => writeMap 1 ++ writeFields [("ok", writeBool true)]
  | .error message =>
    writeMap 2 ++ writeFields [("ok", writeBool false), ("error", writeStr message)]
  | .answer a =>
    writeMap 9 ++ writeFields
      [("ok", writeBool true), ("kind", writeStr "answer"),
        ("outcome", writeStr (outcomeStr a.outcome)),
        ("records", writeList RecordOut.encode a.records), ("source", writeStr a.source),
        ("server", writeOptStr a.server), ("interface", writeOptStr a.interface),
        ("validation", writeStr a.validation.asStr), ("rcode", writeUint a.rcode.toUInt64)]
  | .addresses a =>
    writeMap 7 ++ writeFields
      [("ok", writeBool true), ("kind", writeStr "addresses"),
        ("outcome", writeStr (outcomeStr a.outcome)), ("canonical", writeStr a.canonical),
        ("addresses", writeList (AddressOut.encode T) a.addresses), ("source", writeStr a.source),
        ("validation", writeStr a.validation.asStr)]
  | .status s =>
    writeMap 8 ++ writeFields
      [("ok", writeBool true), ("kind", writeStr "status"), ("hostname", writeStr s.hostname),
        ("netd", writeBool s.netd), ("scopes", writeList ScopeStatus.encode s.scopes),
        ("fallback_servers", writeStrList s.fallbackServers),
        ("cache_entries", writeUint s.cacheEntries),
        ("counters", s.counters.encode)]

/-! ### Reading a reply -/

/-- `read_str_list`. -/
def readStrList : Parser WireError (List String) := arrayOf .encoding (wire readStr)

/-- `read_opt_str`. -/
def readOptStr : Parser WireError (Option String) := do
  if (← wire peek) = some .nil then
    wire readNil
    return none
  else
    some <$> wire readStr

/-- What the arms for a record read. -/
inductive RecordField where
  | name (s : String)
  | rtype (n : UInt16)
  | ttl (n : UInt32)
  | data (b : Bytes)
  | text (s : String)

/-- The arms for a record. -/
def recordSchema : Schema RecordOut RecordField where
  known :=
    [("name", .name <$> wire readStr),
      ("type", (fun n => .rtype (UInt16.ofNat n)) <$> wire readUint),
      ("ttl", (fun n => .ttl (UInt32.ofNat n)) <$> wire readUint), ("data", .data <$> wire readBin),
      ("text", .text <$> wire readStr)]
  tag
    | .name _ => "name"
    | .rtype _ => "type"
    | .ttl _ => "ttl"
    | .data _ => "data"
    | .text _ => "text"
  store r
    | .name s => { r with name := s }
    | .rtype n => { r with rtype := n }
    | .ttl n => { r with ttl := n }
    | .data b => { r with data := b }
    | .text s => { r with text := s }

/-- The variables for an address. -/
structure AddressVars where
  address : Option IpAddr := none
  ttl : UInt32 := 0

/-- What the arms for an address read. -/
inductive AddressField where
  | address (a : Option IpAddr)
  | ttl (n : UInt32)

/-- The arms for an address. -/
def addressSchema (T : AddressText) : Schema AddressVars AddressField where
  known :=
    [("address", (fun s => .address (T.parse s)) <$> wire readStr),
      ("ttl", (fun n => .ttl (UInt32.ofNat n)) <$> wire readUint)]
  tag
    | .address _ => "address"
    | .ttl _ => "ttl"
  store x
    | .address a => { x with address := a }
    | .ttl n => { x with ttl := n }

/-- `if let Some(address) = address { … push(AddressOut { address, ttl }) }`. -/
def AddressVars.out (x : AddressVars) : Option AddressOut := x.address.map fun a => ⟨a, x.ttl⟩

/-- What the arms for a scope read. -/
inductive ScopeField where
  | interface (s : String)
  | servers (l : List String)
  | domains (l : List String)
  | defaultRoute (b : Bool)
  | exclusive (b : Bool)
  | metric (n : UInt32)
  | subnets (l : List String)
  | demoted (l : List String)

/-- The arms for a scope. -/
def scopeSchema : Schema ScopeStatus ScopeField where
  known :=
    [("interface", .interface <$> wire readStr), ("servers", .servers <$> readStrList),
      ("domains", .domains <$> readStrList), ("default_route", .defaultRoute <$> wire readBool),
      ("exclusive", .exclusive <$> wire readBool),
      ("metric", (fun n => .metric (UInt32.ofNat n)) <$> wire readUint),
      ("subnets", .subnets <$> readStrList), ("demoted", .demoted <$> readStrList)]
  tag
    | .interface _ => "interface"
    | .servers _ => "servers"
    | .domains _ => "domains"
    | .defaultRoute _ => "default_route"
    | .exclusive _ => "exclusive"
    | .metric _ => "metric"
    | .subnets _ => "subnets"
    | .demoted _ => "demoted"
  store sc
    | .interface s => { sc with interface := s }
    | .servers l => { sc with servers := l }
    | .domains l => { sc with domains := l }
    | .defaultRoute b => { sc with defaultRoute := b }
    | .exclusive b => { sc with exclusive := b }
    | .metric n => { sc with metric := n }
    | .subnets l => { sc with subnets := l }
    | .demoted l => { sc with demoted := l }

/-- What the arms for the counters read. -/
inductive CounterField where
  | queries (n : UInt64)
  | synthetic (n : UInt64)
  | cacheHits (n : UInt64)
  | upstreamSent (n : UInt64)
  | upstreamAnswered (n : UInt64)
  | upstreamFailed (n : UInt64)
  | refused (n : UInt64)

/-- `r.read_uint()?` into a counter. -/
def readCounter : Parser WireError UInt64 := UInt64.ofNat <$> wire readUint

/-- The arms for the counters. -/
def counterSchema : Schema Counters CounterField where
  known :=
    [("queries", .queries <$> readCounter), ("synthetic", .synthetic <$> readCounter),
      ("cache_hits", .cacheHits <$> readCounter), ("upstream_sent", .upstreamSent <$> readCounter),
      ("upstream_answered", .upstreamAnswered <$> readCounter),
      ("upstream_failed", .upstreamFailed <$> readCounter),
      ("refused", .refused <$> readCounter)]
  tag
    | .queries _ => "queries"
    | .synthetic _ => "synthetic"
    | .cacheHits _ => "cache_hits"
    | .upstreamSent _ => "upstream_sent"
    | .upstreamAnswered _ => "upstream_answered"
    | .upstreamFailed _ => "upstream_failed"
    | .refused _ => "refused"
  store c
    | .queries n => { c with queries := n }
    | .synthetic n => { c with synthetic := n }
    | .cacheHits n => { c with cacheHits := n }
    | .upstreamSent n => { c with upstreamSent := n }
    | .upstreamAnswered n => { c with upstreamAnswered := n }
    | .upstreamFailed n => { c with upstreamFailed := n }
    | .refused n => { c with refused := n }

/-- The variables of `Reply::decode`. -/
structure ReplyVars where
  ok : Option Bool := none
  error : Option String := none
  kind : Option String := none
  answer : Answer := {}
  addresses : Addresses := {}
  status : StatusReport := {}

/-- What the arms of `Reply::decode` read. -/
inductive ReplyField where
  | ok (b : Bool)
  | error (s : String)
  | kind (s : String)
  | outcome (o : Outcome)
  | validation (v : Validation)
  | source (s : String)
  | server (s : Option String)
  | interface (s : Option String)
  | rcode (n : UInt16)
  | records (l : List RecordOut)
  | canonical (s : String)
  | addresses (l : List AddressVars)
  | hostname (s : String)
  | netd (b : Bool)
  | fallbackServers (l : List String)
  | cacheEntries (n : UInt64)
  | scopes (l : List ScopeStatus)
  | counters (c : Counters)

/-- The arms of `Reply::decode`.  That for the counters writes to `status.counters`, which no other
arm does: they are still at their defaults then, as a second `counters` would be a duplicate. -/
def replySchema (T : AddressText) : Schema ReplyVars ReplyField where
  known :=
    [("ok", .ok <$> wire readBool), ("error", .error <$> wire readStr),
      ("kind", .kind <$> wire readStr),
      ("outcome", (fun s => .outcome ((parseOutcome s).getD .unavailable)) <$> wire readStr),
      ("validation", (fun s => .validation ((Validation.parse s).getD .unvalidated)) <$> wire
        readStr),
      ("source", .source <$> wire readStr), ("server", .server <$> readOptStr),
      ("interface", .interface <$> readOptStr),
      ("rcode", (fun n => .rcode (UInt16.ofNat n)) <$> wire readUint),
      ("records", .records <$> arrayOf .encoding (recordSchema.forEachField {})),
      ("canonical", .canonical <$> wire readStr),
      ("addresses", .addresses <$> arrayOf .encoding ((addressSchema T).forEachField {})),
      ("hostname", .hostname <$> wire readStr), ("netd", .netd <$> wire readBool),
      ("fallback_servers", .fallbackServers <$> readStrList),
      ("cache_entries", .cacheEntries <$> readCounter),
      ("scopes", .scopes <$> arrayOf .encoding (scopeSchema.forEachField {})),
      ("counters", .counters <$> counterSchema.forEachField {})]
  tag
    | .ok _ => "ok"
    | .error _ => "error"
    | .kind _ => "kind"
    | .outcome _ => "outcome"
    | .validation _ => "validation"
    | .source _ => "source"
    | .server _ => "server"
    | .interface _ => "interface"
    | .rcode _ => "rcode"
    | .records _ => "records"
    | .canonical _ => "canonical"
    | .addresses _ => "addresses"
    | .hostname _ => "hostname"
    | .netd _ => "netd"
    | .fallbackServers _ => "fallback_servers"
    | .cacheEntries _ => "cache_entries"
    | .scopes _ => "scopes"
    | .counters _ => "counters"
  store s
    | .ok b => { s with ok := some b }
    | .error m => { s with error := some m }
    | .kind k => { s with kind := some k }
    | .outcome o => { s with answer.outcome := o, addresses.outcome := o }
    | .validation v => { s with answer.validation := v, addresses.validation := v }
    | .source x => { s with answer.source := x, addresses.source := x }
    | .server x => { s with answer.server := x }
    | .interface x => { s with answer.interface := x }
    | .rcode n => { s with answer.rcode := n }
    | .records l => { s with answer.records := s.answer.records ++ l }
    | .canonical x => { s with addresses.canonical := x }
    | .addresses l =>
      { s with addresses.addresses := s.addresses.addresses ++ l.filterMap AddressVars.out }
    | .hostname x => { s with status.hostname := x }
    | .netd b => { s with status.netd := b }
    | .fallbackServers l => { s with status.fallbackServers := l }
    | .cacheEntries n => { s with status.cacheEntries := n }
    | .scopes l => { s with status.scopes := s.status.scopes ++ l }
    | .counters c => { s with status.counters := c }

/-- What `Reply::decode` makes of its variables. -/
def ReplyVars.reply (v : ReplyVars) : Except WireError Reply :=
  match v.ok with
  | none => .error (.missing "ok")
  | some false => .ok (.error (v.error.getD "unspecified error"))
  | some true =>
    if v.kind = some "answer" then .ok (.answer v.answer)
    else if v.kind = some "addresses" then .ok (.addresses v.addresses)
    else if v.kind = some "status" then .ok (.status v.status)
    else .ok .ok

/-- `Reply::decode`. -/
def Reply.decode (T : AddressText) (bytes : Bytes) : Except WireError Reply := do
  let (v, _) ← (replySchema T).forEachField {} bytes
  v.reply

end Resolvd.Core
