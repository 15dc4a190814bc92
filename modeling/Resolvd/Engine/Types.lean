import Resolvd.Dns.Message
import Resolvd.Dns.Text
import Resolvd.Lib.Table

/-!
# The engine's data

The types of `engine.rs` and `cache.rs`: what an interface contributes (`Scope`), what is answered
(`Answer`, `Addresses`), what the engine asks its caller to do (`Action`), and its state (`Engine`)
with the questions in flight (`Task`, `Tx`, `Lookup`) and the cache.

Instants and durations are nanoseconds.  Identifiers and counters are natural numbers: `u64` does
not overflow in the lifetime of a process.  The entropy source is its sequence of answers, any of
which may be a failure, with the number of calls made so far.

The state has one field the source does not: `leaked` records the transactions that `settle` dropped
without a `Cancel`.  No function reads it.
-/

namespace Resolvd.Engine

open Lib Dns

abbrev Qid := ℕ
abbrev Txid := ℕ
abbrev TaskId := ℕ

/-- A point in time, in nanoseconds. -/
abbrev Instant := ℕ

/-- `Duration::from_secs`. -/
abbrev secs (n : ℕ) : ℕ := n * 1000000000

/-- `SERVER_TIMEOUT`. -/
abbrev serverTimeout : ℕ := secs 2
/-- `MAX_ATTEMPTS`. -/
abbrev maxAttempts : ℕ := 3
/-- `DEMOTION`. -/
abbrev demotion : ℕ := secs 30
/-- `MAX_POSITIVE_TTL`. -/
abbrev maxPositiveTtl : UInt32 := 86400
/-- `MAX_NEGATIVE_TTL`. -/
abbrev maxNegativeTtl : UInt32 := 300
/-- `MAX_IN_FLIGHT`. -/
abbrev maxInFlight : ℕ := 4096
/-- `MAX_ENTRIES` of the cache. -/
abbrev maxEntries : ℕ := 8192
/-- `FALLBACK_SCOPE`. -/
abbrev fallbackScope : String := "fallback"

/-! ### Scopes -/

/-- `netd_core::Level`, lowest first. -/
inductive Level where
  | absent
  | link
  | addressed
  | routed
  deriving DecidableEq

def Level.rank : Level → ℕ
  | .absent => 0
  | .link => 1
  | .addressed => 2
  | .routed => 3

instance : LE Level := ⟨fun a b => a.rank ≤ b.rank⟩

instance (a b : Level) : Decidable (a ≤ b) := inferInstanceAs (Decidable (a.rank ≤ b.rank))

/-- `engine::Scope`: what an interface contributes. -/
structure Scope where
  id : String
  interface : String
  servers : List IpAddr
  domains : List Name
  addresses : List (IpAddr × UInt8)
  defaultRoute : Bool
  exclusive : Bool
  metric : UInt32
  level : Level
  deriving DecidableEq

/-- The `width`-bit network mask of a prefix length. -/
def netMask (width : ℕ) (len : UInt8) : ℕ :=
  if len = 0 then 0 else ((2 ^ width - 1) <<< (width - min len.toNat width)) % 2 ^ width

/-- `same_subnet`. -/
def sameSubnet (a : IpAddr) (len : UInt8) (b : IpAddr) : Bool :=
  match a, b with
  | .v4 _, .v4 _ => a.toNat &&& netMask 32 len == b.toNat &&& netMask 32 len
  | .v6 _, .v6 _ => a.toNat &&& netMask 128 len == b.toNat &&& netMask 128 len
  | _, _ => false

/-- `Scope::contains`. -/
def Scope.contains (s : Scope) (addr : IpAddr) : Bool :=
  s.addresses.any fun (a, len) => sameSubnet a len addr

/-- `server_key`: a link-local address is another server on every interface. -/
def serverKey (server : IpAddr) (scope : String) : IpAddr × String :=
  (server, if server.isUnicastLinkLocal then scope else "")

/-! ### Answers and actions -/

/-- `resolvd_core::Outcome`. -/
inductive Outcome where
  | found
  | notFound
  | unavailable
  deriving DecidableEq

/-- `engine::Source`: where an answer came from. -/
inductive Source where
  | local
  | synthetic
  | hosts
  | cache
  | dns
  deriving DecidableEq

/-- `engine::Answer`. -/
structure Answer where
  outcome : Outcome := .unavailable
  records : List Record := []
  source : Source := .local
  server : Option IpAddr := none
  interface : Option String := none
  rcode : UInt16 := 0
  resolvedName : Option Name := none
  negativeTtl : UInt32 := 0
  deriving DecidableEq

/-- `engine::Addresses`: what `lookup` returns. -/
structure Addresses where
  outcome : Outcome := .unavailable
  canonical : Name := Name.root
  addresses : List (IpAddr × UInt32) := []
  source : Source := .local
  deriving DecidableEq

inductive Completion where
  | answer (a : Answer)
  | addresses (a : Addresses)
  deriving DecidableEq

inductive Action where
  | send (tx : Txid) (server : IpAddr) (interface : Option String) (tcp : Bool) (payload : Bytes)
  | cancel (tx : Txid)
  | done (qid : Qid) (completion : Completion)
  deriving DecidableEq

/-- `engine::Family`. -/
inductive Family where
  | any
  | v4
  | v6
  deriving DecidableEq

structure Counters where
  queries : ℕ := 0
  synthetic : ℕ := 0
  cacheHits : ℕ := 0
  upstreamSent : ℕ := 0
  upstreamAnswered : ℕ := 0
  upstreamFailed : ℕ := 0
  refused : ℕ := 0
  deriving DecidableEq

/-! ### Questions in flight -/

/-- `engine::Owner`: who gets the answer of a task. -/
inductive Owner where
  | resolve (qid : Qid)
  | lookup (qid : Qid)
  deriving DecidableEq

def Owner.qid : Owner → Qid
  | .resolve q => q
  | .lookup q => q

/-- `engine::Task`: one name and type on its way to an answer. -/
structure Task where
  owner : Owner
  original : Name
  rtype : UInt16
  noCache : Bool
  /-- once set, the task stores nothing in the cache -/
  cacheInvalidated : Bool := false
  /-- the names still to try -/
  candidates : List Name := []
  /-- the candidate in flight -/
  current : Option Name := none
  scope : Option String := none
  /-- transactions charged to the question -/
  attempt : ℕ := 0
  /-- servers already asked for this candidate -/
  tried : List IpAddr := []
  tx : Option Txid := none
  deriving DecidableEq

/-- `engine::Tx`: a query that was sent. -/
structure Tx where
  task : TaskId
  dnsId : UInt16
  /-- the question exactly as sent -/
  question : Question
  server : IpAddr
  tcp : Bool
  deadline : Instant
  deriving DecidableEq

/-- `engine::Lookup`: the tasks of a lookup that still run, and the answers of the others. -/
structure Lookup where
  name : Name
  pending : List TaskId
  results : List (UInt16 × Answer)
  deriving DecidableEq

/-! ### The cache's data -/

/-- `cache::CacheKey`.  Its name is lower case whatever it was made from, so that equality, which
ignores case in the source, is equality of keys. -/
structure CacheKey where
  name : Name
  rtype : UInt16
  scope : String
  lower : name.toLowercase = name
  deriving DecidableEq

/-- `CacheKey::new`. -/
def CacheKey.new (name : Name) (rtype : UInt16) (scope : String) : CacheKey :=
  ⟨name.toLowercase, rtype, scope, Name.toLowercase_idem name⟩

/-- Keys are equal when type and scope are and the names are equal ignoring case. -/
theorem CacheKey.new_eq_iff {a b : Name} {t u : UInt16} {s r : String} :
    CacheKey.new a t s = CacheKey.new b u r ↔ a.eq b = true ∧ t = u ∧ s = r := by
  simp only [CacheKey.new, CacheKey.mk.injEq, Name.eq_iff]

/-- `cache::Entry`. -/
structure Entry where
  outcome : Outcome
  records : List Record
  rcode : UInt16
  server : IpAddr
  expires : Instant
  deriving DecidableEq

/-- `cache::Cache`. -/
structure Cache where
  entries : Table CacheKey Entry := Table.empty

/-! ### The state -/

/-- `HashMap<Name, Vec<IpAddr>>`: at most one entry for a name, names compared without case. -/
structure Hosts where
  entries : List (Name × List IpAddr)
  distinct : entries.Pairwise fun a b => a.1.eq b.1 = false

def Hosts.empty : Hosts := ⟨[], List.Pairwise.nil⟩

def Hosts.get (h : Hosts) (name : Name) : Option (List IpAddr) :=
  (h.entries.find? fun p => p.1.eq name).map Prod.snd

/-- The answers of the entropy source, call by call: 34 octets, or a failure. -/
abbrev Entropy := ℕ → Option (Vector UInt8 34)

end Resolvd.Engine

namespace Resolvd

open Lib Dns Engine

/-- `engine::Engine`. -/
structure Engine where
  scopes : List Scope := []
  fallbackServers : List IpAddr := []
  fallbackDomains : List Name := []
  hostname : Option Name := none
  hosts : Hosts := Hosts.empty
  cache : Cache := {}
  demoted : Table (IpAddr × String) Instant := Table.empty
  tasks : Table TaskId Task := Table.empty
  txs : Table Txid Tx := Table.empty
  lookups : Table Qid Lookup := Table.empty
  nextId : ℕ := 1
  entropy : Entropy
  /-- calls of the entropy source so far -/
  draws : ℕ := 0
  counters : Counters := {}
  /-- transactions dropped by `settle` (ghost) -/
  leaked : List Txid := []

end Resolvd
