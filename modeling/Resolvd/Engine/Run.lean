import Resolvd.Engine.Core
import Resolvd.Lib.Run

/-!
# Runs of the engine

The public methods as inputs of a machine (`Op`, `apply`), and what may happen to the state between
two calls: a hash table may be visited in another order, and the caller may have added to the
counters, which are public (`Reorder`).
-/

namespace Resolvd.Engine

open Lib Dns

/-- A call of a public method of the engine. -/
inductive Op where
  | resolve (qid : Qid) (name : Bytes) (rtype : UInt16) (noCache : Bool) (now : Instant)
  | resolveQuestion (qid : Qid) (question : Question) (now : Instant)
  | lookup (qid : Qid) (name : Bytes) (family : Family) (now : Instant)
  | reverse (qid : Qid) (address : IpAddr) (now : Instant)
  | abandon (qid : Qid)
  | received (tx : Txid) (bytes : Bytes) (now : Instant)
  | failed (tx : Txid) (now : Instant)
  | localFailed (tx : Txid) (now : Instant)
  | tick (now : Instant)
  | setScopes (scopes : List Scope)
  | setFallback (servers : List IpAddr) (domains : List Name)
  | setHosts (hosts : Hosts)
  | setHostname (hostname : Option Bytes)
  | flush

def apply (e : Engine) : Op → Engine × List Action
  | .resolve qid name rtype noCache now => e.resolve qid name rtype noCache now
  | .resolveQuestion qid question now => e.resolveQuestion qid question now
  | .lookup qid name family now => e.lookup qid name family now
  | .reverse qid address now => e.reverse qid address now
  | .abandon qid => e.abandon qid
  | .received tx bytes now => e.received tx bytes now
  | .failed tx now => e.failed tx now
  | .localFailed tx now => e.localFailed tx now
  | .tick now => e.tick now
  | .setScopes scopes => (e.setScopes scopes, [])
  | .setFallback servers domains => (e.setFallback servers domains, [])
  | .setHosts hosts => (e.setHosts hosts, [])
  | .setHostname hostname => (e.setHostname hostname, [])
  | .flush => (e.flush, [])

/-- The question an operation asks. -/
def Op.asks : Op → Option Qid
  | .resolve qid .. | .resolveQuestion qid .. | .lookup qid .. | .reverse qid .. => some qid
  | _ => none

/-- The operation only changes the configuration. -/
def Op.isConfig : Op → Bool
  | .setScopes _ | .setFallback .. | .setHosts _ | .setHostname _ | .flush => true
  | _ => false

/-- The states differ in the order in which their tables are visited, and in the counters, but in
nothing else. -/
structure Reorder (e e' : Engine) : Prop where
  scopes : e'.scopes = e.scopes
  fallbackServers : e'.fallbackServers = e.fallbackServers
  fallbackDomains : e'.fallbackDomains = e.fallbackDomains
  hostname : e'.hostname = e.hostname
  hosts : e.hosts.entries.Perm e'.hosts.entries
  cache : e.cache.entries.Same e'.cache.entries
  demoted : e.demoted.Same e'.demoted
  tasks : e.tasks.Same e'.tasks
  txs : e.txs.Same e'.txs
  lookups : e.lookups.Same e'.lookups
  nextId : e'.nextId = e.nextId
  entropy : e'.entropy = e.entropy
  draws : e'.draws = e.draws
  leaked : e'.leaked = e.leaked

theorem Reorder.refl (e : Engine) : Reorder e e :=
  ⟨rfl, rfl, rfl, rfl, .refl _, .refl _, .refl _, .refl _, .refl _, .refl _, rfl, rfl, rfl, rfl⟩

theorem Reorder.trans {e e' e'' : Engine} (h : Reorder e e') (h' : Reorder e' e'') :
    Reorder e e'' where
  scopes := h'.scopes.trans h.scopes
  fallbackServers := h'.fallbackServers.trans h.fallbackServers
  fallbackDomains := h'.fallbackDomains.trans h.fallbackDomains
  hostname := h'.hostname.trans h.hostname
  hosts := h.hosts.trans h'.hosts
  cache := h.cache.trans h'.cache
  demoted := h.demoted.trans h'.demoted
  tasks := h.tasks.trans h'.tasks
  txs := h.txs.trans h'.txs
  lookups := h.lookups.trans h'.lookups
  nextId := h'.nextId.trans h.nextId
  entropy := h'.entropy.trans h.entropy
  draws := h'.draws.trans h.draws
  leaked := h'.leaked.trans h.leaked

/-- The engine with an entropy source. -/
def machine (entropy : Entropy) : Machine Engine Op Action where
  start := fun e => e = withEntropy entropy
  step := apply
  idle := Reorder

abbrev EngineLog := Log Engine Op

/-- The log is that of a run of the engine with this entropy source, and ends in the state. -/
abbrev Runs (entropy : Entropy) (log : EngineLog) (e : Engine) : Prop := (machine entropy).Run log e

/-- The state is one the run can be in before its next step. -/
def Reached (entropy : Entropy) (log : EngineLog) (e : Engine) : Prop :=
  ∃ e₀, Runs entropy log e₀ ∧ Reorder e₀ e

/-- The state after a step of the engine. -/
def after (st : Step Engine Op) : Engine := (apply st.before st.input).1

/-- The actions of a step of the engine. -/
def actions (st : Step Engine Op) : List Action := (apply st.before st.input).2

/-- The log and the last state of these operations on a fresh engine. -/
def ran (entropy : Entropy) (ops : List Op) : EngineLog × Engine :=
  (machine entropy).exec (withEntropy entropy) ops

theorem runs_ran (entropy : Entropy) (ops : List Op) :
    Runs entropy (ran entropy ops).1 (ran entropy ops).2 := by
  have h := Machine.Run.exec (M := machine entropy) Reorder.refl (.start rfl) ops
  rwa [List.append_nil] at h

/-! ### A small run -/

/-- An entropy source that always answers zeros. -/
def zeros : Entropy := fun _ => some (Vector.replicate 34 0)

/-- An interface with one server. -/
def lan : Scope where
  id := "lan"
  interface := "eth0"
  servers := [.v4 #v[192, 0, 2, 1]]
  domains := []
  addresses := []
  defaultRoute := true
  exclusive := false
  metric := 10
  level := .routed

/-- That server. -/
def lanServer : IpAddr := .v4 #v[192, 0, 2, 1]

/-- The interface comes up and the address of a name is asked for. -/
def askOnLan : List Op := [.setScopes [lan], .resolve 7 (ascii "peios.example") Rtype.a false 1000]

/-- The name that is asked for. -/
def peiosExample : Name := ⟨[ascii "peios", ascii "example"], by decide⟩

/-- A name it may be an alias of. -/
def hostExample : Name := ⟨[ascii "host", ascii "example"], by decide⟩

/-- The domain of both. -/
def exampleDomain : Name := ⟨[ascii "example"], by decide⟩

/-- A reply to the query, with this header and these answers. -/
def replyOnLan (header : Header) (answers : List Record) : Bytes :=
  Message.wire { header := { header with response := true }, questions := [Question.new peiosExample Rtype.a], answers }

/-- The server answers after a second. -/
def answerOnLan : List Op :=
  askOnLan ++ [.received 2 (replyOnLan {} [Record.new peiosExample 60 (.a #v[192, 0, 2, 7])])
    (secs 1)]

/-- The record it answers with. -/
def lanRecord : Record := Record.new peiosExample 60 (.a #v[192, 0, 2, 7])

/-- A single label is searched for in two domains; it does not exist in the first. -/
def searchOnLan : List Op :=
  [.setScopes [{ lan with domains := [exampleDomain, ⟨[ascii "home"], by decide⟩] }],
    .resolve 7 (ascii "peios") Rtype.a false 1000,
      .received 2 (replyOnLan { rcode := 3 } []) (secs 1)]

-- one task and one transaction are under way
example : (ran zeros askOnLan).2.tasks.len = 1 ∧ (ran zeros askOnLan).2.txs.len = 1 := by
  decide +kernel

end Resolvd.Engine
