import Resolvd.Dns.Limits
import Resolvd.Engine.Queries

/-!
# Sending does not panic

Four places on the way of a query can panic: the index of a case bit, the `expect` on the encoded
query, the index of the server whose turn it is, and the `expect` on the lookup that is over.
`settle?`, `send?` and `nextAttempt?` are the methods with these places written out, `none` being
the panic.  They are the methods of the model in every state (`settle?_eq`, `send?_eq`,
`nextAttempt?_eq`), so no state that a run can reach is an exception.
-/

namespace Resolvd.Engine

open Lib Dns

/-! ### The methods with their panics -/

/-- `settle`; the lookup is changed in place and then removed, which has to find it. -/
def settle? (e : Engine) (id : TaskId) (answer : Answer) : Option (Engine × List Action) :=
  match e.tasks.get id with
  | none => some (e, [])
  | some task =>
    let e := e.dropTask id task
    match task.owner with
    | .resolve qid => some (e, [.done qid (.answer answer)])
    | .lookup qid =>
      match e.lookups.get qid with
      | none => some (e, [])
      | some lookup =>
        let e := { e with lookups := e.lookups.insert qid (lookup.push id task.rtype answer) }
        if (lookup.push id task.rtype answer).pending ≠ [] then some (e, [])
        else do
          let lookup ← e.lookups.get qid
          some ({ e with lookups := e.lookups.remove qid },
            [.done qid (.addresses (combine lookup))])

/-- The case bits of `send`, each with the index it reads. -/
def caseBit? (random : Vector UInt8 34) (n : ℕ) : Option Bool :=
  (random.toList[2 + n / 8]?).map fun b => b &&& (1 <<< UInt8.ofNat (n % 8)) != 0

/-- The spelling of the candidate; labels that are not a name count as a panic. -/
def spelled? (candidate : Name) (random : Vector UInt8 34) : Option Name := do
  let labels ← Name.randomiseLabels? (caseBit? random) 0 candidate.labels
  if h : Fits labels then some ⟨labels, h⟩ else none

/-- The end of `send`. -/
def launch? (e : Engine) (id : TaskId) (task : Task) (server : IpAddr) (tcp : Bool)
    (random : Vector UInt8 34) (now : Instant) : Option (Engine × List Action) := do
  let name ← spelled? task.candidate random
  let question := Question.new name task.rtype
  let payload ← (Message.query (idOf random) question).encode.toOption
  let tx := e.nextId
  let e := { e with
    nextId := e.nextId + 1
    txs := e.txs.insert tx { task := id, dnsId := idOf random, question, server, tcp, deadline := now + serverTimeout } }
  let e := e.updateTask id fun t => { t with attempt := t.attempt + 1, tx := some tx }
  some (e.count fun c => { c with upstreamSent := c.upstreamSent + 1 },
    [.send tx server (task.scope.bind e.interfaceOf) tcp payload])

/-- `send`. -/
def send? (e : Engine) (id : TaskId) (server : IpAddr) (tcp : Bool) (now : Instant) :
    Option (Engine × List Action) :=
  match e.tasks.get id with
  | none => some (e, [])
  | some task =>
    if task.attempt ≥ maxAttempts then
      e.settle? id { unavailable with interface := e.interfaceOf task.scopeId }
    else if e.txs.len ≥ maxInFlight then
      (e.count fun c => { c with refused := c.refused + 1 }).settle? id unavailable
    else
      match e.entropy e.draws with
      | none =>
        ({ e with draws := e.draws + 1 }.count fun c => { c with refused := c.refused + 1 }).settle?
          id unavailable
      | some random => { e with draws := e.draws + 1 }.launch? id task server tcp random now

/-- `next_attempt`; the server whose turn it is is looked up whether or not one was not yet asked.
-/
def nextAttempt? (e : Engine) (id : TaskId) (now : Instant) : Option (Engine × List Action) :=
  match e.tasks.get id with
  | none => some (e, [])
  | some task =>
    if task.attempt ≥ maxAttempts then
      e.settle? id { unavailable with interface := e.interfaceOf task.scopeId }
    else if e.serversOf task.scopeId now = [] then e.settle? id unavailable
    else do
      let servers := e.serversOf task.scopeId now
      let turn ← servers[task.tried.length % servers.length]?
      let server := (servers.find? fun s => !task.tried.contains s).getD turn
      (e.updateTask id fun t => { t with tried := t.tried ++ [server] }).send? id server false now

/-! ### None of them happens -/

theorem settle?_eq (e : Engine) (id : TaskId) (answer : Answer) :
    e.settle? id answer = some (e.settle id answer) := by
  unfold settle? settle
  cases e.tasks.get id with
  | none => rfl
  | some task =>
    dsimp only
    cases task.owner with
    | resolve qid => rfl
    | lookup qid =>
      dsimp only
      cases (e.dropTask id task).lookups.get qid with
      | none => rfl
      | some lookup =>
        dsimp only
        split
        · rfl
        · rw [Table.get_insert, if_pos rfl, Table.remove_insert]
          rfl

/-- **No letter of a name is beyond the case bits.** -/
theorem caseBit_index (n : Name) {k : ℕ} (hk : k < n.letters) : 2 + k / 8 < 34 := by
  have := n.letters_lt
  omega

theorem caseBit?_eq (random : Vector UInt8 34) {k : ℕ} (hk : 2 + k / 8 < 34) :
    caseBit? random k = some (caseBit random k) := by
  have hlt : 2 + k / 8 < random.toList.length := by rwa [Vector.length_toList]
  rw [caseBit?, caseBit, List.getD_eq_getElem?_getD, List.getElem?_eq_getElem hlt]
  rfl

theorem spelled?_eq (candidate : Name) (random : Vector UInt8 34) :
    spelled? candidate random = some (candidate.randomiseCase (caseBit random)) := by
  have hlabels : Name.randomiseLabels? (caseBit? random) 0 candidate.labels =
      some (candidate.randomiseCase (caseBit random)).labels :=
    Name.randomiseLabels?_eq fun n _ hn =>
      caseBit?_eq random (caseBit_index candidate (by simpa [Name.letters] using hn))
  rw [spelled?, hlabels, Option.bind_eq_bind, Option.bind_some, dif_pos (Name.fits _)]

theorem launch?_eq (e : Engine) (id : TaskId) (task : Task) (server : IpAddr) (tcp : Bool)
    (random : Vector UInt8 34) (now : Instant) :
    e.launch? id task server tcp random now = some (e.launch id task server tcp random now) := by
  unfold launch? launch queryPayload Task.question
  simp only [spelled?_eq, Message.encode_query, Option.bind_eq_bind, Option.bind_some,
    Except.toOption]

theorem send?_eq (e : Engine) (id : TaskId) (server : IpAddr) (tcp : Bool) (now : Instant) :
    e.send? id server tcp now = some (e.send id server tcp now) := by
  unfold send? send
  cases e.tasks.get id with
  | none => rfl
  | some task =>
    dsimp only
    split
    · exact settle?_eq _ _ _
    · split
      · exact settle?_eq _ _ _
      · cases e.entropy e.draws with
        | none => exact settle?_eq _ _ _
        | some random => exact launch?_eq _ _ _ _ _ _ _

theorem nextAttempt?_eq (e : Engine) (id : TaskId) (now : Instant) :
    e.nextAttempt? id now = some (e.nextAttempt id now) := by
  unfold nextAttempt? nextAttempt
  cases e.tasks.get id with
  | none => rfl
  | some task =>
    dsimp only
    split
    · exact settle?_eq _ _ _
    · cases e.serversOf task.scopeId now with
      | nil => exact settle?_eq _ _ _
      | cons first rest =>
        have hlt : task.tried.length % (first :: rest).length < (first :: rest).length :=
          Nat.mod_lt _ (by simp)
        have hturn : (first :: rest)[task.tried.length % (first :: rest).length]? =
            some ((first :: rest).getD (task.tried.length % (first :: rest).length) first) := by
          rw [List.getD_eq_getElem?_getD, List.getElem?_eq_getElem hlt]
          rfl
        rw [if_neg (List.cons_ne_nil first rest), hturn]
        exact send?_eq _ _ _ _ _

/-- **Sending never panics.**  The functions that make names keep the limits.  In every state and
for every block of random octets, the case bits of every letter of a candidate are in the block; the
query encodes, to octets that decode to the same id and the same question, whose name is the
candidate in some spelling; the server whose turn it is exists; and the lookup that is over is
there. -/
theorem sending_safe :
    (∀ ls, Built ls → (∀ l ∈ ls, 1 ≤ l.length ∧ l.length ≤ 63) ∧ wireLenOf ls ≤ 255) ∧
    ∀ e : Engine,
      (∀ id t, e.tasks.get id = some t → ∀ random : Vector UInt8 34,
        (∀ k < t.candidate.letters, 2 + k / 8 < 34) ∧
        spelled? t.candidate random = some (t.question random).name ∧
        (∃ payload, (Message.query (idOf random) (t.question random)).encode = .ok payload ∧
          ∃ m, Message.decode payload = .ok m ∧ m.header.id = idOf random ∧
            m.questions = [t.question random]) ∧
        (t.question random).name.eq t.candidate = true) ∧
      (∀ id server tcp now, e.send? id server tcp now = some (e.send id server tcp now)) ∧
      (∀ id now, e.nextAttempt? id now = some (e.nextAttempt id now)) ∧
      (∀ tried servers : List IpAddr, servers ≠ [] →
        tried.length % servers.length < servers.length) ∧
      ∀ id answer, e.settle? id answer = some (e.settle id answer) := by
  refine ⟨fun ls h => h.fits, fun e => ⟨?_, send?_eq e, nextAttempt?_eq e, ?_, settle?_eq e⟩⟩
  · intro id t _ random
    refine ⟨fun k hk => caseBit_index t.candidate hk, spelled?_eq t.candidate random, ?_,
      Name.randomiseCase_eq t.candidate (caseBit random)⟩
    refine ⟨_, Message.encode_query _ _, Message.query (idOf random) (t.question random), ?_,
      rfl, rfl⟩
    exact Message.decode_query _ _
  · intro tried servers hne
    exact Nat.mod_lt _ (List.length_pos_of_ne_nil hne)

/-- The name of the task in `scannerAsked`. -/
def scanner : Name := ⟨[ascii "scanner"], by decide⟩

/-- A state with one task. -/
def scannerAsked : Engine :=
  (withEntropy fun _ => none).startTask (.resolve 7) scanner Rtype.a false

theorem sending_safe_scanner :
    wireLenOf scanner.labels ≤ 255 ∧
    ∀ random, ∃ n, spelled? scanner random = some n ∧ n.eq scanner = true := by
  obtain ⟨hlimits, hstates⟩ := sending_safe
  have hbuilt : Name.fromLabels [ascii "scanner"] = .ok scanner := by decide
  refine ⟨(hlimits _ (.fromLabels hbuilt)).2, fun random => ?_⟩
  have h := (hstates scannerAsked).1 1
    { owner := .resolve 7, original := scanner, rtype := Rtype.a, noCache := false } rfl random
  exact ⟨_, h.2.1, h.2.2.2⟩

end Resolvd.Engine
