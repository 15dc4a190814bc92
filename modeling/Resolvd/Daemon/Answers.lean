import Resolvd.Daemon.Tables
import Resolvd.Engine.Provenance

/-!
# Everybody gets one answer, to the own question

The daemon, its engine and the clients speak about a question by its id alone.  Two things are said
here of whole runs, and of all doors at once.

`Runs.conserved`: those who came are those who were served, those who wait and those who left, as an
equation between lists up to their order.  Nobody is served twice and nobody is forgotten.

`Runs.answers_question`: whatever the daemon says to somebody is what this one asked for, answered
by the engine for this very question, and of the kind the request wants.  What a turn of the loop
does to the engine is a function of the turn (`turnSteps`); the operations of all turns, after those
of `main` before the loop, are a run of the engine (`EngineLogOf`), so that what is known of its
answers holds at the doors; here it is that every record has its origin in an authentic reply.

The invariant is `Matched`: whoever waits under an id has asked the question of this id, and what
`perform` is to deliver was emitted by the engine.  It carries the equation, too: `deliver` says
nothing to a stub client whose question is completed with addresses, but no such question asks for
them (`Matched.told`).
-/

namespace Resolvd.Engine

open Lib Dns List

/-! ### What completes a question -/

/-- The completion is one for the question that the operation asks. -/
def Meets (log : EngineLog) (op : Op) : Completion → Prop
  | .answer a => op.isLookup = false ∧ (a = { outcome := .notFound } ∨
      ∃ q name rtype noCache, op.Resolves q name rtype noCache ∧ Genuine log rtype a)
  | .addresses A => op.isLookup = true ∧ (A = { outcome := .notFound } ∨
      ∃ q l family, op.LooksUp q l.name family ∧ A = combine l ∧
        (∀ rtype ∈ family.types, ∃ a, (rtype, a) ∈ l.results) ∧
        ∀ r ∈ l.results, Genuine log r.1 r.2)

/-- **A question is completed with what it asked for.** -/
theorem Runs.meets {entropy : Entropy} {log : EngineLog} {e : Engine} (h : Runs entropy log e)
    (hd : (asked log).Nodup) {q : Qid} {c : Completion} (hc : .done q c ∈ emitted log)
    {st₀ : Step Engine Op} (hst₀ : st₀ ∈ log) (hask : st₀.input.asks = some q) :
    Meets log st₀.input c := by
  obtain ⟨st, hst, hdone⟩ := mem_flatMap.mp hc
  obtain ⟨new, old, hlog⟩ := append_of_mem hst
  have hsub : ∀ st' ∈ st :: old, st' ∈ log := fun st' hmem => hlog ▸ mem_append_right _ hmem
  have hgenuine : ∀ {rtype a}, Genuine (st :: old) rtype a → Genuine log rtype a :=
    fun hg => hlog ▸ hg.append new
  cases h.verdict hlog hdone with
  | refused hr =>
    obtain rfl := asked_unique hd hst hst₀ hr.asks hask
    generalize st.input = op at hr
    cases hr with
    | resolve hparse => exact ⟨rfl, .inl rfl⟩
    | lookup hparse => exact ⟨rfl, .inl rfl⟩
  | answer ho hgave =>
    obtain ⟨hg, st₁, hst₁, hbegun⟩ := h.gave_genuine hlog hgave
    have hres := hbegun.resolves ho
    obtain rfl := asked_unique hd (hsub _ hst₁) hst₀ hres.asks hask
    exact ⟨hres.not_lookup, .inr ⟨_, _, _, _, hres, hgenuine hg⟩⟩
  | @addresses l st₁ family hst₁ hask₁ hall hgiven =>
    obtain rfl := asked_unique hd (hsub _ hst₁) hst₀ hask₁.asks hask
    refine ⟨hask₁.is_lookup, .inr ⟨_, l, family, hask₁, rfl, hall, fun r hr => ?_⟩⟩
    obtain ⟨new', st', old', t, hlog', -, hrtype, hgave⟩ := hgiven r hr
    have hsplit : log = (new ++ new') ++ st' :: old' := by rw [hlog, hlog', append_assoc]
    have hg := (h.gave_genuine hsplit hgave).1
    rw [hrtype] at hg
    rw [hsplit]
    exact hg.append _

end Resolvd.Engine

namespace Resolvd.Daemon

open Lib Dns Engine List

variable {st : Step Daemon Input} {d : Daemon} {entropy : Entropy} {log : Log Daemon Input}

/-! ### Who comes, who is served and who leaves -/

/-- Whom something is said to. -/
def Output.addressee : Output → Option Waiter
  | .reply stream _ => some (.native stream)
  | .answer origin _ => some (.stub origin)
  | .missed _ | .unfinished => none

/-- Those to whom something is said, in this order. -/
def served (out : List Output) : List Waiter := out.filterMap Output.addressee

/-- Those who wait. -/
def waiting (d : Daemon) : List Waiter := d.waiters.values

/-- A query that has a question wants an answer. -/
def Incoming.asker : Incoming → Option Waiter
  | .query origin => origin.query.question.map fun _ => .stub origin
  | .nothing => none

/-- Those who have said to the daemon what they want, with this turn of the loop. -/
def askers (d : Daemon) (i : Input) : List Waiter :=
  match i.wake with
  | .stub incoming => incoming.filterMap Incoming.asker
  | .client id progress _ =>
    match d.clients.get id with
    | none => []
    | some client =>
      match progress with
      | .request _ | .reply _ => [.native client.stream]
      | .incomplete | .closed => []
  | _ => []

/-- The one who has hung up, with this turn of the loop. -/
def leavers (d : Daemon) (i : Input) : List Waiter :=
  match i.wake with
  | .hangup qid => ((d.waiters.get qid).filter fun w => w.streamFd.isSome).toList
  | _ => []

theorem served_append (out out' : List Output) : served (out ++ out') = served out ++ served out' :=
  filterMap_append

/-! ### What is put to the engine -/

section Steps

variable (os : Os) (now : Instant)

/-- The operations on the engine in one call of `perform` without the nested ones, newest first. -/
def allSteps : List Action → Daemon → EngineLog
  | [], _ => []
  | a :: p, d => allSteps p (performOne os now d a).1 ++ oneSteps os now d a

/-- The operations on the engine in `performUpTo`. -/
def performSteps : ℕ → Daemon → List Action → EngineLog
  | 0, _, _ => []
  | n + 1, d, p =>
    performSteps n (performAll os now p d).1 (performAll os now p d).2.1 ++ allSteps os now p d

/-- An operation, and those that `perform` adds for its actions. -/
def operateSteps (d : Daemon) (op : Op) : EngineLog :=
  performSteps os now (maxAttempts + 1) { d with engine := (d.engine.apply op).1 }
    (d.engine.apply op).2 ++
    [⟨d.engine, op⟩]

def askSteps (d : Daemon) (waiter : Waiter) (op : Qid → Op) : EngineLog :=
  operateSteps os now { d with nextId := d.nextId + 1, waiters := d.waiters.insert d.nextId waiter }
    (op d.nextId)

def requestSteps (d : Daemon) (stream : Stream) (request : Request) (permitted : Bool) :
    EngineLog :=
  if !permitted then []
  else match request with
    | .status => []
    | .flush => [⟨d.engine, .flush⟩]
    | .resolve name rtype noCache =>
      askSteps os now d (.native stream) fun qid => .resolve qid name rtype noCache now
    | .lookup name family =>
      askSteps os now d (.native stream) fun qid => .lookup qid name family now
    | .reverse address => askSteps os now d (.native stream) fun qid => .reverse qid address now

def stubOneSteps (d : Daemon) : Incoming → EngineLog
  | .nothing => []
  | .query origin =>
    match origin.query.question with
    | none => []
    | some question =>
      if origin.overflows d.waiters then []
      else askSteps os now d (.stub origin) fun qid => .resolveQuestion qid question now

def stubSteps : List Incoming → Daemon → EngineLog
  | [], _ => []
  | i :: incoming, d => stubSteps incoming (handleStubOne os now d i).1 ++ stubOneSteps os now d i

def hangupSteps (d : Daemon) (qid : Qid) : EngineLog :=
  match d.waiters.get qid with
  | none => []
  | some waiter =>
    if waiter.streamFd.isSome then operateSteps os now { d with waiters := d.waiters.remove qid }
      (.abandon qid) else []

def upstreamSteps (d : Daemon) (tx : Txid) (ready : Upstream.Ready) : EngineLog :=
  match d.upstream.service tx ready (d.engine.responseMatches tx) with
  | (upstream, some (.received bytes)) =>
    operateSteps os now { d with upstream } (.received tx bytes now)
  | (upstream, some .failed) => operateSteps os now { d with upstream } (.failed tx now)
  | (_, none) => []

def clientSteps (d : Daemon) (id : ℕ) (progress : Progress) (permitted : Bool) : EngineLog :=
  match d.clients.get id with
  | none => []
  | some client =>
    match progress with
    | .request request =>
      requestSteps os now { d with clients := d.clients.remove id } client.stream request permitted
    | .incomplete | .closed | .reply _ => []

end Steps

/-- One operation on the configuration after the other. -/
def configSteps (e : Engine) (op op' : Op) : EngineLog := [⟨(e.apply op).1, op'⟩, ⟨e, op⟩]

/-- The operations on the engine in one turn of the loop, newest first. -/
def turnSteps (d : Daemon) (i : Input) : EngineLog :=
  match i.wake with
  | .hangup qid => hangupSteps i.os i.now d qid
  | .upstream tx ready => upstreamSteps i.os i.now d tx ready
  | .stub incoming => stubSteps i.os i.now incoming d
  | .accept _ => []
  | .client id progress permitted => clientSteps i.os i.now d id progress permitted
  | .snapshot hostname scopes => configSteps d.engine (.setHostname hostname) (.setScopes scopes)
  | .config servers search hosts =>
    configSteps d.engine (.setFallback servers search) (.setHosts hosts)
  | .tick => operateSteps i.os i.now d (.tick i.now)

/-- The operations with which `main` prepares the engine (`boot`). -/
def bootSteps (entropy : Entropy) (hostname : Option Bytes) (servers : List IpAddr)
    (search : List Name) (hosts : Hosts) : EngineLog :=
  let e := (withEntropy entropy).setHostname hostname
  configSteps e (.setFallback servers search) (.setHosts hosts) ++
    [⟨withEntropy entropy, .setHostname hostname⟩]

/-- The state before the first turn, in a run with this log that ends in `d`. -/
def firstState : Log Daemon Input → Daemon → Daemon
  | [], d => d
  | st :: log, _ => firstState log st.before

/-- **The operations on the engine in a run of the daemon**, newest first: those of every turn of
its log, after those with which the state before the first turn was prepared. -/
def EngineLogOf (entropy : Entropy) (log : Log Daemon Input) (d : Daemon) (elog : EngineLog) :
    Prop :=
  ∃ hostname servers search hosts, Reorder (boot entropy hostname servers search hosts)
    (firstState log d) ∧
    elog = (log.flatMap fun st => turnSteps st.before st.input) ++
      bootSteps entropy hostname servers search hosts

/-! ### Who asks what -/

/-- The operation that a request becomes, under its id. -/
def Request.op (now : Instant) (q : Qid) : Request → Option Op
  | .resolve name rtype noCache => some (.resolve q name rtype noCache now)
  | .lookup name family => some (.lookup q name family now)
  | .reverse address => some (.reverse q address now)
  | .status | .flush => none

/-- The reply to a request that puts no question to the engine. -/
def Request.direct (permitted : Bool) : Request → Option Reply
  | request => if !permitted then some (.error "access denied") else match request with
    | .status => some .status
    | .flush => some .ok
    | _ => none

/-- In this turn of the loop the waiter puts the question to the engine, under the id. -/
inductive Asks (st : Step Daemon Input) (q : Qid) : Waiter → Op → Prop
  | native {id : ℕ} {client : Client} {request : Request} {op : Op}
      (hget : st.before.clients.get id = some client)
      (hwake : st.input.wake = .client id (.request request) true)
      (hop : request.op st.input.now q = some op) :
      Asks st q (.native client.stream) op
  | stub {incoming : List Incoming} {origin : Origin} {question : Question}
      (hwake : st.input.wake = .stub incoming) (hmem : .query origin ∈ incoming)
      (hq : origin.query.question = some question) :
      Asks st q (.stub origin) (.resolveQuestion q question st.input.now)

theorem Asks.asks {q : Qid} {w : Waiter} {op : Op} (h : Asks st q w op) : op.asks = some q := by
  cases h with
  | @native id client request op hget hwake hop => cases request <;> cases hop <;> rfl
  | stub hwake hmem hq => rfl

/-- What is said to a waiter when the question is completed. -/
def Waiter.told : Waiter → Completion → Option Output
  | .native stream, .answer a => some (.reply stream (.answer a))
  | .native stream, .addresses a => some (.reply stream (.addresses a))
  | .stub origin, .answer a => some (.answer origin a)
  | .stub _, .addresses _ => none

theorem deliver_eq {q : Qid} {w : Waiter} (hq : d.waiters.get q = some w) (c : Completion) :
    d.deliver q c = ({ d with waiters := d.waiters.remove q }, (w.told c).toList) := by
  unfold deliver
  rw [hq]
  cases w <;> cases c <;> rfl

/-- Why the daemon says something, in the course of a log, with the steps `elog` of the engine. -/
inductive Justified (log : Log Daemon Input) (elog : EngineLog) : Output → Prop
  /-- the engine has completed the question of the one it is said to -/
  | completed {st : Step Daemon Input} {est : Step Engine Op} {q : Qid} {w : Waiter}
      {c : Completion} {o : Output} (hst : st ∈ log) (hest : est ∈ elog)
      (hasks : Asks st q w est.input) (hdone : .done q c ∈ emitted elog) (ho : w.told c = some o) :
      Justified log elog o
  /-- the request is answered at once -/
  | direct {st : Step Daemon Input} {id : ℕ} {client : Client} {request : Request}
      {permitted : Bool} {reply : Reply} (hst : st ∈ log)
      (hget : st.before.clients.get id = some client)
      (hwake : st.input.wake = .client id (.request request) permitted)
      (h : request.direct permitted = some reply) :
      Justified log elog (.reply client.stream reply)
  /-- the request cannot be read -/
  | unread {st : Step Daemon Input} {id : ℕ} {client : Client} {permitted : Bool} {reply : Reply}
      (hst : st ∈ log) (hget : st.before.clients.get id = some client)
      (hwake : st.input.wake = .client id (.reply reply) permitted) :
      Justified log elog (.reply client.stream reply)
  /-- there is no room for the query, after those that came with it before it -/
  | overflow {st : Step Daemon Input} {incoming rest : List Incoming} {origin : Origin}
      (hst : st ∈ log) (hwake : st.input.wake = .stub (incoming ++ .query origin :: rest))
      (hfull : origin.overflows (handleStub st.input.os st.input.now incoming st.before).1.waiters =
        true) :
      Justified log elog (.answer origin { outcome := .unavailable })

/-- Whoever waits under an id has asked the question of this id, when the actions `p` are still to
be carried out. -/
structure Matched (entropy : Entropy) (log : Log Daemon Input) (elog : EngineLog) (d : Daemon)
    (p : List Action) : Prop where
  reached : Reached entropy elog d.engine
  distinct : (asked elog).Nodup
  asked_lt : ∀ q ∈ asked elog, q < d.nextId
  waits : ∀ q w, d.waiters.get q = some w → ∃ st ∈ log, ∃ est ∈ elog, Asks st q w est.input
  due : ∀ q c, .done q c ∈ p → .done q c ∈ emitted elog

section Parts

variable {entropy : Entropy} {log : Log Daemon Input} {elog : EngineLog} {d : Daemon}
    {p p' : List Action} {w : Waiter} {r : Daemon × List Output}

theorem emitted_append (new old : EngineLog) : emitted (new ++ old) = emitted new ++ emitted old :=
  flatMap_append

theorem Justified.mono {log' : Log Daemon Input} {o : Output} (h : Justified log elog o)
    (hlog : log ⊆ log') (new : EngineLog) : Justified log' (new ++ elog) o := by
  cases h with
  | completed hst hest hasks hdone ho =>
    refine .completed (hlog hst) (mem_append_right _ hest) hasks ?_ ho
    rw [emitted_append]
    exact mem_append_right _ hdone
  | direct hst hget hwake h => exact .direct (hlog hst) hget hwake h
  | unread hst hget hwake => exact .unread (hlog hst) hget hwake
  | overflow hst hwake hfull => exact .overflow (hlog hst) hwake hfull

section

variable (h : Matched entropy log elog d p)
include h

theorem Matched.cons (st : Step Daemon Input) : Matched entropy (st :: log) elog d p := by
  refine ⟨h.reached, h.distinct, h.asked_lt, fun q w hq => ?_, h.due⟩
  obtain ⟨st₀, hst₀, hrest⟩ := h.waits q w hq
  exact ⟨st₀, mem_cons_of_mem _ hst₀, hrest⟩

/-- Ids are taken, sockets and clients come and go, and fewer wait. -/
theorem Matched.frame {d' : Daemon} (he : d'.engine = d.engine) (hn : d.nextId ≤ d'.nextId)
    (hw : d'.waiters.Within d.waiters) (hp : p' ⊆ p) : Matched entropy log elog d' p' :=
  ⟨he ▸ h.reached, h.distinct, fun q hq => (h.asked_lt q hq).trans_le hn, fun q w hq =>
    h.waits q w (hw q w hq), fun q c hc => h.due q c (hp hc)⟩

theorem Matched.step (op : Op) (hask : op.asks = none) :
    Matched entropy log (⟨d.engine, op⟩ :: elog) { d with engine := (d.engine.apply op).1 }
      (p ++ (d.engine.apply op).2) := by
  have hasked : asked (⟨d.engine, op⟩ :: elog) = asked elog := by
    simp only [asked, filterMap_cons, hask]
  refine ⟨h.reached.after, hasked ▸ h.distinct, hasked ▸ h.asked_lt, fun q w hq => ?_,
    fun q c hc => ?_⟩
  · obtain ⟨st, hst, est, hest, hasks⟩ := h.waits q w hq
    exact ⟨st, hst, est, mem_cons_of_mem _ hest, hasks⟩
  · rcases mem_append.mp hc with hc | hc
    · exact mem_append_right _ (h.due q c hc)
    · exact mem_append_left _ hc

/-- **The next id is in use nowhere.** -/
theorem Matched.unused : d.waiters.get d.nextId = none := by
  refine Option.eq_none_iff_forall_ne_some.mpr fun w hq => ?_
  obtain ⟨st, -, est, hest, hasks⟩ := h.waits _ w hq
  exact lt_irrefl _ (h.asked_lt _ (mem_filterMap.mpr ⟨est, hest, hasks.asks⟩))

/-- **Whoever waits is told something**: nobody at the stub door has asked for addresses. -/
theorem Matched.told {q : Qid} (hq : d.waiters.get q = some w) {c : Completion}
    (hc : .done q c ∈ emitted elog) : ∃ o, w.told c = some o ∧ o.addressee = some w := by
  obtain ⟨st, hst, est, hest, hasks⟩ := h.waits q w hq
  obtain ⟨e₀, h₀, -⟩ := h.reached
  have hmeets := h₀.meets h.distinct hc hest hasks.asks
  cases w with
  | native stream => cases c <;> exact ⟨_, rfl, rfl⟩
  | stub origin =>
    cases c with
    | answer a => exact ⟨_, rfl, rfl⟩
    | addresses a =>
      generalize est.input = op at hasks hmeets
      cases hasks with
      | stub hwake hmem hq => cases hmeets.1

end

/-! ### Carrying out actions -/

theorem performSteps_nil (os : Os) (now : Instant) (n : ℕ) (d : Daemon) :
    performSteps os now n d [] = [] := by
  induction n generalizing d with
  | zero => rfl
  | succ n ih => exact (append_nil _).trans (ih d)

/-- **The rule for `perform`.**  What holds of the operations on the engine so far, of the actions
that are to be carried out and of what was said before, and is kept by every single action, holds in
the end. -/
theorem performUpTo_rule (os : Os) (now : Instant)
    {I : EngineLog → Daemon → List Action → List Output → Prop}
    (hone : ∀ new d a p out, I new d (a :: p) out →
      I (oneSteps os now d a ++ new) (performOne os now d a).1
      (p ++ (performOne os now d a).2.1) (out ++ (performOne os now d a).2.2))
    (hstop : ∀ new d p out, I new d p out → I new d [] (out ++ [.unfinished])) (n : ℕ)
    (new : EngineLog) (out : List Output) (h : I new d p out) :
    I (performSteps os now n d p ++ new) (performUpTo os now n d p).1 []
      (out ++ (performUpTo os now n d p).2) := by
  have hall : ∀ p p' new d out, I new d (p ++ p') out →
      I (allSteps os now p d ++ new) (performAll os now p d).1
      (p' ++ (performAll os now p d).2.1) (out ++ (performAll os now p d).2.2) := by
    intro p
    induction p with
    | nil =>
      intro p' new d out h
      simp only [allSteps, performAll, append_nil]
      exact h
    | cons a p ih =>
      intro p' new d out h
      have hrest := ih _ _ _ _ (by simpa only [append_assoc] using hone new d a (p ++ p') out h)
      simpa only [allSteps, performAll, append_assoc] using hrest
  induction n generalizing new d p out with
  | zero => exact hstop new d p out h
  | succ n ih =>
    have hround := hall p [] new d out (by rwa [append_nil])
    rw [nil_append] at hround
    rw [performUpTo_succ, performSteps, append_assoc]
    split
    · next hnone =>
      rw [isEmpty_iff.mp hnone] at hround ⊢
      rwa [performSteps_nil]
    · have hrest := ih _ _ hround
      rwa [append_assoc] at hrest

/-- A part of a turn, with the operations `new` on the engine, keeps the invariant, what is said in
it is justified, and those who waited or came are those who were served, wait or left. -/
def Tells (entropy : Entropy) (log : Log Daemon Input) (elog new : EngineLog) (d : Daemon)
    (came left : List Waiter) (r : Daemon × List Output) : Prop :=
  Matched entropy log (new ++ elog) r.1 [] ∧
    (∀ o ∈ r.2, o.isGhost = false → Justified log (new ++ elog) o) ∧
    (d.waiting ++ came).Perm (served r.2 ++ (r.1.waiting ++ left))

theorem said_ghost {out : List Output} {o : Output} (ho : o.isGhost = true)
    (hout : ∀ o' ∈ out, o'.isGhost = false → Justified log elog o') :
    (∀ o' ∈ out ++ [o], o'.isGhost = false → Justified log elog o') ∧
      served (out ++ [o]) = served out := by
  refine ⟨fun o' ho' hghost => ?_, ?_⟩
  · rcases mem_append.mp ho' with ho' | ho'
    · exact hout o' ho' hghost
    · rw [mem_singleton.mp ho', ho] at hghost
      cases hghost
  · rw [served_append]
    cases o with
    | reply stream reply => cases ho
    | answer origin a => cases ho
    | missed q => exact append_nil _
    | unfinished => exact append_nil _

/-- **An answer goes to the one who asked the question**, and to nobody else. -/
theorem Matched.performUpTo (os : Os) (now : Instant) (n : ℕ) (h : Matched entropy log elog d p) :
    Tells entropy log elog (performSteps os now n d p) d [] [] (performUpTo os now n d p) := by
  have hrule := performUpTo_rule os now (I := fun new d' p out =>
    Matched entropy log (new ++ elog) d' p ∧
      (∀ o ∈ out, o.isGhost = false → Justified log (new ++ elog) o) ∧
      d.waiting.Perm (served out ++ d'.waiting)) ?_ ?_ n [] []
        ⟨h, (fun o ho => by cases ho), .refl _⟩
  · simpa only [Tells, append_nil, nil_append] using hrule
  · rintro new d' a p out ⟨hm, hout, hperm⟩
    have hrest : Matched entropy log (new ++ elog) d' p :=
      hm.frame rfl le_rfl (.refl _) (subset_cons_self _ _)
    cases a with
    | cancel tx =>
      simp only [oneSteps, performOne, append_nil, nil_append]
      exact ⟨hrest.frame rfl le_rfl (.refl _) (List.Subset.refl _), hout, hperm⟩
    | done q c =>
      simp only [oneSteps, performOne, append_nil, nil_append]
      cases hq : d'.waiters.get q with
      | none =>
        simp only [deliver, hq]
        obtain ⟨hout', hserved⟩ := @said_ghost log (new ++ elog) out (.missed q) rfl hout
        exact ⟨hrest, hout', hserved ▸ hperm⟩
      | some w =>
        have hdue := hm.due q c mem_cons_self
        obtain ⟨st, hst, est, hest, hasks⟩ := hm.waits q w hq
        obtain ⟨o, htold, haddressee⟩ := hm.told hq hdue
        rw [deliver_eq hq, htold]
        refine ⟨hrest.frame rfl le_rfl (Table.within_remove _ _) (List.Subset.refl _),
          fun o' ho' hghost => ?_, ?_⟩
        · rcases mem_append.mp ho' with ho' | ho'
          · exact hout o' ho' hghost
          · rw [mem_singleton.mp ho']
            exact .completed hst hest hasks hdue htold
        · have hserved : served [o] = [w] := by simp [served, haddressee]
          rw [served_append, Option.toList_some, hserved, append_assoc]
          exact hperm.trans ((Table.values_remove hq).append_left _)
    | send tx server interface tcp payload =>
      cases hsend : d'.upstream.send os tx server interface tcp payload with
      | ok u =>
        simp only [oneSteps, performOne, hsend, append_nil, nil_append]
        exact ⟨hrest.frame rfl le_rfl (.refl _) (List.Subset.refl _), hout, hperm⟩
      | error error =>
        obtain ⟨op, hop, heq, hsteps⟩ := performOne_of_error (d := d') now hsend
        rw [heq, hsteps, append_nil]
        exact ⟨hrest.step op hop.asks,
          fun o ho hghost => (hout o ho hghost).mono (List.Subset.refl _) [_], hperm⟩
  · rintro new d' p out ⟨hm, hout, hperm⟩
    obtain ⟨hout', hserved⟩ := @said_ghost log (new ++ elog) out .unfinished rfl hout
    exact ⟨hm.frame rfl le_rfl (.refl _) (nil_subset _), hout', hserved ▸ hperm⟩

/-! ### Parts of a turn -/

variable {new : EngineLog} {d' : Daemon} {came left : List Waiter}

/-- What comes before the part: somebody has come or has left. -/
theorem Tells.after (h : Tells entropy log elog new d' [] [] r)
    (hperm : (d.waiting ++ came).Perm (d'.waiting ++ left)) :
    Tells entropy log elog new d came left r := by
  obtain ⟨hm, hout, hserved⟩ := h
  rw [append_nil, append_nil] at hserved
  refine ⟨hm, hout, hperm.trans ?_⟩
  rw [← append_assoc]
  exact hserved.append_right _

theorem Tells.append {new' : EngineLog} {came' : List Waiter} {r' : Daemon × List Output}
    (h : Tells entropy log elog new d came [] r)
    (h' : Tells entropy log (new ++ elog) new' r.1 came' [] r') :
    Tells entropy log elog (new' ++ new) d (came ++ came') [] (r'.1, r.2 ++ r'.2) := by
  obtain ⟨hm, hout, hperm⟩ := h
  obtain ⟨hm', hout', hperm'⟩ := h'
  unfold Tells
  rw [append_assoc]
  refine ⟨hm', fun o ho hghost => ?_, ?_⟩
  · rcases mem_append.mp ho with ho | ho
    · exact (hout o ho hghost).mono (List.Subset.refl _) new'
    · exact hout' o ho hghost
  · -- those of the first part first
    rw [append_nil] at hperm hperm' ⊢
    rw [← append_assoc d.waiting, served_append, append_assoc (served r.2)]
    refine (hperm.append_right _).trans ?_
    rw [append_assoc]
    exact hperm'.append_left _

theorem Tells.silent (h : Matched entropy log elog d' []) (hw : d'.waiters = d.waiters) :
    Tells entropy log elog [] d [] [] (d', []) :=
  ⟨h, (fun o ho => by cases ho), by simp [served, waiting, hw]⟩

/-- One thing is said, to one who has come with this. -/
theorem Tells.single {o : Output} (h : Matched entropy log (new ++ elog) d' [])
    (hw : d'.waiters = d.waiters) (ho : Justified log (new ++ elog) o)
    (hto : o.addressee = some w) : Tells entropy log elog new d [w] [] (d', [o]) := by
  refine ⟨h, fun _ ho' _ => mem_singleton.mp ho' ▸ ho, ?_⟩
  simp only [served, filterMap_cons, hto, filterMap_nil, waiting, hw, append_nil]
  exact perm_append_comm

theorem Tells.of_cons {est : Step Engine Op}
    (h : Tells entropy log (est :: elog) new d came left r) :
    Tells entropy log elog (new ++ [est]) d came left r := by
  unfold Tells at h ⊢
  rwa [append_cons] at h

variable (os : Os) (now : Instant)

section

variable (h : Matched entropy log elog d [])
include h

theorem Matched.operate (op : Op) (hask : op.asks = none) :
    Tells entropy log elog (operateSteps os now d op) d [] [] (operate os now d op) := by
  have hstep := h.step op hask
  exact (hstep.performUpTo os now (maxAttempts + 1)).of_cons

/-- **A question is asked**, and the one who asks waits for it. -/
theorem Matched.ask {st : Step Daemon Input} (hst : st ∈ log)
    (op : Qid → Op) (hasks : Asks st d.nextId w (op d.nextId)) :
    Tells entropy log elog (askSteps os now d w op) d [w] [] (ask os now d w op) := by
  have hask := hasks.asks
  have hnew : d.nextId ∉ asked elog := fun hmem => lt_irrefl _ (h.asked_lt _ hmem)
  have hasked : asked (⟨d.engine, op d.nextId⟩ :: elog) = d.nextId :: asked elog :=
    asked_cons_of_asks hask
  have hm : Matched entropy log (⟨d.engine, op d.nextId⟩ :: elog)
      { d with engine := (d.engine.apply (op d.nextId)).1, nextId := d.nextId + 1
               waiters := d.waiters.insert d.nextId w } (d.engine.apply (op d.nextId)).2 := by
    refine ⟨h.reached.after, ?_, fun q hq => ?_, fun q w' hq => ?_, fun q c hc =>
      mem_append_left _ hc⟩
    · rw [hasked]
      exact nodup_cons.mpr ⟨hnew, h.distinct⟩
    · rw [hasked] at hq
      rcases mem_cons.mp hq with rfl | hq
      · exact Nat.lt_succ_self _
      · exact (h.asked_lt q hq).trans (Nat.lt_succ_self _)
    · dsimp only at hq
      rw [Table.get_insert] at hq
      split at hq
      · next heq =>
        obtain rfl := Option.some.inj hq
        exact ⟨st, hst, _, mem_cons_self, heq ▸ hasks⟩
      · obtain ⟨st', hst', est, hest, hasks'⟩ := h.waits q w' hq
        exact ⟨st', hst', est, mem_cons_of_mem _ hest, hasks'⟩
  refine (hm.performUpTo os now (maxAttempts + 1)).of_cons.after ?_
  have hinsert : (d.waiters.insert d.nextId w).values = w :: d.waiting :=
    Table.values_insert h.unused w
  show (d.waiting ++ [w]).Perm ((d.waiters.insert d.nextId w).values ++ [])
  rw [hinsert, append_nil]
  exact perm_append_singleton _ _

theorem Matched.configure (op : Op) (hop : op.isConfig = true) :
    Tells entropy log elog [⟨d.engine, op⟩] d [] []
      ({ d with engine := (d.engine.apply op).1 }, []) := by
  have hask : op.asks = none := by cases op <;> first | rfl | cases hop
  have hm : Matched entropy log (⟨d.engine, op⟩ :: elog)
      { d with engine := (d.engine.apply op).1 } [] :=
    (h.step op hask).frame rfl le_rfl (.refl _) (nil_subset _)
  exact (Tells.silent hm rfl).of_cons

end

end Parts

/-! ### The doors -/

section Turn

variable {entropy : Entropy} {log : Log Daemon Input} {elog : EngineLog} {d : Daemon}

theorem Matched.serviceClient (h : Matched entropy log elog d []) {i : Input} (hst : ⟨d, i⟩ ∈ log)
    {id : ℕ} {progress : Progress} {permitted : Bool}
    (hwake : i.wake = .client id progress permitted) :
    Tells entropy log elog (clientSteps i.os i.now d id progress permitted) d (askers d i) []
      (serviceClient i.os i.now d id progress permitted) := by
  simp only [clientSteps, Daemon.serviceClient, askers, hwake]
  cases hget : d.clients.get id with
  | none => exact .silent h rfl
  | some client =>
    have hgone : Matched entropy log elog { d with clients := d.clients.remove id } [] :=
      h.frame rfl le_rfl (.refl _) (List.Subset.refl _)
    have hfresh : Matched entropy log elog
        { d with clients := d.clients.remove id, nextId := d.nextId + 1 } [] :=
      h.frame rfl (Nat.le_succ _) (.refl _) (List.Subset.refl _)
    cases progress with
    | incomplete => exact .silent h rfl
    | closed => exact .silent hgone rfl
    | reply reply => exact .single hgone rfl (.unread hst hget hwake) rfl
    | request request =>
      simp only [requestSteps, handleRequest]
      cases permitted with
      | false => exact .single hgone rfl (.direct hst hget hwake rfl) rfl
      | true =>
        cases request with
        | status => exact .single hfresh rfl (.direct hst hget hwake rfl) rfl
        | flush =>
          obtain ⟨hm, -⟩ := hfresh.configure .flush rfl
          exact .single hm rfl (.direct hst hget hwake rfl) rfl
        | resolve name rtype noCache =>
          exact hgone.ask i.os i.now hst (fun q => .resolve q name rtype noCache i.now)
            (.native hget hwake rfl)
        | lookup name family =>
          exact hgone.ask i.os i.now hst (fun q => .lookup q name family i.now)
            (.native hget hwake rfl)
        | reverse address =>
          exact hgone.ask i.os i.now hst (fun q => .reverse q address i.now)
            (.native hget hwake rfl)

theorem Matched.reorder {d' : Daemon} (h : Matched entropy log elog d []) (hr : Reorder d d') :
    Matched entropy log elog d' [] := by
  refine ⟨h.reached.reorder hr.engine, h.distinct, hr.nextId ▸ h.asked_lt, fun q w hq => ?_, h.due⟩
  rw [hr.waiters.get_eq] at hq
  exact h.waits q w hq

theorem handleStub_append (os : Os) (now : Instant) (incoming : List Incoming) (i : Incoming)
    (d : Daemon) :
    (handleStub os now (incoming ++ [i]) d).1 =
      (handleStubOne os now (handleStub os now incoming d).1 i).1 := by
  induction incoming generalizing d with
  | nil => rfl
  | cons i' incoming ih => exact ih _

theorem Matched.handleStub {st : Step Daemon Input} (hst : st ∈ log) (incoming part : List Incoming)
    (hwake : st.input.wake = .stub (incoming ++ part))
    (h : Matched entropy log elog (handleStub st.input.os st.input.now incoming st.before).1 []) :
    Tells entropy log elog
      (stubSteps st.input.os st.input.now part
        (Daemon.handleStub st.input.os st.input.now incoming st.before).1)
      (Daemon.handleStub st.input.os st.input.now incoming st.before).1
        (part.filterMap Incoming.asker) []
      (Daemon.handleStub st.input.os st.input.now part
        (Daemon.handleStub st.input.os st.input.now incoming st.before).1) := by
  -- on those that are still to be served; where there is no room, `incoming` are those before
  induction part generalizing incoming elog with
  | nil => exact .silent h rfl
  | cons i part ih =>
    have hi : i ∈ incoming ++ i :: part := mem_append_right _ mem_cons_self
    have hnext := handleStub_append st.input.os st.input.now incoming i st.before
    generalize hd : (Daemon.handleStub st.input.os st.input.now incoming st.before).1 =
      d at h hnext ⊢
    have hone : Tells entropy log elog (stubOneSteps st.input.os st.input.now d i) d
        i.asker.toList []
        (handleStubOne st.input.os st.input.now d i) := by
      unfold stubOneSteps handleStubOne Incoming.asker
      cases i with
      | nothing => exact .silent h rfl
      | query origin =>
        cases hq : origin.query.question with
        | none => simpa only [hq, Option.map_none, Option.toList_none] using Tells.silent h rfl
        | some question =>
          simp only [hq, Option.map_some, Option.toList_some]
          split
          · next hfull =>
            refine .single (h.reorder ⟨?_, .refl _, .refl _, .refl _, .refl _, rfl⟩) rfl ?_ rfl
            · exact ⟨rfl, rfl, rfl, rfl, .refl _, .refl _, .refl _, .refl _, .refl _, .refl _, rfl,
                rfl, rfl, rfl⟩
            · exact .overflow hst hwake (hd ▸ hfull)
          · exact h.ask _ _ hst (fun q => .resolveQuestion q question st.input.now)
              (.stub hwake hi hq)
    have hcame : (i :: part).filterMap Incoming.asker = i.asker.toList ++
        part.filterMap Incoming.asker := by
      cases hi : i.asker <;> simp [hi]
    have hrest := ih (incoming ++ [i]) (by rwa [append_assoc]) (hnext.symm ▸ hone.1)
    rw [hnext] at hrest
    rw [hcame]
    exact hone.append hrest

section

variable (h : Matched entropy log elog d [])
include h

theorem Matched.hangup (os : Os) (now : Instant) (q : Qid) :
    Tells entropy log elog (hangupSteps os now d q) d [] (leavers d ⟨.hangup q, now, os⟩)
      (hangup os now d q) := by
  simp only [hangupSteps, Daemon.hangup, leavers]
  cases hq : d.waiters.get q with
  | none => exact .silent h rfl
  | some w =>
    cases hs : w.streamFd.isSome with
    | false =>
      simp only [Option.filter_some, hs, Bool.false_eq_true, if_false, Option.toList_none]
      exact .silent h rfl
    | true =>
      have hless : Matched entropy log elog { d with waiters := d.waiters.remove q } [] :=
        h.frame rfl le_rfl (Table.within_remove _ _) (List.Subset.refl _)
      simp only [Option.filter_some, hs, if_true, Option.toList_some]
      refine (hless.operate os now (.abandon q) rfl).after ?_
      rw [append_nil]
      exact (Table.values_remove hq).trans (perm_append_singleton _ _).symm

theorem Matched.serviceUpstream (os : Os) (now : Instant) (tx : Txid) (ready : Upstream.Ready) :
    Tells entropy log elog (upstreamSteps os now d tx ready) d [] []
      (serviceUpstream os now d tx ready) := by
  have hsockets : ∀ u, Matched entropy log elog { d with upstream := u } [] :=
    fun u => h.frame rfl le_rfl (.refl _) (List.Subset.refl _)
  unfold upstreamSteps Daemon.serviceUpstream
  obtain ⟨u, event⟩ := d.upstream.service tx ready (d.engine.responseMatches tx)
  cases event with
  | none => exact .silent (hsockets u) rfl
  | some event =>
    cases event with
    | received bytes => exact (hsockets u).operate os now (.received tx bytes now) rfl
    | failed => exact (hsockets u).operate os now (.failed tx now) rfl

/-- **Every turn says to everybody what they asked for**, and loses nobody. -/
theorem Matched.turn {i : Input} (hst : ⟨d, i⟩ ∈ log) :
    Tells entropy log elog (turnSteps d i) d (askers d i) (leavers d i) (turn d i) := by
  obtain ⟨wake, now, os⟩ := i
  cases wake with
  | hangup q => exact h.hangup os now q
  | upstream tx ready => exact h.serviceUpstream os now tx ready
  | stub incoming => exact Matched.handleStub hst [] incoming rfl h
  | accept streams =>
    obtain ⟨n, clients, hn, heq⟩ := acceptOne_fold now (d := d)
      (d.waiters.select fun _ w => w.isNative).length (streams.take ioBatchLimit)
    simp only [turnSteps, Daemon.turn, acceptClients, heq]
    exact .silent (h.frame rfl hn (.refl _) (List.Subset.refl _)) rfl
  | client id progress permitted => exact h.serviceClient hst rfl
  | snapshot hostname scopes =>
    have hname := h.configure (.setHostname hostname) rfl
    exact hname.append (hname.1.configure (.setScopes scopes) rfl)
  | config servers search hosts =>
    have hfallback := h.configure (.setFallback servers search) rfl
    exact hfallback.append (hfallback.1.configure (.setHosts hosts) rfl)
  | tick =>
    obtain ⟨hm, hout, hperm⟩ := h.operate os now (.tick now) rfl
    simp only [turnSteps, Daemon.turn, Daemon.tick]
    exact ⟨hm.frame rfl le_rfl (.refl _) (List.Subset.refl _), hout, hperm⟩

end

end Turn

/-! ### Runs -/

theorem EngineLogOf.reorder {elog : EngineLog} {d' : Daemon} (h : EngineLogOf entropy log d elog)
    (hr : Reorder d d') : EngineLogOf entropy log d' elog := by
  obtain ⟨hostname, servers, search, hosts, hboot, rfl⟩ := h
  refine ⟨hostname, servers, search, hosts, ?_, rfl⟩
  cases log with
  | nil => exact hboot.trans hr
  | cons st log => exact hboot

theorem Runs.matched (h : Runs entropy log d) :
    ∃ elog, EngineLogOf entropy log d elog ∧ Matched entropy log elog d [] ∧
      ∀ st ∈ log, ∀ o ∈ (machine entropy).out st, o.isGhost = false → Justified log elog o := by
  refine Machine.Run.invariant (M := machine entropy)
    (I := fun log d => ∃ elog, EngineLogOf entropy log d elog ∧
    Matched entropy log elog d [] ∧ ∀ st ∈ log, ∀ o ∈ (machine entropy).out st, o.isGhost = false →
      Justified log elog o) ?_ ?_ ?_ h
  · rintro _ ⟨hostname, servers, search, hosts, rfl⟩
    have hfresh : Matched entropy [] [] { engine := withEntropy entropy } [] :=
      ⟨⟨_, .start rfl, .refl _⟩, nodup_nil, by simp [asked], by simp, by simp⟩
    obtain ⟨h₁, -⟩ := hfresh.configure (.setHostname hostname) rfl
    obtain ⟨h₂, -⟩ := h₁.configure (.setFallback servers search) rfl
    obtain ⟨h₃, -⟩ := h₂.configure (.setHosts hosts) rfl
    exact ⟨_, ⟨hostname, servers, search, hosts, .refl _, rfl⟩, h₃, by simp⟩
  · rintro log d d' ⟨elog, hof, hm, hout⟩ hr
    exact ⟨elog, hof.reorder hr, hm.reorder hr, hout⟩
  · rintro log d i ⟨elog, ⟨hostname, servers, search, hosts, hboot, rfl⟩, hm, hout⟩
    obtain ⟨hm', hout', -⟩ := (hm.cons ⟨d, i⟩).turn mem_cons_self
    refine ⟨_, ⟨hostname, servers, search, hosts, hboot, (append_assoc _ _ _).symm⟩, hm',
      fun st hst o ho hghost => ?_⟩
    rcases mem_cons.mp hst with rfl | hst
    · exact hout' o ho hghost
    · exact (hout st hst o ho hghost).mono (subset_cons_self _ _) _

theorem Runs.clean (h : Runs entropy log d)
    (hst : st ∈ log) : Clean ((machine entropy).out st) := by
  obtain ⟨new, old, rfl⟩ := append_of_mem hst
  obtain ⟨d₁, h₁⟩ := Machine.Run.of_suffix h
  obtain ⟨d₀, h₀, hidle, -⟩ := Machine.Run.of_cons h₁
  exact ((Runs.balanced h₀).reorder hidle |>.turn st.input).2

/-- Those who came in the course of a log. -/
def came (log : Log Daemon Input) : List Waiter := log.flatMap fun st => askers st.before st.input

/-- Those who hung up in the course of a log. -/
def left (log : Log Daemon Input) : List Waiter := log.flatMap fun st => leavers st.before st.input

theorem served_outs (entropy : Entropy) (log : Log Daemon Input) :
    served ((machine entropy).outs log) = log.flatMap fun st => served ((machine entropy).out st) :=
  filterMap_flatMap

/-- Those who came in the course of a run were served, have left, or wait. -/
theorem Runs.tally (h : Runs entropy log d) :
    (came log).Perm (served ((machine entropy).outs log) ++ left log ++ d.waiting) := by
  have hperm := Machine.Run.balance (M := machine entropy)
    (I := fun d => ∃ log elog, Matched entropy log elog d [])
    waiting (fun st => askers st.before st.input)
    (fun st => served ((machine entropy).out st) ++ leavers st.before st.input) (fun h hidle => ?_)
    (by rintro _ ⟨hostname, servers, search, hosts, rfl⟩; rfl)
      (fun _ _ hidle => hidle.waiters.values_perm)
    (fun st hI => ?_) h
  · rw [served_outs]
    exact hperm.trans ((flatMap_append_perm log _ _).symm.append_right _)
  · obtain ⟨elog, -, hm, -⟩ := Runs.matched h
    exact ⟨_, elog, hm.reorder hidle⟩
  · obtain ⟨log, elog, hm⟩ := hI
    obtain ⟨-, -, hturn⟩ := (hm.cons st).turn mem_cons_self
    refine hturn.trans ?_
    rw [append_assoc]
    exact perm_append_comm.append_left _

/-- **Those who wait, in the course of a run.**  Whoever waited before some turns or came with them
was served by them, has left with them, or waits after them. -/
theorem Runs.tally_since {new : Log Daemon Input} {d' : Daemon} (h : Runs entropy log d)
    (h' : Runs entropy (new ++ log) d') :
    (d.waiting ++ came new).Perm
      (served ((machine entropy).outs new) ++ left new ++ d'.waiting) := by
  classical
  refine perm_iff_count.mpr fun w => ?_
  have hold := h.tally.count_eq w
  have hall := Runs.tally h' |>.count_eq w
  simp only [came, left, Machine.outs, flatMap_append, served_append, count_append] at hold hall ⊢
  omega

/-- **Nobody is lost and nobody is served twice.**  In every run of the loop, whatever arrives in
whatever order and whichever sends fail, those who put a request to the daemon are, each as often as
they came: those to whom a reply was made, those who hung up, and those who wait.  When nobody comes
twice, nobody gets a second reply, and whoever got one neither waits nor has hung up. -/
theorem Runs.conserved {entropy : Entropy} {log : Log Daemon Input} {d : Daemon}
    (h : Runs entropy log d) :
    (came log).Perm (served ((machine entropy).outs log) ++ left log ++ d.waiting) ∧
    ((came log).Nodup → (served ((machine entropy).outs log)).Nodup ∧
      ∀ w ∈ served ((machine entropy).outs log), w ∉ left log ∧ w ∉ d.waiting) := by
  refine ⟨h.tally, fun honce => ?_⟩
  obtain ⟨hleft, -, hapart⟩ := nodup_append'.mp (h.tally.nodup honce)
  obtain ⟨hserved, -, hapart'⟩ := nodup_append'.mp hleft
  exact ⟨hserved, fun w hw => ⟨hapart' hw, hapart (mem_append_left _ hw)⟩⟩

/-- The client of the small run came with its request, and waits. -/
theorem conserved_requestOnLan :
    came (ran zeros requestOnLan).1 = [.native 40] ∧
      (ran zeros requestOnLan).2.waiting = [.native 40] ∧
      (came (ran zeros requestOnLan).1).Perm
        (served ((machine zeros).outs (ran zeros requestOnLan).1) ++ left
          (ran zeros requestOnLan).1 ++ [.native 40]) := by
  have hwaits : (ran zeros requestOnLan).2.waiting = [.native 40] := by rfl
  have h := (runs_ran zeros requestOnLan).conserved.1
  rw [hwaits] at h
  exact ⟨by rfl, hwaits, h⟩

end Resolvd.Daemon
