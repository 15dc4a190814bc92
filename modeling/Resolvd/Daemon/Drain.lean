import Resolvd.Daemon.Answers

/-!
# The timers alone serve everybody

A client of the daemon never waits for ever, even when no server answers, every interface is down
and every send fails: three turns of the timers, each a server timeout after the one before, empty
the tables (`Runs.drained`).

The engine does this in three ticks (`Engine.Due.tick`).  In the daemon a tick is followed by
`perform`, which reports the queries that cannot be sent as failures; the engine answers with
further queries, in the same turn and so with the same deadline, and each of them is charged
(`Worn.failure`).  The number of attempts therefore grows with every turn of the timers, whatever
the kernel does.
-/

namespace Resolvd.Engine

open Lib Dns List

variable {n : ℕ} {til : Instant} {e : Engine}

/-! ### What a failure costs -/

/-- The tables of the engine fit together, every transaction is due at `til`, and its task has used
`n` attempts. -/
structure Worn (n : ℕ) (til : Instant) (e : Engine) : Prop where
  linked : Linked [] e
  due : Due n til e

theorem Worn.reorder {e' : Engine} (h : Worn n til e) (hr : Reorder e e') : Worn n til e' :=
  ⟨h.linked.reorder hr, h.due.reorder hr⟩

theorem sound_of_linked (h : Linked [] e) (op : Op) : Sound ⟨e, op⟩ (.last ⟨e, op⟩) :=
  Path.sound h (apply_path _)

section

variable (h : Worn n til e)
include h

theorem Worn.configure (op : Op) (hop : op.isConfig = true) : Worn n til (e.apply op).1 :=
  ⟨(sound_of_linked h.linked op).linked, @Due.config n til ⟨e, op⟩ h.due hop⟩

/-- **A failure is charged**, and what is sent instead is due no later than the rest. -/
theorem Worn.failure (op : Op) (hop : Barren ⟨e, op⟩)
    (hnow : op.now + serverTimeout ≤ til) : Worn n til (e.apply op).1 := by
  have hs := sound_of_linked h.linked op
  refine ⟨hs.linked, fun tx x t hx ht => ?_⟩
  obtain ⟨t₀, ht₀, hmore, hsame⟩ := hop.charged h.linked x.task t ht
  -- no task has fewer attempts than before
  have hle : t₀.attempt ≤ t.attempt := by
    by_cases hre : t.Resent ⟨e, op⟩
    · exact (Nat.le_succ _).trans_eq (hmore hre).symm
    · exact (hsame hre).ge
  have hn : n ≤ t.attempt := by
    obtain ⟨tx₀, x₀, -, hx₀, htask⟩ := h.linked.task_tx _ t₀ ht₀ (by simp)
    exact (h.due tx₀ x₀ t₀ hx₀ (htask ▸ ht₀)).2.trans hle
  rcases lt_or_ge tx e.nextId with hlt | hge
  · obtain ⟨hx₀, t₁, -, ht₁, -⟩ := hs.traffic.old_tx tx x hx hlt
    exact ⟨(h.due tx x t₁ hx₀ ht₁).1, hn⟩
  · obtain ⟨hd, -⟩ := hs.traffic.new_tx tx x hx hge
    exact ⟨hd.trans_le hnow, hn⟩

theorem Worn.tick {now : Instant} (hle : til ≤ now) :
    Worn (n + 1) (now + serverTimeout) (e.apply (.tick now)).1 := by
  have hs := sound_of_linked h.linked (.tick now)
  exact ⟨hs.linked, Due.tick hs h.due rfl hle⟩

theorem Worn.abandon (q : Qid) : Worn n til (e.apply (.abandon q)).1 := by
  refine ⟨(sound_of_linked h.linked (.abandon q)).linked, fun tx x t hx ht => ?_⟩
  obtain ⟨htasks, hcancelled, hkept, -⟩ := abandon_spec e q
  simp only [apply, htasks, Option.filter_eq_some_iff] at hx ht
  by_cases hc : .cancel tx ∈ (e.abandon q).2
  · rw [hcancelled tx hc] at hx
    cases hx
  · rw [hkept tx hc] at hx
    exact h.due tx x t hx ht.1

theorem Worn.empty (hn : maxAttempts < n) (ha : Attempts [] e) : ∀ id, e.tasks.get id = none := by
  intro id
  cases ht : e.tasks.get id with
  | none => rfl
  | some t =>
    obtain ⟨tx, x, -, hx, rfl⟩ := h.linked.task_tx id t ht (by simp)
    exact absurd ((h.due tx x t hx ht).2.trans (ha x.task t ht).2) (not_le.mpr hn)

end

theorem Reached.lookups_none {entropy : Entropy} {log : EngineLog} (h : Reached entropy log e)
    (htasks : ∀ id, e.tasks.get id = none) (q : Qid) : e.lookups.get q = none := by
  obtain ⟨e₀, h₀, hr⟩ := h
  cases hq : e.lookups.get q with
  | none => rfl
  | some l =>
    obtain ⟨hne, hp⟩ := h₀.waiting q l (hr.lookups.get_eq q ▸ hq)
    obtain ⟨id, hid⟩ := exists_mem_of_ne_nil _ hne
    have howned := hp id hid
    rw [ownerOf, ← hr.tasks.get_eq, htasks] at howned
    cases howned

end Resolvd.Engine

namespace Resolvd.Daemon

open Lib Dns Engine List

variable {log : Log Daemon Input}

/-! ### Carrying out actions -/

section Perform

variable {n : ℕ} {til : Instant} {d : Daemon} (os : Os) (now : Instant)

theorem worn_performOne (h : Worn n til d.engine) (hnow : now + serverTimeout ≤ til) (a : Action) :
    Worn n til (performOne os now d a).1.engine := by
  cases a with
  | cancel tx => exact h
  | done q c =>
    simp only [performOne, engine_deliver]
    exact h
  | send tx server interface tcp payload =>
    unfold performOne
    dsimp only
    split
    · exact h
    · split
      · exact h.failure (.localFailed tx now) (Fails.barren trivial) hnow
      · exact h.failure (.failed tx now) (Fails.barren trivial) hnow

theorem worn_performUpTo (k : ℕ) (h : Worn n til d.engine) (hnow : now + serverTimeout ≤ til)
    (p : List Action) : Worn n til (performUpTo os now k d p).1.engine :=
  performUpTo_rule os now (I := fun _ d _ _ => Worn n til d.engine)
    (fun _ _ a _ _ h => worn_performOne os now h hnow a) (fun _ _ _ _ h => h) k [] [] h

/-- Without a query to be sent, `perform` leaves the engine alone. -/
theorem engine_performUpTo (k : ℕ) (d : Daemon) {p : List Action} (hp : sents p = []) :
    (performUpTo os now k d p).1.engine = d.engine := by
  have hrule := performUpTo_rule os now (I := fun _ d' p _ => sents p = [] ∧
    d'.engine = d.engine) ?_
    (fun _ _ _ _ h => ⟨rfl, h.2⟩) k [] [] ⟨hp, rfl⟩
  · exact hrule.2
  · rintro new d' a p out ⟨hp, he⟩
    cases a with
    | send tx server interface tcp payload => simp [sents, Action.sent] at hp
    | cancel tx => exact ⟨(append_nil p).symm ▸ hp, he⟩
    | done q c => exact ⟨(append_nil p).symm ▸ hp, (engine_deliver d' q c).trans he⟩

end Perform

/-! ### Turns that bring no question and nothing from a server -/

/-- The client wants something the engine has to work for. -/
def Request.isQuestion : Request → Bool
  | .resolve .. | .lookup .. | .reverse _ => true
  | .status | .flush => false

/-- The turn puts no question to the engine, and tells it nothing about a query: of what is ready
for reading, nothing is a whole reply yet, and no socket has failed. -/
def Wake.isQuiet (d : Daemon) : Wake → Bool
  | .hangup _ | .accept _ | .snapshot .. | .config .. | .tick => true
  | .client _ (.request request) _ => !request.isQuestion
  | .client .. => true
  | .upstream tx ready => (d.upstream.service tx ready (d.engine.responseMatches tx)).2.isNone
  | .stub incoming => incoming.all fun i => i.asker.isNone

def Wake.isTimer : Wake → Bool
  | .tick => true
  | _ => false

/-- When the timers were served, oldest first. -/
def timers (log : Log Daemon Input) : List Instant :=
  (log.reverse.filter fun st => st.input.wake.isTimer).map fun st => st.input.now

section Turn

variable {n : ℕ} {til : Instant} {d : Daemon} {i : Input}

theorem worn_hangup (h : Worn n til d.engine) (os : Os) (now : Instant) (q : Qid) :
    Worn n til (hangup os now d q).1.engine := by
  unfold Daemon.hangup
  split
  · exact h
  · split
    · have hcancels : sents (d.engine.abandon q).2 = [] := by
        refine filterMap_eq_nil_iff.mpr fun a ha => ?_
        obtain ⟨-, -, -, hacts, -⟩ := abandon_spec d.engine q
        obtain ⟨tx, id, t, rfl, -⟩ := (hacts a).mp ha
        rfl
      have hengine := engine_performUpTo os now (maxAttempts + 1)
        { d with waiters := d.waiters.remove q, engine := (d.engine.apply (.abandon q)).1 } hcancels
      exact hengine ▸ h.abandon q
    · exact h

theorem worn_handleRequest (h : Worn n til d.engine) (os : Os) (now : Instant) (stream : Stream)
    {request : Request} (hq : request.isQuestion = false) (permitted : Bool) :
    Worn n til (handleRequest os now d stream request permitted).1.engine := by
  unfold Daemon.handleRequest
  split
  · exact h
  · cases request with
    | status => exact h
    | flush => exact h.configure .flush rfl
    | resolve name rtype noCache => cases hq
    | lookup name family => cases hq
    | reverse address => cases hq

/-- What holds no question leaves the daemon alone. -/
theorem handleStub_quiet (os : Os) (now : Instant) {incoming : List Incoming}
    (h : ∀ i ∈ incoming, i.asker = none) : (handleStub os now incoming d).1 = d := by
  induction incoming with
  | nil => rfl
  | cons i incoming ih =>
    have hone : handleStubOne os now d i = (d, []) := by
      have hi := h i mem_cons_self
      cases i with
      | nothing => rfl
      | query origin => simp only [handleStubOne, Option.map_eq_none_iff.mp hi]
    simp only [handleStub, hone]
    exact ih fun i hi => h i (mem_cons_of_mem _ hi)

/-- A quiet turn other than the timers leaves transactions and attempts as they are. -/
theorem worn_turn (h : Worn n til d.engine) (hi : i.wake.isQuiet d = true)
    (hno : i.wake.isTimer = false) : Worn n til (turn d i).1.engine := by
  obtain ⟨wake, now, os⟩ := i
  cases wake with
  | hangup q => exact worn_hangup h os now q
  | upstream tx ready =>
    simp only [Daemon.turn, serviceUpstream]
    split
    · next heq => simp [Wake.isQuiet, heq] at hi
    · next heq => simp [Wake.isQuiet, heq] at hi
    · exact h
  | stub incoming =>
    have hno : ∀ i ∈ incoming, i.asker = none := by simpa [Wake.isQuiet] using hi
    simp only [Daemon.turn, handleStub_quiet os now hno]
    exact h
  | accept streams =>
    obtain ⟨n, clients, -, heq⟩ := acceptOne_fold now (d := d)
      (d.waiters.select fun _ w => w.isNative).length (streams.take ioBatchLimit)
    simp only [Daemon.turn, acceptClients, heq]
    exact h
  | client id progress permitted =>
    simp only [Daemon.turn, serviceClient]
    split
    · exact h
    · cases progress with
      | incomplete => exact h
      | closed => exact h
      | reply reply => exact h
      | request request =>
        have hq : request.isQuestion = false := by simpa [Wake.isQuiet] using hi
        exact worn_handleRequest (d := { d with clients := d.clients.remove id }) h os now _ hq
          permitted
  | snapshot hostname scopes =>
    exact (h.configure (.setHostname hostname) rfl).configure (.setScopes scopes) rfl
  | config servers search hosts =>
    exact (h.configure (.setFallback servers search) rfl).configure (.setHosts hosts) rfl
  | tick => cases hno

/-- **The timers cost every task an attempt.** -/
theorem worn_turn_tick (h : Worn n til d.engine) (hi : i.wake.isTimer = true) (hle : til ≤ i.now) :
    Worn (n + 1) (i.now + serverTimeout) (turn d i).1.engine := by
  obtain ⟨wake, now, os⟩ := i
  obtain rfl : wake = .tick := by
    cases wake <;> first | rfl | cases hi
  have hticked : Worn (n + 1) (now + serverTimeout) (d.engine.apply (.tick now)).1 := h.tick hle
  have hperform := worn_performUpTo os now (maxAttempts + 1)
    (d := { d with engine := (d.engine.apply (.tick now)).1 })
    hticked (le_refl _) (d.engine.apply (.tick now)).2
  simp only [Daemon.turn, Daemon.tick, operate, perform]
  exact hperform

end Turn

/-! ### Runs -/

theorem timers_append (new : Log Daemon Input) (st : Step Daemon Input) :
    timers (new ++ [st]) = if st.input.wake.isTimer then st.input.now :: timers new
      else timers new := by
  cases hw : st.input.wake.isTimer <;> simp [timers, hw]

theorem Runs.spent {entropy : Entropy} {new : Log Daemon Input} {n : ℕ} {til : Instant}
    (hstart : ∀ d, Runs entropy log d → Worn n til d.engine)
    (hquiet : ∀ st ∈ new, st.input.wake.isQuiet st.before = true) (hsp : Spaced til (timers new))
    {d : Daemon} (h : Runs entropy (new ++ log) d) :
    ∃ til', Worn (n + (timers new).length) til' d.engine := by
  -- on the turns, oldest first
  induction new using List.reverseRecOn generalizing log n til with
  | nil => exact ⟨til, hstart d h⟩
  | append_singleton new st ih =>
    rw [append_assoc, singleton_append] at h
    obtain ⟨d₁, h₁⟩ := Machine.Run.of_suffix h
    have hbefore : Worn n til st.before.engine := by
      obtain ⟨d₀, h₀, hidle, -⟩ := Machine.Run.of_cons h₁
      exact (hstart d₀ h₀).reorder hidle.engine
    have hafter : ∀ d, Runs entropy (st :: log) d → d = (turn st.before st.input).1 := by
      intro d hd
      obtain ⟨-, -, -, heq⟩ := Machine.Run.of_cons hd
      exact heq
    have hmore : ∀ st' ∈ new, st'.input.wake.isQuiet st'.before = true :=
      fun st' hmem => hquiet st' (mem_append_left _ hmem)
    rw [timers_append] at hsp ⊢
    split at hsp
    · next hw =>
      have hturn := worn_turn_tick hbefore hw hsp.1
      obtain ⟨til', hd⟩ := ih (fun d hd => hafter d hd ▸ hturn) hmore hsp.2 h
      have hlen : n + 1 + (timers new).length = n + (st.input.now :: timers new).length := by
        rw [length_cons, Nat.add_assoc, Nat.add_comm 1]
      exact ⟨til', by rw [if_pos hw]; exact hlen ▸ hd⟩
    · next hw =>
      have hturn := worn_turn hbefore (hquiet st (by simp)) (Bool.eq_false_of_not_eq_true hw)
      rw [if_neg hw]
      exact ih (fun d hd => hafter d hd ▸ hturn) hmore hsp h

theorem txs_boot (entropy : Entropy) (hostname : Option Bytes) (servers : List IpAddr)
    (search : List Name) (hosts : Hosts) :
    (boot entropy hostname servers search hosts).engine.txs = Table.empty := by
  obtain ⟨-, -, -, htxs, -⟩ := @configure_tasks ((withEntropy entropy).setHostname hostname)
    (.setFallback servers search) rfl
  exact htxs

theorem Runs.txs_eq {entropy : Entropy} {d d' : Daemon} (h : Runs entropy log d)
    (h' : Runs entropy log d') : d'.engine.txs = d.engine.txs := by
  cases h with
  | start hs =>
    cases h' with
    | start hs' =>
      -- the daemon is started with one of many configurations, but nothing is under way
      obtain ⟨hostname, servers, search, hosts, rfl⟩ := hs
      obtain ⟨hostname', servers', search', hosts', rfl⟩ := hs'
      rw [txs_boot, txs_boot]
  | step h hidle i =>
    cases h' with
    | step h' hidle' i => rfl

/-- **The timers alone serve everybody.**  From any state of a run of the loop, in which every query
is due at `t₁`, let clients connect and hang up, let parts of replies and what is no query arrive,
let the configuration change, and let the timers be served at `t₁`, `t₂` and `t₃`, each a server
timeout after the one before; and let every send fail or none of them.  Then nobody waits and no
socket is open; and whoever waited at the beginning or came since was served or has hung up. -/
theorem Runs.drained {entropy : Entropy} {log new : Log Daemon Input} {d d' : Daemon}
    {t₁ t₂ t₃ : Instant} (h : Runs entropy log d) (h' : Runs entropy (new ++ log) d')
    (hquiet : ∀ st ∈ new, st.input.wake.isQuiet st.before = true)
    (htimers : timers new = [t₁, t₂, t₃])
    (h₁ : ∀ tx x, d.engine.txs.get tx = some x → x.deadline ≤ t₁) (h₂ : t₁ + serverTimeout ≤ t₂)
    (h₃ : t₂ + serverTimeout ≤ t₃) :
    d'.waiting = [] ∧ (∀ tx, d'.upstream.udp.get tx = none ∧ d'.upstream.tcp.get tx = none) ∧
    (d.waiting ++ came new).Perm (served ((machine entropy).outs new) ++ left new) := by
  have hstart : ∀ d₀, Runs entropy log d₀ → Worn 1 t₁ d₀.engine := by
    intro d₀ h₀
    obtain ⟨elog, hbooks⟩ := Runs.balanced h₀
    refine ⟨hbooks.linked, fun tx x t hx ht =>
      ⟨h₁ tx x ?_, (hbooks.reached.attempts x.task t ht).1 (by simp)⟩⟩
    rwa [← Runs.txs_eq h h₀]
  have hsp : Spaced t₁ (timers new) := by
    rw [htimers]
    exact ⟨le_refl _, h₂, h₃, trivial⟩
  obtain ⟨til, hspent⟩ := Runs.spent hstart hquiet hsp h'
  obtain ⟨elog, hbooks⟩ := Runs.balanced h'
  have htasks : ∀ id, d'.engine.tasks.get id = none := by
    refine hspent.empty ?_ hbooks.reached.attempts
    rw [htimers]
    show maxAttempts < 1 + 3
    decide
  have htxs : ∀ tx, ¬ Live d'.engine tx := by
    rintro tx ⟨x, hx⟩
    obtain ⟨-, t, ht, -⟩ := hbooks.linked.tx_task tx x hx
    rw [htasks] at ht
    cases ht
  have hwaits : d'.waiting = [] := by
    refine eq_nil_iff_forall_not_mem.mpr fun w hw => ?_
    obtain ⟨q, hq⟩ := Table.mem_values.mp hw
    refine (hbooks.attended.waits_iff hbooks.ledger q).mp (by rw [hq]; rfl) ⟨fun id o ho => ?_, ?_⟩
    · rw [ownerOf, htasks] at ho
      cases ho
    · exact hbooks.reached.lookups_none htasks q
  refine ⟨hwaits, fun tx => ?_, ?_⟩
  · have hclosed := mt (hbooks.wired.open_iff tx).mp (htxs tx)
    simp only [Upstream.Open, not_or] at hclosed
    exact ⟨Option.not_isSome_iff_eq_none.mp hclosed.1, Option.not_isSome_iff_eq_none.mp hclosed.2⟩
  · have hperm := Runs.tally_since h h'
    rwa [hwaits, append_nil] at hperm

/-- The interface of the small run goes away: no socket can be opened any more. -/
def lanGone : List Input :=
  let os : Os := { ifNametoindex := fun _ => 0, connect := fun _ => some (.fromRawOsError Libc.ENOBUFS) }
  [⟨.tick, secs 10, os⟩, ⟨.accept [41], secs 11, os⟩, ⟨.stub [.nothing], secs 11, os⟩,
    ⟨.tick, secs 12, os⟩, ⟨.tick, secs 14, os⟩]

/-- Its client gets a reply all the same. -/
theorem drained_lanGone :
    (ran zeros requestOnLan).2.waiting = [.native 40] ∧
      ((machine zeros).exec (ran zeros requestOnLan).2 lanGone).2.waiting = [] ∧
      served ((machine zeros).outs ((machine zeros).exec (ran zeros requestOnLan).2 lanGone).1) =
        [.native 40] := by
  have h := runs_ran zeros requestOnLan
  have h' := Machine.Run.exec (M := machine zeros) Reorder.refl h lanGone
  have hlate : ((ran zeros requestOnLan).2.engine.txs.select fun _ x => secs 10 < x.deadline) =
      [] := by decide +kernel
  have h₁ : ∀ tx x, (ran zeros requestOnLan).2.engine.txs.get tx = some x →
      x.deadline ≤ secs 10 := by
    intro tx x hx
    by_contra hd
    have hmem : tx ∈ (ran zeros requestOnLan).2.engine.txs.select fun _ x => secs 10 < x.deadline :=
      Table.mem_select.mpr ⟨x, hx, by simpa using hd⟩
    rw [hlate] at hmem
    cases hmem
  have hquiet : ∀ st ∈ ((machine zeros).exec (ran zeros requestOnLan).2 lanGone).1,
      st.input.wake.isQuiet st.before = true := by
    intro st hst
    have hmem := Machine.exec_input hst
    revert hmem
    generalize st.input = i
    simp only [lanGone, mem_cons, not_mem_nil, or_false]
    rintro (rfl | rfl | rfl | rfl | rfl) <;> rfl
  obtain ⟨hempty, -, hperm⟩ := Runs.drained h h' hquiet (by rfl) h₁ (by decide) (by decide)
  refine ⟨by rfl, hempty, ?_⟩
  have hwaited : (ran zeros requestOnLan).2.waiting ++ came
      ((machine zeros).exec (ran zeros requestOnLan).2 lanGone).1 =
      [.native 40] := by rfl
  have hleft : left ((machine zeros).exec (ran zeros requestOnLan).2 lanGone).1 = [] := by rfl
  rw [hwaited, hleft, append_nil] at hperm
  exact singleton_perm.mp hperm

end Resolvd.Daemon
