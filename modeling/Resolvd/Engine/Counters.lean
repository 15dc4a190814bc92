import Resolvd.Engine.Invariants

/-!
# What is counted

Every query that is sent is counted, and every transaction that ends is counted once more when it
ends (`Counters`).  `Booked e r` says what a method that moves one loose task does to the counters
and to the number of transactions; it holds of everything from `settle` to `advance`, and the public
methods put it together with the transactions they close.

* `Runs.in_flight`: at most `MAX_IN_FLIGHT` transactions are live, a task that has one is never refused its next one, and
  a question that is answered on the spot is not refused either;
* `Counted.accounting`: the transactions that were started are those that are live, were answered, failed or cancelled.
-/

namespace Resolvd.Engine

open Lib Dns List

variable {e₁ : Engine} {r : Engine × List Action} {j : ℕ}

/-! ### Moving one task -/

/-- How many queries the actions send. -/
def sends (acts : List Action) : ℕ := (acts.filterMap Action.sent).length

theorem sends_append (as bs : List Action) : sends (as ++ bs) = sends as + sends bs := by
  simp only [sends, filterMap_append, length_append]

/-- The ids that are still to be given away are not those of transactions. -/
def FreshIds (e : Engine) : Prop := ∀ tx, e.nextId ≤ tx → e.txs.get tx = none

/-- What moving a task does to the counters: what it sends is counted and live; the other ends of a
transaction are not its business; and it is refused only at the ceiling, or when the entropy source
fails. -/
structure Booked (e : Engine) (r : Engine × List Action) : Prop where
  sent : r.1.counters.upstreamSent = e.counters.upstreamSent + sends r.2
  answered : r.1.counters.upstreamAnswered = e.counters.upstreamAnswered
  failed : r.1.counters.upstreamFailed = e.counters.upstreamFailed
  queries : r.1.counters.queries = e.counters.queries
  len : r.1.txs.len = e.txs.len + sends r.2
  room : e.txs.len ≤ maxInFlight → r.1.txs.len ≤ maxInFlight
  fresh : FreshIds r.1
  entropy : r.1.entropy = e.entropy
  draws : e.draws ≤ r.1.draws
  refused_le : r.1.counters.refused ≤ e.counters.refused + 1
  refused : e.txs.len < maxInFlight → (∀ n, e.draws ≤ n → n < r.1.draws → e.entropy n ≠ none) →
    r.1.counters.refused = e.counters.refused

/-- The states have the same transactions, and differ in the counters at most in what is answered on
the spot. -/
structure Even (e e₁ : Engine) : Prop where
  txs : e₁.txs = e.txs
  nextId : e₁.nextId = e.nextId
  entropy : e₁.entropy = e.entropy
  draws : e₁.draws = e.draws
  counters : e₁.counters =
    { e.counters with cacheHits := e₁.counters.cacheHits, synthetic := e₁.counters.synthetic }

theorem Even.fresh {e : Engine} (h : Even e e₁) (hfresh : FreshIds e) : FreshIds e₁ := by
  intro tx htx
  rw [h.txs]
  exact hfresh tx (h.nextId ▸ htx)

theorem Even.booked {e : Engine} (h : Even e e₁) (hr : Booked e₁ r) : Booked e r := by
  obtain ⟨h1, h2, h3, h4, h5, h6, h7, h8, h9, h10, h11⟩ := hr
  rw [h.counters] at h1 h2 h3 h4 h10 h11
  rw [h.txs] at h5 h6 h11
  rw [h.entropy] at h8 h11
  rw [h.draws] at h9 h11
  exact ⟨h1, h2, h3, h4, h5, h6, h7, h8, h9, h10, h11⟩

section Booked

variable {e : Engine} {id : TaskId} {t : Task} {now : Instant}

theorem Even.refl (e : Engine) : Even e e := ⟨rfl, rfl, rfl, rfl, rfl⟩

theorem even_updateTask (e : Engine) (id : TaskId) (f : Task → Task) : Even e (e.updateTask id f) :=
  ⟨rfl, rfl, rfl, rfl, rfl⟩

theorem sends_settled (e : Engine) (id : TaskId) (t : Task) (a : Answer) :
    sends (e.settled id t a).2 = 0 := by
  refine length_eq_zero_iff.mpr (filterMap_eq_nil_iff.mpr fun x hx => ?_)
  obtain ⟨c, rfl⟩ := settled_done hx
  rfl

/-- A task is settled, after it may have been refused. -/
theorem booked_settle {e₁ : Engine} (hfresh : FreshIds e) (ht : e₁.tasks.get id = some t)
    (htx : t.tx = none) (a : Answer) (htxs : e₁.txs = e.txs) (hnext : e₁.nextId = e.nextId)
    (hentropy : e₁.entropy = e.entropy) (hdraws : e.draws ≤ e₁.draws)
    (hcounters : e₁.counters = { e.counters with
      cacheHits := e₁.counters.cacheHits, synthetic := e₁.counters.synthetic, refused :=
        e₁.counters.refused }) (hle : e₁.counters.refused ≤ e.counters.refused + 1)
    (hrefused : e.txs.len < maxInFlight → (∀ n, e.draws ≤ n → n < e₁.draws → e.entropy n ≠ none) →
      e₁.counters.refused = e.counters.refused) : Booked e (e₁.settle id a) := by
  rw [settle_eq ht htx]
  have hsends := sends_settled e₁ id t a
  constructor
  case len => simp only [hsends, htxs, Nat.add_zero]
  case room => simp only [htxs, imp_self]
  case fresh => exact fun tx htx => by rw [htxs]; exact hfresh tx (hnext ▸ htx)
  case entropy => exact hentropy
  case draws => exact hdraws
  case refused_le => exact hle
  case refused => exact hrefused
  all_goals
    dsimp only
    rw [hcounters]
  case sent => rw [hsends]; rfl

theorem booked_settle_of_even {e₁ : Engine} (heven : Even e e₁) (hfresh : FreshIds e)
    (ht : e₁.tasks.get id = some t) (htx : t.tx = none) (a : Answer) :
    Booked e (e₁.settle id a) := by
  have hrefused : e₁.counters.refused = e.counters.refused := by rw [heven.counters]
  refine booked_settle hfresh ht htx a heven.txs heven.nextId heven.entropy
    heven.draws.ge ?_ ?_ fun _ _ => hrefused
  · rw [heven.counters]
  · rw [hrefused]
    exact Nat.le_succ _

section

variable (hfresh : FreshIds e)
include hfresh

theorem booked_launch (hroom : e.txs.len < maxInFlight) (server : IpAddr) (tcp : Bool) (random) :
    Booked e ({ e with draws := e.draws + 1 }.launch id t server tcp random now) := by
  have hlen : ({ e with draws := e.draws + 1 }.launch id t server tcp random now).1.txs.len =
      e.txs.len + 1 :=
    Table.len_insert (hfresh e.nextId (le_refl _)) _
  constructor
  case len => exact hlen
  case room => exact fun _ => hlen ▸ hroom
  case fresh =>
    intro tx htx
    have hne : tx ≠ e.nextId := Nat.ne_of_gt htx
    exact (launch_txs_ne _ _ _ _ hne).trans (hfresh tx (Nat.le_of_succ_le htx))
  case draws => exact Nat.le_succ _
  case refused_le => exact Nat.le_succ _
  case refused => exact fun _ _ => rfl
  all_goals rfl

section

variable (ht : e.tasks.get id = some t) (htx : t.tx = none)
include ht htx

theorem booked_send (server : IpAddr)
    (tcp : Bool) (now : Instant) : Booked e (e.send id server tcp now) := by
  unfold send
  rw [ht]
  dsimp only
  split
  · exact booked_settle_of_even (.refl e) hfresh ht htx _
  · split
    · next hfull =>
      refine booked_settle hfresh ?_ htx _ rfl rfl rfl ?_ rfl ?_ fun hroom =>
        absurd hroom (not_lt.mpr hfull)
      · exact ht
      · exact le_refl _
      · exact le_refl _
    · next hroom =>
      split
      · next hfail =>
        refine booked_settle hfresh ?_ htx _ rfl rfl rfl ?_ rfl ?_ fun _ hok => ?_
        · exact ht
        · exact Nat.le_succ _
        · exact le_refl _
        · exact absurd hfail (hok e.draws (le_refl _) (Nat.lt_succ_self _))
      · exact booked_launch hfresh (not_le.mp hroom) _ _ _

theorem booked_nextAttempt (now : Instant) : Booked e (e.nextAttempt id now) := by
  unfold nextAttempt
  rw [ht]
  dsimp only
  split
  · exact booked_settle_of_even (.refl e) hfresh ht htx _
  · split
    · exact booked_settle_of_even (.refl e) hfresh ht htx _
    · next first rest _ =>
      have heven := even_updateTask e id fun t' =>
        { t' with tried := t'.tried ++ [pickServer t.tried (first :: rest) first] }
      exact heven.booked (booked_send (heven.fresh hfresh) (get_updateTask_self ht _) htx _ _ _)

theorem booked_nextCandidateLoop (rtype : UInt16) (noCache : Bool) (now : Instant)
    (cs : List Name) : Booked e (nextCandidateLoop id rtype noCache now cs e) := by
  induction cs generalizing e t with
  | nil => exact booked_settle_of_even (.refl e) hfresh ht htx _
  | cons c rest ih =>
    cases hs : e.route c with
    | none =>
      rw [nextCandidateLoop_unroutable hs]
      exact booked_settle_of_even (.refl e) hfresh ht htx _
    | some s =>
      rw [nextCandidateLoop_cons hs]
      have hget := get_updateTask_self ht fun t => t.choose c rest s
      -- however the cache was asked, the task is at the candidate and nothing is booked yet
      have hattempt : ∀ e₁, Even e e₁ → e₁.tasks.get id = some (t.choose c rest s) →
          Booked e (e₁.nextAttempt id now) :=
        fun e₁ heven ht₁ => heven.booked (booked_nextAttempt (heven.fresh hfresh) ht₁ htx now)
      have hloop : ∀ e₁, Even e e₁ → e₁.tasks.get id = some (t.choose c rest s) →
          Booked e (nextCandidateLoop id rtype noCache now rest e₁) :=
        fun e₁ heven ht₁ => heven.booked (ih (heven.fresh hfresh) ht₁ htx)
      have hsettle : ∀ e₁ a, Even e e₁ → e₁.tasks.get id = some (t.choose c rest s) →
          Booked e (e₁.settle id a) :=
        fun e₁ a heven ht₁ => booked_settle_of_even heven hfresh ht₁ htx a
      dsimp only
      split
      · exact hattempt _ ⟨rfl, rfl, rfl, rfl, rfl⟩ hget
      · split
        · exact hattempt _ ⟨rfl, rfl, rfl, rfl, rfl⟩ hget
        · split
          · exact hloop _ ⟨rfl, rfl, rfl, rfl, rfl⟩ hget
          · exact hsettle _ _ ⟨rfl, rfl, rfl, rfl, rfl⟩ hget

theorem booked_nextCandidate (now : Instant) : Booked e (e.nextCandidate id now) := by
  unfold nextCandidate
  rw [ht]
  exact booked_nextCandidateLoop hfresh ht htx _ _ _ _

theorem booked_advance (now : Instant) : Booked e (e.advance id now) := by
  unfold advance
  rw [ht]
  dsimp only
  split
  · split
    · have heven : Even e (e.count fun c => { c with synthetic := c.synthetic + 1 }) :=
        ⟨rfl, rfl, rfl, rfl, rfl⟩
      exact booked_settle_of_even heven hfresh ht htx _
    · split
      · exact booked_settle_of_even (.refl e) hfresh ht htx _
      · have heven := even_updateTask e id fun t' =>
          { t' with candidates := e.candidates t.original }
        exact heven.booked (booked_nextCandidate (heven.fresh hfresh)
          (get_updateTask_self ht _) htx now)
  · exact booked_nextCandidate hfresh ht htx now

end

end

end Booked

/-! ### The operations -/

/-- What an operation does to the counters: every query it sends is counted, and so are the
questions it asks; every transaction it ends is counted as answered or failed, as both when the
reply was rejected, and not at all when it was cancelled with its question. -/
structure Accounts (e : Engine) (r : Engine × List Action) (asked rejected cancelled : ℕ) :
    Prop where
  sent : r.1.counters.upstreamSent = e.counters.upstreamSent + sends r.2
  queries : r.1.counters.queries = e.counters.queries + asked
  ends : r.1.txs.len + r.1.counters.upstreamAnswered + r.1.counters.upstreamFailed + cancelled =
    e.txs.len + e.counters.upstreamAnswered + e.counters.upstreamFailed + sends r.2 + rejected
  failed : e.counters.upstreamFailed + rejected ≤ r.1.counters.upstreamFailed
  room : e.txs.len ≤ maxInFlight → r.1.txs.len ≤ maxInFlight
  entropy : r.1.entropy = e.entropy

theorem Booked.accounts {e : Engine} (h : Booked e r) : Accounts e r 0 0 0 where
  sent := h.sent
  queries := h.queries
  ends := by rw [h.len, h.answered, h.failed]; omega
  failed := h.failed.ge
  room := h.room
  entropy := h.entropy

theorem Accounts.trans {e e₂ : Engine} {as bs : List Action} {i k i' j' k' : ℕ}
    (h : Accounts e (e₁, as) i j k) (h' : Accounts e₁ (e₂, bs) i' j' k') :
    Accounts e (e₂, as ++ bs) (i + i') (j + j') (k + k') := by
  obtain ⟨h1, h2, h3, h4, h5, h6⟩ := h
  obtain ⟨h1', h2', h3', h4', h5', h6'⟩ := h'
  dsimp only at *
  refine ⟨?_, ?_, ?_, ?_, fun hroom => h5' (h5 hroom), h6'.trans h6⟩
  all_goals
    simp only [sends_append]
    omega

/-- An operation that gives tasks their next transaction in the place of an old one is refused
nothing, as long as the entropy source succeeds. -/
structure Resumes (e : Engine) (r : Engine × List Action) (rejected : ℕ) :
    Prop extends Accounts e r 0 rejected 0 where
  draws : e.draws ≤ r.1.draws
  refused : e.txs.len ≤ maxInFlight → (∀ n, e.draws ≤ n → n < r.1.draws → e.entropy n ≠ none) →
    r.1.counters.refused = e.counters.refused

theorem Resumes.refl (e : Engine) : Resumes e (e, []) 0 :=
  ⟨⟨rfl, rfl, rfl, le_refl _, id, rfl⟩, le_refl _, fun _ _ => rfl⟩

theorem Resumes.trans {e e₂ : Engine} {as bs : List Action} {j' : ℕ} (h : Resumes e (e₁, as) j)
    (h' : Resumes e₁ (e₂, bs) j') : Resumes e (e₂, as ++ bs) (j + j') := by
  refine ⟨h.toAccounts.trans h'.toAccounts, h.draws.trans h'.draws, fun hroom hok => ?_⟩
  have hfirst := h.refused hroom fun n hlo hhi => hok n hlo (lt_of_lt_of_le hhi h'.draws)
  have hrest := h'.refused (h.room hroom) fun n hlo hhi => h.entropy ▸ hok n (h.draws.trans hlo) hhi
  exact hrest.trans hfirst

/-- A transaction is closed and counted. -/
structure Closed (e e₁ : Engine) (rejected : ℕ) : Prop where
  len : e₁.txs.len + 1 = e.txs.len
  ends : e₁.counters.upstreamAnswered + e₁.counters.upstreamFailed =
    e.counters.upstreamAnswered + e.counters.upstreamFailed + 1 + rejected
  failed : e.counters.upstreamFailed + rejected ≤ e₁.counters.upstreamFailed
  sent : e₁.counters.upstreamSent = e.counters.upstreamSent
  queries : e₁.counters.queries = e.counters.queries
  refused : e₁.counters.refused = e.counters.refused
  entropy : e₁.entropy = e.entropy
  draws : e₁.draws = e.draws
  fresh : FreshIds e₁

theorem Closed.resumes {e : Engine} (h : Closed e e₁ j) (hr : Booked e₁ r) : Resumes e r j := by
  have hlen := h.len
  have hends := h.ends
  constructor
  case draws => exact h.draws ▸ hr.draws
  case refused =>
    intro hroom hok
    rw [← h.draws, ← h.entropy] at hok
    exact (hr.refused (by omega) hok).trans h.refused
  constructor
  case sent => exact hr.sent.trans (by rw [h.sent])
  case queries => exact hr.queries.trans h.queries
  case ends => rw [hr.len, hr.answered, hr.failed]; omega
  case failed => exact hr.failed ▸ h.failed
  case room => exact fun hroom => hr.room (by omega)
  case entropy => exact hr.entropy.trans h.entropy

section Operations

variable {e : Engine} {tx : Txid} {x : Tx} {ids : List TaskId}

section

variable (hl : Linked [] e)
include hl

theorem freshIds_remove {e₁ : Engine} (htxs : e₁.txs = e.txs.remove tx)
    (hnext : e₁.nextId = e.nextId) : FreshIds e₁ := by
  intro tx' htx'
  rw [htxs, Table.get_remove]
  split
  · rfl
  · exact hl.tx_fresh (hnext ▸ htx')

/-- A transaction that failed makes room for the next one of its task, in whatever order the servers
are asked. -/
theorem resumes_closeFailed (hx : e.txs.get tx = some x) (d : Table (IpAddr × String) Instant)
    (now : Instant) :
    Resumes e ({ e.closeFailed tx x with demoted := d }.nextAttempt x.task now) 0 := by
  have hlen := Table.len_remove hx
  have hclosed : Closed e { e.closeFailed tx x with demoted := d } 0 :=
    ⟨hlen, rfl, Nat.le_succ _, rfl, rfl, rfl, rfl, rfl, freshIds_remove hl rfl rfl⟩
  obtain ⟨-, t, ht, -⟩ := hl.tx_task tx x hx
  exact hclosed.resumes (booked_nextAttempt hclosed.fresh (get_updateTask_self ht _) rfl now)

theorem resumes_failed (tx : Txid) (now : Instant) : Resumes e (e.failed tx now) 0 := by
  unfold failed
  split
  · exact .refl e
  · next x hx => exact resumes_closeFailed hl hx _ now

theorem resumes_localFailed (tx : Txid) (now : Instant) : Resumes e (e.localFailed tx now) 0 := by
  unfold localFailed
  split
  · exact .refl e
  · next x hx => exact resumes_closeFailed hl hx e.demoted now

theorem resumes_expire (tx : Txid) (now : Instant) : Resumes e (expire now e tx) 0 := by
  obtain ⟨⟨h1, h2, h3, h4, h5, h6⟩, h7, h8⟩ := resumes_failed hl tx now
  exact ⟨⟨h1, h2, h3, h4, h5, h6⟩, h7, h8⟩

/-- The loop of `tick`: every transaction that expires leaves its place before the next one is asked
for. -/
theorem resumes_tick (txs : List Txid) (now : Instant) : Resumes e (each (expire now) txs e) 0 := by
  induction txs generalizing e with
  | nil => exact .refl e
  | cons tx txs ih =>
    have hl' : Linked [] (expire now e tx).1 :=
      (Path.sound hl (apply_path ⟨e, .failed tx now⟩)).linked
    exact (resumes_expire hl tx now).trans (ih hl')

end

/-- The reply is neither an answer nor to be asked for again over TCP. -/
def Tx.rejects (x : Tx) (M : Message) : Bool := !x.truncated M && M.rcode != 0 && M.rcode != 3

theorem Tx.rejects_eq (x : Tx) (M : Message) :
    x.rejects M = (!x.truncated M && !isAnswer M.rcode) := by
  have hcode : isAnswer M.rcode = (M.rcode == 0 || M.rcode == 3) := by
    rw [Bool.eq_iff_iff, isAnswer_iff, Bool.or_eq_true, beq_iff_eq, beq_iff_eq]
  rw [Tx.rejects, hcode, Bool.not_or, Bool.and_assoc]
  rfl

/-- How many replies a datagram brings that match and are rejected: one or none. -/
def rejected (e : Engine) (tx : Txid) (bytes : Bytes) : ℕ :=
  match e.txs.get tx, e.matchingResponse tx bytes with
  | some x, some M => (x.rejects M).toNat
  | _, _ => 0

theorem resumes_handleReply {t : Task} {M : Message} (hl : Linked [] e) (hx : e.txs.get tx = some x)
    (ht : e.tasks.get x.task = some t) (now : Instant) :
    Resumes e (((e.closeTx tx x).count fun c =>
      { c with upstreamAnswered := c.upstreamAnswered + 1 }).handleReply
      x t M now) (x.rejects M).toNat := by
  have hlen := Table.len_remove hx
  have hget : (e.closeTx tx x).tasks.get x.task = _ := get_closeTx_self ht
  set e₁ := (e.closeTx tx x).count fun c =>
    { c with upstreamAnswered := c.upstreamAnswered + 1 } with he₁
  have hclosed : Closed e e₁ 0 :=
    ⟨hlen, by simp only [he₁, count, closeTx, updateTask]; omega, le_refl _, rfl, rfl, rfl, rfl, rfl,
      freshIds_remove hl rfl rfl⟩
  have hget₁ : e₁.tasks.get x.task = some { t with tx := none } := hget
  unfold handleReply
  rw [Tx.rejects_eq, Tx.truncated]
  split
  · next htrunc =>
    rw [htrunc]
    exact hclosed.resumes (booked_send hclosed.fresh hget₁ rfl _ _ _)
  · next hwhole =>
    rw [Bool.eq_false_iff.mpr hwhole]
    split
    · next hcode =>
      rw [hcode]
      -- storing the answer and the refund are not booked
      have heven : Even e₁ (e₁.keepAnswer t M M.rcode x.server now) := by
        unfold keepAnswer
        split
        · exact ⟨rfl, rfl, rfl, rfl, rfl⟩
        · exact ⟨rfl, rfl, rfl, rfl, rfl⟩
      have hget₂ : (e₁.keepAnswer t M M.rcode x.server now).tasks.get x.task =
          some { t with tx := none } :=
        keepAnswer_tasks e₁ t M M.rcode x.server now ▸ hget₁
      refine hclosed.resumes ?_
      unfold accept
      dsimp only
      split
      · have heven' := even_updateTask (e₁.keepAnswer t M M.rcode x.server now) x.task fun t =>
          { t with attempt := t.attempt - 1 }
        have hfresh := heven.fresh hclosed.fresh
        exact heven.booked (heven'.booked
          (booked_nextCandidate (heven'.fresh hfresh) (get_updateTask_self hget₂ _) rfl now))
      · exact booked_settle_of_even heven hclosed.fresh hget₂ rfl _
    · next hcode =>
      rw [Bool.eq_false_iff.mpr hcode]
      have hrejected : Closed e
          ((e₁.count fun c => { c with upstreamFailed := c.upstreamFailed + 1 }).demote x.server
          t.scopeId now) 1 :=
        ⟨hlen, by simp only [he₁, demote, count, closeTx, updateTask]; omega, le_refl _, rfl, rfl, rfl, rfl, rfl,
          freshIds_remove hl rfl rfl⟩
      have hget₂ : ((e₁.count fun c => { c with upstreamFailed := c.upstreamFailed + 1 }).demote
          x.server t.scopeId
          now).tasks.get x.task = some { t with tx := none } := hget₁
      exact hrejected.resumes (booked_nextAttempt hrejected.fresh hget₂ rfl now)

theorem resumes_received (hl : Linked [] e) (tx : Txid) (bytes : Bytes) (now : Instant) :
    Resumes e (e.received tx bytes now) (e.rejected tx bytes) := by
  unfold received rejected
  split
  · next hx =>
    rw [hx]
    exact .refl e
  · next x hx =>
    rw [hx]
    split
    · next hM =>
      rw [hM]
      exact .refl e
    · next M hM =>
      obtain ⟨-, t, ht, -⟩ := hl.tx_task tx x hx
      rw [hM]
      simp only [ht]
      exact resumes_handleReply hl hx ht now

/-! ### Abandoned questions -/

/-- The action cancels a transaction. -/
def Action.isCancel : Action → Bool
  | .cancel _ => true
  | _ => false

/-- Each of the tasks, where it is there, has a transaction of its own. -/
def OwnTx (e : Engine) (ids : List TaskId) : Prop :=
  ∀ id ∈ ids, ∀ t, e.tasks.get id = some t → ∃ tx x, t.tx = some tx ∧ e.txs.get tx = some x ∧
    x.task = id

theorem abandonTask_len {id : TaskId} (h : OwnTx e [id]) :
    (e.abandonTask id).1.txs.len + (e.abandonTask id).2.countP Action.isCancel = e.txs.len ∧
      (e.abandonTask id).1.counters = e.counters ∧ sends (e.abandonTask id).2 = 0 := by
  cases ht : e.tasks.get id with
  | none =>
    simp only [abandonTask, ht]
    exact ⟨rfl, trivial, rfl⟩
  | some t =>
    obtain ⟨tx, x, htx, hx, -⟩ := h id (by simp) t ht
    simp only [abandonTask, ht, htx]
    exact ⟨Table.len_remove hx, trivial, rfl⟩

theorem OwnTx.abandonTask {id : TaskId} (h : OwnTx e (id :: ids)) :
    OwnTx (e.abandonTask id).1 ids := by
  obtain ⟨h1, -, h3, -⟩ := abandonTask_spec e id
  intro id' hid' t' ht'
  rw [h1] at ht'
  split at ht'
  · cases ht'
  · next hne =>
    obtain ⟨tx', x', htx', hx', htask⟩ := h id' (mem_cons_of_mem _ hid') t' ht'
    refine ⟨tx', x', htx', ?_, htask⟩
    -- the transaction that goes is that of another task
    have hother : ¬ e.Holds [id] tx' := by
      rintro ⟨i, hi, t, ht, htx⟩
      obtain rfl := mem_singleton.mp hi
      obtain ⟨tx'', x, htx₀, hx, hown⟩ := h i mem_cons_self t ht
      obtain rfl := Option.mem_unique htx htx₀
      obtain rfl := Option.mem_unique hx hx'
      exact hne (htask.symm.trans hown)
    rw [h3 tx' hother, hx']

theorem each_abandonTask_len (h : OwnTx e ids) :
    (each Engine.abandonTask ids e).1.txs.len +
      (each Engine.abandonTask ids e).2.countP Action.isCancel = e.txs.len ∧
      (each Engine.abandonTask ids e).1.counters = e.counters ∧
        sends (each Engine.abandonTask ids e).2 = 0 := by
  induction ids generalizing e with
  | nil => exact ⟨rfl, rfl, rfl⟩
  | cons id ids ih =>
    obtain ⟨h1, h2, h3⟩ := abandonTask_len fun i hi =>
      h i (by rw [mem_singleton.mp hi]; exact mem_cons_self)
    obtain ⟨ih1, ih2, ih3⟩ := ih h.abandonTask
    simp only [each, countP_append, sends_append]
    exact ⟨by omega, ih2.trans h2, by omega⟩

theorem accounts_abandon (hl : Linked [] e) (qid : Qid) :
    Accounts e (e.abandon qid) 0 0 ((e.abandon qid).2.countP Action.isCancel) ∧
      (e.abandon qid).1.counters = e.counters := by
  have hown : OwnTx e (e.tasks.select fun _ t => t.owner.qid == qid) :=
    fun id _ t ht => hl.task_tx id t ht (by simp)
  obtain ⟨h1, h2, h3⟩ := each_abandonTask_len hown
  have hentropy : (e.abandon qid).1.entropy = e.entropy := by rw [(abandon_spec e qid).2.2.2.2]
  have hlen : (e.abandon qid).1.txs.len + (e.abandon qid).2.countP Action.isCancel = e.txs.len := h1
  have hcounters : (e.abandon qid).1.counters = e.counters := h2
  have hsends : sends (e.abandon qid).2 = 0 := h3
  refine ⟨⟨?_, ?_, ?_, ?_, fun hroom => by omega, hentropy⟩, hcounters⟩
  · rw [hcounters, hsends]; rfl
  · rw [hcounters]; rfl
  · rw [hcounters, hsends]; omega
  · rw [hcounters]; rfl

/-! ### Questions -/

theorem Accounts.asked {e₁ : Engine} {r : Engine × List Action} (h : Accounts e₁ r 0 0 0)
    (htxs : e₁.txs = e.txs) (hcounters : e₁.counters = e.countQuery.counters)
    (hentropy : e₁.entropy = e.entropy) : Accounts e r 1 0 0 := by
  obtain ⟨h1, h2, h3, h4, h5, h6⟩ := h
  rw [hcounters] at h1 h2 h3 h4
  rw [htxs] at h3 h5
  exact ⟨h1, h2, h3, h4, h5, h6.trans hentropy⟩

theorem startTask_fresh (hl : Linked [] e) (owner : Owner) (name : Name) (rtype : UInt16)
    (noCache : Bool) :
    FreshIds (e.countQuery.startTask owner name rtype noCache) ∧
      (e.countQuery.startTask owner name rtype noCache).tasks.get e.countQuery.nextId =
        some { owner, original := name, rtype, noCache } :=
  ⟨fun _ htx => hl.tx_fresh (Nat.le_of_succ_le
    htx), by simp only [startTask, Table.get_insert, if_true]⟩

theorem accounts_resolveName (hl : Linked [] e) (qid : Qid) (name : Name) (rtype : UInt16)
    (noCache : Bool) (now : Instant) :
    Accounts e (e.countQuery.resolveName qid name rtype noCache now) 1 0 0 := by
  obtain ⟨hfresh, ht⟩ := startTask_fresh hl (.resolve qid) name rtype noCache
  exact (booked_advance hfresh ht rfl now).accounts.asked rfl rfl rfl

theorem accounts_advanceAll (hfresh : FreshIds e) (hnodup : ids.Nodup)
    (htasks : ∀ id ∈ ids, ∃ t, e.tasks.get id = some t ∧ t.tx = none) (now : Instant) :
    Accounts e (each (fun e id => e.advance id now) ids e) 0 0 0 := by
  induction ids generalizing e with
  | nil => exact (Resumes.refl e).toAccounts
  | cons id ids ih =>
    obtain ⟨t, ht, htx⟩ := htasks id (by simp)
    obtain ⟨hnot, hnodup'⟩ := nodup_cons.mp hnodup
    have hbooked := booked_advance hfresh ht htx now
    refine hbooked.accounts.trans (ih hbooked.fresh hnodup' fun id' hid' => ?_)
    obtain ⟨t', ht', htx'⟩ := htasks id' (mem_cons_of_mem _ hid')
    have hne : id' ≠ id := fun h => hnot (h ▸ hid')
    exact ⟨t', (advance_tasks_ne hne _).trans ht', htx'⟩

theorem accounts_lookup (hl : Linked [] e) (qid : Qid) (name : Name) (family : Family)
    (now : Instant) :
    Accounts e (each (fun e id => e.advance id now)
      (e.countQuery.startTasks qid name family.types).2
      (e.countQuery.openLookup qid name family)) 1 0 0 := by
  have hl' : Linked [] e.countQuery := ⟨hl.1, hl.2, hl.3, hl.4, hl.5, hl.6, hl.7, hl.8⟩
  have hopen := hl'.openLookup qid name family
  have hids := (startTasks_spec e.countQuery qid name family.types).1
  rw [nil_append] at hopen
  rw [hids]
  refine (accounts_advanceAll (fun tx => hopen.tx_fresh) hopen.nodup hopen.loose_task
    now).asked ?_ ?_ ?_
  · rw [openLookup_eq]
    rfl
  · rw [openLookup_eq]
  · rw [openLookup_eq]
    rfl

theorem accounts_refuse (qid : Qid) (completion : Completion) :
    Accounts e (e.countQuery, [.done qid completion]) 1 0 0 :=
  ⟨rfl, rfl, rfl, le_refl _, id, rfl⟩

theorem accounts_resolve (hl : Linked [] e) (qid : Qid) (name : Bytes) (rtype : UInt16)
    (noCache : Bool) (now : Instant) : Accounts e (e.resolve qid name rtype noCache now) 1 0 0 := by
  unfold resolve
  split
  · exact accounts_refuse _ _
  · exact accounts_resolveName hl _ _ _ _ _

theorem resumes_configure {op : Op} (h : op.isConfig = true) : Resumes e (e.apply op) 0 := by
  obtain ⟨-, -, htxs, -, -, -, hacts⟩ := configure_marks e h
  have hbooks : (e.apply op).1.counters = e.counters ∧ (e.apply op).1.entropy = e.entropy ∧
      (e.apply op).1.draws = e.draws := by
    cases op with
    | setScopes scopes =>
      simp only [apply, setScopes]
      rw [(foldl_invalidateScopeCache (invalidated e.scopes scopes) e).2.2]
      exact ⟨rfl, rfl, rfl⟩
    | setFallback servers domains =>
      simp only [apply, setFallback]
      split <;> exact ⟨rfl, rfl, rfl⟩
    | setHosts hosts => exact ⟨rfl, rfl, rfl⟩
    | setHostname hostname => exact ⟨rfl, rfl, rfl⟩
    | flush => exact ⟨rfl, rfl, rfl⟩
    | _ => cases h
  obtain ⟨hcounters, hentropy, hdraws⟩ := hbooks
  refine ⟨⟨?_, ?_, ?_, ?_, ?_, hentropy⟩, hdraws.ge, fun _ _ => by rw [hcounters]⟩
  all_goals simp [hcounters, htxs, hacts, sends]

end Operations

/-! ### Steps -/

/-- The step brings a matching reply that is neither NOERROR nor NXDOMAIN, nor to be asked for again
over TCP. -/
def rejects (st : Step Engine Op) : Bool :=
  match st.input with
  | .received tx bytes _ => st.before.rejected tx bytes != 0
  | _ => false

/-- How many transactions the step cancels because their question was abandoned. -/
def cancelled (st : Step Engine Op) : ℕ :=
  match st.input with
  | .abandon _ => (actions st).countP Action.isCancel
  | _ => 0

/-- A step that neither asks a question nor gives one up. -/
theorem resumes_step {st : Step Engine Op} (hl : Linked [] st.before) (hasks : st.input.asks = none)
    (hkeeps : ∀ q, st.input ≠ .abandon q) :
    Resumes st.before (after st, actions st) (rejects st).toNat := by
  obtain ⟨e, op⟩ := st
  cases hconfig : op.isConfig with
  | true =>
    have hnot : rejects ⟨e, op⟩ = false := by
      cases op with
      | received tx bytes now => cases hconfig
      | _ => rfl
    rw [hnot]
    exact resumes_configure hconfig
  | false =>
    cases op with
    | received tx bytes now =>
      have hcount : (e.rejected tx bytes != 0).toNat = e.rejected tx bytes := by
        unfold rejected
        split
        · next x M _ _ => cases x.rejects M <;> rfl
        · rfl
      simp only [rejects, hcount]
      exact resumes_received hl tx bytes now
    | failed tx now => exact resumes_failed hl tx now
    | localFailed tx now => exact resumes_localFailed hl tx now
    | tick now => exact resumes_tick hl _ now
    | abandon qid => exact absurd rfl (hkeeps qid)
    | resolve | resolveQuestion | lookup | reverse => cases hasks
    | setScopes | setFallback | setHosts | setHostname | flush => cases hconfig

/-- **What a step does to the counters.** -/
theorem accounts_step (st : Step Engine Op) (hl : Linked [] st.before) :
    Accounts st.before (after st, actions st) st.input.asks.isSome.toNat (rejects st).toNat
      (cancelled st) := by
  obtain ⟨e, op⟩ := st
  cases op with
  | resolve qid name rtype noCache now => exact accounts_resolve hl qid name rtype noCache now
  | resolveQuestion qid question now => exact accounts_resolveName hl _ _ _ _ _
  | reverse qid address now => exact accounts_resolve hl _ _ _ _ _
  | lookup qid name family now =>
    simp only [after, actions, apply, lookup]
    split
    · exact accounts_refuse _ _
    · exact accounts_lookup hl _ _ _ _
  | abandon qid => exact (accounts_abandon hl qid).1
  | _ => exact (resumes_step hl rfl fun q hq => by cases hq).toAccounts

theorem countP_cons_toNat {α : Type} (p : α → Bool) (a : α) (l : List α) :
    (a :: l).countP p = l.countP p + (p a).toNat := by
  rw [countP_cons]
  cases p a <;> rfl

/-! ### Questions that are answered on the spot -/

/-- One candidate after the other is in the cache, until one that exists or the last one. -/
def cached (e : Engine) (rtype : UInt16) (now : Instant) : List Name → Bool
  | [] => false
  | candidate :: rest =>
    match e.route candidate with
    | none => false
    | some scope =>
      match (e.cache.get (CacheKey.new candidate rtype scope) now).1 with
      | none => false
      | some entry =>
        if entry.outcome = .notFound ∧ rest ≠ [] then e.cached rtype now rest else true

/-- The question is answered synthetically, or from the cache. -/
def answeredHere (e : Engine) (name : Name) (rtype : UInt16) (noCache : Bool) (now : Instant) :
    Bool :=
  (e.synthetic name rtype).isSome || (!noCache && e.cached rtype now (e.candidates name))

section AnsweredHere

variable {e : Engine} {id : TaskId} {t : Task} {now : Instant} {st : Step Engine Op} {qid : Qid}
    {name : Name}

theorem refused_settle (ht : e.tasks.get id = some t) (htx : t.tx = none) (a : Answer) :
    (e.settle id a).1.counters.refused = e.counters.refused := by
  rw [settle_eq ht htx]

theorem cached_congr {e' : Engine} (hset : e.SameSettings e')
    (hcache : ∀ key, (e'.cache.get key now).1 = (e.cache.get key now).1) (rtype : UInt16)
    (cs : List Name) : e'.cached rtype now cs = e.cached rtype now cs := by
  induction cs with
  | nil => rfl
  | cons c rest ih => simp only [cached, hset.route_eq, hcache, ih]

/-- A task that finds its candidates in the cache is not refused. -/
theorem refused_nextCandidateLoop {rtype : UInt16} {cs : List Name} (ht : e.tasks.get id = some t)
    (htx : t.tx = none) (h : e.cached rtype now cs = true) :
    (nextCandidateLoop id rtype false now cs e).1.counters.refused = e.counters.refused := by
  induction cs generalizing e t with
  | nil => cases h
  | cons c rest ih =>
    unfold cached at h
    split at h
    · cases h
    · next s hs =>
      split at h
      · cases h
      · next entry hentry =>
        obtain ⟨-, -, -, -, hcache⟩ := Cache.get_eq_some hentry
        rw [nextCandidateLoop_cons hs]
        have hget := get_updateTask_self ht fun t => t.choose c rest s
        simp only [updateTask] at hget
        simp only [Bool.false_eq_true, if_false, updateTask, hentry, hcache, count]
        split at h
        · next hskip =>
          rw [if_pos hskip]
          -- the walk goes on with the same cache
          refine ih (t := t.choose c rest s) hget htx ((cached_congr (e := e) ?_ ?_ _ _).trans h)
          · exact ⟨rfl, rfl, rfl, rfl, rfl⟩
          · exact fun _ => rfl
        · next hlast =>
          rw [if_neg hlast]
          exact refused_settle (t := t.choose c rest s) hget htx _

theorem refused_advance (hfresh : FreshIds e) (ht : e.tasks.get id = some t) (hnew : t.Fresh)
    (now : Instant) :
    (e.advance id now).1.counters.refused ≤
      e.counters.refused + (!e.answeredHere t.original t.rtype t.noCache now).toNat := by
  cases h : e.answeredHere t.original t.rtype t.noCache now with
  | false => exact (booked_advance hfresh ht hnew.tx now).refused_le
  | true =>
    refine le_of_eq ?_
    unfold advance
    simp only [ht, hnew.current, hnew.candidates, hnew.attempt, true_and, if_true]
    split
    · exact refused_settle (e := e.count _) ht hnew.tx _
    · next hsynthetic =>
      simp only [answeredHere, hsynthetic, Option.isSome_none, Bool.false_or, Bool.and_eq_true,
        Bool.not_eq_true'] at h
      obtain ⟨hcache, hhit⟩ := h
      split
      · next hnone => exact refused_settle ht hnew.tx _
      · have hget := get_updateTask_self ht fun t' =>
          { t' with candidates := e.candidates t.original }
        rw [nextCandidate, hget]
        simp only [hcache]
        refine refused_nextCandidateLoop (t := { t with candidates := e.candidates t.original })
          hget hnew.tx
          ((cached_congr (e := e) ?_ ?_ _ _).trans hhit)
        · exact ⟨rfl, rfl, rfl, rfl, rfl⟩
        · exact fun _ => rfl

theorem answeredHere_congr {e' : Engine} (hset : e.SameSettings e')
    (hcache : ∀ key, (e'.cache.get key now).1 = (e.cache.get key now).1) (name : Name)
    (rtype : UInt16) (noCache : Bool) :
    e'.answeredHere name rtype noCache now = e.answeredHere name rtype noCache now := by
  simp only [answeredHere, hset.synthetic_eq, hset.candidates_eq, cached_congr hset hcache]

/-- As long as a question is asked, the cache answers what it answered before. -/
theorem Path.hits {q : Qid} (hasks : st.input.asks = some q) {m : Mid}
    (hp : Path st (.first st) m) (key : CacheKey) :
    (m.engine.cache.get key st.input.now).1 = (st.before.cache.get key st.input.now).1 := by
  induction hp with
  | refl => rfl
  | tail _ hm ih =>
    cases hm with
    | shift hm => rw [hm.cache, ih]
    | tweak hm =>
      cases hm with
      | forget hx hexp => exact (Cache.get_fst_remove hx hexp key).trans ih
      | store hM hstore => rw [hM.asks] at hasks; cases hasks
      | configure hop hm => rw [Op.not_config_of_asks hasks] at hop; cases hop
      | _ => exact ih

/-- The tasks of a lookup: those that are answered on the spot are not refused. -/
theorem refused_advanceAll {m : Mid} {q : Qid} {rtypes : List UInt16} (hl : Linked [] st.before)
    (hasks : st.input.asks = some q) (hp : Path st (.first st) m)
    (htasks : List.Forall₂ (fun id rtype =>
      m.engine.tasks.get id = some (lookupTask qid name rtype)) m.loose rtypes) :
    (each (fun e id => e.advance id st.input.now) m.loose m.engine).1.counters.refused ≤
      m.engine.counters.refused +
      rtypes.countP fun rtype => !st.before.answeredHere name rtype false st.input.now := by
  induction rtypes generalizing m with
  | nil =>
    rw [forall₂_nil_right_iff.mp htasks]
    exact le_refl _
  | cons rtype rtypes ih =>
    obtain ⟨id, ids, ht, htasks, hids⟩ := forall₂_cons_right_iff.mp htasks
    have hsound := Path.sound hl hp
    obtain ⟨hnot, -⟩ := nodup_cons.mp (hids ▸ hsound.linked.nodup)
    have hnew : (lookupTask qid name rtype).Fresh := ⟨rfl, rfl, rfl, rfl⟩
    have hfirst := refused_advance (fun tx => hsound.linked.tx_fresh) ht hnew st.input.now
    rw [answeredHere_congr (hsound.steady.settings (Op.not_config_of_asks hasks))
      (hp.hits hasks)] at hfirst
    -- the others wait in the state after the first
    have hloose : (m.finish id (m.engine.advance id st.input.now)).loose = ids := by
      simp [Mid.finish, hids]
    have hrest := ih (m := m.finish id (m.engine.advance id st.input.now))
      (hp.trans (advance_legs hasks (hids ▸ mem_cons_self) ht hnew).path) (by
        rw [hloose]
        have hothers : ∀ id' ∈ ids, id' ≠ id := fun id' hid' h => hnot (h ▸ hid')
        exact ((forall₂_and_left _ _).mpr ⟨hothers, htasks⟩).imp fun id' rtype' h =>
          (advance_tasks_ne h.1 _).trans h.2)
    rw [hloose] at hrest
    rw [hids, countP_cons_toNat]
    dsimp only [lookupTask] at hfirst
    dsimp only [Mid.finish, each] at hrest ⊢
    omega

theorem refused_resolves (hl : Linked [] st.before) {rtype : UInt16} {noCache : Bool}
    (h : st.input.Resolves qid name rtype noCache) :
    (after st).counters.refused ≤
      st.before.counters.refused +
        (!st.before.answeredHere name rtype noCache st.input.now).toNat := by
  obtain ⟨hfresh, ht⟩ := startTask_fresh hl (.resolve qid) name rtype noCache
  have hadvance := refused_advance hfresh ht ⟨rfl, rfl, rfl, rfl⟩ st.input.now
  have hset : st.before.SameSettings
      (st.before.countQuery.startTask (.resolve qid) name rtype noCache) :=
    ⟨rfl, rfl, rfl, rfl, rfl⟩
  rw [answeredHere_congr hset fun _ => rfl] at hadvance
  rw [after, h.apply_eq]
  exact hadvance

theorem refused_looksUp (hl : Linked [] st.before) {family : Family}
    (h : st.input.LooksUp qid name family) :
    (after st).counters.refused ≤ st.before.counters.refused +
      family.types.countP fun rtype => !st.before.answeredHere name rtype false st.input.now := by
  have hafter : after st = (each (fun e id => e.advance id st.input.now)
      (st.before.countQuery.startTasks qid name family.types).2
        (st.before.countQuery.openLookup qid name family)).1 := by
    obtain ⟨e, op⟩ := st
    cases h with
    | lookup h => simp only [after, apply, lookup, h, Op.now]; rfl
  have htasks : List.Forall₂ (fun id rtype =>
      (st.before.countQuery.openLookup qid name family).tasks.get id =
      some (lookupTask qid name rtype)) (st.before.countQuery.startTasks qid name family.types).2
        family.types := by
    rw [(startTasks_spec st.before.countQuery qid name family.types).1]
    exact openLookup_tasks _ _ _ _
  have hp : Path st (.first st) _ := (countQuery_legs _).path.tail (.shift (.startAll _ h rfl))
  have hbound := refused_advanceAll hl h.asks hp htasks
  rw [hafter]
  have hcounters : (st.before.countQuery.openLookup qid name family).counters.refused =
      st.before.counters.refused := by
    rw [openLookup_eq]
    rfl
  rw [← hcounters]
  exact hbound

end AnsweredHere

/-! ### Runs -/

/-- The ways in which a step may not be refused: it takes up no question, and the entropy source
succeeds; or all it asks for is answered on the spot. -/
structure Unrefused (entropy : Entropy) (st : Step Engine Op) : Prop where
  resumed : st.input.asks = none →
    (∀ n, st.before.draws ≤ n → n < (after st).draws → entropy n ≠ none) →
    (after st).counters.refused = st.before.counters.refused
  resolved : ∀ qid name rtype noCache, st.input.Resolves qid name rtype noCache →
    st.before.answeredHere name rtype noCache st.input.now = true →
    (after st).counters.refused ≤ st.before.counters.refused
  lookedUp : ∀ qid name family, st.input.LooksUp qid name family →
    (after st).counters.refused ≤ st.before.counters.refused +
      family.types.countP fun rtype => !st.before.answeredHere name rtype false st.input.now

theorem unrefused_step {st : Step Engine Op} (hl : Linked [] st.before)
    (hroom : st.before.txs.len ≤ maxInFlight) : Unrefused st.before.entropy st := by
  refine ⟨fun hasks hok => ?_, fun qid name rtype noCache h hhere => ?_, fun qid name family h =>
    refused_looksUp hl h⟩
  · by_cases habandon : ∃ q, st.input = .abandon q
    · obtain ⟨q, hq⟩ := habandon
      have hcounters := (accounts_abandon hl q).2
      rw [after, hq]
      exact congrArg Counters.refused hcounters
    · exact (resumes_step hl hasks fun q hq => habandon ⟨q, hq⟩).refused hroom hok
  · have hbound := refused_resolves hl h
    rw [hhere] at hbound
    exact hbound

/-- **The ceiling of transactions in flight.**  No reachable state has more than `MAX_IN_FLIGHT`
transactions; a step that takes up no question, as a reply, a failure or a tick, is refused none as
long as the entropy source succeeds, even when the table is full; nor is a question that is answered
synthetically or from the cache. -/
theorem Runs.in_flight {entropy : Entropy} {log : EngineLog} {e : Engine} (h : Runs entropy log e) :
    e.txs.len ≤ maxInFlight ∧ ∀ st ∈ log, Unrefused entropy st := by
  suffices hinv : e.entropy = entropy ∧ e.txs.len ≤ maxInFlight ∧
    ∀ st ∈ log, Unrefused entropy st from hinv.2
  refine Runs.step_invariant (I := fun log e => e.entropy = entropy ∧ e.txs.len ≤ maxInFlight ∧
    ∀ st ∈ log, Unrefused entropy st) ?_ ?_ ?_ h
  · exact ⟨rfl, Nat.zero_le _, fun st hst => by cases hst⟩
  · rintro log e e' ⟨hentropy, hroom, hlog⟩ hr
    exact ⟨hr.entropy.trans hentropy, hr.txs.len_eq ▸ hroom, hlog⟩
  · rintro log st hreached - ⟨hentropy, hroom, hlog⟩
    have haccounts := accounts_step st hreached.linked
    refine ⟨haccounts.entropy.trans hentropy, haccounts.room hroom, forall_mem_cons.mpr ⟨?_, hlog⟩⟩
    exact hentropy ▸ unrefused_step hreached.linked hroom

/-- The server answers SERVFAIL, and then the question is given up. -/
def rejectOnLan : List Op :=
  askOnLan ++ [.received 2 (replyOnLan { rcode := 2 } []) (secs 1), .abandon 7]

theorem in_flight_rejectOnLan :
    (ran zeros rejectOnLan).2.counters.refused = 0 ∧
      (ran zeros rejectOnLan).2.txs.len ≤ maxInFlight ∧
      ∀ st ∈ (ran zeros rejectOnLan).1, Unrefused zeros st :=
  ⟨by decide +kernel, Runs.in_flight (runs_ran zeros rejectOnLan)⟩

/-- The engine, when nobody else writes to its counters. -/
def counted (entropy : Entropy) : Machine Engine Op Action :=
  { machine entropy with idle := fun e e' => Reorder e e' ∧ e'.counters = e.counters }

/-- The log is that of a run in which only the engine counts. -/
abbrev Counted (entropy : Entropy) (log : EngineLog) (e : Engine) : Prop :=
  (counted entropy).Run log e

theorem counted_ran (entropy : Entropy) (ops : List Op) :
    Counted entropy (ran entropy ops).1 (ran entropy ops).2 := by
  have h := Machine.Run.exec (M := counted entropy) (fun e => ⟨.refl e, rfl⟩) (.start rfl) ops
  rwa [append_nil, Machine.exec_congr (M := counted entropy) (N := machine entropy) rfl] at h

variable {entropy : Entropy} {log : EngineLog} {e : Engine}

/-- **Every transaction is accounted for.**  The transactions that were started are those that are
live, were answered, failed, or were cancelled with their question, where a rejected reply was
counted as an answer and as a failure; the queries sent are the `Send` actions, and the questions
are the calls that ask one. -/
theorem Counted.accounting (h : Counted entropy log e) :
    log.countP rejects ≤ e.counters.upstreamFailed ∧
    e.counters.upstreamSent =
      e.txs.len + e.counters.upstreamAnswered + (e.counters.upstreamFailed - log.countP rejects) +
        (log.map cancelled).sum ∧
    e.counters.upstreamSent = sends (log.flatMap actions) ∧
    e.counters.queries = log.countP fun st => st.input.asks.isSome := by
  have hinv := Machine.Run.invariant (I := fun log e => Linked [] e ∧
    log.countP rejects ≤ e.counters.upstreamFailed ∧
      e.counters.upstreamSent + log.countP rejects =
        e.txs.len + e.counters.upstreamAnswered + e.counters.upstreamFailed +
          (log.map cancelled).sum ∧
      e.counters.upstreamSent = sends (log.flatMap actions) ∧
      e.counters.queries = log.countP fun st => st.input.asks.isSome)
    (by
      rintro _ rfl
      exact ⟨linked_withEntropy entropy, le_refl _, rfl, rfl, rfl⟩)
    (by
      rintro log e e' ⟨hl, hI⟩ ⟨hr, hcounters⟩
      rw [hcounters, hr.txs.len_eq]
      exact ⟨hl.reorder hr, hI⟩)
    (by
      rintro log e op ⟨hl, h1, h2, h3, h4⟩
      have hstep := accounts_step ⟨e, op⟩ hl
      have hl' := (Path.sound hl (apply_path ⟨e, op⟩)).linked
      obtain ⟨s1, s2, s3, s4, -, -⟩ := hstep
      refine ⟨hl', ?_, ?_, ?_, ?_⟩
      · rw [countP_cons_toNat]
        exact le_trans (Nat.add_le_add_right h1 _) s4
      · rw [countP_cons_toNat, map_cons, sum_cons]
        dsimp only at s1 s3
        change (after ⟨e, op⟩).counters.upstreamSent + _ = (after ⟨e, op⟩).txs.len +
          (after ⟨e, op⟩).counters.upstreamAnswered + (after ⟨e, op⟩).counters.upstreamFailed + _
        omega
      · rw [flatMap_cons, sends_append, Nat.add_comm, ← h3]
        exact s1
      · rw [countP_cons_toNat, ← h4]
        exact s2) h
  obtain ⟨-, h1, h2, h3, h4⟩ := hinv
  exact ⟨h1, by omega, h3, h4⟩

/-- Two queries: one rejected, which counts as answered and as failed, and one cancelled. -/
theorem accounting_rejectOnLan :
    (ran zeros rejectOnLan).1.countP rejects = 1 ∧
      ((ran zeros rejectOnLan).1.map cancelled).sum = 1 ∧
      (ran zeros rejectOnLan).2.counters.upstreamSent = 2 ∧
      (ran zeros rejectOnLan).2.counters.upstreamSent =
        (ran zeros rejectOnLan).2.txs.len + (ran zeros rejectOnLan).2.counters.upstreamAnswered +
          ((ran zeros rejectOnLan).2.counters.upstreamFailed -
            (ran zeros rejectOnLan).1.countP rejects) +
          ((ran zeros rejectOnLan).1.map cancelled).sum :=
  ⟨by decide +kernel, by decide +kernel, by decide +kernel, (Counted.accounting (counted_ran zeros rejectOnLan)).2.1⟩

end Resolvd.Engine
