import Resolvd.Engine.Counters
import Resolvd.Engine.Drain

/-!
# The attempt budget

A query that is sent is charged to its task, and the transaction that brings an NXDOMAIN which moves
the task to its next candidate is not (`Task.attempt`).  Here queries, refunds and failures are
counted from outside, step by step, by the transactions of a task (`sentFor`, `refundedFor`,
`failedFor`); `Spent` says how a step moves the task and the counts together, and `Runs.budget` what
follows for the whole life of a task: as many queries as the budget has and one for every further
candidate.
-/

namespace Resolvd.Engine

open Lib Dns List

variable {st : Step Engine Op} {m : Mid} {id : TaskId} {t : Task}

/-! ### Counting by transactions -/

/-- How many transactions of the task pass the test. -/
def ofTask (e : Engine) (id : TaskId) (p : Txid → Tx → Bool) : ℕ :=
  (e.txs.select fun tx x => x.task == id && p tx x).length

section OfTask

variable {e : Engine} {id : TaskId} {p : Txid → Tx → Bool}

theorem ofTask_none (hl : Linked [] e) (h : e.tasks.get id = none) : e.ofTask id p = 0 := by
  refine length_eq_zero_iff.mpr (eq_nil_iff_forall_not_mem.mpr fun tx htx => ?_)
  obtain ⟨x, hx, hp⟩ := Table.mem_select.mp htx
  obtain ⟨-, t, ht, -⟩ := hl.tx_task tx x hx
  rw [Bool.and_eq_true, beq_iff_eq] at hp
  rw [hp.1, h] at ht
  cases ht

theorem ofTask_some (hl : Linked [] e) {tx : Txid} {x : Tx} (hx : e.txs.get tx = some x)
    (hid : x.task = id) : e.ofTask id p = (p tx x).toNat := by
  rw [ofTask, Table.length_select hx, hid, beq_self_eq_true, Bool.true_and]
  intro tx' x' hx' hp
  rw [Bool.and_eq_true, beq_iff_eq] at hp
  exact hl.tx_unique hx hx' (hp.1.trans hid.symm)

end OfTask

/-- How many queries the step sends for the task. -/
def sentFor (st : Step Engine Op) (id : TaskId) : ℕ :=
  (after st).ofTask id fun tx _ => ((actions st).filterMap Action.sent).contains tx

/-- The step brings an NXDOMAIN for the transaction, and its task has a further candidate to move
to. -/
def movesOn (st : Step Engine Op) (tx : Txid) (x : Tx) : Bool :=
  match st.input with
  | .received tx' bytes _ => tx' == tx &&
    match st.before.matchingResponse tx bytes with
    | some M =>
      !x.truncated M && M.rcode == 3 && (st.before.tasks.get x.task).any fun t =>
        !t.candidates.isEmpty
    | none => false
  | _ => false

/-- How many NXDOMAIN replies of the step move the task to a further candidate. -/
def refundedFor (st : Step Engine Op) (id : TaskId) : ℕ := st.before.ofTask id (movesOn st)

/-- In the step the transaction ends in a timeout, a failure, a failure response code or a truncated
reply. -/
def endsBadly (st : Step Engine Op) (tx : Txid) (x : Tx) : Bool :=
  match st.input with
  | .tick now => x.deadline ≤ now
  | .failed tx' _ | .localFailed tx' _ => tx' == tx
  | .received tx' bytes _ => tx' == tx &&
    match st.before.matchingResponse tx bytes with
    | some M => x.truncated M || x.rejects M
    | none => false
  | _ => false

/-- How many transactions of the task end badly in the step. -/
def failedFor (st : Step Engine Op) (id : TaskId) : ℕ := st.before.ofTask id (endsBadly st)

/-! ### What ends a transaction -/

section Ends

variable {st : Step Engine Op} {tx : Txid} {x : Tx} {t : Task}

theorem closes_of_movesOn (hx : st.before.txs.get tx = some x) (h : movesOn st tx x = true) :
    ∃ acts, Closes st tx acts := by
  unfold movesOn at h
  split at h
  · next tx' bytes now hop =>
    rw [Bool.and_eq_true, beq_iff_eq] at h
    obtain ⟨rfl, h⟩ := h
    split at h
    · next M hM => exact ⟨_, .received hop hx hM⟩
    · cases h
  · cases h

theorem closes_of_endsBadly (hx : st.before.txs.get tx = some x) (h : endsBadly st tx x = true) :
    ∃ acts, Closes st tx acts := by
  unfold endsBadly at h
  split at h
  · next now hop => exact ⟨_, .expired hop hx (of_decide_eq_true h)⟩
  · next tx' now hop =>
    obtain rfl := beq_iff_eq.mp h
    exact ⟨_, .failed hop hx⟩
  · next tx' now hop =>
    obtain rfl := beq_iff_eq.mp h
    exact ⟨_, .localFailed hop hx⟩
  · next tx' bytes now hop =>
    rw [Bool.and_eq_true, beq_iff_eq] at h
    obtain ⟨rfl, h⟩ := h
    split at h
    · next M hM => exact ⟨_, .received hop hx hM⟩
    · cases h
  · cases h

/-- **A transaction ends badly or with an answer.** -/
theorem Closes.outcome {acts : List Action} (h : Closes st tx acts)
    (hx : st.before.txs.get tx = some x) (ht : st.before.tasks.get x.task = some t) :
    (endsBadly st tx x = true ∧ movesOn st tx x = false ∧ Barren st) ∨
      ∃ M, Answers st tx x t M ∧ endsBadly st tx x = false ∧
        movesOn st tx x = (M.rcode == 3 && !t.candidates.isEmpty) := by
  cases h with
  | @received x' M bytes now hop hx' hM =>
    obtain rfl := Option.mem_unique hx hx'
    have hreply : Reply st tx x t M := ⟨⟨bytes, now, hop, hM⟩, hx, ht⟩
    have hbad : endsBadly st tx x = (x.truncated M || x.rejects M) := by
      simp only [endsBadly, hop, hM, beq_self_eq_true, Bool.true_and]
    have hmoves : movesOn st tx x = (!x.truncated M && M.rcode == 3 && !t.candidates.isEmpty) := by
      simp only [movesOn, hop, hM, ht, beq_self_eq_true, Bool.true_and, Option.any_some]
    cases hanswer : (!x.truncated M && isAnswer M.rcode) with
    | true =>
      rw [Bool.and_eq_true, Bool.not_eq_true'] at hanswer
      obtain ⟨hwhole, hcode⟩ := hanswer
      refine .inr ⟨M, ⟨hreply, hwhole, hcode⟩, ?_, ?_⟩
      · rw [hbad, Tx.rejects_eq, hwhole, hcode]
        rfl
      · rw [hmoves, hwhole]
        rfl
    | false =>
      have hno : ∀ x' t' M', ¬ Answers st tx x' t' M' := by
        intro x' t' M' h
        obtain rfl := Option.mem_unique h.live hx
        obtain ⟨bytes', now', hop', hM'⟩ := h.input
        obtain ⟨-, rfl, -⟩ := Op.received.inj (hop.symm.trans hop')
        obtain rfl := Option.mem_unique hM hM'
        rw [h.whole, h.code] at hanswer
        cases hanswer
      have hfails : Fails st := by
        rw [Fails, hop]
        exact hno
      rw [hbad, hmoves, Tx.rejects_eq]
      cases htrunc : x.truncated M with
      | true => exact .inl ⟨rfl, rfl, hfails.barren⟩
      | false =>
        rw [htrunc] at hanswer
        have hcode : isAnswer M.rcode = false := hanswer
        have hne : (M.rcode == 3) = false :=
          beq_eq_false_iff_ne.mpr fun h3 => by rw [h3] at hcode; cases hcode
        rw [hcode, hne]
        exact .inl ⟨rfl, rfl, hfails.barren⟩
  | failed hop hx' =>
    refine .inl ⟨?_, ?_, Fails.barren ?_⟩
    · simp only [endsBadly, hop, beq_self_eq_true]
    · simp only [movesOn, hop]
    · simp only [Fails, hop]
  | localFailed hop hx' =>
    refine .inl ⟨?_, ?_, Fails.barren ?_⟩
    · simp only [endsBadly, hop, beq_self_eq_true]
    · simp only [movesOn, hop]
    · simp only [Fails, hop]
  | expired hop hx' hd =>
    obtain rfl := Option.mem_unique hx hx'
    refine .inl ⟨?_, ?_, Fails.barren ?_⟩
    · simp only [endsBadly, hop, hd, decide_true]
    · simp only [movesOn, hop]
    · simp only [Fails, hop]

end Ends

/-! ### Old tasks -/

/-- An old task stands still, or its transaction was ended by the operation. -/
def Moved (st : Step Engine Op) (m : Mid) : Prop :=
  ∀ id t, m.engine.tasks.get id = some t → id < st.before.nextId →
    ∃ t₀, st.before.tasks.get id = some t₀ ∧
    (t₀.Still t ∨ ∃ tx acts, t₀.tx = some tx ∧ Closes st tx acts)

/-- A loose task that is an old one had its transaction ended. -/
theorem Moved.loose (h : Moved st m) (hs : Sound st m)
    (ht : m.engine.tasks.get id = some t) (hid : id ∈ m.loose) (hlt : id < st.before.nextId) :
    ∃ t₀, st.before.tasks.get id = some t₀ ∧ ∃ tx acts, t₀.tx = some tx ∧ Closes st tx acts := by
  obtain ⟨t₀, ht₀, hstill | hclosed⟩ := h id t ht hlt
  · obtain ⟨t₁, ht₁, hnone⟩ := hs.linked.loose_task id hid
    obtain rfl := Option.mem_unique ht ht₁
    obtain ⟨tx, x, htx, -⟩ := hs.start.task_tx id t₀ ht₀ (by simp)
    rw [hstill.tx, htx] at hnone
    cases hnone
  · exact ⟨t₀, ht₀, hclosed⟩

theorem Moved.move {m' : Mid} (h : Moved st m) (hs : Sound st m) (hm : Move st m m') :
    Moved st m' := by
  intro id t' ht' hlt
  have hloose : ∀ {t}, m.engine.tasks.get id = some t → id ∈ m.loose →
      ∃ t₀, st.before.tasks.get id = some t₀ ∧
      (t₀.Still t' ∨ ∃ tx acts, t₀.tx = some tx ∧ Closes st tx acts) := by
    intro t ht hid
    obtain ⟨t₀, ht₀, hclosed⟩ := h.loose hs ht hid hlt
    exact ⟨t₀, ht₀, .inr hclosed⟩
  cases hm with
  | tweak hm =>
    cases hm.task_cases ht' with
    | kept ht => exact h id t' ht hlt
    | marked ht hop hst =>
      obtain ⟨t₀, ht₀, hcase⟩ := h id _ ht hlt
      exact ⟨t₀, ht₀, hcase.imp_left fun hstill => hstill.trans hst⟩
    | expanded hop hid ht => exact hloose ht hid
    | chosen hop hid ht => exact hloose ht hid
    | refunded hM hid ht => exact hloose ht hid
    | noted hid ht => exact hloose ht hid
  | shift hm =>
    cases hm.task_cases hs.linked ht' with
    | kept ht hl => exact h id t' ht hlt
    | begun hb hid hl => exact absurd hlt (not_lt.mpr (hs.traffic.nextId_le.trans hid))
    | closed hx hid ht htx hc heq hl =>
      obtain ⟨t₀, ht₀, hcase⟩ := h id _ ht hlt
      refine ⟨t₀, ht₀, .inr ?_⟩
      rcases hcase with hstill | hclosed
      · exact ⟨_, _, hstill.tx ▸ htx, hc⟩
      · exact hclosed
    | launched hid ht => exact hloose ht hid

/-- **What a step does to an old task**: nothing, or it ends its transaction. -/
theorem moved_step (hl : Linked [] st.before) : Moved st (.last st) := by
  have hpath : ∀ m, Path st (.first st) m → Sound st m ∧ Moved st m := by
    intro m hp
    induction hp with
    | refl => exact ⟨sound_first hl, fun id t ht _ => ⟨t, ht, .inl (.refl t)⟩⟩
    | tail _ hm ih => exact ⟨ih.1.move hm, ih.2.move ih.1 hm⟩
  exact (hpath _ (apply_path st)).2

/-- Without an answer, a task keeps its candidates. -/
theorem Barren.candidates (hb : Barren st) (hl : Linked [] st.before)
    (ht : (after st).tasks.get id = some t) :
    ∃ t₀, st.before.tasks.get id = some t₀ ∧ t.candidates = t₀.candidates := by
  have hpath : ∀ m, Path st (.first st) m → Sound st m ∧ ∀ id t, m.engine.tasks.get id = some t →
      ∃ t₀, st.before.tasks.get id = some t₀ ∧ t.candidates = t₀.candidates := by
    intro m hp
    induction hp with
    | refl => exact ⟨sound_first hl, fun id t ht => ⟨t, ht, rfl⟩⟩
    | tail _ hm ih =>
      obtain ⟨hs, ih⟩ := ih
      refine ⟨hs.move hm, fun id t' ht' => ?_⟩
      have hsame : ∀ {t : Task}, (∃ t₀, st.before.tasks.get id = some t₀ ∧
          t.candidates = t₀.candidates) →
          t'.candidates = t.candidates → ∃ t₀, st.before.tasks.get id = some t₀ ∧
            t'.candidates = t₀.candidates := by
        rintro t ⟨t₀, ht₀, h⟩ heq
        exact ⟨t₀, ht₀, heq.trans h⟩
      cases hm with
      | tweak hm =>
        cases hm.task_cases ht' with
        | kept ht => exact ih id t' ht
        | marked ht hop hst => exact hsame (ih id _ ht) hst.candidates
        | expanded hop => exact absurd hop hb.not_searches
        | chosen hop => exact absurd hop hb.not_searches
        | refunded hM => exact absurd hM (hb.answers _ _ _ _)
        | noted hid ht heq => exact hsame (ih id _ ht) (heq ▸ rfl)
      | shift hm =>
        cases hm.task_cases hs.linked ht' with
        | kept ht hloose => exact ih id t' ht
        | begun hbegun => exact absurd (hb.asks.symm.trans hbegun.asks) (by simp)
        | closed hx hid ht htx hc heq hloose => exact hsame (ih id _ ht) (heq ▸ rfl)
        | launched hid ht hcur hbudget htarget heq => exact hsame (ih id _ ht) (heq ▸ rfl)
  exact (hpath _ (apply_path st)).2 id t ht

/-! ### A task that moves on -/

section Moves

variable {e : Engine} {id : TaskId} {t t' : Task} {now : Instant}

section

variable (ht : e.tasks.get id = some t) (htx : t.tx = none)
include ht htx

theorem settle_task_self (a : Answer) : (e.settle id a).1.tasks.get id = none := by
  rw [settle_eq ht htx, Table.get_remove, if_pos rfl]

/-- A task that is there after `send` has been charged. -/
theorem send_task_self {server : IpAddr} {tcp : Bool}
    (h : (e.send id server tcp now).1.tasks.get id = some t') :
    t'.attempt = t.attempt + 1 ∧ t'.candidates = t.candidates := by
  have hgone : ∀ (e₁ : Engine) {a : Answer}, e₁.tasks.get id = some t →
      (e₁.settle id a).1.tasks.get id ≠ some t' :=
    fun e₁ a ht₁ h => by rw [settle_task_self ht₁ htx] at h; cases h
  unfold send at h
  simp only [ht] at h
  split at h
  · exact absurd h (hgone e ht)
  · split at h
    · exact absurd h (hgone (e.count _) ht)
    · split at h
      · exact absurd h (hgone ({ e with draws := e.draws + 1 }.count _) ht)
      · rw [launch_tasks_self _ _ _ _ (e := { e with draws := e.draws + 1 }) ht] at h
        obtain rfl := Option.some.inj h
        exact ⟨rfl, rfl⟩

theorem nextAttempt_task_self (h : (e.nextAttempt id now).1.tasks.get id = some t') :
    t'.attempt = t.attempt + 1 ∧ t'.candidates = t.candidates := by
  unfold nextAttempt at h
  simp only [ht] at h
  split at h
  · rw [settle_task_self ht htx] at h
    cases h
  · split at h
    · rw [settle_task_self ht htx] at h
      cases h
    · exact (send_task_self (get_updateTask_self ht _) htx h :)

/-- A task that is there after `next_candidate` has been charged, and has fewer candidates left. -/
theorem nextCandidateLoop_task_self {rtype : UInt16} {noCache : Bool} {cs : List Name}
    (h : (nextCandidateLoop id rtype noCache now cs e).1.tasks.get id = some t') :
    t'.attempt = t.attempt + 1 ∧ t'.candidates.length < cs.length := by
  induction cs generalizing e t with
  | nil =>
    rw [nextCandidateLoop, settle_task_self ht htx] at h
    cases h
  | cons c rest ih =>
    cases hs : e.route c with
    | none =>
      rw [nextCandidateLoop_unroutable hs, settle_task_self ht htx] at h
      cases h
    | some s =>
      rw [nextCandidateLoop_cons hs] at h
      have hget := get_updateTask_self ht fun t => t.choose c rest s
      -- however the cache was asked, the task is at the candidate
      have hattempt : ∀ e₁ : Engine, (e₁.nextAttempt id now).1.tasks.get id = some t' →
          e₁.tasks.get id = some (t.choose c rest s) →
          t'.attempt = t.attempt + 1 ∧ t'.candidates.length < (c :: rest).length := by
        intro e₁ h₁ ht₁
        obtain ⟨hcharged, hcs⟩ := nextAttempt_task_self ht₁ htx h₁
        exact ⟨hcharged, hcs ▸ Nat.lt_succ_self _⟩
      have hloop : ∀ e₁ : Engine, (nextCandidateLoop id rtype noCache now rest e₁).1.tasks.get id =
          some t' →
          e₁.tasks.get id = some (t.choose c rest s) →
          t'.attempt = t.attempt + 1 ∧ t'.candidates.length < (c :: rest).length := by
        intro e₁ h₁ ht₁
        obtain ⟨hcharged, hcs⟩ := ih ht₁ htx h₁
        exact ⟨hcharged, Nat.lt_succ_of_lt hcs⟩
      have hgone : ∀ (e₁ : Engine) (a : Answer), (e₁.settle id a).1.tasks.get id = some t' →
          e₁.tasks.get id ≠ some (t.choose c rest s) := by
        intro e₁ a h₁ ht₁
        rw [settle_task_self ht₁ htx] at h₁
        cases h₁
      dsimp only at h
      split at h
      · exact hattempt _ h hget
      · split at h
        · exact hattempt _ h hget
        · split at h
          · exact hloop _ h hget
          · exact (hgone _ _ h hget).elim

end

/-- **A task that goes on after an answer** was refunded and charged, and has moved to a further
candidate. -/
theorem Answers.task_self {st : Step Engine Op} {tx : Txid} {x : Tx} {M : Message}
    (h : Answers st tx x t M) (ht' : (after st).tasks.get x.task = some t') :
    M.rcode = 3 ∧ t.candidates ≠ [] ∧ t'.attempt = t.attempt - 1 + 1 ∧
      t'.candidates.length < t.candidates.length := by
  obtain ⟨now, heq⟩ := h.apply_eq
  rw [after, heq] at ht'
  have hget := h.get_task (fun c => { c with upstreamAnswered := c.upstreamAnswered + 1 }) now
  unfold accept at ht'
  dsimp only at ht'
  split at ht'
  · next hmoves =>
    have hget' := get_updateTask_self hget fun t => { t with attempt := t.attempt - 1 }
    rw [nextCandidate, hget'] at ht'
    obtain ⟨hcharged, hcs⟩ := nextCandidateLoop_task_self hget' rfl ht'
    exact ⟨code_of_notFound h.code hmoves.1, hmoves.2, hcharged, hcs⟩
  · rw [settle_task_self hget rfl] at ht'
    cases ht'

end Moves

/-! ### New tasks -/

/-- A task that began in the operation: it is charged when it has a transaction, and is then at one
of its candidates, with those behind it left. -/
structure Young (st : Step Engine Op) (t : Task) : Prop where
  begun : ∃ b, Begun st b ∧ b.original = t.original
  loose : t.tx = none → t.attempt = 0
  charged : t.tx ≠ none → t.attempt = 1 ∧ t.current ≠ none
  candidates : t.current = none ∧
    (t.candidates = [] ∨ t.candidates = st.before.candidates t.original) ∨
    t.current ≠ none ∧ t.candidates.length < (st.before.candidates t.original).length

theorem Young.asks (h : Young st t) : st.input.asks ≠ none := by
  obtain ⟨b, hb, -⟩ := h.begun
  rw [hb.asks]
  exact Option.some_ne_none _

theorem Young.move {m' : Mid} (hs : Sound st m)
    (h : ∀ id t, m.engine.tasks.get id = some t → st.before.nextId ≤ id → Young st t)
    (hm : Move st m m') :
    ∀ id t, m'.engine.tasks.get id = some t → st.before.nextId ≤ id → Young st t := by
  intro id t' ht' hge
  have hloose : ∀ {t : Task}, m.engine.tasks.get id = some t → id ∈ m.loose → t.tx = none := by
    intro t ht hid
    obtain ⟨t₁, ht₁, htx⟩ := hs.linked.loose_task id hid
    obtain rfl := Option.mem_unique ht ht₁
    exact htx
  cases hm with
  | tweak hm =>
    cases hm.task_cases ht' with
    | kept ht => exact h id t' ht hge
    | @marked t ht hop hst =>
      obtain ⟨⟨b, hb, -⟩, -⟩ := h id t ht hge
      rw [Op.not_config_of_asks hb.asks] at hop
      cases hop
    | @expanded t hop hid ht hnew hnone hne heq =>
      have htx := hloose ht hid
      obtain ⟨⟨b, hb, horig⟩, hzero, -, -⟩ := h id t ht hge
      have hsettings := hs.steady.settings (Op.not_config_of_asks hb.asks)
      subst heq
      exact ⟨⟨b, hb, horig⟩, hzero, fun hne => absurd htx hne,
        .inl ⟨hnew, .inr (by rw [hsettings.candidates_eq])⟩⟩
    | @chosen t c rest s hop hid ht hc hroute hwhy heq =>
      have htx := hloose ht hid
      obtain ⟨hbegun, hzero, -, hcs⟩ := h id t ht hge
      subst heq
      refine ⟨hbegun, hzero, fun hne => absurd htx hne, .inr ⟨by simp [Task.choose], ?_⟩⟩
      -- the candidate is the first of all of them, or of those that were left
      rw [hc] at hcs
      rcases hcs with ⟨-, hnil | hall⟩ | ⟨-, hlt⟩
      · cases hnil
      · show rest.length < (st.before.candidates t.original).length
        rw [← hall]
        exact Nat.lt_succ_self _
      · exact (Nat.lt_succ_self rest.length).trans hlt
    | refunded hM hid ht heq => exact absurd hM.asks (h id _ ht hge).asks
    | @noted t server hid ht heq =>
      obtain ⟨h1, h2, h3, h4⟩ := h id t ht hge
      subst heq
      exact ⟨h1, h2, h3, h4⟩
  | shift hm =>
    cases hm.task_cases hs.linked ht' with
    | kept ht hl => exact h id t' ht hge
    | begun hb hid hl =>
      have hfresh := hb.fresh
      exact ⟨⟨t', hb, rfl⟩, fun _ => hfresh.attempt, fun hne => absurd hfresh.tx hne,
        .inl ⟨hfresh.current, .inl hfresh.candidates⟩⟩
    | closed hx hid ht htx hc heq hl => exact absurd hc.asks (h id _ ht hge).asks
    | @launched t server tcp random hid ht hcur hbudget htarget heq hx hacts hl =>
      have htx := hloose ht hid
      obtain ⟨⟨b, hb, horig⟩, hzero, -, hcs⟩ := h id t ht hge
      have hcur' : t.current ≠ none :=
        hcur.resolve_right fun hnone => by rw [hb.asks] at hnone; cases hnone
      subst heq
      refine ⟨⟨b, hb, horig⟩, fun hnone => (by cases hnone), fun _ =>
        ⟨congrArg (· + 1) (hzero htx), hcur'⟩, hcs⟩

/-- **A task that began in a step and is there after it** was charged once, and is at one of its
candidates. -/
theorem young_step (hl : Linked [] st.before)
    (ht : (after st).tasks.get id = some t) (hge : st.before.nextId ≤ id) :
    (∃ b, Begun st b ∧ b.original = t.original) ∧ t.attempt = 1 ∧
      t.candidates.length < (st.before.candidates t.original).length := by
  have hpath : ∀ m, Path st (.first st) m → Sound st m ∧
      ∀ id t, m.engine.tasks.get id = some t → st.before.nextId ≤ id → Young st t := by
    intro m hp
    induction hp with
    | refl =>
      exact ⟨sound_first hl, fun id t ht hge => absurd (hl.task_lt id t ht) (not_lt.mpr hge)⟩
    | tail _ hm ih => exact ⟨ih.1.move hm, Young.move ih.1 ih.2 hm⟩
  obtain ⟨hs, hyoung⟩ := hpath _ (apply_path st)
  obtain ⟨hbegun, -, hcharged, hcs⟩ := hyoung id t ht hge
  obtain ⟨tx, x, htx, -⟩ := hs.linked.task_tx id t ht (by simp [Mid.last])
  obtain ⟨hattempt, hcur⟩ := hcharged (by rw [htx]; simp)
  exact ⟨hbegun, hattempt, (hcs.resolve_left fun h => hcur h.1).2⟩

/-! ### One step -/

/-- How a step moves the counts of a task: what it does to a task that was there, and that it does
nothing else. -/
structure Spent (st : Step Engine Op) (id : TaskId) : Prop where
  /-- the task goes on -/
  live : ∀ t₀ t, st.before.tasks.get id = some t₀ → (after st).tasks.get id = some t →
    t.attempt + refundedFor st id = t₀.attempt + sentFor st id ∧
      t₀.attempt + failedFor st id = t.attempt ∧
      t.candidates.length + refundedFor st id ≤ t₀.candidates.length
  /-- the task ends -/
  ended : ∀ t₀, st.before.tasks.get id = some t₀ → (after st).tasks.get id = none →
    failedFor st id ≤ 1 ∧ refundedFor st id ≤ t₀.candidates.length
  /-- there was no such task -/
  absent : st.before.tasks.get id = none → failedFor st id = 0 ∧ refundedFor st id = 0
  /-- a task that is there no more sends nothing -/
  gone : (after st).tasks.get id = none → sentFor st id = 0
  /-- a new task is sent for once -/
  young : st.before.tasks.get id = none → ∀ t, (after st).tasks.get id = some t → sentFor st id = 1

section

variable (hl : Linked [] st.before)
include hl

theorem sentFor_some {tx : Txid} (ht : (after st).tasks.get id = some t) (htx : t.tx = some tx) :
    sentFor st id = (decide (st.before.nextId ≤ tx)).toNat := by
  have hs := Path.sound hl (apply_path st)
  have hl' : Linked [] (after st) := hs.linked
  obtain ⟨tx', x, htx', hx, hid⟩ := hl'.task_tx id t ht (by simp)
  obtain rfl := Option.mem_unique htx htx'
  rw [sentFor, ofTask_some hl' hx hid]
  congr 1
  rw [Bool.eq_iff_iff, contains_iff_mem, decide_eq_true_iff]
  constructor
  · exact fun hmem => (hs.traffic.sent tx hmem).1
  · intro hge
    obtain ⟨-, t', -, hsend⟩ := hs.traffic.new_tx tx x hx hge
    exact mem_filterMap.mpr ⟨_, hsend, rfl⟩

/-- Only a task with a further candidate is refunded. -/
theorem refundedFor_le
    (ht : st.before.tasks.get id = some t) : refundedFor st id ≤ t.candidates.length := by
  obtain ⟨tx, x, htx, hx, hid⟩ := hl.task_tx id t ht (by simp)
  rw [refundedFor, ofTask_some hl hx hid]
  cases hmoves : movesOn st tx x with
  | false => exact Nat.zero_le _
  | true =>
    obtain ⟨acts, hclose⟩ := closes_of_movesOn hx hmoves
    rcases hclose.outcome hx (hid ▸ ht) with ⟨-, hno, -⟩ | ⟨M, -, -, heq⟩
    · rw [hmoves] at hno
      cases hno
    · rw [heq, Bool.and_eq_true, Bool.not_eq_true', isEmpty_eq_false_iff] at hmoves
      exact length_pos_iff.mpr hmoves.2

/-- A task whose transaction the step does not end. -/
theorem spent_still {t₀ : Task} (ht₀ : st.before.tasks.get id = some t₀)
    (ht : (after st).tasks.get id = some t) (hstill : t₀.Still t) :
    sentFor st id = 0 ∧ refundedFor st id = 0 ∧ failedFor st id = 0 := by
  have hl' : Linked [] (after st) := (Path.sound hl (apply_path st)).linked
  obtain ⟨tx, x, htx, hx, hid⟩ := hl.task_tx id t₀ ht₀ (by simp)
  have htx' : t.tx = some tx := hstill.tx.trans htx
  obtain ⟨tx', x', htx'', hx', -⟩ := hl'.task_tx id t ht (by simp)
  obtain rfl := Option.mem_unique htx' htx''
  have hopen : ∀ acts, ¬ Closes st tx acts := by
    intro acts hclose
    rw [hclose.gone hl] at hx'
    cases hx'
  have hbad : endsBadly st tx x = false := Bool.eq_false_iff.mpr fun h => by
    obtain ⟨acts, hclose⟩ := closes_of_endsBadly hx h
    exact hopen acts hclose
  have hmoves : movesOn st tx x = false := Bool.eq_false_iff.mpr fun h => by
    obtain ⟨acts, hclose⟩ := closes_of_movesOn hx h
    exact hopen acts hclose
  rw [sentFor_some hl ht htx', refundedFor, failedFor, ofTask_some hl hx hid, ofTask_some hl hx hid,
    hbad, hmoves, decide_eq_false (not_le.mpr (hl.tx_lt tx x hx))]
  exact ⟨rfl, rfl, rfl⟩

/-- A task whose transaction the step ends, and that goes on, was sent for again. -/
theorem Closes.sentFor {tx : Txid} {x : Tx} {acts : List Action} (hclose : Closes st tx acts)
    (hx : st.before.txs.get tx = some x) (hid : x.task = id)
    (ht : (after st).tasks.get id = some t) : sentFor st id = 1 ∧ t.Resent st := by
  have hs := Path.sound hl (apply_path st)
  have hl' : Linked [] (after st) := hs.linked
  obtain ⟨tx', x', htx', hx', hid'⟩ := hl'.task_tx id t ht (by simp)
  have hge : st.before.nextId ≤ tx' := by
    by_contra hlt
    obtain ⟨hold, -⟩ := hs.traffic.old_tx tx' x' hx' (not_le.mp hlt)
    obtain rfl := hl.tx_unique hx hold (hid'.trans hid.symm)
    rw [hclose.gone hl] at hx'
    cases hx'
  rw [sentFor_some hl ht htx', decide_eq_true hge]
  exact ⟨rfl, tx', htx', hge⟩

/-- **What a step does to the budget of a task.** -/
theorem spent_step (hattempts : Attempts [] st.before) (id : TaskId) : Spent st id := by
  have hs := Path.sound hl (apply_path st)
  have hl' : Linked [] (after st) := hs.linked
  constructor
  case gone => exact fun hnone => ofTask_none hl' hnone
  case absent => exact fun hnone => ⟨ofTask_none hl hnone, ofTask_none hl hnone⟩
  case young =>
    intro hnone t ht
    obtain ⟨tx, x, htx, hx, hid⟩ := hl'.task_tx id t ht (by simp)
    have hge : st.before.nextId ≤ tx := by
      by_contra hlt
      obtain ⟨-, t₀, -, ht₀, -⟩ := hs.traffic.old_tx tx x hx (not_le.mp hlt)
      rw [hid, hnone] at ht₀
      cases ht₀
    rw [sentFor_some hl ht htx, decide_eq_true hge]
    rfl
  case ended =>
    intro t₀ ht₀ hnone
    obtain ⟨tx, x, htx, hx, hid⟩ := hl.task_tx id t₀ ht₀ (by simp)
    refine ⟨?_, refundedFor_le hl ht₀⟩
    rw [failedFor, ofTask_some hl hx hid]
    exact Bool.toNat_le _
  case live =>
    intro t₀ t ht₀ ht
    obtain ⟨t₁, ht₁, hstill | ⟨tx, acts, htx, hclose⟩⟩ :=
      moved_step hl id t ht (hl.task_lt id t₀ ht₀)
    all_goals obtain rfl := Option.mem_unique ht₀ ht₁
    · obtain ⟨h1, h2, h3⟩ := spent_still hl ht₀ ht hstill
      rw [h1, h2, h3, hstill.attempt, hstill.candidates]
      exact ⟨rfl, rfl, le_refl _⟩
    · obtain ⟨tx', x, htx', hx, hid⟩ := hl.task_tx id t₀ ht₀ (by simp)
      obtain rfl := Option.mem_unique htx htx'
      obtain ⟨hsent, hresent⟩ := hclose.sentFor hl hx hid ht
      rw [hsent, refundedFor, failedFor, ofTask_some hl hx hid, ofTask_some hl hx hid]
      rcases hclose.outcome hx (hid ▸ ht₀) with ⟨hbad, hmoves, hb⟩ | ⟨M, hM, hbad, hmoves⟩
      · -- charged again, at the same candidate
        obtain ⟨t₁, ht₁, hmore, -⟩ := hb.charged hl id t ht
        obtain ⟨t₂, ht₂, hcs⟩ := hb.candidates hl ht
        obtain rfl := Option.mem_unique ht₀ ht₁
        obtain rfl := Option.mem_unique ht₀ ht₂
        rw [hbad, hmoves, hmore hresent, hcs]
        exact ⟨rfl, rfl, le_refl _⟩
      · -- refunded and charged, at a further one
        obtain ⟨hcode, hne, hattempt, hcs⟩ := hM.task_self (hid ▸ ht)
        have hone := (hattempts id t₀ ht₀).1 (by simp)
        have hempty : t₀.candidates.isEmpty = false := isEmpty_eq_false_iff.mpr hne
        rw [hbad, hmoves, hcode, hempty, hattempt, Nat.sub_add_cancel hone]
        exact ⟨rfl, rfl, hcs⟩

end

/-! ### Runs -/

/-- A count of the steps, over a whole log. -/
def total (count : Step Engine Op → TaskId → ℕ) (log : EngineLog) (id : TaskId) : ℕ :=
  (log.map fun st => count st id).sum

theorem total_cons (count : Step Engine Op → TaskId → ℕ) (st : Step Engine Op) (log : EngineLog)
    (id : TaskId) : total count (st :: log) id = total count log id + count st id := by
  rw [total, map_cons, sum_cons, Nat.add_comm]
  rfl

/-- The tasks that begin in one step ask for one name. -/
theorem Begun.original_eq {b b' : Task} (h : Begun st b) (h' : Begun st b') :
    b.original = b'.original := by
  obtain ⟨e, op⟩ := st
  cases h with
  | resolve h =>
    cases h' with
    | resolve h' => exact (h.unique h').1
    | lookup h' hr' => cases h' with | lookup hp => cases h
  | lookup h hr =>
    cases h with
    | lookup hp =>
      cases h' with
      | resolve h' => cases h'
      | lookup h' hr' => cases h' with | lookup hp' => exact Except.ok.inj (hp.symm.trans hp')

/-- What a task has spent, when it has `n` candidates. -/
structure Within (n : ℕ) (log : EngineLog) (e : Engine) (id : TaskId) : Prop where
  old : id < e.nextId
  sent : total sentFor log id ≤ maxAttempts + total refundedFor log id
  failed : total failedFor log id ≤ maxAttempts
  refunded : total refundedFor log id ≤ n - 1
  left : ∀ t, e.tasks.get id = some t → total refundedFor log id + t.candidates.length + 1 ≤ n

/-- The books of all tasks. -/
structure Budget (log : EngineLog) (e : Engine) : Prop where
  fresh : ∀ id, e.nextId ≤ id →
    total sentFor log id = 0 ∧ total refundedFor log id = 0 ∧ total failedFor log id = 0
  live : ∀ id t, e.tasks.get id = some t →
    t.attempt + total refundedFor log id = total sentFor log id ∧
      total failedFor log id + 1 = t.attempt
  within : ∀ new st₀ old b id, log = new ++ st₀ :: old → Begun st₀ b → st₀.before.nextId ≤ id →
    id < (after st₀).nextId → Within (st₀.before.candidates b.original).length log e id

theorem Budget.reorder {log : EngineLog} {e e' : Engine} (h : Budget log e) (hr : Reorder e e') :
    Budget log e' := by
  have htasks := hr.tasks.get_eq
  refine ⟨fun id hid => h.fresh id (hr.nextId ▸ hid), fun id t ht => h.live id t (htasks id ▸ ht),
    fun new st₀ old b id hlog hb hlo hhi => ?_⟩
  obtain ⟨h1, h2, h3, h4, h5⟩ := h.within new st₀ old b id hlog hb hlo hhi
  exact ⟨hr.nextId ▸ h1, h2, h3, h4, fun t ht => h5 t (htasks id ▸ ht)⟩

section Step

variable {log : EngineLog} {st : Step Engine Op} {id : TaskId}

theorem Within.begin (hl : Linked [] st.before) (hspent : Spent st id) (h : Budget log st.before)
    {b : Task} (hb : Begun st b) (hlo : st.before.nextId ≤ id) (hhi : id < (after st).nextId) :
    Within (st.before.candidates b.original).length (st :: log) (after st) id := by
  have hnone := hl.task_fresh hlo
  obtain ⟨h1, h2, h3⟩ := h.fresh id hlo
  obtain ⟨hfailed, hrefunded⟩ := hspent.absent hnone
  have hsent : sentFor st id ≤ 1 := by
    cases ht : (after st).tasks.get id with
    | none => exact (hspent.gone ht).trans_le (Nat.zero_le _)
    | some t => exact (hspent.young hnone t ht).le
  constructor
  case old => exact hhi
  case left =>
    intro t ht
    obtain ⟨⟨b', hb', horig⟩, -, hcs⟩ := young_step hl ht hlo
    rw [total_cons, h2, hrefunded, hb.original_eq hb', horig]
    omega
  all_goals simp only [total_cons, h1, h2, h3, hfailed, hrefunded, maxAttempts]
  all_goals omega

theorem Within.step {n : ℕ} (hs : Sound st (.last st)) (hspent : Spent st id)
    (hbefore : Attempts [] st.before) (hafter : Attempts [] (after st)) (h : Budget log st.before)
    (hw : Within n log st.before id) : Within n (st :: log) (after st) id := by
  obtain ⟨hold, hsent, hfailed, hrefunded, hleft⟩ := hw
  have hnext : st.before.nextId ≤ (after st).nextId := hs.traffic.nextId_le
  cases ht₀ : st.before.tasks.get id with
  | none =>
    have hnone : (after st).tasks.get id = none := by
      cases ht : (after st).tasks.get id with
      | none => rfl
      | some t =>
        obtain ⟨t₀, ht₀', -⟩ := hs.traffic.old_task id t ht hold
        rw [ht₀] at ht₀'
        cases ht₀'
    obtain ⟨h1, h2⟩ := hspent.absent ht₀
    have h3 := hspent.gone hnone
    refine ⟨lt_of_lt_of_le hold hnext, ?_, ?_, ?_, fun t ht => by rw [hnone] at ht; cases ht⟩
    all_goals simpa only [total_cons, h1, h2, h3, Nat.add_zero]
  | some t₀ =>
    obtain ⟨hlive₁, hlive₂⟩ := h.live id t₀ ht₀
    have hleft₀ := hleft t₀ ht₀
    have hmax := (hbefore id t₀ ht₀).2
    cases ht : (after st).tasks.get id with
    | none =>
      obtain ⟨h1, h2⟩ := hspent.ended t₀ ht₀ ht
      have h3 := hspent.gone ht
      refine ⟨lt_of_lt_of_le hold hnext, ?_, ?_, ?_, fun t ht' => by rw [ht] at ht'; cases ht'⟩
      all_goals
        simp only [total_cons]
        omega
    | some t =>
      obtain ⟨h1, h2, h3⟩ := hspent.live t₀ t ht₀ ht
      have hmax' := (hafter id t ht).2
      have hleft' : total refundedFor (st :: log) id + t.candidates.length + 1 ≤ n := by
        rw [total_cons]
        omega
      refine ⟨lt_of_lt_of_le hold hnext, ?_, ?_, ?_, fun t' ht' =>
        Option.mem_unique ht ht' ▸ hleft'⟩
      all_goals
        simp only [total_cons] at hleft' ⊢
        omega

/-- **The books after a step.** -/
theorem Budget.step (hs : Sound st (.last st)) (hbefore : Attempts [] st.before)
    (hafter : Attempts [] (after st)) (h : Budget log st.before) :
    Budget (st :: log) (after st) := by
  have hspent := spent_step hs.start hbefore
  have hl' : Linked [] (after st) := hs.linked
  have hnext : st.before.nextId ≤ (after st).nextId := hs.traffic.nextId_le
  refine ⟨fun id hid => ?_, fun id t ht => ?_, fun new st₀ old b id hlog hb hlo hhi => ?_⟩
  · obtain ⟨h1, h2, h3⟩ := h.fresh id (hnext.trans hid)
    obtain ⟨h4, h5⟩ := (hspent id).absent (hs.start.task_fresh (hnext.trans hid))
    have h6 := (hspent id).gone (hl'.task_fresh hid)
    simp only [total_cons, h1, h2, h3, h4, h5, h6, and_self]
  · cases ht₀ : st.before.tasks.get id with
    | some t₀ =>
      obtain ⟨h1, h2⟩ := h.live id t₀ ht₀
      obtain ⟨h3, h4, -⟩ := (hspent id).live t₀ t ht₀ ht
      simp only [total_cons]
      omega
    | none =>
      -- a task that was not there is a new one
      have hge : st.before.nextId ≤ id := by
        by_contra hlt
        obtain ⟨t₀, ht₀', -⟩ := hs.traffic.old_task id t ht (not_le.mp hlt)
        rw [ht₀] at ht₀'
        cases ht₀'
      obtain ⟨-, hone, -⟩ := young_step hs.start ht hge
      obtain ⟨h1, h2, h3⟩ := h.fresh id hge
      obtain ⟨h4, h5⟩ := (hspent id).absent ht₀
      have h6 := (hspent id).young ht₀ t ht
      simp only [total_cons, h1, h2, h3, h4, h5, h6, hone, and_self]
  · cases new with
    | nil =>
      obtain ⟨rfl, -⟩ := List.cons.inj hlog
      exact .begin hs.start (hspent id) h hb hlo hhi
    | cons st' new =>
      obtain ⟨rfl, hlog'⟩ := List.cons.inj hlog
      exact (h.within new st₀ old b id hlog' hb hlo hhi).step hs (hspent id) hbefore hafter h

end Step

theorem Runs.books {entropy : Entropy} {log : EngineLog} {e : Engine} (h : Runs entropy log e) :
    Budget log e := by
  refine (Runs.step_invariant (I := fun log e => Attempts [] e ∧ Budget log e) ?_ ?_ ?_ h).2
  · refine ⟨by simp [Attempts, withEntropy], fun id _ => ⟨rfl, rfl, rfl⟩, by simp [withEntropy], ?_⟩
    rintro (_ | ⟨_, _⟩) st₀ old b id hlog <;> cases hlog
  · rintro log e e' ⟨hattempts, hbudget⟩ hr
    exact ⟨fun id t ht => hattempts id t (hr.tasks.get_eq id ▸ ht), hbudget.reorder hr⟩
  · rintro log st hreached hs ⟨hattempts, hbudget⟩
    have hafter : Attempts [] (after st) := hreached.after.attempts
    exact ⟨hafter, hbudget.step hs hattempts hafter⟩

/-- **The attempt budget.**  A task under way has used at least one and at most `MAX_ATTEMPTS`
attempts, which are the queries sent for it less the NXDOMAIN replies that moved it to a further
candidate; such a refund never meets a zero.  So over its whole life a task of `n` candidates is
sent for at most `MAX_ATTEMPTS + n - 1` times, and at most `MAX_ATTEMPTS` of these queries end in a
timeout, a failure, a failure response code or a truncated reply. -/
theorem Runs.budget {entropy : Entropy} {log : EngineLog} {e : Engine} (h : Runs entropy log e) :
    (∀ id t, e.tasks.get id = some t → 1 ≤ t.attempt ∧ t.attempt ≤ maxAttempts ∧
      t.attempt + total refundedFor log id = total sentFor log id) ∧
    (∀ st ∈ log, ∀ tx x t M, Answers st tx x t M → t.attempt - 1 + 1 = t.attempt) ∧
    ∀ new st₀ old b id, log = new ++ st₀ :: old → Begun st₀ b → st₀.before.nextId ≤ id →
      id < (after st₀).nextId →
      total refundedFor log id ≤ (st₀.before.candidates b.original).length - 1 ∧
      total sentFor log id ≤ maxAttempts + ((st₀.before.candidates b.original).length - 1) ∧
      total failedFor log id ≤ maxAttempts := by
  refine ⟨fun id t ht => ?_, fun st hst tx x t M hM => ?_,
    fun new st₀ old b id hlog hb hlo hhi => ?_⟩
  · obtain ⟨hone, hmax⟩ := h.attempts id t ht
    exact ⟨hone (by simp), hmax, (h.books.live id t ht).1⟩
  · obtain ⟨new, old, hlog⟩ := append_of_mem hst
    have hattempts := (h.reached hlog).attempts
    exact Nat.sub_add_cancel ((hattempts _ t hM.task).1 (by simp))
  · obtain ⟨-, hsent, hfailed, hrefunded, -⟩ := h.books.within new st₀ old b id hlog hb hlo hhi
    exact ⟨hrefunded, hsent.trans (Nat.add_le_add_left hrefunded _), hfailed⟩

/-- Two queries, of which the first was refunded. -/
theorem budget_searchOnLan :
    total sentFor (ran zeros searchOnLan).1 1 = 2 ∧
      total refundedFor (ran zeros searchOnLan).1 1 = 1 ∧
      ∀ id t, (ran zeros searchOnLan).2.tasks.get id = some t → 1 ≤ t.attempt ∧
        t.attempt ≤ maxAttempts ∧
        t.attempt + total refundedFor (ran zeros searchOnLan).1 id = total sentFor
          (ran zeros searchOnLan).1 id :=
  ⟨by decide +kernel, by decide +kernel, (Runs.budget (runs_ran zeros searchOnLan)).1⟩

end Resolvd.Engine
