import Resolvd.Daemon.Upstream
import Resolvd.Engine.Drain

/-!
# Sockets and transactions

While the actions of the engine are carried out, the open sockets and the live transactions differ
in what is still to be done: a query that is still to be sent has no socket yet, and a transaction
that is still to be cancelled has one (`Wired`).  The rest of this file says how the books stand
after an action (`Wired.send`, `Wired.unsent`, `Wired.cancel`, `Wired.done`) and after an operation
of the engine (`Wired.step`), and that a query sent because another one failed costs its task one
attempt more (`Sends.raise`).
-/

namespace Resolvd.Daemon

open Lib Dns Engine List

variable {e : Engine} {tx : Txid} {u : Upstream} {p : List Action} {k : ℕ} {st : Step Engine Op}

/-- The engine has the transaction. -/
def Live (e : Engine) (tx : Txid) : Prop := ∃ x, e.txs.get tx = some x

/-- The transactions of the queries that are to be sent. -/
abbrev sents (p : List Action) : List Txid := p.filterMap Action.sent

/-- The sockets agree with the transactions, when the actions `p` are still to be carried out.  The
transaction that is adrift has lost its socket, or did not get one, and the engine has not heard of
it yet. -/
structure Wired (adrift : Option Txid) (e : Engine) (u : Upstream) (p : List Action) : Prop where
  apart : u.Apart
  opened : ∀ tx, u.Open tx → tx ∉ sents p ∧ tx < e.nextId ∧ (Live e tx ∨ .cancel tx ∈ p)
  live : ∀ tx, Live e tx → u.Open tx ∨ tx ∈ sents p ∨ adrift = some tx
  sent : ∀ tx ∈ sents p, Live e tx
  sent_once : (sents p).Nodup
  cancelled : ∀ tx, .cancel tx ∈ p → ¬ Live e tx ∧ tx < e.nextId
  adrift : ∀ tx, adrift = some tx → Live e tx ∧ ¬ u.Open tx ∧ tx ∉ sents p

theorem Live.lt (h : Live e tx) (hl : Linked [] e) : tx < e.nextId := by
  obtain ⟨x, hx⟩ := h
  exact hl.tx_lt tx x hx

/-- With nothing left to do, the open sockets are those of the live transactions. -/
theorem Wired.open_iff (h : Wired none e u []) (tx : Txid) : u.Open tx ↔ Live e tx := by
  constructor
  · intro hopen
    exact (h.opened tx hopen).2.2.resolve_right (by simp)
  · intro hlive
    have hcases := h.live tx hlive
    simpa using hcases

theorem Wired.reorder {e' : Engine} {u' : Upstream} (h : Wired none e u [])
    (hr : Engine.Reorder e e') (hudp : u.udp.Same u'.udp) (htcp : u.tcp.Same u'.tcp) :
    Wired none e' u' [] := by
  have hopen : ∀ tx, u'.Open tx ↔ u.Open tx := fun tx => by
    simp only [Upstream.Open, hudp.get_eq, htcp.get_eq]
  have hlive : ∀ tx, Live e' tx ↔ Live e tx := fun tx => by simp only [Live, hr.txs.get_eq]
  have hapart : u'.Apart := fun tx => by
    rw [hudp.get_eq, htcp.get_eq]
    exact h.apart tx
  obtain ⟨-, h2, h3, h4, h5, h6, h7⟩ := h
  refine ⟨hapart, ?_, ?_, ?_, h5, ?_, ?_⟩ <;> simpa only [hopen, hlive, hr.nextId]

/-! ### Actions -/

section Actions

variable {e : Engine} {u u' : Upstream} {p : List Action} {tx : Txid} {server : IpAddr}
  {interface : Option String}
  {tcp : Bool} {payload : Bytes}

section

variable (h : Wired none e u (.send tx server interface tcp payload :: p))
include h

theorem Wired.send {os : Os} (hl : Linked [] e)
    (hsend : u.send os tx server interface tcp payload = .ok u') : Wired none e u' p := by
  have hlive : Live e tx := h.sent tx (by simp [sents, Action.sent])
  have hclosed : ¬ u.Open tx := fun ho => (h.opened tx ho).1 (by simp [sents, Action.sent])
  have hopen := Upstream.open_send hsend
  have hlt := hlive.lt hl
  obtain ⟨h1, h2, h3, h4, h5, h6, h7⟩ := h
  simp only [sents, Action.sent, filterMap_cons, mem_cons, nodup_cons, reduceCtorEq, false_or] at *
  refine ⟨h1.send hclosed hsend, ?_, ?_, ?_, h5.2, h6, by simp⟩ <;> grind

theorem Wired.unsent : Wired (some tx) e u p := by
  have hlive : Live e tx := h.sent tx (by simp [sents, Action.sent])
  have hclosed : ¬ u.Open tx := fun ho => (h.opened tx ho).1 (by simp [sents, Action.sent])
  obtain ⟨h1, h2, h3, h4, h5, h6, h7⟩ := h
  simp only [sents, Action.sent, filterMap_cons, mem_cons, nodup_cons, reduceCtorEq, false_or] at *
  refine ⟨h1, ?_, ?_, ?_, h5.2, h6, ?_⟩ <;> grind

end

theorem Wired.cancel (h : Wired none e u (.cancel tx :: p)) : Wired none e (u.cancel tx) p := by
  have hopen : ∀ tx', (u.cancel tx).Open tx' ↔ u.Open tx' ∧ tx' ≠ tx :=
    fun _ => Upstream.open_cancel
  obtain ⟨h1, h2, h3, h4, h5, h6, h7⟩ := h
  simp only [sents, Action.sent, filterMap_cons, mem_cons, Action.cancel.injEq] at *
  refine ⟨h1.cancel tx, ?_, ?_, ?_, h5, ?_, by simp⟩ <;> grind

theorem Wired.done {q : Qid} {c : Completion} (h : Wired none e u (.done q c :: p)) :
    Wired none e u p := by
  obtain ⟨h1, h2, h3, h4, h5, h6, h7⟩ := h
  simp only [sents, Action.sent, filterMap_cons, mem_cons, reduceCtorEq, false_or, or_false] at *
  exact ⟨h1, h2, by simpa using h3, h4, h5, h6, by simp⟩

end Actions

/-! ### Operations of the engine -/

/-- **An operation of the engine.**  It brings the end of the transaction that is adrift, and of no
other one; it cancels transactions only when nothing else is to be done. -/
theorem Wired.step {adrift : Option Txid} (st : Step Engine Op) (h : Wired adrift st.before u p)
    (hs : Sound st (.last st))
    (hends : ∀ tx, Live st.before tx → (st.input.Ends st.before tx ↔ adrift = some tx))
    (hcancel : p = [] ∨ ∀ tx, .cancel tx ∉ actions st) :
    Wired none (after st) u (p ++ actions st) := by
  have hlinked := hs.start
  have hold : ∀ tx, tx < st.before.nextId → Live (after st) tx → Live st.before tx :=
    fun tx hlt hlive => hlive.imp fun x hx => (hs.traffic.old_tx tx x hx hlt).1
  have hgone : ∀ tx, adrift = some tx → ¬ Live (after st) tx := by
    rintro tx htx ⟨x, hx⟩
    obtain ⟨x₀, hx₀⟩ := (h.adrift tx htx).1
    obtain ⟨acts, hc⟩ := ((hends tx ⟨x₀, hx₀⟩).mpr htx).closes hx₀
    rw [hc.gone hlinked] at hx
    cases hx
  -- what was live is live, unless it was adrift or is cancelled
  have hkeep : ∀ tx, Live st.before tx → Live (after st) tx ∨ adrift = some tx ∨
      .cancel tx ∈ actions st := by
    rintro tx ⟨x, hx⟩
    cases hx' : (after st).txs.get tx with
    | some x' => exact .inl ⟨x', hx'⟩
    | none =>
      refine .inr ((hs.traffic.gone tx x hx hx').imp_left fun he => ?_)
      exact (hends tx ⟨x, hx⟩).mp he
  have hnew : ∀ tx ∈ sents (actions st), st.before.nextId ≤ tx ∧ Live (after st) tx :=
    hs.traffic.sent
  have hnext : st.before.nextId ≤ (after st).nextId := hs.traffic.nextId_le
  constructor
  case apart => exact h.apart
  case opened =>
    intro tx ho
    obtain ⟨hns, hlt, hor⟩ := h.opened tx ho
    refine ⟨?_, hlt.trans_le hnext, ?_⟩
    · rw [sents, filterMap_append, mem_append, not_or]
      exact ⟨hns, fun hmem => absurd hlt (not_lt.mpr (hnew tx hmem).1)⟩
    · rw [mem_append]
      rcases hor with hlive | hc
      · rcases hkeep tx hlive with hlive' | htx | hc
        · exact .inl hlive'
        · exact absurd ho (h.adrift tx htx).2.1
        · exact .inr (.inr hc)
      · exact .inr (.inl hc)
  case live =>
    intro tx hlive
    rw [sents, filterMap_append, mem_append]
    rcases lt_or_ge tx st.before.nextId with hlt | hge
    · rcases h.live tx (hold tx hlt hlive) with ho | hmem | htx
      · exact .inl ho
      · exact .inr (.inl (.inl hmem))
      · exact absurd hlive (hgone tx htx)
    · obtain ⟨x, hx⟩ := hlive
      obtain ⟨-, t, -, hsend⟩ := hs.traffic.new_tx tx x hx hge
      exact .inr (.inl (.inr (mem_filterMap.mpr ⟨_, hsend, rfl⟩)))
  case sent =>
    intro tx hmem
    rw [sents, filterMap_append, mem_append] at hmem
    rcases hmem with hmem | hmem
    · rcases hkeep tx (h.sent tx hmem) with hlive | htx | hc
      · exact hlive
      · exact absurd hmem (h.adrift tx htx).2.2
      · rcases hcancel with rfl | hno
        · cases hmem
        · exact absurd hc (hno tx)
    · exact (hnew tx hmem).2
  case sent_once =>
    rw [sents, filterMap_append]
    refine nodup_append.mpr ⟨h.sent_once, hs.traffic.sent_once, ?_⟩
    rintro a ha b hb rfl
    exact absurd ((h.sent a ha).lt hlinked) (not_lt.mpr (hnew a hb).1)
  case cancelled =>
    intro tx hc
    rcases mem_append.mp hc with hc | hc
    · obtain ⟨hno, hlt⟩ := h.cancelled tx hc
      exact ⟨fun hlive => hno (hold tx hlt hlive), hlt.trans_le hnext⟩
    · obtain ⟨hlive, hnone⟩ := hs.traffic.cancelled tx hc
      refine ⟨?_, (Live.lt hlive hlinked).trans_le hnext⟩
      rintro ⟨x, hx⟩
      have hnone' : (after st).txs.get tx = none := hnone
      rw [hx] at hnone'
      cases hnone'
  case adrift => simp

/-! ### Attempts -/

/-- The tasks of the queries that are to be sent have used `k` attempts. -/
def Sends (k : ℕ) (e : Engine) (p : List Action) : Prop :=
  ∀ tx ∈ sents p, ∀ x t, e.txs.get tx = some x → e.tasks.get x.task = some t → k ≤ t.attempt

theorem Sends.append {p' : List Action} (h : Sends k e p) (h' : Sends k e p') :
    Sends k e (p ++ p') := by
  intro tx hmem
  rw [sents, filterMap_append, mem_append] at hmem
  exact hmem.elim (h tx) (h' tx)

/-- An operation does not touch the tasks of the queries that are to be sent. -/
theorem Sends.kept (h : Sends k st.before p) (hs : Sound st (.last st))
    (hlive : ∀ tx ∈ sents p, Live st.before tx) : Sends k (after st) p := by
  intro tx hmem x t hx ht
  obtain ⟨hx₀, t₀, t', ht₀, ht', hstill⟩ := hs.traffic.old_tx tx x hx ((hlive tx hmem).lt hs.start)
  obtain rfl := Option.mem_unique ht' ht
  rw [hstill.attempt]
  exact h tx hmem x t₀ hx₀ ht₀

/-- The transaction is one of the task of the other, and the task has used one attempt more. -/
def Retries (e : Engine) (tx : Txid) (e' : Engine) (tx' : Txid) : Prop :=
  ∃ x t x' t', e.txs.get tx = some x ∧ e.tasks.get x.task = some t ∧ e'.txs.get tx' = some x' ∧
    e'.tasks.get x'.task = some t' ∧ x'.task = x.task ∧ t'.attempt = t.attempt + 1

/-- **A query that is sent because another one failed costs its task one attempt more.** -/
theorem retries_of_sent {tx' : Txid} (hs : Sound st (.last st)) (hb : Barren st)
    (hends : ∀ tx', st.input.Ends st.before tx' → tx' = tx)
    (hcancel : ∀ tx', .cancel tx' ∉ actions st) (hmem : tx' ∈ sents (actions st)) :
    Retries st.before tx (after st) tx' := by
  obtain ⟨hge, x', hx'⟩ := hs.traffic.sent tx' hmem
  obtain ⟨-, t₁, ht₁, htx'⟩ := hs.linked.tx_task tx' x' hx'
  obtain ⟨t₀, ht₀, hmore, -⟩ := hb.charged hs.start x'.task t₁ ht₁
  -- the task had another transaction before, which has gone: it is the one that failed
  obtain ⟨tx₀, x₀, -, hx₀, htask⟩ := hs.start.task_tx _ t₀ ht₀ (by simp)
  have hgone : (after st).txs.get tx₀ = none := by
    cases hx₁ : (after st).txs.get tx₀ with
    | none => rfl
    | some x₁ =>
      have hlt := hs.start.tx_lt tx₀ x₀ hx₀
      obtain rfl := Option.some.inj ((hs.traffic.old_tx tx₀ x₁ hx₁ hlt).1.symm.trans hx₀)
      have heq := hs.linked.tx_unique hx' hx₁ htask
      exact absurd hlt (not_lt.mpr (heq ▸ hge))
  rcases hs.traffic.gone tx₀ x₀ hx₀ hgone with hend | hc
  · obtain rfl := hends tx₀ hend
    exact ⟨x₀, t₀, x', t₁, hx₀, htask ▸ ht₀, hx', ht₁, htask.symm, hmore ⟨tx', htx', hge⟩⟩
  · exact absurd hc (hcancel tx₀)

theorem Sends.raise (hs : Sound st (.last st)) (hb : Barren st)
    (hends : ∀ tx', st.input.Ends st.before tx' → tx' = tx)
    (hcancel : ∀ tx', .cancel tx' ∉ actions st)
    (hk : ∀ x t, st.before.txs.get tx = some x → st.before.tasks.get x.task = some t →
      k ≤ t.attempt) : Sends (k + 1) (after st) (actions st) := by
  intro tx' hmem x' t' hx' ht'
  obtain ⟨x, t, x₁, t₁, hx, ht, hx₁, ht₁, -, hmore⟩ := retries_of_sent hs hb hends hcancel hmem
  obtain rfl := Option.mem_unique hx₁ hx'
  obtain rfl := Option.mem_unique ht₁ ht'
  rw [hmore]
  exact Nat.succ_le_succ (hk x t hx ht)

theorem Sends.nil_of_maxAttempts (h : Sends k e p) (hk : maxAttempts < k)
    (hl : Linked [] e) (ha : Attempts [] e) (hlive : ∀ tx ∈ sents p, Live e tx) : sents p = [] := by
  refine eq_nil_iff_forall_not_mem.mpr fun tx hmem => ?_
  obtain ⟨x, hx⟩ := hlive tx hmem
  obtain ⟨-, t, ht, -⟩ := hl.tx_task tx x hx
  exact absurd ((h tx hmem x t hx ht).trans (ha x.task t ht).2) (not_le.mpr hk)

end Resolvd.Daemon
