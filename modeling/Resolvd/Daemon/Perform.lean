import Resolvd.Daemon.Model
import Resolvd.Daemon.Sockets

/-!
# `perform` comes to an end

`Resolvd::perform` calls itself on what the engine says to queries that could not be sent, and those
actions may hold queries that cannot be sent either.  `Performs` is this recursion with nothing that
bounds it, as the list of its nested calls.  A query that follows from the failure of another one
belongs to the same task, which has used one attempt more (`Retries`).  All queries of a call have
then used as many attempts as there were calls before it, and a task has only so many: the recursion
ends, whichever sends fail in which way (`Due.performs`).
-/

namespace Resolvd.Daemon

open Lib Dns Engine List

/-! ### The recursion -/

/-- The actions of one call of `perform`, each with the state before it. -/
def performing (os : Os) (now : Instant) : List Action → Daemon → List (Daemon × Action)
  | [], _ => []
  | a :: as, d => (d, a) :: performing os now as (performOne os now d a).1

/-- `Resolvd::perform` as the source has it: its calls, each inside the one before, and what it
returns. -/
inductive Performs (os : Os) (now : Instant) :
    Daemon → List Action → List (List (Daemon × Action)) → Daemon × List Output → Prop
  | last {d : Daemon} {p : List Action} (h : (performAll os now p d).2.1 = []) :
      Performs os now d p [performing os now p d] ((performAll os now p d).1,
        (performAll os now p d).2.2)
  | more {d d' : Daemon} {p : List Action} {calls : List (List (Daemon × Action))}
    {out : List Output}
      (h : (performAll os now p d).2.1 ≠ [])
      (hrec : Performs os now (performAll os now p d).1 (performAll os now p d).2.1 calls
        (d', out)) :
      Performs os now d p (performing os now p d :: calls) (d', (performAll os now p d).2.2 ++ out)

/-- If the action is a query that cannot be sent, the queries that follow are retries of it. -/
def Follows (os : Os) (now : Instant) (c : Daemon × Action) : Prop :=
  ∀ tx server interface tcp payload error, c.2 = .send tx server interface tcp payload →
    c.1.upstream.send os tx server interface tcp payload = .error error →
    ∀ tx' ∈ sents (performOne os now c.1 c.2).2.1,
      Retries c.1.engine tx (performOne os now c.1 c.2).1.engine tx'

/-! ### Failures -/

/-- The operation tells the engine that a query could not be sent. -/
def IsFailure (tx : Txid) (op : Op) : Prop := ∃ now, op = .failed tx now ∨ op = .localFailed tx now

section Failure

variable {tx : Txid} {op : Op} (h : IsFailure tx op)
include h

theorem IsFailure.asks : op.asks = none := by
  obtain ⟨now, rfl | rfl⟩ := h <;> rfl

theorem IsFailure.ne_abandon (q : Qid) : op ≠ .abandon q := by
  obtain ⟨now, rfl | rfl⟩ := h <;> simp

theorem IsFailure.ne_tick (now : Instant) : op ≠ .tick now := by
  obtain ⟨now', rfl | rfl⟩ := h <;> simp

theorem IsFailure.ends_iff (e : Engine) (tx' : Txid) : op.Ends e tx' ↔ tx = tx' := by
  obtain ⟨now, rfl | rfl⟩ := h <;> simp [Op.Ends]

theorem IsFailure.fails (e : Engine) : Fails ⟨e, op⟩ := by
  obtain ⟨now, rfl | rfl⟩ := h <;> trivial

end Failure

/-- The operation on the engine for one action: a query that cannot be sent is reported to it. -/
def oneSteps (os : Os) (now : Instant) (d : Daemon) : Action → EngineLog
  | .send tx server interface tcp payload =>
    match d.upstream.send os tx server interface tcp payload with
    | .ok _ => []
    | .error error =>
      [⟨d.engine, if isLocalFailure error then .localFailed tx now else .failed tx now⟩]
  | .cancel _ | .done .. => []

/-- A query that cannot be sent is one of the two operations for failures. -/
theorem performOne_of_error {os : Os} {d : Daemon} {tx : Txid} {server : IpAddr}
    {interface : Option String} {tcp : Bool} {payload : Bytes} {error : IoError} (now : Instant)
    (h : d.upstream.send os tx server interface tcp payload = .error error) :
    ∃ op, IsFailure tx op ∧ performOne os now d (.send tx server interface tcp payload) =
      ({ d with engine := (d.engine.apply op).1 }, (d.engine.apply op).2, []) ∧
      oneSteps os now d (.send tx server interface tcp payload) = [⟨d.engine, op⟩] := by
  simp only [performOne, oneSteps, h]
  by_cases hlocal : isLocalFailure error = true
  · exact ⟨_, ⟨now, .inr rfl⟩, by rw [if_pos hlocal]; rfl, by rw [if_pos hlocal]⟩
  · exact ⟨_, ⟨now, .inl rfl⟩, by rw [if_neg hlocal]; rfl, by rw [if_neg hlocal]⟩

theorem performAll_followUps (os : Os) (now : Instant) {d : Daemon} {p : List Action}
    (h : sents p = []) : (performAll os now p d).2.1 = [] := by
  induction p generalizing d with
  | nil => rfl
  | cons a p ih =>
    cases a with
    | send tx server interface tcp payload => simp [sents, Action.sent] at h
    | cancel tx => simpa [performAll, performOne] using ih h
    | done q c => simpa [performAll, performOne] using ih h

/-! ### What is to be sent -/

/-- Some queries are to be sent and others follow from them. -/
structure Round (k : ℕ) (e : Engine) (actions followUps : List Action) : Prop where
  sends : Sends k e actions
  follow : Sends (k + 1) e followUps

/-- The queries that are to be sent are transactions of a reachable engine, each one once. -/
structure Due (entropy : Entropy) (log : EngineLog) (e : Engine) (p : List Action) : Prop where
  reached : Reached entropy log e
  live : ∀ tx ∈ sents p, Live e tx
  distinct : (sents p).Nodup

section Due

variable {entropy : Entropy} {log : EngineLog} {e : Engine} {d : Daemon} {p p' : List Action}
    {k : ℕ} {a : Action}

theorem sound_of_reached (h : Reached entropy log e) (op : Op) : Sound ⟨e, op⟩ (.last ⟨e, op⟩) :=
  Path.sound h.linked (apply_path _)

theorem Due.operation (h : Reached entropy log e) (op : Op) :
    Due entropy (⟨e, op⟩ :: log) (e.apply op).1 (e.apply op).2 := by
  have hs := sound_of_reached h op
  exact ⟨h.after, fun tx hmem => (hs.traffic.sent tx hmem).2, hs.traffic.sent_once⟩

/-- The failure of one query leaves the others to be sent. -/
theorem Due.failure {tx : Txid} {op : Op} (h : Due entropy log e p) (htx : tx ∉ sents p)
    (hop : IsFailure tx op) :
    Due entropy (⟨e, op⟩ :: log) (e.apply op).1 (p ++ (e.apply op).2) := by
  have hs := sound_of_reached h.reached op
  refine ⟨h.reached.after, fun tx' hmem => ?_, ?_⟩
  · rw [sents, filterMap_append] at hmem
    rcases mem_append.mp hmem with hold | hnew
    · obtain ⟨x, hx⟩ := h.live tx' hold
      by_contra hdead
      have hnone : (e.apply op).1.txs.get tx' = none := by
        cases hget : (e.apply op).1.txs.get tx' with
        | none => rfl
        | some x' => exact absurd ⟨x', hget⟩ hdead
      rcases hs.traffic.gone tx' x hx hnone with hend | hc
      · exact htx ((hop.ends_iff e tx').mp hend ▸ hold)
      · exact Path.no_cancel hop.ne_tick hop.ne_abandon (apply_path ⟨e, op⟩) tx' hc
    · exact (hs.traffic.sent tx' hnew).2
  · rw [sents, filterMap_append]
    refine nodup_append'.mpr ⟨h.distinct, hs.traffic.sent_once, fun tx' hold hnew => ?_⟩
    -- what is sent now is newer than what was to be sent
    exact absurd ((h.live tx' hold).lt hs.start) (not_lt.mpr (hs.traffic.sent tx' hnew).1)

theorem Due.tail (h : Due entropy log e (a :: p)) : Due entropy log e p := by
  refine ⟨h.reached, fun tx hmem => h.live tx ?_, ?_⟩
  · obtain ⟨a', ha', hs⟩ := mem_filterMap.mp hmem
    exact mem_filterMap.mpr ⟨a', mem_cons_of_mem _ ha', hs⟩
  · exact h.distinct.sublist ((sublist_cons_self a p).filterMap _)

theorem Sends.tail (h : Sends k e (a :: p)) : Sends k e p := by
  intro tx hmem
  obtain ⟨a', ha', hs⟩ := mem_filterMap.mp hmem
  exact h tx (mem_filterMap.mpr ⟨a', mem_cons_of_mem _ ha', hs⟩)

/-- What follows from the failure has used one attempt more. -/
theorem Round.failure {tx : Txid} {op : Op} (hr : Round k e p p') (h : Due entropy log e (p ++ p'))
    (hop : IsFailure tx op)
    (hk : ∀ x t, e.txs.get tx = some x → e.tasks.get x.task = some t → k ≤ t.attempt) :
    Round k (e.apply op).1 p (p' ++ (e.apply op).2) ∧ ∀ tx' ∈ sents (e.apply op).2,
      Retries e tx (e.apply op).1 tx' := by
  have hs := sound_of_reached h.reached op
  have hends : ∀ tx', op.Ends e tx' → tx' = tx := fun tx' hend =>
    ((hop.ends_iff e tx').mp hend).symm
  have hcancel : ∀ tx', .cancel tx' ∉ (e.apply op).2 :=
    Path.no_cancel hop.ne_tick hop.ne_abandon (apply_path ⟨e, op⟩)
  have hlive : ∀ tx, tx ∈ sents p ∨ tx ∈ sents p' → Live e tx := fun tx hmem => h.live tx (by
    rw [sents, filterMap_append]
    exact mem_append.mpr hmem)
  refine ⟨⟨hr.sends.kept hs fun tx hmem => hlive tx (.inl hmem), Sends.append ?_ ?_⟩,
    fun tx' hmem => ?_⟩
  · exact hr.follow.kept hs fun tx hmem => hlive tx (.inr hmem)
  · exact Sends.raise hs (hop.fails e).barren hends hcancel hk
  · exact retries_of_sent hs (hop.fails e).barren hends hcancel hmem

variable (os : Os) (now : Instant)

theorem engine_deliver (d : Daemon) (q : Qid) (c : Completion) :
    (d.deliver q c).1.engine = d.engine := by
  unfold deliver
  split <;> rfl

/-- **An action leaves the others to be sent**, and what follows from it are retries. -/
theorem Due.performOne (h : Due entropy log d.engine (a :: p ++ p'))
    (hr : Round k d.engine (a :: p) p') :
    (∃ log', Due entropy log' (performOne os now d a).1.engine
      (p ++ (p' ++ (performOne os now d a).2.1))) ∧
      Round k (performOne os now d a).1.engine p (p' ++ (performOne os now d a).2.1) ∧
        Follows os now (d, a) := by
  have hrest : Round k d.engine p p' := ⟨Sends.tail hr.sends, hr.follow⟩
  have htail : Due entropy log d.engine (p ++ p') := h.tail
  cases a with
  | cancel tx =>
    simp only [Daemon.performOne, append_nil]
    exact ⟨⟨log, htail⟩, hrest, fun _ _ _ _ _ _ hsend => by cases hsend⟩
  | done q c =>
    simp only [Daemon.performOne, append_nil, engine_deliver]
    exact ⟨⟨log, htail⟩, hrest, fun _ _ _ _ _ _ hsend => by cases hsend⟩
  | send tx server interface tcp payload =>
    cases hsend : d.upstream.send os tx server interface tcp payload with
    | ok u =>
      refine ⟨⟨log, ?_⟩, ?_, ?_⟩
      · simpa only [Daemon.performOne, hsend, append_nil] using htail
      · simpa only [Daemon.performOne, hsend, append_nil] using hrest
      · rintro tx' server' interface' tcp' payload' error heq herr
        obtain ⟨rfl, rfl, rfl, rfl, rfl⟩ := Action.send.inj heq
        cases hsend.symm.trans herr
    | error error =>
      have htx : tx ∉ sents (p ++ p') := (nodup_cons.mp h.distinct).1
      have hk : ∀ x t, d.engine.txs.get tx = some x → d.engine.tasks.get x.task = some t →
          k ≤ t.attempt :=
        hr.sends tx mem_cons_self
      obtain ⟨op, hop, hone, -⟩ := performOne_of_error now hsend
      obtain ⟨hround, hretries⟩ := hrest.failure htail hop hk
      have hdue := htail.failure htx hop
      rw [append_assoc] at hdue
      rw [hone]
      refine ⟨⟨_, hdue⟩, hround, ?_⟩
      rintro tx' server' interface' tcp' payload' error' heq -
      obtain ⟨rfl, rfl, rfl, rfl, rfl⟩ := Action.send.inj heq
      rw [hone]
      exact hretries

theorem Due.performAll (h : Due entropy log d.engine (p ++ p')) (hr : Round k d.engine p p') :
    (∃ log', Due entropy log' (performAll os now p d).1.engine
      (p' ++ (performAll os now p d).2.1)) ∧
      Sends (k + 1) (performAll os now p d).1.engine (p' ++ (performAll os now p d).2.1) ∧
      ∀ c ∈ performing os now p d, Follows os now c := by
  induction p generalizing d log p' with
  | nil =>
    simp only [Daemon.performAll, append_nil]
    exact ⟨⟨log, h⟩, hr.follow, fun c hc => by cases hc⟩
  | cons a p ih =>
    obtain ⟨⟨log₁, hdue⟩, hr₁, hfollows⟩ := h.performOne os now hr
    obtain ⟨hdue₂, hs₂, hfollows₂⟩ := ih hdue hr₁
    rw [append_assoc] at hdue₂ hs₂
    exact ⟨hdue₂, hs₂, forall_mem_cons.mpr ⟨hfollows, hfollows₂⟩⟩

theorem performUpTo_succ (n : ℕ) (d : Daemon) (p : List Action) :
    performUpTo os now (n + 1) d p =
      if (performAll os now p d).2.1.isEmpty
        then ((performAll os now p d).1, (performAll os now p d).2.2)
      else ((performUpTo os now n (performAll os now p d).1 (performAll os now p d).2.1).1,
        (performAll os now p d).2.2 ++
          (performUpTo os now n (performAll os now p d).1 (performAll os now p d).2.1).2) := rfl

/-- **The recursion ends** before the attempts of a task are used up. -/
theorem Due.performs {n : ℕ} (h : Due entropy log d.engine p) (hs : Sends k d.engine p)
    (hn : maxAttempts + 2 ≤ k + n) (hpos : 0 < n) :
    ∃ calls, Performs os now d p calls (performUpTo os now n d p) ∧ calls.length ≤ n ∧
      ∀ call ∈ calls, ∀ c ∈ call, Follows os now c := by
  induction n generalizing k d p log with
  | zero => cases hpos
  | succ n ih =>
    obtain ⟨⟨log₁, hdue⟩, hs₁, hfollows⟩ := Due.performAll os now
      (by rwa [append_nil] : Due entropy log d.engine (p ++ [])) ⟨hs, fun tx hmem => by cases hmem⟩
    rw [nil_append] at hdue hs₁
    by_cases hnil : (Daemon.performAll os now p d).2.1 = []
    · rw [performUpTo_succ, if_pos (isEmpty_iff.mpr hnil)]
      refine ⟨[performing os now p d], .last hnil, by simp, ?_⟩
      exact fun call hcall => mem_singleton.mp hcall ▸ hfollows
    · cases n with
      | zero =>
        -- no query can be left after the last attempt
        have hnone := hs.nil_of_maxAttempts (by omega) h.reached.linked h.reached.attempts h.live
        exact absurd (performAll_followUps os now hnone) hnil
      | succ n =>
        obtain ⟨calls, hperforms, hlen, hall⟩ := ih hdue hs₁ (by omega) (Nat.succ_pos n)
        rw [performUpTo_succ, if_neg fun hempty => hnil (isEmpty_iff.mp hempty)]
        refine ⟨performing os now p d :: calls, .more hnil hperforms, by simpa using hlen, ?_⟩
        exact forall_mem_cons.mpr ⟨hfollows, hall⟩

/-- Every task under way has used an attempt, so the fuel of the model's `perform` is enough. -/
theorem Due.perform (h : Due entropy log d.engine p) :
    ∃ calls, Performs os now d p calls (perform os now d p) ∧ calls.length ≤ maxAttempts + 1 ∧
      ∀ call ∈ calls, ∀ c ∈ call, Follows os now c := by
  refine h.performs os now (k := 1) (fun tx hmem x t hx ht => ?_) (by decide) (by decide)
  exact (h.reached.attempts x.task t ht).1 (by simp)

end Due

end Resolvd.Daemon
