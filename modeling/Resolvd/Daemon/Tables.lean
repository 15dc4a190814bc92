import Resolvd.Daemon.Perform

/-!
# The tables of the daemon agree with the engine

Between two turns of the loop the open sockets are those of the live transactions, and somebody
waits for exactly the questions the engine has not answered (`Runs.tables_agree`).

The invariant `Books` also speaks about the actions that are still to be carried out.  The daemon's
part of a question is `Attended`: whoever asked it waits until the answer that the engine has
emitted is carried out.  `Books.performOne` says that an action keeps the books, and
`Books.performs` that the calls of `perform` do, which come to an end (`perform_ends`).
-/

namespace Resolvd.Daemon

open Lib Dns Engine List

variable {q : Qid} {log : EngineLog} {waiters : Table Qid Waiter} {p : List Action} {e : Engine}

/-! ### Who waits -/

/-- Who waits, when the actions `p` are still to be carried out. -/
structure Attended (log : EngineLog) (waiters : Table Qid Waiter) (p : List Action) : Prop where
  /-- somebody waits for a question that was asked, not abandoned, and whose answers are all still
  to be delivered -/
  waits : ∀ q, (waiters.get q).isSome ↔
    q ∈ asked log ∧ ¬ Abandoned log q ∧ doneCount q (emitted log) = doneCount q p
  done_le : ∀ q, doneCount q p ≤ doneCount q (emitted log)

theorem doneCount_cons_none {a : Action} (h : a.answered = none) (p : List Action) :
    doneCount q (a :: p) = doneCount q p := by
  simp only [doneCount, filterMap_cons, h]

theorem doneCount_cons_done (q q' : Qid) (c : Completion) (p : List Action) :
    doneCount q (.done q' c :: p) = doneCount q p + if q' = q then 1 else 0 := by
  simp only [doneCount, filterMap_cons, Action.answered, count_cons, beq_iff_eq]

theorem doneCount_emitted_cons (q : Qid) (st : Step Engine Op) (log : EngineLog) :
    doneCount q (emitted (st :: log)) = doneCount q (actions st) + doneCount q (emitted log) := by
  rw [emitted, flatMap_cons, doneCount_append]
  rfl

theorem Attended.skip {a : Action}
    (h : Attended log waiters (a :: p)) (ha : a.answered = none) : Attended log waiters p := by
  obtain ⟨h1, h2⟩ := h
  simp only [doneCount_cons_none ha] at h1 h2
  exact ⟨h1, h2⟩

/-- **An answer finds somebody who waits for it.** -/
theorem Attended.present {c : Completion} (h : Attended log waiters (.done q c :: p))
    (hl : ∀ q, Ledger log e (doneCount q (emitted log)) q) :
    (waiters.get q).isSome ∧ Attended log (waiters.remove q) p := by
  have hle := h.done_le q
  rw [doneCount_cons_done, if_pos rfl] at hle
  -- an answer was emitted, so the question was asked, not abandoned, and that is its only answer
  obtain ⟨hasked, hno, hone⟩ : q ∈ asked log ∧ ¬ Abandoned log q ∧
    doneCount q (emitted log) = 1 := by
    rcases hl q with ⟨-, -, hn, -⟩ | ⟨st, hst, hask, ⟨hn, -, -⟩ | ⟨hn, hno, -⟩ | ⟨hn, -, -⟩⟩
    · rw [hn] at hle
      exact absurd hle (by simp)
    · rw [hn] at hle
      exact absurd hle (by simp)
    · exact ⟨mem_asked.mpr ⟨st, hst, hask⟩, hno, hn⟩
    · rw [hn] at hle
      exact absurd hle (by simp)
  have hzero : doneCount q p = 0 := by
    rw [hone] at hle
    exact Nat.le_zero.mp (Nat.le_of_succ_le_succ hle)
  refine ⟨(h.waits q).mpr ⟨hasked, hno, ?_⟩, fun q' => ?_, fun q' => ?_⟩
  · rw [doneCount_cons_done, if_pos rfl, hone, hzero]
  · rw [Table.get_remove]
    by_cases hq : q' = q
    · subst hq
      simp [hone, hzero]
    · have hcount := h.waits q'
      rw [doneCount_cons_done, if_neg (Ne.symm hq), Nat.add_zero] at hcount
      rw [if_neg hq, hcount]
  · have hle' := h.done_le q'
    rw [doneCount_cons_done] at hle'
    exact (Nat.le_add_right _ _).trans hle'

theorem Attended.step {st : Step Engine Op}
    (h : Attended log waiters p) (hask : st.input.asks = none) (hab : ∀ q, st.input ≠ .abandon q) :
    Attended (st :: log) waiters (p ++ actions st) := by
  have hasked : asked (st :: log) = asked log := by simp only [asked, filterMap_cons, hask]
  refine ⟨fun q => ?_, fun q => ?_⟩
  · rw [h.waits q, hasked, abandoned_cons (hab q), doneCount_emitted_cons, doneCount_append,
      Nat.add_comm (doneCount q (actions st)), Nat.add_right_cancel_iff]
  · have hle := h.done_le q
    rw [doneCount_emitted_cons, doneCount_append]
    omega

theorem Attended.ask (st : Step Engine Op)
    (h : Attended log waiters []) (hl : ∀ q, Ledger log e (doneCount q (emitted log)) q)
    (hask : st.input.asks = some q) (hnew : q ∉ asked log) (w : Waiter) :
    Attended (st :: log) (waiters.insert q w) (actions st) := by
  have hab : ∀ q', st.input ≠ .abandon q' := fun q' heq => by rw [heq] at hask; cases hask
  obtain ⟨hno, hzero, -⟩ := (hl q).unasked hnew
  refine ⟨fun q' => ?_, fun q' => ?_⟩
  · rw [asked_cons_of_asks hask, abandoned_cons (hab q'), doneCount_emitted_cons, Table.get_insert,
      mem_cons]
    by_cases hq : q' = q
    · subst hq
      simp [hno, hzero]
    · have hwaits := h.waits q'
      simp only [doneCount, filterMap_nil, count_nil] at hwaits
      rw [if_neg hq, hwaits]
      simp [hq, doneCount]
  · rw [doneCount_emitted_cons]
    exact Nat.le_add_right _ _

/-- A question that somebody waited for is abandoned. -/
theorem Attended.abandon {st : Step Engine Op}
    (h : Attended log waiters []) (hop : st.input = .abandon q) (hgone : ¬ st.before.Gone q) :
    Attended (st :: log) (waiters.remove q) (actions st) := by
  have hask : asked (st :: log) = asked log := by simp only [asked, filterMap_cons, hop, Op.asks]
  have hcount : ∀ q', doneCount q' (actions st) = 0 := fun q' => by
    simp only [actions, hop, apply]
    exact doneCount_abandon _ _ _
  refine ⟨fun q' => ?_, fun q' => ?_⟩
  · rw [hask, doneCount_emitted_cons, hcount, Table.get_remove]
    by_cases hq : q' = q
    · subst hq
      have hab : Abandoned (st :: log) q' := ⟨st, mem_cons_self, hop, hgone⟩
      simp [hab]
    · have hne : st.input ≠ .abandon q' := fun heq => hq (Op.abandon.inj (heq.symm.trans hop))
      have hwaits := h.waits q'
      simp only [doneCount, filterMap_nil, count_nil] at hwaits
      rw [if_neg hq, hwaits, abandoned_cons hne, Nat.zero_add]
      rfl
  · rw [hcount]
    exact Nat.zero_le _

/-- With nothing left to do, somebody waits for the questions of the engine. -/
theorem Attended.waits_iff (h : Attended log waiters [])
    (hl : ∀ q, Ledger log e (doneCount q (emitted log)) q) (q : Qid) :
    (waiters.get q).isSome ↔ ¬ e.Gone q := by
  have hwaits := h.waits q
  simp only [doneCount, filterMap_nil, count_nil] at hwaits
  rw [hwaits]
  rcases hl q with ⟨hnot, -, -, hg⟩ | ⟨st, hst, hask, ⟨hn, hno, hu⟩ | ⟨hn, -, hg⟩ | ⟨-, hab, hg⟩⟩
  · exact ⟨fun h' => absurd h'.1 hnot, fun h' => absurd hg h'⟩
  · exact ⟨fun _ => hu.not_gone, fun _ => ⟨mem_asked.mpr ⟨st, hst, hask⟩, hno, hn⟩⟩
  · refine ⟨fun h' => ?_, fun h' => absurd hg h'⟩
    have hone := hn.symm.trans h'.2.2
    cases hone
  · exact ⟨fun h' => absurd hab h'.2.1, fun h' => absurd hg h'⟩

/-! ### The books -/

/-- The books of the daemon, against a run of the engine, when the actions `p` are still to be
carried out. -/
structure Books (entropy : Entropy) (log : EngineLog) (adrift : Option Txid) (d : Daemon)
    (p : List Action) : Prop where
  reached : Reached entropy log d.engine
  distinct : (asked log).Nodup
  asked_lt : ∀ q ∈ asked log, q < d.nextId
  wired : Wired adrift d.engine d.upstream p
  attended : Attended log d.waiters p

section Books

variable {entropy : Entropy} {log : EngineLog} {adrift : Option Txid} {d : Daemon} {p : List Action}

section

variable (h : Books entropy log adrift d p)
include h

theorem Books.linked : Linked [] d.engine := h.reached.linked

theorem Books.ledger (q : Qid) :
    Ledger log d.engine (doneCount q (emitted log)) q := h.reached.ledger h.distinct q

theorem Books.sound (op : Op) :
    Sound ⟨d.engine, op⟩ (.last ⟨d.engine, op⟩) := Path.sound h.linked (apply_path _)

theorem Books.clients {n : ℕ} (hn : d.nextId ≤ n) (clients : Table ℕ Client) :
    Books entropy log adrift { d with nextId := n, clients := clients } p :=
  ⟨h.reached, h.distinct, fun q hq => (h.asked_lt q hq).trans_le hn, h.wired, h.attended⟩

/-- **An operation that neither asks nor abandons keeps the books.** -/
theorem Books.step (op : Op) (hask : op.asks = none) (hab : ∀ q, op ≠ .abandon q)
    (hends : ∀ tx, Live d.engine tx → (op.Ends d.engine tx ↔ adrift = some tx))
    (hcancel : p = [] ∨ ∀ now, op ≠ .tick now) :
    Books entropy (⟨d.engine, op⟩ :: log) none { d with engine := (d.engine.apply op).1 }
      (p ++ (d.engine.apply op).2) := by
  have hasked : asked (⟨d.engine, op⟩ :: log) = asked log := by
    simp only [asked, filterMap_cons, hask]
  refine ⟨h.reached.after, hasked ▸ h.distinct, hasked ▸ h.asked_lt, ?_, h.attended.step hask hab⟩
  refine h.wired.step ⟨d.engine, op⟩ (h.sound op) hends (hcancel.imp_right fun htick => ?_)
  exact Path.no_cancel htick hab (apply_path _)

end

theorem Books.ask (h : Books entropy log none d []) {op : Qid → Op}
    (hask : ∀ q, (op q).asks = some q) (w : Waiter) :
    Books entropy (⟨d.engine, op d.nextId⟩ :: log) none
      { d with engine := (d.engine.apply (op d.nextId)).1, nextId := d.nextId + 1
               waiters := d.waiters.insert d.nextId w } (d.engine.apply (op d.nextId)).2 := by
  have hnew : d.nextId ∉ asked log := fun hmem => lt_irrefl _ (h.asked_lt _ hmem)
  have hasked : asked (⟨d.engine, op d.nextId⟩ :: log) = d.nextId :: asked log :=
    asked_cons_of_asks (hask _)
  have hends : ∀ tx, ¬ (op d.nextId).Ends d.engine tx := by
    intro tx he
    have h' := hask d.nextId
    unfold Op.Ends at he
    -- What ends a query asks for nothing.
    split at he
    · next hop =>
      rw [hop] at h'
      cases h'
    · next hop =>
      rw [hop] at h'
      cases h'
    · next hop =>
      rw [hop] at h'
      cases h'
    · exact he
  refine ⟨h.reached.after, ?_, fun q hq => ?_, ?_, ?_⟩
  · rw [hasked]
    exact nodup_cons.mpr ⟨hnew, h.distinct⟩
  · rw [hasked] at hq
    rcases mem_cons.mp hq with rfl | hq
    · exact Nat.lt_succ_self _
    · exact (h.asked_lt q hq).trans (Nat.lt_succ_self _)
  · exact h.wired.step ⟨d.engine, op d.nextId⟩ (h.sound _) (fun tx _ => by simp [hends tx])
      (.inl rfl)
  · exact h.attended.ask ⟨d.engine, op d.nextId⟩ h.ledger (hask _) hnew w

/-- A question is abandoned by the one who waits for it. -/
theorem Books.abandon (h : Books entropy log none d []) {q : Qid} (hq : (d.waiters.get q).isSome) :
    Books entropy (⟨d.engine, .abandon q⟩ :: log) none
      { d with engine := (d.engine.apply (.abandon q)).1, waiters := d.waiters.remove q }
      (d.engine.apply (.abandon q)).2 := by
  have hasked : asked (⟨d.engine, .abandon q⟩ :: log) = asked log := rfl
  refine ⟨h.reached.after, hasked ▸ h.distinct, hasked ▸ h.asked_lt, ?_, ?_⟩
  · exact h.wired.step ⟨d.engine, .abandon q⟩ (h.sound _) (fun tx _ => by simp [Op.Ends]) (.inl rfl)
  · exact h.attended.abandon rfl ((h.attended.waits_iff h.ledger q).mp hq)

/-! ### Carrying out actions -/

variable (os : Os) (now : Instant)

/-- The output is one of the ghosts. -/
def Output.isGhost : Output → Bool
  | .missed _ | .unfinished => true
  | _ => false

/-- No answer went astray and nothing was left undone. -/
def Clean (out : List Output) : Prop := ∀ o ∈ out, o.isGhost = false

theorem Clean.append {out out' : List Output} (h : Clean out) (h' : Clean out') :
    Clean (out ++ out') :=
  fun o ho => (mem_append.mp ho).elim (h o) (h' o)

theorem deliver_of_waits {q : Qid} (hq : (d.waiters.get q).isSome) (c : Completion) :
    (d.deliver q c).1 = { d with waiters := d.waiters.remove q } ∧ Clean (d.deliver q c).2 := by
  obtain ⟨w, hw⟩ := Option.isSome_iff_exists.mp hq
  unfold deliver
  simp only [hw, true_and]
  cases w <;> cases c <;> simp [Clean, Output.isGhost]

theorem Books.due (h : Books entropy log adrift d p) : Due entropy log d.engine p :=
  ⟨h.reached, h.wired.sent, h.wired.sent_once⟩

/-- **An action keeps the books.** -/
theorem Books.performOne {a : Action} {p' : List Action}
    (h : Books entropy log none d (a :: p ++ p')) :
    (∃ log', Books entropy log' none (performOne os now d a).1
      (p ++ (p' ++ (performOne os now d a).2.1))) ∧
      Clean (performOne os now d a).2.2 := by
  obtain ⟨h1, h2, h3, h4, h5⟩ := h
  cases a with
  | cancel tx =>
    simp only [Daemon.performOne, append_nil]
    exact ⟨⟨log, h1, h2, h3, h4.cancel, h5.skip rfl⟩, by simp [Clean]⟩
  | done q c =>
    obtain ⟨hq, hatt⟩ := h5.present fun q => h1.ledger h2 q
    obtain ⟨hd, hclean⟩ := deliver_of_waits hq c
    simp only [Daemon.performOne, append_nil, hd]
    exact ⟨⟨log, h1, h2, h3, h4.done, hatt⟩, hclean⟩
  | send tx server interface tcp payload =>
    cases hsend : d.upstream.send os tx server interface tcp payload with
    | ok u =>
      simp only [Daemon.performOne, hsend, append_nil]
      exact ⟨⟨log, h1, h2, h3, h4.send h1.linked hsend, h5.skip rfl⟩, by simp [Clean]⟩
    | error error =>
      have hbooks : Books entropy log (some tx) d (p ++ p') := ⟨h1, h2, h3, h4.unsent, h5.skip rfl⟩
      obtain ⟨op, hop, hone, -⟩ := performOne_of_error (d := d) now hsend
      have hstep := hbooks.step op hop.asks hop.ne_abandon (fun tx' _ => by simp [hop.ends_iff])
        (.inr hop.ne_tick)
      rw [append_assoc] at hstep
      rw [hone]
      exact ⟨⟨_, hstep⟩, by simp [Clean]⟩

theorem Books.performAll {p' : List Action} (h : Books entropy log none d (p ++ p')) :
    (∃ log', Books entropy log' none (performAll os now p d).1
      (p' ++ (performAll os now p d).2.1)) ∧
      Clean (performAll os now p d).2.2 := by
  induction p generalizing d log p' with
  | nil =>
    simp only [Daemon.performAll, append_nil]
    exact ⟨⟨log, h⟩, by simp [Clean]⟩
  | cons a p ih =>
    obtain ⟨⟨log₁, hb⟩, hc₁⟩ := h.performOne os now
    obtain ⟨hb₂, hc₂⟩ := ih hb
    simp only [Daemon.performAll]
    rw [append_assoc] at hb₂
    exact ⟨hb₂, hc₁.append hc₂⟩

/-- **`perform` keeps the books**, call by call. -/
theorem Books.performs {calls : List (List (Daemon × Action))} {r : Daemon × List Output}
    (hp : Performs os now d p calls r) (h : Books entropy log none d p) :
    (∃ log', Books entropy log' none r.1 []) ∧ Clean r.2 := by
  induction hp generalizing log with
  | @last d p hnil =>
    obtain ⟨⟨log₁, hb⟩, hc⟩ :=
      Books.performAll os now (by rwa [append_nil] : Books entropy log none d (p ++ []))
    rw [nil_append, hnil] at hb
    exact ⟨⟨log₁, hb⟩, hc⟩
  | @more d d' p calls out hne hrec ih =>
    obtain ⟨⟨log₁, hb⟩, hc⟩ :=
      Books.performAll os now (by rwa [append_nil] : Books entropy log none d (p ++ []))
    obtain ⟨hb₂, hc₂⟩ := ih hb
    exact ⟨hb₂, hc.append hc₂⟩

/-- The books of an operation's actions are balanced by `perform`. -/
theorem Books.perform (h : Books entropy log none d p) :
    (∃ log', Books entropy log' none (perform os now d p).1 []) ∧ Clean (perform os now d p).2 := by
  obtain ⟨calls, hperforms, -, -⟩ := h.due.perform os now
  exact Books.performs os now hperforms h

/-! ### A turn of the loop -/

/-- The books are balanced. -/
def Balanced (entropy : Entropy) (d : Daemon) : Prop := ∃ log, Books entropy log none d []

/-- The books are balanced after a turn, and it went well. -/
abbrev GoesWell (entropy : Entropy) (r : Daemon × List Output) : Prop :=
  Balanced entropy r.1 ∧ Clean r.2

section

variable (h : Balanced entropy d)
include h

theorem GoesWell.silent : GoesWell entropy (d, []) := ⟨h, by simp [Clean]⟩

theorem Balanced.ask {op : Qid → Op} (hask : ∀ q, (op q).asks = some q) (w : Waiter) :
    GoesWell entropy (ask os now d w op) := by
  obtain ⟨log, h⟩ := h
  exact (h.ask hask w).perform os now

theorem Balanced.configure (op : Op) (hop : op.isConfig = true) :
    Balanced entropy { d with engine := (d.engine.apply op).1 } := by
  obtain ⟨log, h⟩ := h
  have hask : op.asks = none := by cases op <;> first | rfl | cases hop
  have hab : ∀ q, op ≠ .abandon q := by rintro q rfl; cases hop
  have hends : ∀ tx, ¬ op.Ends d.engine tx := by cases op <;> first | exact fun _ h => h | cases hop
  have hacts : (d.engine.apply op).2 = [] := ((h.sound op).steady.config hop).2
  have hbooks := h.step op hask hab (fun tx _ => by simp [hends tx]) (.inl rfl)
  rw [hacts] at hbooks
  exact ⟨_, hbooks⟩

theorem Balanced.handleRequest (stream : Stream) (request : Request) (permitted : Bool) :
    GoesWell entropy (handleRequest os now d stream request permitted) := by
  have hfresh : Balanced entropy { d with nextId := d.nextId + 1 } := by
    obtain ⟨log, h⟩ := h
    exact ⟨log, h.clients (Nat.le_succ _) d.clients⟩
  unfold Daemon.handleRequest
  split
  · exact ⟨h, by simp [Clean, Output.isGhost]⟩
  · cases request with
    | status => exact ⟨hfresh, by simp [Clean, Output.isGhost]⟩
    | flush => exact ⟨hfresh.configure (.flush) rfl, by simp [Clean, Output.isGhost]⟩
    | resolve name rtype noCache => exact h.ask os now (fun _ => rfl) _
    | lookup name family => exact h.ask os now (fun _ => rfl) _
    | reverse address => exact h.ask os now (fun _ => rfl) _

theorem Balanced.reorder {d' : Daemon} (hr : Reorder d d') : Balanced entropy d' := by
  obtain ⟨log, h⟩ := h
  refine ⟨log, h.reached.reorder hr.engine, h.distinct, hr.nextId ▸ h.asked_lt,
    h.wired.reorder hr.engine hr.udp hr.tcp, ?_, h.attended.done_le⟩
  intro q
  rw [hr.waiters.get_eq]
  exact h.attended.waits q

theorem Balanced.handleStubOne (i : Incoming) : GoesWell entropy (handleStubOne os now d i) := by
  unfold Daemon.handleStubOne
  cases i with
  | nothing => exact .silent h
  | query origin =>
    cases hq : origin.query.question with
    | none => simpa only [hq] using GoesWell.silent h
    | some question =>
      simp only [hq]
      split
      · refine ⟨h.reorder ⟨?_, .refl _, .refl _, .refl _, .refl _,
          rfl⟩, by simp [Clean, Output.isGhost]⟩
        exact ⟨rfl, rfl, rfl, rfl, .refl _, .refl _, .refl _, .refl _, .refl _, .refl _, rfl, rfl,
          rfl, rfl⟩
      · exact h.ask os now (fun _ => rfl) _

theorem Balanced.handleStub (incoming : List Incoming) :
    GoesWell entropy (handleStub os now incoming d) := by
  induction incoming generalizing d with
  | nil => exact .silent h
  | cons i incoming ih =>
    obtain ⟨h₁, hc₁⟩ := h.handleStubOne os now i
    obtain ⟨h₂, hc₂⟩ := ih h₁
    exact ⟨h₂, hc₁.append hc₂⟩

theorem Balanced.hangup (q : Qid) : GoesWell entropy (hangup os now d q) := by
  unfold Daemon.hangup
  cases hq : d.waiters.get q with
  | none => exact .silent h
  | some w =>
    simp only
    split
    · obtain ⟨log, h⟩ := h
      exact (h.abandon (by rw [hq]; rfl)).perform os now
    · exact .silent h

/-- `service` closes the socket before the engine hears of the end of its transaction. -/
theorem Balanced.serviceUpstream (tx : Txid) (ready : Upstream.Ready) :
    GoesWell entropy (serviceUpstream os now d tx ready) := by
  obtain ⟨log, h⟩ := h
  have hspec := Upstream.service_spec d.upstream tx ready (d.engine.responseMatches tx)
  have hopen := h.wired.open_iff
  unfold Daemon.serviceUpstream
  cases hserv : d.upstream.service tx ready (d.engine.responseMatches tx) with
  | mk u event =>
    rw [hserv] at hspec
    dsimp only at hspec
    cases event with
    | none =>
      have hsame : ∀ tx', u.Open tx' ↔ d.upstream.Open tx' := by
        intro tx'
        by_cases heq : tx' = tx
        · subst heq
          exact hspec.silent rfl
        · exact hspec.others tx' heq
      refine .silent ⟨log, h.reached, h.distinct, h.asked_lt, ?_, h.attended⟩
      obtain ⟨h1, h2, h3, h4, h5, h6, h7⟩ := h.wired
      refine ⟨hspec.apart h1, ?_, ?_, h4, h5, h6, by simp⟩
      · simpa only [hsame] using h2
      · simpa only [hsame] using h3
    | some event =>
      obtain ⟨hwas, hclosed⟩ := hspec.closed (by simp) h.wired.apart
      have hbooks : Books entropy log (some tx) { d with upstream := u } [] := by
        refine ⟨h.reached, h.distinct, h.asked_lt,
          ⟨hspec.apart h.wired.apart, ?_, ?_, ?_, ?_, ?_, ?_⟩, h.attended⟩
        · intro tx' ho
          have hne : tx' ≠ tx := fun heq => hclosed (heq ▸ ho)
          exact h.wired.opened tx' ((hspec.others tx' hne).mp ho)
        · intro tx' hlive
          by_cases heq : tx' = tx
          · exact .inr (.inr (congrArg some heq.symm))
          · exact .inl ((hspec.others tx' heq).mpr ((hopen tx').mpr hlive))
        · exact fun tx' hmem => by cases hmem
        · exact nodup_nil
        · exact fun tx' hmem => by cases hmem
        · rintro tx' heq
          obtain rfl := Option.some.inj heq
          exact ⟨(hopen tx).mp hwas, hclosed, by simp [sents]⟩
      cases event with
      | received bytes =>
        have hmatch := hspec.accepted bytes rfl
        exact (hbooks.step (.received tx bytes now) rfl (by simp)
          (fun tx' _ => ⟨fun he => congrArg some he.1, fun he => by
            obtain rfl := Option.some.inj he
            exact ⟨rfl, hmatch⟩⟩) (.inl rfl)).perform os now
      | failed =>
        exact (hbooks.step (.failed tx now) rfl (by simp) (fun tx' _ => by simp [Op.Ends])
          (.inl rfl)).perform os now

end

theorem acceptOne_fold (pending : ℕ) (streams : List Stream) :
    ∃ n clients, d.nextId ≤ n ∧
      streams.foldl (acceptOne now pending) d = { d with nextId := n, clients := clients } := by
  induction streams generalizing d with
  | nil => exact ⟨d.nextId, d.clients, le_refl _, rfl⟩
  | cons s streams ih =>
    rw [foldl_cons]
    obtain ⟨n, clients, hn, heq⟩ := ih (d := acceptOne now pending d s)
    rw [heq]
    unfold acceptOne at hn ⊢
    split
    · next hfull =>
      rw [if_pos hfull] at hn
      exact ⟨n, clients, hn, rfl⟩
    · next hroom =>
      rw [if_neg hroom] at hn
      exact ⟨n, clients, (Nat.le_succ _).trans hn, rfl⟩

theorem Balanced.serviceClient (h : Balanced entropy d) (id : ℕ) (progress : Progress)
    (permitted : Bool) : GoesWell entropy (serviceClient os now d id progress permitted) := by
  unfold Daemon.serviceClient
  cases d.clients.get id with
  | none => exact .silent h
  | some client =>
    have hgone : Balanced entropy { d with clients := d.clients.remove id } := by
      obtain ⟨log, h⟩ := h
      exact ⟨log, h.clients (le_refl _) _⟩
    cases progress with
    | incomplete => exact .silent h
    | closed => exact .silent hgone
    | reply reply => exact ⟨hgone, by simp [Clean, Output.isGhost]⟩
    | request request => exact hgone.handleRequest os now _ _ _

theorem Balanced.tick (h : Balanced entropy d) : GoesWell entropy (tick os now d) := by
  obtain ⟨log, h⟩ := h
  have hbooks := h.step (.tick now) rfl (by simp) (fun tx _ => by simp [Op.Ends]) (.inl rfl)
  rw [nil_append] at hbooks
  obtain ⟨⟨log', hb⟩, hc⟩ := hbooks.perform os now
  exact ⟨⟨log', hb.clients (le_refl _) _⟩, hc⟩

/-- **Every turn of the loop leaves the books balanced.** -/
theorem Balanced.turn (h : Balanced entropy d) (i : Input) : GoesWell entropy (turn d i) := by
  unfold Daemon.turn
  cases i.wake with
  | hangup q => exact h.hangup i.os i.now q
  | upstream tx ready => exact h.serviceUpstream i.os i.now tx ready
  | stub incoming => exact h.handleStub i.os i.now incoming
  | accept streams =>
    obtain ⟨log, h⟩ := h
    obtain ⟨n, clients, hn, heq⟩ := acceptOne_fold i.now (d := d)
      (d.waiters.select fun _ w => w.isNative).length (streams.take ioBatchLimit)
    refine .silent ⟨log, ?_⟩
    rw [acceptClients, heq]
    exact h.clients hn clients
  | client id progress permitted => exact h.serviceClient i.os i.now id progress permitted
  | snapshot hostname scopes =>
    exact .silent ((h.configure (.setHostname hostname) rfl).configure (.setScopes scopes) rfl)
  | config servers search hosts =>
    exact .silent ((h.configure (.setFallback servers search) rfl).configure (.setHosts hosts) rfl)
  | tick => exact h.tick i.os i.now

theorem balanced_boot (entropy : Entropy) (hostname : Option Bytes) (servers : List IpAddr)
    (search : List Name) (hosts : Hosts) :
    Balanced entropy (boot entropy hostname servers search hosts) := by
  have hfresh : Balanced entropy { engine := withEntropy entropy } := by
    refine ⟨[], ⟨_, .start rfl, .refl _⟩, nodup_nil, by simp [asked], ?_, ?_⟩
    · constructor <;> simp [Upstream.Apart, Upstream.Open, Live, withEntropy, sents]
    · constructor <;> simp [asked, doneCount, emitted]
  exact ((hfresh.configure (.setHostname hostname) rfl).configure
    (.setFallback servers search) rfl).configure
    (.setHosts hosts) rfl

end Books

/-! ### Runs of the daemon -/

theorem Runs.balanced {entropy : Entropy} {log : Log Daemon Input} {d : Daemon}
    (h : Runs entropy log d) : Balanced entropy d :=
  Machine.Run.invariant (M := machine entropy) (I := fun _ d => Balanced entropy d)
    (by
      rintro _ ⟨hostname, servers, search, hosts, rfl⟩
      exact balanced_boot entropy hostname servers search hosts)
    (fun _ _ _ h hr => h.reorder hr) (fun _ _ i h => (h.turn i).1) h

/-- **The tables of the daemon agree with the engine.**  In every run of the loop, whatever arrives,
whoever hangs up, whatever the engine is told, and whichever sends fail in which way: the tables of
datagram sockets and of streams have no transaction in common, the open sockets are exactly those of
the live transactions, and somebody waits for exactly the questions of which something is left in
the engine.  No answer found its waiter missing, not even after a hangup, and `perform` always came
to its end. -/
theorem Runs.tables_agree {entropy : Entropy} {log : Log Daemon Input} {d : Daemon}
    (h : Runs entropy log d) :
    (∀ tx, d.upstream.udp.get tx = none ∨ d.upstream.tcp.get tx = none) ∧
    (∀ tx, (d.upstream.udp.get tx).isSome ∨ (d.upstream.tcp.get tx).isSome ↔
      (d.engine.txs.get tx).isSome) ∧
    (∀ q, (d.waiters.get q).isSome ↔
      (d.engine.lookups.get q).isSome ∨ ∃ id t, d.engine.tasks.get id = some t ∧ t.owner.qid = q) ∧
    ∀ st ∈ log, ∀ o ∈ (machine entropy).out st, (∀ q, o ≠ .missed q) ∧ o ≠ .unfinished := by
  obtain ⟨elog, hb⟩ := h.balanced
  refine ⟨hb.wired.apart, fun tx => ?_, fun q => ?_, fun st hst o ho => ?_⟩
  · rw [Option.isSome_iff_exists (x := d.engine.txs.get tx)]
    exact hb.wired.open_iff tx
  · rw [hb.attended.waits_iff hb.ledger q, Engine.Gone, not_and_or, or_comm]
    refine or_congr (by cases d.engine.lookups.get q <;> simp) ?_
    simp only [Engine.ownerOf, Option.map_eq_some_iff]
    push Not
    constructor
    · rintro ⟨id, o, ⟨t, ht, rfl⟩, hq⟩
      exact ⟨id, t, ht, hq⟩
    · rintro ⟨id, t, ht, hq⟩
      exact ⟨id, _, ⟨t, ht, rfl⟩, hq⟩
  · obtain ⟨new, old, hlog⟩ := append_of_mem hst
    have hbefore : Balanced entropy st.before := by
      subst hlog
      obtain ⟨d₁, h₁⟩ := Machine.Run.of_suffix h
      obtain ⟨d₀, h₀, hidle, -⟩ := Machine.Run.of_cons h₁
      exact (Runs.balanced h₀).reorder hidle
    have hclean := (hbefore.turn st.input).2 o ho
    refine ⟨fun q heq => ?_, fun heq => ?_⟩ <;> rw [heq] at hclean <;> cases hclean

/-- On a small run: the client waits, and the second query has a socket. -/
theorem tables_agree_requestOnLan :
    ((ran zeros requestOnLan).2.upstream.udp.get 3).isSome ∧
      ((ran zeros requestOnLan).2.engine.txs.get 3).isSome ∧
      ∃ id t, (ran zeros requestOnLan).2.engine.tasks.get id = some t ∧ t.owner.qid = 2 := by
  have hopen : ((ran zeros requestOnLan).2.upstream.udp.get 3).isSome := by decide +kernel
  have hwaits : ((ran zeros requestOnLan).2.waiters.get 2).isSome := by decide +kernel
  have hlookup : (ran zeros requestOnLan).2.engine.lookups.get 2 = none := by decide +kernel
  obtain ⟨-, hsockets, hquestions, -⟩ := Runs.tables_agree (runs_ran zeros requestOnLan)
  refine ⟨hopen, (hsockets 3).mp (.inl hopen), ((hquestions 2).mp hwaits).resolve_left ?_⟩
  simp [hlookup]

/-! ### The end of `perform` -/

/-- **`perform` ends under any send errors.**  In every state whose engine is reachable, as it is in
every run of the daemon between the turns of its loop and within them, for the actions of every
operation of the engine and whatever the kernel answers: the recursion of `perform` ends, after at
most `MAX_ATTEMPTS + 1` nested calls, with what the model's `perform` returns.  In every call, a
query that follows from the failure of another one is of the same task, which has used one attempt
more. -/
theorem perform_ends (entropy : Entropy) :
    (∀ log d, Runs entropy log d → ∃ elog, Reached entropy elog d.engine) ∧
    (∀ elog e op, Reached entropy elog e → Reached entropy (⟨e, op⟩ :: elog) (e.apply op).1) ∧
    ∀ elog (d : Daemon), Reached entropy elog d.engine → ∀ op os now,
      ∃ calls, Performs os now { d with engine := (d.engine.apply op).1 }
        (d.engine.apply op).2 calls
          (perform os now { d with engine := (d.engine.apply op).1 } (d.engine.apply op).2) ∧
        calls.length ≤ maxAttempts + 1 ∧
        ∀ call ∈ calls, ∀ c ∈ call, ∀ tx server interface tcp payload error,
          c.2 = .send tx server interface tcp payload →
          c.1.upstream.send os tx server interface tcp payload = .error error →
          ∀ tx' ∈ sents (performOne os now c.1 c.2).2.1,
            Retries c.1.engine tx (performOne os now c.1 c.2).1.engine tx' := by
  refine ⟨fun log d h => ?_, fun elog e op h => h.after, fun elog d h op os now => ?_⟩
  · obtain ⟨elog, hbooks⟩ := h.balanced
    exact ⟨elog, hbooks.reached⟩
  · exact (Due.operation h op).perform os now

/-- A kernel that permits no socket. -/
def refusing : Os := ⟨fun _ => 0, fun _ => some ⟨some Libc.EPERM⟩⟩

/-- The daemon with one interface. -/
def lanDaemon : Daemon := { engine := ((withEntropy zeros).apply (.setScopes [lan])).1 }

theorem perform_ends_refusing :
    ∃ calls r, Performs refusing 1000
      { lanDaemon with engine := (lanDaemon.engine.apply (.resolve 7 (ascii "peios.example") Rtype.a false 1000)).1 }
      (lanDaemon.engine.apply (.resolve 7 (ascii "peios.example") Rtype.a false 1000)).2 calls r ∧
        calls.length ≤ 4 := by
  obtain ⟨-, hafter, hends⟩ := perform_ends zeros
  have hreached := hafter [] (withEntropy zeros) (.setScopes [lan]) ⟨_, .start rfl, .refl _⟩
  obtain ⟨calls, hperforms, hlen, -⟩ :=
    hends _ lanDaemon hreached (.resolve 7 (ascii "peios.example") Rtype.a false 1000) refusing 1000
  exact ⟨calls, _, hperforms, hlen⟩

end Resolvd.Daemon
