import Resolvd.Engine.Moves

/-!
# Operations as sequences of changes

`apply_path`: every operation of the engine, in every state, is a sequence of the changes of `Move`,
at whose end no task is loose.  The lemmas follow the call graph of the source from the inside out;
those about the internal methods speak about a loose task, which the method settles or sends on its
way.

An attempt is several changes.  Where it matters that they belong together, an operation is a
sequence of legs (`Leg`, `apply_legs`), in which an attempt is taken at once and nothing else notes
or asks a server.
-/

namespace Resolvd.Engine

open Lib Dns Relation List

/-- A sequence of changes. -/
abbrev Path (st : Step Engine Op) : Mid → Mid → Prop := ReflTransGen (Move st)

/-! ### The internal methods are paths -/

section Paths

variable {st : Step Engine Op} {m : Mid} {id : TaskId} {t : Task}

theorem settle_path {a : Answer} (hid : id ∈ m.loose) (ht : m.engine.tasks.get id = some t)
    (htx : t.tx = none) (h : Why st m.engine id t a) :
    Path st m (m.finish id (m.engine.settle id a)) :=
  .single (.shift (.settle m hid ht htx h))

theorem send_path {server : IpAddr} {tcp : Bool} (hid : id ∈ m.loose)
    (ht : m.engine.tasks.get id = some t) (htx : t.tx = none)
    (hcur : t.current ≠ none ∨ st.input.asks = none)
    (htarget : Target st m.engine id t server tcp) :
    Path st m (m.finish id (m.engine.send id server tcp st.input.now)) := by
  unfold send
  simp only [ht]
  split
  · next h => exact settle_path hid ht htx (.budget h)
  · next hbudget =>
    split
    · next h =>
      refine .head (.tweak (.book m
        { m.engine.counters with refused := m.engine.counters.refused + 1 } m.engine.demoted
        m.engine.draws)) ?_
      exact settle_path (m := { m with engine := _ }) hid ht htx (.ceiling h)
    · next hroom =>
      split
      · next h =>
        refine .head (.tweak (.book m
          { m.engine.counters with refused := m.engine.counters.refused + 1 } m.engine.demoted
          (m.engine.draws + 1))) ?_
        exact settle_path (m := { m with engine := _ }) hid ht htx (.entropy h)
      · next random _ =>
        refine .head (.tweak (.book m m.engine.counters m.engine.demoted (m.engine.draws + 1)))
          (.single ?_)
        have htarget' : Target st { m.engine with draws := m.engine.draws + 1 } id t server
            tcp := by
          cases htarget with
          | listed h => exact .listed h
          | retry h hid htrunc ht hserver => exact .retry h hid htrunc ht hserver
        exact .shift (.launch { m with engine := _ } random hid ht htx hcur (not_le.mp hbudget)
          (not_le.mp hroom) htarget')

theorem nextAttempt_path (hid : id ∈ m.loose) (ht : m.engine.tasks.get id = some t)
    (htx : t.tx = none) (hcur : t.current ≠ none ∨ st.input.asks = none) :
    Path st m (m.finish id (m.engine.nextAttempt id st.input.now)) := by
  unfold nextAttempt
  simp only [ht]
  split
  · next h => exact settle_path hid ht htx (.budget h)
  · split
    · next h => exact settle_path hid ht htx (.noServers (serversOf_eq_nil.mp h))
    · next first rest h =>
      have hmem : pickServer t.tried (first :: rest) first ∈
          m.engine.configuredServers t.scopeId := by
        have hpick : pickServer t.tried (first :: rest) first ∈
            m.engine.serversOf t.scopeId st.input.now :=
          h ▸ pickServer_mem t.tried rest first
        exact mem_serversOf.mp hpick
      refine .head (.tweak (.ask m (pickServer t.tried (first :: rest) first) hid)) ?_
      exact send_path (m := { m with engine := _ }) hid (get_updateTask_self ht _) htx hcur
        (.listed hmem)

end Paths

/-! ### Legs -/

/-- The transaction a query was sent on. -/
def Action.sent : Action → Option Txid
  | .send tx .. => some tx
  | _ => none

/-- One leg of the operation `st`: a change that sends nothing and notes no server, the next attempt
of a task, or its question once more over TCP. -/
inductive Leg (st : Step Engine Op) (m : Mid) : Mid → Prop
  | tweak {m' : Mid} (h : Tweak st m m')
      (hkeep : ∀ id t t', m.engine.tasks.get id = some t → m'.engine.tasks.get id = some t' →
        t'.candidates = t.candidates → t'.tried = t.tried) : Leg st m m'
  | shift {m' : Mid} (h : Shift st m m')
    (hkeep : m'.acts.filterMap Action.sent = m.acts.filterMap Action.sent) : Leg st m m'
  | attempt {id : TaskId} {t : Task} (hid : id ∈ m.loose) (ht : m.engine.tasks.get id = some t)
      (htx : t.tx = none) (hcur : t.current ≠ none ∨ st.input.asks = none) :
      Leg st m (m.finish id (m.engine.nextAttempt id st.input.now))
  | resend {id : TaskId} {t : Task} {server : IpAddr} (hid : id ∈ m.loose)
      (ht : m.engine.tasks.get id = some t) (htx : t.tx = none) (hasks : st.input.asks = none)
      (h : Target st m.engine id t server true) :
      Leg st m (m.finish id (m.engine.send id server true st.input.now))

/-- A sequence of legs. -/
abbrev Legs (st : Step Engine Op) : Mid → Mid → Prop := ReflTransGen (Leg st)

theorem Leg.path {st : Step Engine Op} {m m' : Mid} (h : Leg st m m') : Path st m m' := by
  cases h with
  | tweak h hkeep => exact .single (.tweak h)
  | shift h hkeep => exact .single (.shift h)
  | attempt hid ht htx hcur => exact nextAttempt_path hid ht htx hcur
  | resend hid ht htx hasks h => exact send_path hid ht htx (.inr hasks) h

theorem Legs.path {st : Step Engine Op} {m m' : Mid} (h : Legs st m m') : Path st m m' := by
  induction h with
  | refl => exact .refl
  | tail _ hleg ih => exact ih.trans hleg.path

section Legs

variable {st : Step Engine Op} {m : Mid} {id : TaskId} {t : Task}

theorem tried_same {e e' : Engine} (h : e'.tasks = e.tasks) (i : TaskId) (t t' : Task)
    (ht : e.tasks.get i = some t) (ht' : e'.tasks.get i = some t')
    (_ : t'.candidates = t.candidates) : t'.tried = t.tried := by
  rw [h, ht] at ht'
  rw [Option.some.inj ht']

/-- A change of one task that keeps the servers it has asked as long as it keeps its candidates. -/
theorem tried_updateTask {e : Engine} (ht : e.tasks.get id = some t) {f : Task → Task}
    (hf : (f t).candidates = t.candidates → (f t).tried = t.tried) (i : TaskId) (t₁ t' : Task)
    (ht₁ : e.tasks.get i = some t₁) (ht' : (e.updateTask id f).tasks.get i = some t')
    (hsame : t'.candidates = t₁.candidates) : t'.tried = t₁.tried := by
  rcases updateTask_cases ht' with ⟨-, ht'⟩ | ⟨rfl, t₂, ht₂, rfl⟩
  · rw [Option.mem_unique ht₁ ht']
  · obtain rfl := Option.mem_unique ht ht₁
    obtain rfl := Option.mem_unique ht ht₂
    exact hf hsame

theorem book_leg (m : Mid) (c : Counters) (d : Table (IpAddr × String) Instant) (n : ℕ) :
    Leg st m { m with engine := { m.engine with counters := c, demoted := d, draws := n } } :=
  .tweak (.book m c d n) (tried_same rfl)

theorem settle_leg {a : Answer} (hid : id ∈ m.loose) (ht : m.engine.tasks.get id = some t)
    (htx : t.tx = none) (h : Why st m.engine id t a) :
    Leg st m (m.finish id (m.engine.settle id a)) := by
  refine .shift (.settle m hid ht htx h) ?_
  have hnone : (m.engine.settled id t a).2.filterMap Action.sent = [] := by
    refine filterMap_eq_nil_iff.mpr fun x hx => ?_
    obtain ⟨c, rfl⟩ := settled_done hx
    rfl
  rw [Mid.finish, settle_eq ht htx, filterMap_append, hnone, append_nil]

theorem configure_leg (m : Mid) (h : st.input.isConfig = true) (hm : m = { engine := st.before }) :
    Leg st m { m with engine := (m.engine.apply st.input).1 } := by
  refine .tweak (.configure m h hm) fun i t t' ht ht' _ => ?_
  obtain ⟨marked, hmarks, -⟩ := configure_marks m.engine h
  rw [hmarks, ht] at ht'
  rw [← Option.some.inj ht']
  rfl

theorem Closes.nothing_sent {tx : Txid} {acts : List Action} (h : Closes st tx acts)
    (before : List Action) :
    (before ++ acts).filterMap Action.sent = before.filterMap Action.sent := by
  cases h <;> simp [Action.sent]

theorem nothing_sent_abandon (e : Engine) (qid : Qid) :
    (([] : List Action) ++ (e.abandon qid).2).filterMap Action.sent = [] := by
  refine filterMap_eq_nil_iff.mpr fun a ha => ?_
  obtain ⟨-, -, -, hacts, -⟩ := abandon_spec e qid
  obtain ⟨tx, id, t, rfl, -⟩ := (hacts a).mp ha
  rfl

/-- The recursion of `next_candidate`: every turn but the last finds its candidate absent in the
cache. -/
theorem nextCandidateLoop_legs {cs : List Name} (hop : Searches st) (hid : id ∈ m.loose)
    (ht : m.engine.tasks.get id = some t) (htx : t.tx = none) (hcs : t.candidates = cs)
    (hne : cs ≠ [])
    (hwhy : t.current = none ∨ ∃ c₀, t.current = some c₀ ∧ Absent st m.engine id t c₀) :
    Legs st m (m.finish id (nextCandidateLoop id t.rtype t.noCache st.input.now cs m.engine)) := by
  induction cs generalizing m t with
  | nil => exact absurd rfl hne
  | cons c rest ih =>
    cases hs : m.engine.route c with
    | none =>
      rw [nextCandidateLoop_unroutable hs]
      exact .single (settle_leg hid ht htx (.unroutable hop hcs hs))
    | some s =>
      rw [nextCandidateLoop_cons hs]
      -- the candidate is chosen; `m'` is the moment after that
      refine .head (.tweak (.choose m hop hid ht hcs hs hwhy)
        (tried_updateTask ht fun hsame => ?_)) ?_
      · exact absurd (hcs.symm.trans hsame.symm) (cons_ne_self c rest)
      set m' : Mid := { m with engine := m.engine.updateTask id fun t => t.choose c rest s } with hm'
      have ht' : m'.engine.tasks.get id = some (t.choose c rest s) := get_updateTask_self ht _
      have hcur : (t.choose c rest s).current ≠ none ∨ st.input.asks = none :=
        .inl (Option.some_ne_none c)
      cases hnc : t.noCache with
      | true => exact .single (.attempt hid ht' htx hcur)
      | false =>
        simp only [Bool.false_eq_true, if_false]
        cases hit : (m.engine.cache.get (CacheKey.new c t.rtype s) st.input.now).1 with
        | none =>
          rcases Cache.get_eq_none hit with hsame | ⟨⟨x, hx, hexp⟩, hdrop⟩
          · rw [hsame]
            exact .single (.attempt hid ht' htx hcur)
          · rw [hdrop]
            refine .head (.tweak (.forget m' hx hexp) (tried_same rfl)) ?_
            exact .single (.attempt (m := { m' with engine := _ }) hid ht' htx hcur)
        | some entry =>
          obtain ⟨x, hx, hlive, rfl, hsame⟩ := Cache.get_eq_some hit
          rw [hsame]
          refine .head (book_leg m'
            { m'.engine.counters with cacheHits := m'.engine.counters.cacheHits + 1 }
            m'.engine.demoted m'.engine.draws) ?_
          dsimp only
          split
          · next habsent =>
            have hrec := ih (m := { m' with engine := m'.engine.count fun k =>
              { k with cacheHits := k.cacheHits + 1 } })
                (t := t.choose c rest s) hid ht' htx rfl habsent.2
              (.inr ⟨c, rfl, .cached rfl hs hx hlive habsent.1⟩)
            simp only [Task.choose, hnc] at hrec
            exact hrec
          · next hlast =>
            exact .single (settle_leg (m := { m' with engine := _ }) hid ht' htx
              (.cached hop rfl rfl hs hx hlive hlast))

theorem nextCandidate_legs (hop : Searches st) (hid : id ∈ m.loose)
    (ht : m.engine.tasks.get id = some t) (htx : t.tx = none) (hne : t.candidates ≠ [])
    (hwhy : t.current = none ∨ ∃ c₀, t.current = some c₀ ∧ Absent st m.engine id t c₀) :
    Legs st m (m.finish id (m.engine.nextCandidate id st.input.now)) := by
  unfold nextCandidate
  simp only [ht]
  exact nextCandidateLoop_legs hop hid ht htx rfl hne hwhy

theorem advance_legs {q : Qid} (hop : st.input.asks = some q) (hid : id ∈ m.loose)
    (ht : m.engine.tasks.get id = some t) (hnew : t.Fresh) :
    Legs st m (m.finish id (m.engine.advance id st.input.now)) := by
  unfold advance
  simp only [ht, hnew.current, hnew.candidates, hnew.attempt, true_and, if_true]
  split
  · next a h =>
    refine .head (book_leg m { m.engine.counters with synthetic := m.engine.counters.synthetic + 1 }
      m.engine.demoted
      m.engine.draws) ?_
    exact .single (settle_leg (m := { m with engine := _ }) hid ht hnew.tx
      (.synthetic hop hnew.current h))
  · split
    · next h => exact .single (settle_leg hid ht hnew.tx (.noCandidates hop hnew.current h))
    · next h =>
      have hexp : (m.engine.updateTask id fun t' =>
          { t' with candidates := m.engine.candidates t.original }) =
          m.engine.updateTask id fun t' =>
            { t' with candidates := m.engine.candidates t'.original } := by
        simp only [updateTask, Table.modify_of_some ht]
      rw [hexp]
      refine .head (.tweak (.expand m (.asked hop) hid ht hnew.current hnew.candidates h)
        (tried_updateTask ht fun _ => rfl)) ?_
      exact nextCandidate_legs (m := { m with engine := _ }) (.asked hop) hid
        (get_updateTask_self ht _) hnew.tx h
        (.inl hnew.current)

end Legs

/-! ### The operations are sequences of legs -/

section Operations

variable {st : Step Engine Op} {m : Mid} {tx : Txid} {x : Tx} {acts : List Action} {t₀ : Task}
    {M : Message}

/-- The moment when an operation is over. -/
def Mid.over (m : Mid) (r : Engine × List Action) :
    Mid := { m with engine := r.1, acts := m.acts ++ r.2 }

theorem countQuery_legs (m : Mid) : Legs st m { m with engine := m.engine.countQuery } :=
  .single (book_leg m { m.engine.counters with queries := m.engine.counters.queries + 1 }
    m.engine.demoted m.engine.draws)

theorem resolveName_legs {qid : Qid} {name : Name} {rtype : UInt16} {noCache : Bool}
    (hm : m.loose = []) (hb : m.begun = false) (h : st.input.Resolves qid name rtype noCache) :
    Legs st m { m.over (m.engine.resolveName qid name rtype noCache
      st.input.now) with begun := true } := by
  refine .head (.shift (.start m h hb) rfl) ?_
  set m' : Mid := { m with
    engine := m.engine.startTask (.resolve qid) name rtype noCache
    loose := m.loose ++ [m.engine.nextId]
    begun := true } with hm'
  have ht : m'.engine.tasks.get m.engine.nextId =
      some { owner := .resolve qid, original := name, rtype, noCache } := by
    simp only [hm', startTask, Table.get_insert, if_true]
  have hpath : Legs st m' _ := advance_legs h.asks (by simp [hm']) ht ⟨rfl, rfl, rfl, rfl⟩
  have hloose : m'.loose.erase m.engine.nextId = m.loose := by simp [hm', hm]
  rw [Mid.finish, hloose] at hpath
  exact hpath

theorem advanceAll_legs {q : Qid} (hop : st.input.asks = some q) (hnodup : m.loose.Nodup)
    (hfresh : ∀ id ∈ m.loose, ∃ t, m.engine.tasks.get id = some t ∧ t.Fresh) :
    Legs st m { m.over (each (fun e id => e.advance id st.input.now) m.loose
      m.engine) with loose := [] } := by
  -- on the tasks that are still loose
  generalize hl : m.loose = ids
  induction ids generalizing m with
  | nil =>
    have : ({ m.over (each (fun e id => e.advance id st.input.now) [] m.engine) with loose := [] } : Mid) = m := by
      simp [each, Mid.over, ← hl]
    rw [this]
  | cons id ids ih =>
    rw [hl] at hnodup hfresh
    obtain ⟨t, ht, hnew⟩ := hfresh id (by simp)
    have hpath : Legs st m _ := advance_legs hop (by simp [hl]) ht hnew
    have hloose : (m.finish id (m.engine.advance id st.input.now)).loose = ids := by
      simp [Mid.finish, hl]
    obtain ⟨hnot, hnodup'⟩ := nodup_cons.mp hnodup
    refine hpath.trans ?_
    have hrest := ih (m := m.finish id (m.engine.advance id st.input.now)) (hloose.symm ▸ hnodup')
      (fun id' hid' => by
        rw [hloose] at hid'
        obtain ⟨t', ht', hnew'⟩ := hfresh id' (mem_cons_of_mem _ hid')
        have hne : id' ≠ id := fun h => hnot (h ▸ hid')
        exact ⟨t', by rw [← ht']; exact advance_tasks_ne hne _, hnew'⟩) hloose
    simpa [Mid.over, Mid.finish, each] using hrest

theorem lookup_legs {qid : Qid} {name : Name} {family : Family} (hm : m.loose = [])
    (hb : m.begun = false) (h : st.input.LooksUp qid name family) :
    Legs st m
      { m.over (each (fun e id => e.advance id st.input.now)
        (m.engine.startTasks qid name family.types).2
          (m.engine.openLookup qid name family)) with begun := true } := by
  refine .head (.shift (.startAll m h hb) rfl) ?_
  obtain ⟨hids, hget, -⟩ := startTasks_spec m.engine qid name family.types
  set m' : Mid := { m with
    engine := m.engine.openLookup qid name family
    loose := m.loose ++ (m.engine.startTasks qid name family.types).2
    begun := true } with hm'
  have hloose : m'.loose = (m.engine.startTasks qid name family.types).2 := by simp [hm', hm]
  have hpath : Legs st m' _ := advanceAll_legs h.asks (by rw [hloose, hids]; exact nodup_range') (by
    intro id hid
    rw [hloose, hids, mem_range'_1] at hid
    obtain ⟨hlo, hhi⟩ := hid
    have hlt : id - m.engine.nextId < family.types.length := by lia
    refine ⟨lookupTask qid name family.types[id - m.engine.nextId], ?_, ⟨rfl, rfl, rfl, rfl⟩⟩
    simp only [hm', openLookup, hget, hlo, if_true, List.getElem?_eq_getElem hlt, Option.map_some,
      Option.some_or])
  rw [hloose] at hpath
  simpa [Mid.over, hm', hm] using hpath

/-- After a transaction was closed, its task moves on. -/
theorem closed_legs {t : Task} {r : Engine × List Action} (hm : m.loose = [])
    (hx : m.engine.txs.get tx = some x) (ht : m.engine.tasks.get x.task = some t)
    (h : Closes st tx acts)
    (hr : Legs st { m with engine := m.engine.closeTx tx x, loose := [x.task], acts := m.acts ++ acts }
      (Mid.finish { m with loose := [x.task], acts := m.acts ++ acts } x.task r)) :
    Legs st m (m.over (r.1, acts ++ r.2)) := by
  refine .head (.shift (.close m hx ht h) (h.nothing_sent m.acts)) ?_
  rw [hm, nil_append]
  simpa [Mid.finish, Mid.over, hm, append_assoc] using hr

/-- `failed` and `local_failed`: the transaction is closed and the task goes to the next server. -/
theorem retry_legs (hm : m.loose = []) (hx : m.engine.txs.get tx = some x) (h : Closes st tx acts)
    (d : Table (IpAddr × String) Instant) :
    Legs st m (m.over
      (({ m.engine.closeFailed tx x with demoted := d }.nextAttempt x.task st.input.now).1,
        acts ++ ({ m.engine.closeFailed tx x with demoted := d }.nextAttempt x.task
          st.input.now).2)) := by
  cases ht : m.engine.tasks.get x.task with
  | none =>
    have hnone : { m.engine.closeFailed tx x with demoted := d }.nextAttempt x.task st.input.now =
        ({ m.engine.closeFailed tx x with demoted := d }, []) := by
      unfold nextAttempt
      simp only [closeFailed, count, updateTask, Table.modify_of_none ht, ht]
    rw [hnone]
    refine .head (.shift (.orphan m hx ht h) (h.nothing_sent m.acts)) (.single ?_)
    have hbook : Leg st _ _ := book_leg
      { m with engine := { m.engine with txs := m.engine.txs.remove tx }, acts := m.acts ++ acts }
      { m.engine.counters with upstreamFailed := m.engine.counters.upstreamFailed + 1 } d
        m.engine.draws
    simpa [Mid.over, closeFailed, count, updateTask, Table.modify_of_none ht] using hbook
  | some t =>
    refine closed_legs hm hx ht h ?_
    refine .head (book_leg _ { m.engine.counters with upstreamFailed := m.engine.counters.upstreamFailed + 1 } d
      m.engine.draws) ?_
    exact .single (.attempt (m := { m with engine := _, loose := [x.task], acts := m.acts ++ acts })
      (by simp)
      (get_closeTx_self ht) rfl (.inr h.asks))

theorem failed_legs (hm : m.loose = []) (hx : m.engine.txs.get tx = some x)
    (h : Closes st tx acts) :
    Legs st m (m.over ((m.engine.failed tx st.input.now).1,
      acts ++ (m.engine.failed tx st.input.now).2)) := by
  unfold failed
  simp only [hx]
  exact retry_legs hm hx h _

theorem localFailed_legs (hm : m.loose = []) (hx : m.engine.txs.get tx = some x)
    (h : Closes st tx acts) :
    Legs st m (m.over ((m.engine.localFailed tx st.input.now).1,
      acts ++ (m.engine.localFailed tx st.input.now).2)) := by
  unfold localFailed
  simp only [hx]
  exact retry_legs hm hx h m.engine.demoted

theorem tick_legs (hm : m.loose = []) {txs : List Txid} {now : Instant} (h : st.input = .tick now)
    (htxs : ∀ tx ∈ txs, ∃ x, st.before.txs.get tx = some x ∧ x.deadline ≤ now) :
    Legs st m (m.over (each (expire now) txs m.engine)) := by
  have hnow : st.input.now = now := by rw [h]; rfl
  induction txs generalizing m with
  | nil => simpa [each, Mid.over] using ReflTransGen.refl
  | cons tx txs ih =>
    obtain ⟨x₀, hx₀, hd⟩ := htxs tx (by simp)
    have hone : Legs st m (m.over (expire now m.engine tx)) := by
      cases hx : m.engine.txs.get tx with
      | none =>
        have : expire now m.engine tx = (m.engine, [.cancel tx]) := by simp [expire, failed, hx]
        rw [this]
        exact .single (.shift (.stray m h hx ⟨x₀, hx₀⟩) (filterMap_append.trans (append_nil _)))
      | some x =>
        have hpath : Legs st m _ := failed_legs hm hx (.expired h hx₀ hd)
        rw [hnow] at hpath
        exact hpath
    have hrest := ih (m := m.over (expire now m.engine tx)) hm fun tx' htx' =>
      htxs tx' (mem_cons_of_mem _ htx')
    refine hone.trans ?_
    simpa [Mid.over, each, append_assoc] using hrest

theorem keepAnswer_legs (h : Answers st tx x t₀ M) :
    Legs st m { m with engine := m.engine.keepAnswer t₀ M M.rcode x.server st.input.now } := by
  refine .head (book_leg m m.engine.counters
    (m.engine.demoted.remove (serverKey x.server t₀.scopeId)) m.engine.draws) ?_
  unfold keepAnswer
  split
  · next hstore => exact .single (.tweak (.store { m with engine := _ } h hstore) (tried_same rfl))
  · exact .refl

theorem accept_legs (h : Answers st tx x t₀ M)
    (hid : x.task ∈ m.loose) (ht : m.engine.tasks.get x.task = some { t₀ with tx := none }) :
    Legs st m (m.finish x.task (m.engine.accept x.task t₀ M M.rcode x.server st.input.now)) := by
  unfold accept
  refine (keepAnswer_legs h).trans ?_
  have htasks := keepAnswer_tasks m.engine t₀ M M.rcode x.server st.input.now
  generalize m.engine.keepAnswer t₀ M M.rcode x.server st.input.now = e at htasks
  have ht' : e.tasks.get x.task = some { t₀ with tx := none } := htasks ▸ ht
  split
  · next habsent =>
    refine .head (.tweak (.refund { m with engine := e } h hid)
      (tried_updateTask ht' fun _ => rfl)) ?_
    have hwhy : ∀ (e' : Engine) (t : Task), t.current = t₀.current →
        t.current = none ∨ ∃ c₀, t.current = some c₀ ∧ Absent st e' x.task t c₀ := by
      intro e' t hcur
      cases hc : t.current with
      | none => exact .inl rfl
      | some c =>
        refine .inr ⟨c, rfl, .replied h rfl ?_ habsent.1⟩
        simp only [Task.candidate, ← hcur, hc, Option.getD_some]
    exact nextCandidate_legs (m := { m with engine := _ }) (.answered h habsent.1) hid
      (get_updateTask_self ht' _) rfl
      habsent.2
      (hwhy _ _ rfl)
  · next hlast =>
      exact .single (settle_leg (m := { m with engine := e }) hid ht' rfl
        (.replied h rfl rfl hlast))

theorem handleReply_legs (h : Reply st tx x t₀ M)
    (hid : x.task ∈ m.loose) (ht : m.engine.tasks.get x.task = some { t₀ with tx := none }) :
    Legs st m (m.finish x.task (m.engine.handleReply x t₀ M st.input.now)) := by
  unfold handleReply
  split
  · next htrunc => exact .single (.resend hid ht rfl h.asks (.retry h rfl htrunc rfl rfl))
  · next hwhole =>
    split
    · next hcode => exact accept_legs ⟨h, Bool.eq_false_iff.mpr hwhole, hcode⟩ hid ht
    · refine .head (book_leg m
        { m.engine.counters with upstreamFailed := m.engine.counters.upstreamFailed + 1 }
        (m.engine.demoted.insert (serverKey x.server t₀.scopeId) (st.input.now + demotion))
          m.engine.draws) ?_
      exact .single (.attempt (m := { m with engine := _ }) hid ht rfl (.inr h.asks))

theorem received_legs {bytes : Bytes} {now : Instant} (h : st.input = .received tx bytes now) :
    Legs st { engine := st.before }
      (Mid.over { engine := st.before } (st.before.received tx bytes now)) := by
  have hnow : st.input.now = now := by rw [h]; rfl
  unfold received
  split
  · exact .refl
  · next x hx =>
    split
    · exact .refl
    · next M hM =>
      have hcloses : Closes st tx [] := .received h hx hM
      dsimp only
      split
      · next ht => exact .single (.shift (.orphan { engine := st.before } hx ht hcloses) rfl)
      · next t ht =>
        have hreply : Reply st tx x t M := ⟨⟨bytes, now, h, hM⟩, hx, ht⟩
        refine closed_legs (m := { engine := st.before }) rfl hx ht hcloses ?_
        refine .head (book_leg _
          { st.before.counters with upstreamAnswered := st.before.counters.upstreamAnswered + 1 }
          st.before.demoted st.before.draws) ?_
        rw [← hnow]
        exact handleReply_legs (m := { engine := _, loose := [x.task], acts := [] ++ [] }) hreply
          (by simp)
          (get_closeTx_self ht)

/-- The first moment of an operation. -/
def Mid.first (st : Step Engine Op) : Mid := { engine := st.before }

/-- The last moment of an operation. -/
def Mid.last (st : Step Engine Op) : Mid :=
  { engine := after st, acts := actions st, begun := st.input.asks.isSome }

/-- **Every operation is a sequence of legs**, at whose end no task is loose and its question was
taken up. -/
theorem apply_legs (st : Step Engine Op) : Legs st (.first st) (.last st) := by
  simp only [Mid.first, Mid.last, after, actions]
  obtain ⟨e, op⟩ := st
  cases op with
  | resolve qid text rtype noCache now =>
    simp only [apply, resolve, Op.asks, Option.isSome_some]
    split
    · next err h => exact .tail (countQuery_legs _) (.shift (.refuse _ (.resolve h) rfl) rfl)
    · next name h => exact (countQuery_legs _).trans (resolveName_legs rfl rfl (.resolve h))
  | resolveQuestion qid question now =>
    exact (countQuery_legs _).trans (resolveName_legs rfl rfl .resolveQuestion)
  | reverse qid address now =>
    have hop : (Op.reverse qid address now).Resolves qid (Name.reverseOf address) Rtype.ptr false :=
      .reverse
    rw [hop.apply_eq e]
    exact (countQuery_legs _).trans (resolveName_legs rfl rfl hop)
  | lookup qid text family now =>
    simp only [apply, lookup, Op.asks, Option.isSome_some]
    split
    · next err h => exact .tail (countQuery_legs _) (.shift (.refuse _ (.lookup h) rfl) rfl)
    · next name h => exact (countQuery_legs _).trans (lookup_legs rfl rfl (.lookup h))
  | abandon qid => exact .single (.shift (.abandon _ rfl rfl) (nothing_sent_abandon e qid))
  | received tx bytes now => exact received_legs rfl
  | failed tx now =>
    cases hx : e.txs.get tx with
    | none =>
      simp only [apply, failed, hx]
      exact .refl
    | some x => exact failed_legs (m := { engine := e }) rfl hx (.failed rfl hx)
  | localFailed tx now =>
    cases hx : e.txs.get tx with
    | none =>
      simp only [apply, localFailed, hx]
      exact .refl
    | some x => exact localFailed_legs (m := { engine := e }) rfl hx (.localFailed rfl hx)
  | tick now =>
    refine tick_legs (m := { engine := e }) rfl rfl fun tx htx => ?_
    obtain ⟨x, hx, hd⟩ := Table.mem_select.mp htx
    exact ⟨x, hx, by simpa using hd⟩
  | setScopes scopes => exact .single (configure_leg _ rfl rfl)
  | setFallback servers domains => exact .single (configure_leg _ rfl rfl)
  | setHosts hosts => exact .single (configure_leg _ rfl rfl)
  | setHostname hostname => exact .single (configure_leg _ rfl rfl)
  | flush => exact .single (configure_leg _ rfl rfl)

/-- **Every operation is a sequence of changes**, at whose end no task is loose and its question was
taken up. -/
theorem apply_path (st : Step Engine Op) : Path st (.first st) (.last st) := (apply_legs st).path

end Operations

end Resolvd.Engine
