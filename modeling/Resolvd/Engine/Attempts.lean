import Resolvd.Engine.Confined

/-!
# Which server is asked next

`next_attempt` asks the servers of the scope one after the other, those that are not demoted first,
and starts again only when every server was asked.  It goes by the list `tried` of the task and by
the list of servers as it is now, whatever it was before.  `Runs.noted` shows that `tried` holds the
servers that were asked for the candidate, as the queries of the run have it; `Runs.asks_all_first`
is the result.
-/

namespace Resolvd.Engine

open Lib Dns List

variable {asked : TaskId → Name → IpAddr → Prop} {e e' : Engine}

/-! ### The order of the servers -/

/-- **What `servers_of` returns**: the configured servers, those that are not demoted first, in the
configured order. -/
theorem serversOf_eq (e : Engine) (scope : String) (now : Instant) :
    e.serversOf scope now =
      ((e.configuredServers scope).filter fun s => !e.isDemoted s scope now) ++
        (e.configuredServers scope).filter fun s => e.isDemoted s scope now := by
  simp only [serversOf, partition_eq_filter_filter, Function.comp_def, Bool.not_not]

theorem serversOf_perm (e : Engine) (scope : String) (now : Instant) :
    (e.serversOf scope now).Perm (e.configuredServers scope) := by
  have h := filter_append_perm (fun s => !e.isDemoted s scope now) (e.configuredServers scope)
  simp only [Bool.not_not] at h
  rw [serversOf_eq]
  exact h

/-! ### The choice -/

/-- `next_attempt` chooses the server for the task. -/
structure Chooses (e : Engine) (id : TaskId) (t : Task) (now : Instant) (server : IpAddr) :
    Prop where
  task : e.tasks.get id = some t
  budget : t.attempt < maxAttempts
  picked : ∃ first rest, e.serversOf t.scopeId now = first :: rest ∧
    server = pickServer t.tried (first :: rest) first

section Choice

variable {e : Engine} {id : TaskId} {t : Task} {now : Instant} {server : IpAddr}

theorem Chooses.nextAttempt_eq (h : Chooses e id t now server) :
    e.nextAttempt id now =
      (e.updateTask id fun t => { t with tried := t.tried ++ [server] }).send id server false
        now := by
  obtain ⟨first, rest, hservers, rfl⟩ := h.picked
  simp only [nextAttempt, h.task, hservers, if_neg (not_le.mpr h.budget)]

/-- **A server is asked again only when all were asked.** -/
theorem Chooses.of_tried (h : Chooses e id t now server) (hs : server ∈ t.tried) :
    ∀ s ∈ e.configuredServers t.scopeId, s ∈ t.tried := by
  obtain ⟨first, rest, hservers, rfl⟩ := h.picked
  intro s hmem
  have hlisted : s ∈ e.serversOf t.scopeId now := mem_serversOf.mpr hmem
  rw [hservers] at hlisted
  unfold pickServer at hs
  cases hfind : (first :: rest).find? fun s => !t.tried.contains s with
  | none =>
    have hall := List.find?_eq_none.mp hfind s hlisted
    simpa using hall
  | some s' =>
    have hnew : s' ∉ t.tried := by simpa using List.find?_some hfind
    rw [hfind] at hs
    exact absurd hs hnew

/-- **A demoted server is asked for the first time only when all others were.** -/
theorem Chooses.of_demoted (h : Chooses e id t now server) (hs : server ∉ t.tried)
    (hd : e.isDemoted server t.scopeId now = true) :
    ∀ s ∈ e.configuredServers t.scopeId, e.isDemoted s t.scopeId now = false → s ∈ t.tried := by
  obtain ⟨first, rest, hservers, rfl⟩ := h.picked
  intro s hmem hhealthy
  by_contra hnot
  -- the first server that was not asked is then among the healthy ones
  have hfirst : ((e.configuredServers t.scopeId).filter fun s => !e.isDemoted s t.scopeId now).find?
      (fun s => !t.tried.contains s) ≠ none := by
    rw [Ne, List.find?_eq_none]
    intro hall
    have := hall s (mem_filter.mpr ⟨hmem, by rw [hhealthy]; rfl⟩)
    simp [hnot] at this
  obtain ⟨s', hs'⟩ := Option.ne_none_iff_exists'.mp hfirst
  have hpick : pickServer t.tried (first :: rest) first = s' := by
    rw [pickServer, ← hservers, serversOf_eq, List.find?_append, hs']
    rfl
  have hmem' := mem_of_find?_eq_some hs'
  rw [mem_filter, ← hpick, hd] at hmem'
  cases hmem'.2

end Choice

/-! ### Who was asked -/

/-- The step sends a query of the task to the server, with a question for the candidate. -/
def AskedIn (st : Step Engine Op) (id : TaskId) (c : Name) (s : IpAddr) : Prop :=
  ∃ tx interface tcp payload x, .send tx s interface tcp payload ∈ actions st ∧
    (after st).txs.get tx = some x ∧
    x.task = id ∧ x.question.name.eq c = true

/-- The server was asked for the candidate of the task. -/
def Asked (log : EngineLog) (id : TaskId) (c : Name) (s : IpAddr) : Prop :=
  ∃ st ∈ log, AskedIn st id c s

/-- In the middle of an operation: by a step before it, or by a transaction it has begun. -/
def AskedMid (log : EngineLog) (st : Step Engine Op) (m : Mid) (id : TaskId) (c : Name)
    (s : IpAddr) : Prop :=
  Asked log id c s ∨ ∃ tx x, m.engine.txs.get tx = some x ∧ st.before.nextId ≤ tx ∧ x.task = id ∧
    x.server = s ∧
    x.question.name.eq c = true

/-- The list of the task is right, `asked` being who was asked. -/
structure Task.Told (asked : Name → IpAddr → Prop) (t : Task) : Prop where
  tried : ∀ s, s ∈ t.tried ↔ asked t.candidate s
  fresh : t.current = none → ∀ c s, ¬ asked c s
  /-- the candidates behind the current one were not asked for yet -/
  ahead : ∀ c ∈ t.candidates, ∀ s, ¬ asked c s
  distinct : (t.current.toList ++ t.candidates).Pairwise fun a b => a.eq b = false

/-- The lists of the tasks are right. -/
structure Noted (asked : TaskId → Name → IpAddr → Prop) (e : Engine) : Prop where
  told : ∀ id t, e.tasks.get id = some t → t.Told (asked id)
  known : ∀ id c s, asked id c s → id < e.nextId
  server : ∀ tx x t, e.txs.get tx = some x → e.tasks.get x.task = some t → x.server ∈ t.tried

theorem Noted.reorder (h : Noted asked e) (hr : Reorder e e') : Noted asked e' := by
  have htasks := hr.tasks.get_eq
  have htxs := hr.txs.get_eq
  refine ⟨fun id t ht => h.told id t (htasks id ▸ ht), fun id c s ha => ?_, fun tx x t hx ht => ?_⟩
  · rw [hr.nextId]
    exact h.known id c s ha
  · exact h.server tx x t (htxs tx ▸ hx) (htasks x.task ▸ ht)

/-! ### Along an operation -/

section Along

variable {asked : TaskId → Name → IpAddr → Prop} {st : Step Engine Op} {m m' : Mid}
    {log : EngineLog} {t : Task}

theorem Task.Fresh.told (h : t.Fresh) (htried : t.tried = []) {asked : Name → IpAddr → Prop}
    (hnone : ∀ c s, ¬ asked c s) : t.Told asked := by
  refine ⟨fun s => ?_, fun _ => hnone, ?_, ?_⟩
  · simp [htried, hnone]
  · simp [h.candidates]
  · simp [h.current, h.candidates]

theorem Task.Told.tweaked (h : Noted asked m.engine) {id : TaskId} {t' : Task}
    (hm : Tweaked st m id t')
    (hkeep : ∀ t, m.engine.tasks.get id = some t → t'.candidates = t.candidates →
      t'.tried = t.tried) : t'.Told (asked id) := by
  cases hm with
  | kept ht => exact h.told id t' ht
  | @marked t ht hop hst =>
    have ht' := h.told id t ht
    have hc : t'.candidate = t.candidate := by simp only [Task.candidate, hst.current, hst.original]
    refine ⟨fun s => ?_, ?_, ?_, ?_⟩
    · rw [hkeep t ht hst.candidates, hc]
      exact ht'.tried s
    · rw [hst.current]
      exact ht'.fresh
    · rw [hst.candidates]
      exact ht'.ahead
    · rw [hst.current, hst.candidates]
      exact ht'.distinct
  | @expanded t hop hid ht hnew hnone hne heq =>
    subst heq
    have ht' := h.told id t ht
    refine ⟨ht'.tried, ht'.fresh, fun c _ => ht'.fresh hnew c, ?_⟩
    rw [hnew]
    exact candidates_distinct m.engine t.original
  | @chosen t c rest s hop hid ht hc hroute hwhy heq =>
    subst heq
    have ht' := h.told id t ht
    have hahead : ∀ c' ∈ c :: rest, ∀ s, ¬ asked id c' s := hc ▸ ht'.ahead
    refine ⟨fun s => ?_, fun hnone => (by cases hnone), fun c' hc' =>
      hahead c' (mem_cons_of_mem _ hc'), ?_⟩
    · simpa [Task.choose, Task.candidate] using hahead c mem_cons_self s
    · have hd := ht'.distinct
      rw [hc] at hd
      exact (pairwise_append.mp hd).2.1
  | @refunded t t₀ tx x M hM hid ht heq =>
    subst heq
    obtain ⟨h1, h2, h3, h4⟩ := h.told id t ht
    exact ⟨h1, h2, h3, h4⟩
  | @noted t server hid ht heq =>
    subst heq
    have hsame := hkeep t ht rfl
    simp at hsame

theorem Noted.tweak (hs : Sound st m) (h : Noted asked m.engine) (hm : Tweak st m m')
    (hkeep : ∀ id t t', m.engine.tasks.get id = some t → m'.engine.tasks.get id = some t' →
      t'.candidates = t.candidates → t'.tried = t.tried) : Noted asked m'.engine := by
  have hq := hm.quiet
  refine ⟨fun id t' ht' => .tweaked h (hm.task_cases ht') fun t ht => hkeep id t t' ht ht', ?_, ?_⟩
  · rw [hq.nextId]
    exact h.known
  · intro tx x t' hx ht'
    rw [hq.txs] at hx
    obtain ⟨hnot, -⟩ := hs.linked.tx_task tx x hx
    obtain ⟨t, ht, -, hstill⟩ := hq.task_old ht'
    rw [hkeep _ t t' ht ht' (hstill hnot).candidates]
    exact h.server tx x t hx ht

theorem not_launched {id : TaskId} {server : IpAddr} {tcp : Bool} {random}
    (hkeep : m'.acts.filterMap Action.sent = m.acts.filterMap Action.sent)
    (hacts : m'.acts = m.acts ++ (m.engine.launch id t server tcp random st.input.now).2) :
    False := by
  rw [hacts, filterMap_append] at hkeep
  simp [launch, Action.sent] at hkeep

section

variable (hs : Sound st m) (hm : Shift st m m')
  (hkeep : m'.acts.filterMap Action.sent = m.acts.filterMap Action.sent)
include hs hm hkeep

/-- An operation ends only transactions that were there before it, unless it sends. -/
theorem Shift.new_txs {tx : Txid} (hge : st.before.nextId ≤ tx) :
    m'.engine.txs.get tx = m.engine.txs.get tx := by
  have hold : ∀ {tx' : Txid} {acts : List Action}, Closes st tx' acts → tx ≠ tx' := by
    intro tx' acts hc
    obtain ⟨x, hx⟩ := hc.live
    exact ne_of_gt ((hs.start.tx_lt tx' x hx).trans_le hge)
  cases hm with
  | refuse h hb => rfl
  | start h hb => rfl
  | startAll h hb =>
    dsimp only
    rw [openLookup_eq]
  | @abandon qid h hm =>
    subst hm
    have hnone : st.before.txs.get tx = none := hs.start.tx_fresh hge
    obtain ⟨-, hgone, hkept, -⟩ := abandon_spec st.before qid
    by_cases hc : .cancel tx ∈ (st.before.abandon qid).2
    · exact (hgone tx hc).trans hnone.symm
    · exact hkept tx hc
  | close hx ht h => simp only [closeTx_txs, if_neg (hold h)]
  | orphan hx ht h => simp only [Table.get_remove, if_neg (hold h)]
  | stray h hx hold => rfl
  | launch random hid ht htx hcur hbudget hroom h => exact (not_launched hkeep rfl).elim
  | settle hid ht htx h =>
    rw [Mid.finish, settle_eq ht htx]

theorem AskedMid.shift : AskedMid log st m' = AskedMid log st m := by
  funext id c s
  refine propext (or_congr Iff.rfl (exists_congr fun tx => exists_congr fun x => ?_))
  constructor
  · rintro ⟨hx, hge, hrest⟩
    exact ⟨hm.new_txs hs hkeep hge ▸ hx, hge, hrest⟩
  · rintro ⟨hx, hge, hrest⟩
    exact ⟨(hm.new_txs hs hkeep hge).trans hx, hge, hrest⟩

end

theorem Begun.tried (h : Begun st t) : t.tried = [] := by
  cases h <;> rfl

theorem Noted.shift (hs : Sound st m) (h : Noted asked m.engine) (hm : Shift st m m')
    (hkeep : m'.acts.filterMap Action.sent = m.acts.filterMap Action.sent) :
    Noted asked m'.engine := by
  have hnext : m.engine.nextId ≤ m'.engine.nextId := (Move.shift hm).nextId_le
  refine ⟨fun id t' ht' => ?_, fun id c s ha => (h.known id c s ha).trans_le hnext,
    fun tx x t' hx ht' => ?_⟩
  · cases hm.task_cases hs.linked ht' with
    | kept ht hl => exact h.told id t' ht
    | begun hb hid hl =>
      exact hb.fresh.told hb.tried fun c s ha => absurd (h.known id c s ha) (not_lt.mpr hid)
    | closed hx hid ht htx hc heq hl =>
      subst heq
      obtain ⟨h1, h2, h3, h4⟩ := h.told id _ ht
      exact ⟨h1, h2, h3, h4⟩
    | launched hid ht hcur hbudget htarget heq hx hacts hl => exact (not_launched hkeep hacts).elim
  · rcases hm.tx_cases hs.linked hx ht' with ⟨hx, ht⟩ | ⟨t₀, random, hl⟩
    · exact h.server tx x t' hx ht
    · exact (not_launched hkeep hl.acts).elim

end Along

/-! ### An attempt -/

/-- The task is over, and no transaction came or went. -/
structure Over (e : Engine) (id : TaskId) (e' : Engine) : Prop where
  task : e'.tasks.get id = none
  txs : e'.txs = e.txs
  nextId : e'.nextId = e.nextId

/-- What becomes of a loose task that is to ask a server: it is settled, or it has a transaction
with this server. -/
inductive Goes (e : Engine) (id : TaskId) (t : Task) (server : IpAddr) (tcp : Bool) (e' : Engine) :
    Prop
  | ended (h : Over e id e')
  | asks {x : Tx}
      (htask : e'.tasks.get id = some { t with attempt := t.attempt + 1, tx := some e.nextId })
      (htxs : e'.txs = e.txs.insert e.nextId x) (hnext : e'.nextId = e.nextId + 1)
      (hid : x.task = id) (hserver : x.server = server) (htcp : x.tcp = tcp)
      (hname : x.question.name.eq t.candidate = true)

section Attempt

variable {e : Engine} {id : TaskId} {t : Task}

theorem over_settle (e e₁ : Engine) (ht : e₁.tasks.get id = some t) (htx : t.tx = none)
    (htxs : e₁.txs = e.txs) (hnext : e₁.nextId = e.nextId) (a : Answer) :
    Over e id (e₁.settle id a).1 := by
  rw [settle_eq ht htx]
  exact ⟨by rw [Table.get_remove, if_pos rfl], htxs, hnext⟩

theorem send_goes (ht : e.tasks.get id = some t) (htx : t.tx = none) (server : IpAddr) (tcp : Bool)
    (now : Instant) : Goes e id t server tcp (e.send id server tcp now).1 := by
  unfold send
  simp only [ht]
  split
  · exact .ended (over_settle e e ht htx rfl rfl _)
  · split
    · exact .ended (over_settle e (e.count _) ht htx rfl rfl _)
    · split
      · exact .ended (over_settle e ({ e with draws := e.draws + 1 }.count _) ht htx rfl rfl _)
      · exact .asks (launch_tasks_self _ _ _ _ (e := { e with draws := e.draws + 1 }) ht) rfl rfl
          rfl rfl rfl
          (Name.randomiseCase_eq _ _)

/-- `next_attempt` settles the task, or asks the server it chooses. -/
theorem nextAttempt_goes (ht : e.tasks.get id = some t) (htx : t.tx = none) (now : Instant) :
    Over e id (e.nextAttempt id now).1 ∨
      ∃ server, Chooses e id t now server ∧
        Goes e id { t with tried := t.tried ++ [server] } server false
          (e.nextAttempt id now).1 := by
  cases hservers : e.serversOf t.scopeId now with
  | nil =>
    left
    simp only [nextAttempt, ht, hservers]
    split <;> exact over_settle e e ht htx rfl rfl _
  | cons first rest =>
    by_cases hbudget : maxAttempts ≤ t.attempt
    · left
      simp only [nextAttempt, ht, ge_iff_le, if_pos hbudget]
      exact over_settle e e ht htx rfl rfl _
    · right
      have hchoose : Chooses e id t now (pickServer t.tried (first :: rest) first) :=
        ⟨ht, not_le.mp hbudget, first, rest, hservers, rfl⟩
      refine ⟨_, hchoose, ?_⟩
      rw [hchoose.nextAttempt_eq]
      generalize pickServer t.tried (first :: rest) first = server
      have hget := get_updateTask_self ht fun t => { t with tried := t.tried ++ [server] }
      cases send_goes hget htx server false now with
      | ended h => exact .ended ⟨h.task, h.txs, h.nextId⟩
      | asks htask htxs hnext hid hserver htcp hname =>
        exact .asks htask htxs hnext hid hserver htcp hname

end Attempt

/-- **A server that is asked is noted.** -/
theorem Noted.asks (h : Noted asked e) {id : TaskId} {t : Task} {tried : List IpAddr} {x : Tx}
    (ht : e.tasks.get id = some t) (hlt : id < e.nextId) (hcur : t.current ≠ none)
    (htried : ∀ s, s ∈ tried ↔ s ∈ t.tried ∨ s = x.server)
    (htask : e'.tasks.get id = some { t with tried, attempt := t.attempt + 1, tx := some e.nextId })
    (hne : ∀ i, i ≠ id → e'.tasks.get i = e.tasks.get i) (htxs : e'.txs = e.txs.insert e.nextId x)
    (hnext : e'.nextId = e.nextId + 1) (hid : x.task = id)
    (hname : x.question.name.eq t.candidate = true)
    (hloose : ∀ tx y, e.txs.get tx = some y → y.task ≠ id) :
    Noted (fun i c s => asked i c s ∨ i = id ∧ s = x.server ∧ x.question.name.eq c = true) e' := by
  have hold := h.told id t ht
  refine ⟨fun i t' ht' => ?_, fun i c s ha => ?_, fun tx y t' hy ht' => ?_⟩
  · by_cases hi : i = id
    · subst hi
      obtain rfl := Option.mem_unique htask ht'
      refine ⟨fun s => ?_, fun hnone => absurd hnone hcur, fun c hc s ha => ?_, hold.distinct⟩
      · rw [htried, hold.tried]
        exact or_congr Iff.rfl ⟨fun hs => ⟨rfl, hs, hname⟩, fun hs => hs.2.1⟩
      · rcases ha with ha | ⟨-, -, hc'⟩
        · exact hold.ahead c hc s ha
        · -- the question would be for two candidates
          obtain ⟨c₀, hc₀⟩ := Option.ne_none_iff_exists'.mp hcur
          have hd := hold.distinct
          rw [hc₀] at hd
          have hdiff := (pairwise_cons.mp hd).1 c hc
          rw [Task.candidate, hc₀, Option.getD_some] at hname
          rw [Name.eq_trans (Name.eq_symm hname) hc'] at hdiff
          cases hdiff
    · have hsame : (fun c s => asked i c s ∨ i = id ∧ s = x.server ∧ x.question.name.eq c = true) =
          asked i := by
        funext c s
        simp [hi]
      show t'.Told fun c s => asked i c s ∨ i = id ∧ s = x.server ∧ x.question.name.eq c = true
      rw [hsame]
      exact h.told i t' (hne i hi ▸ ht')
  · rw [hnext]
    rcases ha with ha | ⟨rfl, -⟩
    · exact Nat.lt_succ_of_lt (h.known i c s ha)
    · exact Nat.lt_succ_of_lt hlt
  · rw [htxs, Table.get_insert] at hy
    split at hy
    · obtain rfl := Option.some.inj hy
      rw [hid, htask] at ht'
      obtain rfl := Option.some.inj ht'
      exact (htried _).mpr (.inr rfl)
    · rw [hne _ (hloose tx y hy)] at ht'
      exact h.server tx y t' hy ht'

theorem Noted.ended (h : Noted asked e) {id : TaskId} (hover : Over e id e')
    (hne : ∀ i, i ≠ id → e'.tasks.get i = e.tasks.get i) : Noted asked e' := by
  have hold : ∀ {i t}, e'.tasks.get i = some t → e.tasks.get i = some t := by
    intro i t ht
    by_cases hi : i = id
    · rw [hi, hover.task] at ht
      cases ht
    · exact hne i hi ▸ ht
  refine ⟨fun i t ht => h.told i t (hold ht), ?_, fun tx x t hx ht =>
    h.server tx x t (hover.txs ▸ hx) (hold ht)⟩
  rw [hover.nextId]
  exact h.known

/-! ### Legs -/

/-- The query was chosen by `next_attempt` at some moment of the operation. -/
def PickedIn (st : Step Engine Op) (x : Tx) : Prop :=
  ∃ m t, Legs st (.first st) m ∧ x.task ∈ m.loose ∧
    Chooses m.engine x.task t st.input.now x.server ∧
    x.question.name.eq t.candidate = true

/-- What is known about attempts in the middle of an operation. -/
structure Attempting (log : EngineLog) (st : Step Engine Op) (m : Mid) : Prop where
  noted : Noted (AskedMid log st m) m.engine
  chosen : ∀ tx x, m.engine.txs.get tx = some x → st.before.nextId ≤ tx → x.tcp = false →
    PickedIn st x

section Legs

variable {st : Step Engine Op} {m : Mid} {log : EngineLog} {id : TaskId} {t : Task}
    {r : Engine × List Action}

theorem askedMid_of_txs {m' : Mid} (h : m'.engine.txs = m.engine.txs) :
    AskedMid log st m' = AskedMid log st m := by
  funext id c s
  rw [AskedMid, AskedMid, h]

theorem Attempting.ended (h : Attempting log st m) (hover : Over m.engine id r.1)
    (hne : ∀ i, i ≠ id → r.1.tasks.get i = m.engine.tasks.get i) :
    Attempting log st (m.finish id r) := by
  refine ⟨?_, fun tx x hx => h.chosen tx x (hover.txs ▸ hx)⟩
  rw [askedMid_of_txs (m := m) hover.txs]
  exact h.noted.ended hover hne

theorem Attempting.goes (hs : Sound st m) (h : Attempting log st m) (hid : id ∈ m.loose)
    (ht : m.engine.tasks.get id = some t) (hcur : t.current ≠ none) (tried : List IpAddr)
    {server : IpAddr} {tcp : Bool} (htried : ∀ s, s ∈ tried ↔ s ∈ t.tried ∨ s = server)
    (hgoes : Goes m.engine id { t with tried } server tcp r.1)
    (hchosen : ∀ x : Tx, x.task = id → x.server = server → x.question.name.eq t.candidate = true →
      tcp = false →
      PickedIn st x) (hne : ∀ i, i ≠ id → r.1.tasks.get i = m.engine.tasks.get i) :
    Attempting log st (m.finish id r) := by
  cases hgoes with
  | ended hover => exact h.ended hover hne
  | @asks x htask htxs hnext hx hserver htcp hname =>
    subst hserver
    have hname' : x.question.name.eq t.candidate = true := hname
    have hfresh : m.engine.txs.get m.engine.nextId = none := hs.linked.tx_fresh (le_refl _)
    have hasked : AskedMid log st (m.finish id r) = fun i c s =>
        AskedMid log st m i c s ∨ i = id ∧ s = x.server ∧ x.question.name.eq c = true := by
      funext i c s
      refine propext ⟨?_, ?_⟩
      · rintro (ha | ⟨tx, y, hy, hge, rfl, rfl, hc⟩)
        · exact .inl (.inl ha)
        · simp only [Mid.finish, htxs, Table.get_insert] at hy
          split at hy
          · obtain rfl := Option.some.inj hy
            exact .inr ⟨hx, rfl, hc⟩
          · exact .inl (.inr ⟨tx, y, hy, hge, rfl, rfl, hc⟩)
      · rintro ((ha | ⟨tx, y, hy, hge, hrest⟩) | ⟨rfl, rfl, hc⟩)
        · exact .inl ha
        · refine .inr ⟨tx, y, ?_, hge, hrest⟩
          have hdiff : tx ≠ m.engine.nextId := fun heq => by rw [heq, hfresh] at hy; cases hy
          simp only [Mid.finish, htxs, Table.get_insert, if_neg hdiff, hy]
        · refine .inr ⟨m.engine.nextId, x, ?_, hs.traffic.nextId_le, hx, rfl, hc⟩
          simp only [Mid.finish, htxs, Table.get_insert, if_true]
    refine ⟨?_, fun tx y hy hge hudp => ?_⟩
    · rw [hasked]
      have hloose : ∀ tx y, m.engine.txs.get tx = some y → y.task ≠ id :=
        fun tx y hy heq => (hs.linked.tx_task tx y hy).1 (heq ▸ hid)
      exact h.noted.asks ht (hs.linked.task_lt id t ht) hcur htried htask hne htxs hnext hx
        hname' hloose
    · simp only [Mid.finish, htxs, Table.get_insert] at hy
      split at hy
      · obtain rfl := Option.some.inj hy
        exact hchosen x hx rfl hname' (htcp ▸ hudp)
      · exact h.chosen tx y hy hge hudp

/-- **One leg.** -/
theorem Attempting.leg {m' : Mid} (hs : Sound st m) (h : Attempting log st m)
    (hlegs : Legs st (.first st) m) (hbefore : Noted (Asked log) st.before)
    (hall : st.input.asks = none → ∀ id t, m.engine.tasks.get id = some t → t.current ≠ none)
    (hleg : Leg st m m') : Attempting log st m' := by
  cases hleg with
  | tweak hm hkeep =>
    have htxs := hm.quiet.txs
    refine ⟨?_, fun tx x hx => h.chosen tx x (htxs ▸ hx)⟩
    rw [askedMid_of_txs htxs]
    exact h.noted.tweak hs hm hkeep
  | shift hm hkeep =>
    refine ⟨?_, fun tx x hx hge => h.chosen tx x (hm.new_txs hs hkeep hge ▸ hx) hge⟩
    rw [AskedMid.shift hs hm hkeep]
    exact h.noted.shift hs hm hkeep
  | @attempt id t hid ht htx hcur =>
    have hcur' : t.current ≠ none := hcur.elim (fun hne => hne) fun hop => hall hop id t ht
    have hne : ∀ i, i ≠ id → (m.engine.nextAttempt id st.input.now).1.tasks.get i =
        m.engine.tasks.get i :=
      fun i hi => nextAttempt_tasks_ne hi _
    rcases nextAttempt_goes ht htx st.input.now with hover | ⟨server, hchooses, hgoes⟩
    · exact h.ended hover hne
    · refine h.goes hs hid ht hcur' _ (fun s => ?_) hgoes (fun x hx hserver hname _ => ?_) hne
      · rw [mem_append, mem_singleton]
      · subst hx hserver
        exact ⟨m, t, hlegs, hid, hchooses, hname⟩
  | @resend id t server hid ht htx hasks htarget =>
    have hne : ∀ i, i ≠ id → (m.engine.send id server true st.input.now).1.tasks.get i =
        m.engine.tasks.get i :=
      fun i hi => send_tasks_ne hi _ _ _
    have hgoes := send_goes ht htx server true st.input.now
    refine h.goes hs hid ht (hall hasks id t ht) t.tried (fun s => ?_) hgoes
      (fun x _ _ _ hudp => by cases hudp) hne
    -- the server is the one whose reply was truncated, and noted
    cases htarget with
    | @retry tx x t₀ M hreply hx htrunc heq hserver =>
      subst heq hserver
      exact ⟨.inl, fun hs => hs.elim (fun hmem => hmem) fun heq =>
        heq ▸ hbefore.server tx x t₀ hreply.live hreply.task⟩

end Legs

/-! ### Runs -/

section Runs

variable {entropy : Entropy} {log : EngineLog} {st : Step Engine Op} {e : Engine}

theorem Noted.attempting (h : Noted (Asked log) st.before) (hr : Reached entropy log st.before)
    {m : Mid} (hlegs : Legs st (.first st) m) : Attempting log st m := by
  induction hlegs with
  | refl =>
    have hnone : ∀ tx x, st.before.txs.get tx = some x → ¬ st.before.nextId ≤ tx :=
      fun tx x hx => not_le.mpr (hr.linked.tx_lt tx x hx)
    have hasked : AskedMid log st (.first st) = Asked log := by
      funext id c s
      refine propext ⟨?_, .inl⟩
      rintro (ha | ⟨tx, x, hx, hge, -⟩)
      · exact ha
      · exact absurd hge (hnone tx x hx)
    exact ⟨hasked.symm ▸ h, fun tx x hx hge => absurd hge (hnone tx x hx)⟩
  | @tail m m' hp hleg ih =>
    obtain ⟨e₁, h₁, -⟩ := hr.after
    have hmid := ((asking entropy).mid h₁ trivial (nil_append _).symm (Legs.path hp)).2
    exact ih.leg (Path.sound hr.linked (Legs.path hp)) hp h hmid.all hleg

/-- The transactions a step has begun are its queries. -/
theorem askedMid_last (hs : Sound st (.last st)) :
    AskedMid log st (.last st) = Asked (st :: log) := by
  have hin : ∀ id c s, (∃ tx x, (after st).txs.get tx = some x ∧ st.before.nextId ≤ tx ∧
      x.task = id ∧ x.server = s ∧
      x.question.name.eq c = true) ↔ AskedIn st id c s := by
    intro id c s
    constructor
    · rintro ⟨tx, x, hx, hge, hid, rfl, hc⟩
      obtain ⟨-, t, -, hsend⟩ := hs.traffic.new_tx tx x hx hge
      exact ⟨tx, _, _, _, x, hsend, hx, hid, hc⟩
    · rintro ⟨tx, interface, tcp, payload, x, hsend, hx, hid, hc⟩
      obtain ⟨hge, x', t, hx', -, -, hserver, -⟩ := hs.send hsend
      obtain rfl := Option.mem_unique hx hx'
      exact ⟨tx, x, hx, hge, hid, hserver, hc⟩
  funext id c s
  refine propext ((or_congr Iff.rfl (hin id c s)).trans ⟨?_, ?_⟩)
  · rintro (⟨st', hst', ha⟩ | ha)
    · exact ⟨st', mem_cons_of_mem _ hst', ha⟩
    · exact ⟨st, mem_cons_self, ha⟩
  · rintro ⟨st', hst', ha⟩
    rcases mem_cons.mp hst' with rfl | hst'
    · exact .inr ha
    · exact .inl ⟨st', hst', ha⟩

/-- **The servers a task has noted are those that were asked for its candidate.** -/
theorem Runs.noted (h : Runs entropy log e) : Noted (Asked log) e := by
  refine Runs.step_invariant (I := fun log e => Noted (Asked log) e) ?_ (fun log e e' hI hr =>
    hI.reorder hr) ?_ h
  · refine ⟨fun id t ht => ?_, fun id c s ha => ?_, fun tx x t hx => ?_⟩
    · simp [withEntropy] at ht
    · obtain ⟨st, hst, -⟩ := ha
      cases hst
    · simp [withEntropy] at hx
  · intro log st hr hs hI
    rw [← askedMid_last hs]
    exact (hI.attempting hr (apply_legs st)).noted

theorem Reached.noted (h : Reached entropy log e) : Noted (Asked log) e := by
  obtain ⟨e₀, h₀, hr⟩ := h
  exact (Runs.noted h₀).reorder hr

/-- **All servers are asked before one is asked again.**  In every run and at every moment of every
step, when `next_attempt` chooses a server for a task, `Asked` telling who was asked for the task's
candidate before: if the server was, so was every server of the scope as it is configured now; if it
was not but is demoted, so was every server that is not demoted.  Every query over UDP is chosen
like this.  The list that is chosen from has the configured servers, those that are not demoted
first, and otherwise in the configured order. -/
theorem Runs.asks_all_first (h : Runs entropy log e) :
    (∀ new st old, log = new ++ st :: old →
      (∀ m id t server, Legs st (.first st) m → id ∈ m.loose →
        Chooses m.engine id t st.input.now server →
        (Asked old id t.candidate server →
          ∀ s ∈ m.engine.configuredServers t.scopeId, Asked old id t.candidate s) ∧
        (¬ Asked old id t.candidate server →
          m.engine.isDemoted server t.scopeId st.input.now = true →
          ∀ s ∈ m.engine.configuredServers t.scopeId,
            m.engine.isDemoted s t.scopeId st.input.now = false →
            Asked old id t.candidate s)) ∧
      ∀ tx server interface payload, .send tx server interface false payload ∈ actions st →
        ∃ x m t, (after st).txs.get tx = some x ∧ Legs st (.first st) m ∧ x.task ∈ m.loose ∧
          Chooses m.engine x.task t st.input.now server ∧ x.question.name.eq t.candidate = true) ∧
    ∀ (e : Engine) (scope : String) (now : Instant),
      (e.serversOf scope now).Perm (e.configuredServers scope) ∧
      e.serversOf scope now =
        ((e.configuredServers scope).filter fun s => !e.isDemoted s scope now) ++
          (e.configuredServers scope).filter fun s => e.isDemoted s scope now := by
  refine ⟨fun new st old hlog =>
    ⟨fun m id t server hlegs hid hchooses => ?_, fun tx server interface payload hsend => ?_⟩,
    fun e scope now => ⟨serversOf_perm e scope now, serversOf_eq e scope now⟩⟩
  · have hr := h.reached hlog
    have hatt := hr.noted.attempting hr hlegs
    have hs := Path.sound hr.linked hlegs.path
    -- a loose task has no transaction, so it was not asked for in this step
    have htried : ∀ s, s ∈ t.tried ↔ Asked old id t.candidate s := by
      intro s
      rw [(hatt.noted.told id t hchooses.task).tried s]
      refine ⟨fun ha => ha.elim (fun ha => ha) ?_, .inl⟩
      rintro ⟨tx, x, hx, -, rfl, -⟩
      exact absurd hid (hs.linked.tx_task tx x hx).1
    simp only [← htried]
    exact ⟨hchooses.of_tried, hchooses.of_demoted⟩
  · have hr := h.reached hlog
    have hatt := hr.noted.attempting hr (apply_legs st)
    obtain ⟨hge, x, -, hx, -, -, rfl, htcp, -⟩ := (Path.sound hr.linked (apply_path st)).send hsend
    obtain ⟨m, t, hchosen⟩ := hatt.chosen tx x hx hge htcp
    exact ⟨x, m, t, hx, hchosen⟩

end Runs

/-- The server of the small run does not answer. -/
def retryOnLan : List Op := askOnLan ++ [.failed 2 (secs 1)]

/-- It is asked again, being the only one. -/
theorem asks_all_first_retryOnLan :
    ∃ (st : Step Engine Op) (old : EngineLog) (m : Mid) (id : TaskId) (t : Task),
    (ran zeros retryOnLan).1 = st :: old ∧ id ∈ m.loose ∧
      Chooses m.engine id t st.input.now lanServer ∧
      Asked old id t.candidate lanServer ∧
        ∀ s ∈ m.engine.configuredServers t.scopeId, Asked old id t.candidate s := by
  obtain ⟨hsteps, -⟩ := Runs.asks_all_first (runs_ran zeros retryOnLan)
  obtain ⟨hall, hchosen⟩ := hsteps [] ⟨(ran zeros askOnLan).2, .failed 2 (secs 1)⟩
    (ran zeros askOnLan).1 rfl
  have hsend : .send 3 lanServer (some "eth0") false
      (queryPayload 0 (Question.new peiosExample Rtype.a)) ∈
      actions ⟨(ran zeros askOnLan).2, .failed 2 (secs 1)⟩ := by decide +kernel
  obtain ⟨x, m, t, hx, hlegs, hloose, hchooses, hname⟩ := hchosen 3 lanServer _ _ hsend
  have hx' : ((after ⟨(ran zeros askOnLan).2, .failed 2 (secs 1)⟩).txs.get 3).map
      (fun x => (x.task, x.question.name)) =
      some (1, peiosExample) := by decide +kernel
  rw [hx, Option.map_some] at hx'
  obtain ⟨htask, hquestion⟩ := Prod.mk.inj (Option.some.inj hx')
  have hasked : Asked (ran zeros askOnLan).1 x.task t.candidate lanServer := by
    have hfirst : .send 2 lanServer (some "eth0") false
        (queryPayload 0 (Question.new peiosExample Rtype.a)) ∈
        actions ⟨(withEntropy zeros).setScopes [lan],
          .resolve 7 (ascii "peios.example") Rtype.a false 1000⟩ := by
      decide +kernel
    have hy : ((ran zeros askOnLan).2.txs.get 2).map (fun x => (x.task, x.question.name)) =
        some (1, peiosExample) := by
      decide +kernel
    obtain ⟨y, hy₁, hy₂⟩ := Option.map_eq_some_iff.mp hy
    obtain ⟨hytask, hyname⟩ := Prod.mk.inj hy₂
    refine ⟨_, mem_cons_self, 2, _, _, _, y, hfirst, hy₁, hytask.trans htask.symm, ?_⟩
    rw [hyname, ← hquestion]
    exact hname
  exact ⟨_, _, m, x.task, t, rfl, hloose, hchooses, hasked,
    (hall m x.task t lanServer hlegs hloose hchooses).1 hasked⟩

end Resolvd.Engine
