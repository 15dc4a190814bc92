import Resolvd.Engine.Links

/-!
# The books of an operation

Along an operation the books are kept against the state it began in: the configuration stays, unless
it is all that changes (`Steady`); and it is known which transactions are new, which have gone, and
what was emitted for them (`Traffic`).  `Path.sound` says that they are in order at every moment.
-/

namespace Resolvd.Engine

open Lib Dns List

variable {st : Step Engine Op} {m m' : Mid} {tx : Txid}

/-! ### The configuration along an operation -/

/-- An operation changes the configuration, or it moves tasks. -/
structure Steady (st : Step Engine Op) (m : Mid) : Prop where
  config : st.input.isConfig = true → m.loose = [] ∧ m.acts = []
  settings : st.input.isConfig = false → st.before.SameSettings m.engine

/-- Only a change of the configuration changes the configuration. -/
theorem Move.settings (hm : Move st m m')
    (hop : st.input.isConfig = false) : m.engine.SameSettings m'.engine := by
  cases hm with
  | tweak hm =>
    cases hm with
    | configure h' hm => rw [hop] at h'; cases h'
    | _ => exact ⟨rfl, rfl, rfl, rfl, rfl⟩
  | shift hm =>
    cases hm with
    | startAll h' hb =>
      dsimp only
      rw [openLookup_eq]
      exact ⟨rfl, rfl, rfl, rfl, rfl⟩
    | abandon h' hm =>
      dsimp only
      rw [(abandon_spec _ _).2.2.2.2]
      exact ⟨rfl, rfl, rfl, rfl, rfl⟩
    | settle hid ht htx h' =>
      rw [Mid.finish, settle_eq ht htx]
      exact ⟨rfl, rfl, rfl, rfl, rfl⟩
    | _ => exact ⟨rfl, rfl, rfl, rfl, rfl⟩

theorem Closes.not_config {acts : List Action} (h : Closes st tx acts) :
    st.input.isConfig = false := by
  cases h with
  | received h => rw [h]; rfl
  | failed h => rw [h]; rfl
  | localFailed h => rw [h]; rfl
  | expired h => rw [h]; rfl

theorem Steady.move (h : Steady st m) (hm : Move st m m') : Steady st m' := by
  refine ⟨fun hop => ?_, fun hop => (h.settings hop).trans (hm.settings hop)⟩
  have hno : st.input.isConfig = false → m'.loose = [] ∧ m'.acts = [] :=
    fun h' => by rw [hop] at h'; cases h'
  obtain ⟨hloose, hacts⟩ := h.config hop
  cases hm with
  | tweak hm => exact ⟨hm.quiet.loose.trans hloose, hm.quiet.acts.trans hacts⟩
  | shift hm =>
    cases hm with
    | refuse h' hb => exact hno (Op.not_config_of_asks h'.asks)
    | start h' hb => exact hno (Op.not_config_of_asks h'.asks)
    | startAll h' hb => exact hno (Op.not_config_of_asks h'.asks)
    | abandon h' hm => exact hno (by rw [h']; rfl)
    | close hx ht h' => exact hno h'.not_config
    | orphan hx ht h' => exact hno h'.not_config
    | stray h' hx hold => exact hno (by rw [h']; rfl)
    | launch random hid => rw [hloose] at hid; cases hid
    | settle hid => rw [hloose] at hid; cases hid

/-! ### Transactions along an operation -/

/-- The operation brings the end of the transaction: a reply that matches it, or its failure. -/
def Op.Ends (op : Op) (e : Engine) (tx : Txid) : Prop :=
  match op with
  | .received tx' bytes _ => tx' = tx ∧ e.responseMatches tx bytes = true
  | .failed tx' _ => tx' = tx
  | .localFailed tx' _ => tx' = tx
  | _ => False

theorem Closes.ends {acts : List Action} (h : Closes st tx acts) :
    st.input.Ends st.before tx ∨ .cancel tx ∈ acts := by
  cases h with
  | received h hx hM => exact .inl (by simp [h, Op.Ends, responseMatches, hM])
  | failed h hx => exact .inl (by simp [h, Op.Ends])
  | localFailed h hx => exact .inl (by simp [h, Op.Ends])
  | expired h hx hd => exact .inr (by simp)

theorem Closes.live {acts : List Action} (h : Closes st tx acts) :
    ∃ x, st.before.txs.get tx = some x := by
  cases h with
  | received h hx hM => exact ⟨_, hx⟩
  | failed h hx => exact ⟨_, hx⟩
  | localFailed h hx => exact ⟨_, hx⟩
  | expired h hx hd => exact ⟨_, hx⟩

theorem Closes.acts {acts : List Action} (h : Closes st tx acts) :
    acts = [] ∨ acts = [.cancel tx] := by
  cases h <;> simp

theorem Op.Ends.closes {x : Tx} (h : st.input.Ends st.before tx)
    (hx : st.before.txs.get tx = some x) : ∃ acts, Closes st tx acts := by
  unfold Op.Ends at h
  split at h
  · next tx' bytes now hop =>
    obtain ⟨rfl, hmatch⟩ := h
    obtain ⟨M, hM⟩ := Option.isSome_iff_exists.mp hmatch
    exact ⟨_, .received hop hx hM⟩
  · next tx' now hop =>
    subst h
    exact ⟨_, .failed hop hx⟩
  · next tx' now hop =>
    subst h
    exact ⟨_, .localFailed hop hx⟩
  · exact h.elim

/-- The books of an operation, against the state it began in. -/
structure Traffic (st : Step Engine Op) (e : Engine) (acts : List Action) : Prop where
  nextId_le : st.before.nextId ≤ e.nextId
  /-- an old task asks what it asked -/
  old_task : ∀ id t, e.tasks.get id = some t → id < st.before.nextId →
    ∃ t₀, st.before.tasks.get id = some t₀ ∧ t₀.Kin t
  /-- an old transaction is what it was, and its task stands still -/
  old_tx : ∀ tx x, e.txs.get tx = some x → tx < st.before.nextId →
    st.before.txs.get tx = some x ∧
      ∃ t₀ t, st.before.tasks.get x.task = some t₀ ∧ e.tasks.get x.task = some t ∧ t₀.Still t
  /-- a new transaction was sent now, on the interface of its task's scope -/
  new_tx : ∀ tx x, e.txs.get tx = some x → st.before.nextId ≤ tx →
    x.deadline = st.input.now + serverTimeout ∧ ∃ t, e.tasks.get x.task = some t ∧
      .send tx x.server (t.scope.bind st.before.interfaceOf) x.tcp
        (queryPayload x.dnsId x.question) ∈ acts
  /-- what was sent is a new transaction -/
  sent : ∀ tx ∈ acts.filterMap Action.sent, st.before.nextId ≤ tx ∧ ∃ x, e.txs.get tx = some x
  sent_once : (acts.filterMap Action.sent).Nodup
  /-- a transaction that has gone was ended or cancelled -/
  gone : ∀ tx x, st.before.txs.get tx = some x → e.txs.get tx = none →
    st.input.Ends st.before tx ∨ .cancel tx ∈ acts
  /-- a transaction that was cancelled has gone -/
  cancelled : ∀ tx, .cancel tx ∈ acts → (∃ x, st.before.txs.get tx = some x) ∧ e.txs.get tx = none

section Traffic

variable {st : Step Engine Op} {e e' : Engine} {acts : List Action} {loose : List TaskId}
    {tx : Txid}

theorem traffic_first (h : Linked [] st.before) : Traffic st st.before [] := by
  constructor
  case nextId_le => exact le_refl _
  case old_task => exact fun id t ht _ => ⟨t, ht, .refl t⟩
  case old_tx =>
    intro tx x hx _
    obtain ⟨-, t, ht, -⟩ := h.tx_task tx x hx
    exact ⟨hx, t, t, ht, ht, .refl t⟩
  case new_tx => exact fun tx x hx hge => absurd (h.tx_lt tx x hx) (not_lt.mpr hge)
  case gone =>
    intro tx x hx hnone
    rw [hx] at hnone
    cases hnone
  all_goals simp

theorem Traffic.append (h : Traffic st e acts) {more : List Action}
    (hs : more.filterMap Action.sent = []) (hc : ∀ tx, .cancel tx ∉ more) :
    Traffic st e (acts ++ more) := by
  obtain ⟨h1, h2, h3, h4, h5, h6, h7, h8⟩ := h
  constructor
  case sent => simpa only [filterMap_append, hs, append_nil] using h5
  case sent_once => simpa only [filterMap_append, hs, append_nil] using h6
  all_goals grind

theorem Traffic.tasks (h : Traffic st e acts) (hl : Linked loose e) (hnext : e.nextId ≤ e'.nextId)
    (htxs : e'.txs = e.txs) (hold : ∀ id t', e'.tasks.get id = some t' → id < e.nextId →
      ∃ t, e.tasks.get id = some t ∧ t.Kin t')
    (hstill : ∀ id t, e.tasks.get id = some t → id ∉ loose → ∃ t', e'.tasks.get id = some t' ∧
      t.Still t') : Traffic st e' acts := by
  obtain ⟨h1, h2, h3, h4, h5, h6, h7, h8⟩ := h
  constructor
  case nextId_le => exact h1.trans hnext
  case old_task =>
    intro id t' ht' hlt
    obtain ⟨t, ht, hkin⟩ := hold id t' ht' (hlt.trans_le h1)
    obtain ⟨t₀, ht₀, hkin₀⟩ := h2 id t ht hlt
    exact ⟨t₀, ht₀, hkin₀.trans hkin⟩
  case old_tx =>
    intro tx x hx hlt
    rw [htxs] at hx
    obtain ⟨hx₀, t₀, t, ht₀, ht, hst⟩ := h3 tx x hx hlt
    obtain ⟨t', ht', hst'⟩ := hstill _ t ht (hl.tx_task tx x hx).1
    exact ⟨hx₀, t₀, t', ht₀, ht', hst.trans hst'⟩
  case new_tx =>
    intro tx x hx hge
    rw [htxs] at hx
    obtain ⟨hdl, t, ht, hsend⟩ := h4 tx x hx hge
    obtain ⟨t', ht', hst'⟩ := hstill _ t ht (hl.tx_task tx x hx).1
    exact ⟨hdl, t', ht', by rw [hst'.scope]; exact hsend⟩
  case sent_once => exact h6
  all_goals
    rw [htxs]
    assumption

theorem Traffic.abandon (hl : Linked [] st.before) (qid : Qid) :
    Traffic st (st.before.abandon qid).1 (st.before.abandon qid).2 := by
  obtain ⟨a1, a2, a3, a4, a5⟩ := abandon_spec st.before qid
  have hl' := hl.abandon qid
  have hsent : (st.before.abandon qid).2.filterMap Action.sent = [] := by
    simp only [filterMap_eq_nil_iff, a4]
    rintro a ⟨tx, id, t, rfl, -⟩
    rfl
  have htxs : ∀ tx x, (st.before.abandon qid).1.txs.get tx = some x →
      st.before.txs.get tx = some x ∧ .cancel tx ∉ (st.before.abandon qid).2 := by
    intro tx x hx
    have hc : .cancel tx ∉ (st.before.abandon qid).2 := fun hc => by rw [a2 tx hc] at hx; cases hx
    exact ⟨a3 tx hc ▸ hx, hc⟩
  constructor
  case nextId_le => rw [a5]
  case old_task =>
    intro id t ht _
    rw [a1, Option.filter_eq_some_iff] at ht
    exact ⟨t, ht.1, .refl t⟩
  case old_tx =>
    intro tx x hx _
    obtain ⟨-, t, ht, -⟩ := hl'.tx_task tx x hx
    have ht₀ := ht
    rw [a1, Option.filter_eq_some_iff] at ht₀
    exact ⟨(htxs tx x hx).1, t, t, ht₀.1, ht, .refl t⟩
  case new_tx => exact fun tx x hx hge => absurd (hl.tx_lt tx x (htxs tx x hx).1) (not_lt.mpr hge)
  case gone =>
    intro tx x hx hnone
    refine .inr (not_not.mp fun hc => ?_)
    rw [a3 tx hc, hx] at hnone
    cases hnone
  case cancelled =>
    intro tx hc
    refine ⟨?_, a2 tx hc⟩
    obtain ⟨tx', id, t, heq, ht, -, htx⟩ := (a4 _).mp hc
    obtain rfl := Action.cancel.inj heq
    obtain ⟨tx', x, htx', hx, -⟩ := hl.task_tx id t ht (by simp)
    rw [htx] at htx'
    exact ⟨x, Option.some.inj htx' ▸ hx⟩
  all_goals simp [hsent]

theorem Linked.tx_unique (h : Linked loose e) {tx' : Txid} {x x' : Tx} (hx : e.txs.get tx = some x)
    (hx' : e.txs.get tx' = some x') (htask : x'.task = x.task) : tx' = tx := by
  obtain ⟨-, t, ht, htx⟩ := h.tx_task tx x hx
  obtain ⟨-, t', ht', htx'⟩ := h.tx_task tx' x' hx'
  rw [htask, ht] at ht'
  obtain rfl := Option.some.inj ht'
  exact Option.mem_unique htx' htx

section

variable (h : Traffic st e acts)
include h

theorem Traffic.close (h₀ : Linked [] st.before) (hl : Linked loose e) {x : Tx}
    {more : List Action} (hx : e.txs.get tx = some x) (hc : Closes st tx more) :
    Traffic st (e.closeTx tx x) (acts ++ more) := by
  obtain ⟨x₀, hx₀⟩ := hc.live
  have hlt := h₀.tx_lt tx x₀ hx₀
  have hends := hc.ends
  have hmore : more.filterMap Action.sent = [] := by
    rcases hc.acts with rfl | rfl <;> rfl
  have hcancel : ∀ tx', .cancel tx' ∈ more → tx' = tx := by
    intro tx' h'
    rcases hc.acts with rfl | rfl
    · cases h'
    · exact Action.cancel.inj (mem_singleton.mp h')
  have htxs := closeTx_txs e tx x
  have hself : ∀ t, e.tasks.get x.task = some t →
      (e.closeTx tx x).tasks.get x.task = some { t with tx := none } :=
        fun t ht => get_closeTx_self ht
  have hother : ∀ id, id ≠ x.task → (e.closeTx tx x).tasks.get id = e.tasks.get id :=
    fun id hid => closeTx_tasks_ne hid
  -- the tasks of the other transactions are not touched
  have hkeep : ∀ tx' x', (e.closeTx tx x).txs.get tx' = some x' →
      e.txs.get tx' = some x' ∧ (e.closeTx tx x).tasks.get x'.task = e.tasks.get x'.task := by
    intro tx' x' hx'
    rw [htxs] at hx'
    by_cases heq : tx' = tx
    · rw [if_pos heq] at hx'; cases hx'
    · rw [if_neg heq] at hx'
      exact ⟨hx', hother _ fun htask => heq (hl.tx_unique hx hx' htask)⟩
  obtain ⟨h1, h2, h3, h4, h5, h6, h7, h8⟩ := h
  constructor
  case nextId_le => exact h1
  case old_task =>
    intro id t' ht' hlt
    by_cases hid : id = x.task
    · obtain ⟨-, t, ht, -⟩ := hl.tx_task tx x hx
      subst hid
      obtain ⟨t₀, ht₀, hkin⟩ := h2 _ t ht hlt
      rw [hself t ht] at ht'
      obtain rfl := Option.some.inj ht'
      exact ⟨t₀, ht₀, hkin.trans ⟨rfl, rfl, rfl, rfl⟩⟩
    · exact h2 id t' (hother id hid ▸ ht') hlt
  case old_tx =>
    intro tx' x' hx' hlt'
    obtain ⟨hx'', htask⟩ := hkeep tx' x' hx'
    rw [htask]
    exact h3 tx' x' hx'' hlt'
  case new_tx =>
    intro tx' x' hx' hge
    obtain ⟨hx'', htask⟩ := hkeep tx' x' hx'
    obtain ⟨hdl, t, ht, hsend⟩ := h4 tx' x' hx'' hge
    exact ⟨hdl, t, htask.trans ht, mem_append_left _ hsend⟩
  case sent =>
    rw [filterMap_append, hmore, append_nil]
    intro tx' hs
    obtain ⟨hge, x', hx'⟩ := h5 tx' hs
    exact ⟨hge, x', by rw [htxs, if_neg (ne_of_gt (hlt.trans_le hge)), hx']⟩
  case sent_once => rwa [filterMap_append, hmore, append_nil]
  case gone =>
    intro tx' x' hx' hnone
    rw [htxs] at hnone
    grind
  case cancelled =>
    intro tx' h'
    rw [htxs]
    grind

theorem Traffic.stray (hx : e.txs.get tx = none)
    (hold : ∃ x, st.before.txs.get tx = some x) : Traffic st e (acts ++ [.cancel tx]) := by
  obtain ⟨h1, h2, h3, h4, h5, h6, h7, h8⟩ := h
  constructor
  case sent =>
    simpa only [filterMap_append, Action.sent, filterMap_cons, filterMap_nil, append_nil] using h5
  case sent_once =>
    simpa only [filterMap_append, Action.sent, filterMap_cons, filterMap_nil, append_nil] using h6
  all_goals grind

theorem Traffic.launch (h₀ : Linked [] st.before) (hl : Linked loose e)
    (hset : st.before.SameSettings e) {id : TaskId} {t : Task} {server : IpAddr} {tcp : Bool}
    (random) (hid : id ∈ loose) (ht : e.tasks.get id = some t) :
    Traffic st (e.launch id t server tcp random st.input.now).1
      (acts ++ (e.launch id t server tcp random st.input.now).2) := by
  have hfresh := hl.tx_fresh (le_refl _)
  have hself := launch_tasks_self server tcp random st.input.now ht
  have hother : ∀ i, i ≠ id → (e.launch id t server tcp random st.input.now).1.tasks.get i =
      e.tasks.get i :=
    fun i hi => launch_tasks_ne _ _ _ _ hi
  have hnew : (e.launch id t server tcp random st.input.now).1.txs.get e.nextId = _ :=
    launch_txs_self _ _ _ _
  have hold : ∀ tx, tx ≠ e.nextId → (e.launch id t server tcp random st.input.now).1.txs.get tx =
      e.txs.get tx :=
    fun tx hne => launch_txs_ne _ _ _ _ hne
  -- the tasks of the other transactions are not touched
  have hkeep : ∀ tx x, tx ≠ e.nextId →
      (e.launch id t server tcp random st.input.now).1.txs.get tx = some x →
      e.txs.get tx = some x ∧ (e.launch id t server tcp random st.input.now).1.tasks.get x.task =
        e.tasks.get x.task := by
    intro tx x hne hx
    rw [hold tx hne] at hx
    exact ⟨hx, hother _ fun htask => (hl.tx_task tx x hx).1 (htask ▸ hid)⟩
  obtain ⟨h1, h2, h3, h4, h5, h6, h7, h8⟩ := h
  constructor
  case nextId_le => exact h1.trans (Nat.le_succ _)
  case old_task =>
    intro i t' ht' hlt
    by_cases hi : i = id
    · subst hi
      obtain ⟨t₀, ht₀, hkin⟩ := h2 _ t ht hlt
      rw [hself] at ht'
      obtain rfl := Option.some.inj ht'
      exact ⟨t₀, ht₀, hkin.trans ⟨rfl, rfl, rfl, rfl⟩⟩
    · exact h2 i t' (hother i hi ▸ ht') hlt
  case old_tx =>
    intro tx x hx hlt
    obtain ⟨hx', htask⟩ := hkeep tx x (ne_of_lt (hlt.trans_le h1)) hx
    rw [htask]
    exact h3 tx x hx' hlt
  case new_tx =>
    intro tx x hx hge
    by_cases hne : tx = e.nextId
    · subst hne
      rw [hnew] at hx
      obtain rfl := Option.some.inj hx
      refine ⟨rfl, _, hself, mem_append_right _ ?_⟩
      rw [← hset.interfaceOf_eq]
      exact mem_singleton.mpr rfl
    · obtain ⟨hx', htask⟩ := hkeep tx x hne hx
      obtain ⟨hdl, t', ht', hsend⟩ := h4 tx x hx' hge
      exact ⟨hdl, t', htask.trans ht', mem_append_left _ hsend⟩
  case sent =>
    intro tx hs
    rw [filterMap_append, mem_append] at hs
    rcases hs with hs | hs
    · obtain ⟨hge, x, hx⟩ := h5 tx hs
      exact ⟨hge, x, by rw [hold tx (ne_of_lt (hl.tx_lt tx x hx)), hx]⟩
    · obtain rfl := mem_singleton.mp hs
      exact ⟨h1, _, hnew⟩
  case sent_once =>
    rw [filterMap_append]
    refine nodup_append.mpr ⟨h6, nodup_singleton _, ?_⟩
    rintro a ha b hb rfl
    obtain ⟨-, x, hx⟩ := h5 a ha
    obtain rfl := mem_singleton.mp hb
    rw [hfresh] at hx
    cases hx
  case gone =>
    intro tx x hx hnone
    have hne : tx ≠ e.nextId := ne_of_lt ((h₀.tx_lt tx x hx).trans_le h1)
    exact (h7 tx x hx (hold tx hne ▸ hnone)).imp_right (mem_append_left _)
  case cancelled =>
    intro tx hc
    rcases mem_append.mp hc with hc | hc
    · obtain ⟨⟨x, hx⟩, hnone⟩ := h8 tx hc
      exact ⟨⟨x, hx⟩, by rw [hold tx (ne_of_lt ((h₀.tx_lt tx x hx).trans_le h1)), hnone]⟩
    · cases mem_singleton.mp hc

theorem Traffic.settle (hl : Linked loose e) {id : TaskId} {t : Task} (a : Answer)
    (hid : id ∈ loose) (ht : e.tasks.get id = some t) (htx : t.tx = none) :
    Traffic st (e.settle id a).1 (acts ++ (e.settle id a).2) := by
  have hdone : ∀ x ∈ (e.settled id t a).2, ∃ c, x = .done t.owner.qid c :=
    fun x hx => settled_done hx
  rw [settle_eq ht htx]
  refine Traffic.append ?_ (filterMap_eq_nil_iff.mpr fun x hx => ?_) fun tx hc => ?_
  · refine h.tasks hl (le_refl _) rfl (fun i t' ht' _ => ?_) fun i t' ht' hi => ?_
    · simp only [Table.get_remove] at ht'
      split at ht'
      · cases ht'
      · exact ⟨t', ht', .refl t'⟩
    · have hne : i ≠ id := fun heq => hi (heq ▸ hid)
      exact ⟨t', by simp only [Table.get_remove, if_neg hne, ht'], .refl t'⟩
  · obtain ⟨c, rfl⟩ := hdone x hx
    rfl
  · obtain ⟨c, heq⟩ := hdone _ hc
    cases heq

end

end Traffic

/-- **The books at a moment of an operation.** -/
structure Sound (st : Step Engine Op) (m : Mid) : Prop where
  start : Linked [] st.before
  linked : Linked m.loose m.engine
  steady : Steady st m
  traffic : Traffic st m.engine m.acts

/-- Only an operation that leaves the configuration alone has loose tasks. -/
theorem Sound.not_config (h : Sound st m) {id : TaskId} (hid : id ∈ m.loose) :
    st.input.isConfig = false := by
  cases hop : st.input.isConfig with
  | false => rfl
  | true => rw [(h.steady.config hop).1] at hid; cases hid

theorem sound_first (h : Linked [] st.before) : Sound st (.first st) :=
  ⟨h, h, ⟨fun _ => ⟨rfl, rfl⟩, fun _ => .refl _⟩, traffic_first h⟩

theorem Traffic.move (h : Sound st m) (hm : Move st m m') : Traffic st m'.engine m'.acts := by
  have hsound := h
  obtain ⟨h₀, hl, hsteady, ht⟩ := h
  cases hm with
  | tweak hm =>
    have hq := hm.quiet
    rw [hq.acts]
    refine ht.tasks hl (le_of_eq hq.nextId.symm) hq.txs (fun id t' ht' _ => ?_) fun id t ht hid =>
      ?_
    · obtain ⟨t, ht, hlike, -⟩ := hq.task_old ht'
      exact ⟨t, ht, hlike.toKin⟩
    · obtain ⟨t', ht', -, hst⟩ := hq.task id t ht
      exact ⟨t', ht', hst hid⟩
  | shift hm =>
    cases hm with
    | refuse h' hb => exact ht.append rfl (by simp)
    | start h' hb =>
      refine ht.tasks hl (Nat.le_succ _) rfl (fun id t' ht' hlt => ?_) fun id t ht hid => ?_
      · simp only [Engine.startTask, Table.get_insert, if_neg (ne_of_lt hlt)] at ht'
        exact ⟨t', ht', .refl t'⟩
      · have hne := ne_of_lt (hl.task_lt id t ht)
        exact ⟨t, by simp only [Engine.startTask, Table.get_insert, if_neg hne, ht], .refl t⟩
    | @startAll qid name family h' hb =>
      have hnext : m.engine.nextId ≤ (m.engine.openLookup qid name family).nextId := by
        rw [openLookup_eq]
        exact Nat.le_add_right _ _
      have htxs : (m.engine.openLookup qid name family).txs = m.engine.txs := by rw [openLookup_eq]
      have hget : ∀ id, id < m.engine.nextId →
          (m.engine.openLookup qid name family).tasks.get id = m.engine.tasks.get id :=
        fun id hlt => openLookup_old _ _ _ _ fun hge => absurd hlt (not_lt.mpr hge.1)
      refine ht.tasks hl hnext htxs (fun id t' ht' hlt => ?_) fun id t ht hid => ?_
      · exact ⟨t', hget id hlt ▸ ht', .refl t'⟩
      · exact ⟨t, (hget id (hl.task_lt id t ht)).trans ht, .refl t⟩
    | abandon h' hm =>
      subst hm
      exact Traffic.abandon h₀ _
    | close hx ht' h' => exact ht.close h₀ hl hx h'
    | orphan hx ht' h' =>
      obtain ⟨-, t, ht'', -⟩ := hl.tx_task _ _ hx
      rw [ht'] at ht''
      cases ht''
    | stray h' hx hold => exact ht.stray hx hold
    | launch random hid ht' htx hcur hbudget hroom h' =>
      exact ht.launch h₀ hl (hsteady.settings (hsound.not_config hid)) random hid ht'
    | settle hid ht' htx h' => exact ht.settle hl _ hid ht' htx

theorem Sound.move (h : Sound st m) (hm : Move st m m') : Sound st m' :=
  ⟨h.start, h.linked.move hm, h.steady.move hm, Traffic.move h hm⟩

/-- **The books are in order at every moment of an operation.** -/
theorem Path.sound (h : Linked [] st.before) (hp : Path st (.first st) m) : Sound st m := by
  induction hp with
  | refl => exact sound_first h
  | tail _ hm ih => exact ih.move hm

end Resolvd.Engine
