import Resolvd.Engine.Once

/-!
# How a task ends

The owner of a task that is settled is told an answer: a question by a `Done`, a lookup by an entry
of its results (`Told`).  In an operation that neither asks nor abandons a question nor brings an
answer (`Barren`: a timeout, a failure of the transport, another response code, a truncated reply),
a task that ends is told `unavailable` (`Barren.told`).
-/

namespace Resolvd.Engine

open Lib Dns List

variable {lookups : Table Qid Lookup} {t t' t₀ : Task} {id : TaskId} {st : Step Engine Op}
    {m m' : Mid}

/-! ### What the owner is told -/

/-- The owner of the task was told an answer of this kind. -/
def Told (lookups : Table Qid Lookup) (acts : List Action) (t : Task) (P : Answer → Prop) : Prop :=
  match t.owner with
  | .resolve q => ∃ a, P a ∧ .done q (.answer a) ∈ acts
  | .lookup q => ∃ a l, P a ∧ (t.rtype, a) ∈ l.results ∧
      (lookups.get q = some l ∨ .done q (.addresses (combine l)) ∈ acts)

/-- The owner of the task waits for it. -/
def Awaited (lookups : Table Qid Lookup) (id : TaskId) (t : Task) : Prop :=
  match t.owner with
  | .resolve _ => True
  | .lookup q => ∃ l, lookups.get q = some l ∧ id ∈ l.pending

/-- **In a run that uses no query id twice, every task is awaited.** -/
theorem Reached.awaited {entropy : Entropy} {log : EngineLog} {e : Engine}
    (h : Reached entropy log e) (hd : (asked log).Nodup) (ht : e.tasks.get id = some t) :
    Awaited e.lookups id t := by
  unfold Awaited
  split
  · trivial
  · next q howner =>
    have hown : e.ownerOf id = some (.lookup q) := by rw [ownerOf, ht, Option.map_some, howner]
    -- the task is the question's, so the question is under way
    have hgone : ¬ e.Gone q := fun hg => hg.1 id _ hown rfl
    rcases h.ledger hd q with ⟨-, -, -, hg⟩ | ⟨st, -, -, ⟨-, -, hu⟩ | ⟨-, -, hg⟩ | ⟨-, -, hg⟩⟩
    · exact absurd hg hgone
    · unfold Underway at hu
      split at hu
      · obtain ⟨⟨l, hl, -, hpending⟩, -⟩ := hu
        exact ⟨l, hl, (hpending id).mpr hown⟩
      · obtain ⟨⟨id', hid', hone⟩, -⟩ := hu
        obtain rfl := hone id _ hown rfl
        rw [hown] at hid'
        cases hid'
    · exact absurd hg hgone
    · exact absurd hg hgone

theorem Told.kin {acts : List Action} {P : Answer → Prop}
    (h : Told lookups acts t P) (hk : t.Kin t') : Told lookups acts t' P := by
  simpa only [Told, hk.owner, hk.rtype] using h

theorem Awaited.kin (h : Awaited lookups id t) (hk : t.Kin t') : Awaited lookups id t' := by
  simpa only [Awaited, hk.owner] using h

theorem Told.append {acts : List Action} {P : Answer → Prop}
    (h : Told lookups acts t P) (more : List Action) : Told lookups (acts ++ more) t P := by
  unfold Told at h ⊢
  split at h
  · obtain ⟨a, hP, hmem⟩ := h
    exact ⟨a, hP, mem_append_left _ hmem⟩
  · obtain ⟨a, l, hP, hr, hl⟩ := h
    exact ⟨a, l, hP, hr, hl.imp_right (mem_append_left _)⟩

section Settle

variable {e : Engine} {id : TaskId} {t : Task} {acts : List Action} {P : Answer → Prop}

/-- The owner is told the answer a task is settled with. -/
theorem told_settle (ht : e.tasks.get id = some t) (htx : t.tx = none) {a : Answer} (hP : P a)
    (hw : Awaited e.lookups id t) :
    Told (e.settle id a).1.lookups (acts ++ (e.settle id a).2) t P := by
  rw [settle_eq ht htx]
  cases ho : t.owner with
  | resolve q =>
    simp only [Told, settled, ho]
    exact ⟨a, hP, mem_append_right _ mem_cons_self⟩
  | lookup q =>
    simp only [Awaited, ho] at hw
    obtain ⟨l, hl, -⟩ := hw
    simp only [Told, settled, ho, hl]
    refine ⟨a, l.push id t.rtype a, hP, mem_append_right _ mem_cons_self, ?_⟩
    split
    · exact .inl (by simp only [Table.get_insert, if_true])
    · exact .inr (mem_append_right _ mem_cons_self)

theorem settled_lookups_ne {q : Qid} (hq : t.owner ≠ .lookup q) (a : Answer) :
    (e.settled id t a).1.get q = e.lookups.get q := by
  unfold settled
  split
  · rfl
  · next q' ho' =>
    have hne : q ≠ q' := fun heq => hq (by rw [ho', heq])
    split
    · rfl
    · split
      · simp only [Table.get_insert, if_neg hne]
      · simp only [Table.get_remove, if_neg hne]

/-- What was told stays told when another task is settled. -/
theorem Told.settle {t₀ : Task} (h : Told e.lookups acts t₀ P) (ht : e.tasks.get id = some t)
    (htx : t.tx = none) (a : Answer) :
    Told (e.settle id a).1.lookups (acts ++ (e.settle id a).2) t₀ P := by
  rw [settle_eq ht htx]
  unfold Told at h ⊢
  cases ho : t₀.owner with
  | resolve q =>
    simp only [ho] at h ⊢
    obtain ⟨b, hP, hmem⟩ := h
    exact ⟨b, hP, mem_append_left _ hmem⟩
  | lookup q =>
    simp only [ho] at h ⊢
    obtain ⟨b, l, hP, hr, hl | hmem⟩ := h
    · by_cases hq : t.owner = .lookup q
      · refine ⟨b, l.push id t.rtype a, hP, mem_append_left _ hr, ?_⟩
        simp only [settled, hq, hl]
        split
        · exact .inl (by simp only [Table.get_insert, if_true])
        · exact .inr (mem_append_right _ mem_cons_self)
      · exact ⟨b, l, hP, hr, .inl ((settled_lookups_ne hq a).trans hl)⟩
    · exact ⟨b, l, hP, hr, .inr (mem_append_left _ hmem)⟩

/-- A task is waited for until it is settled itself. -/
theorem Awaited.settle {i : TaskId} {t₀ : Task} (h : Awaited e.lookups i t₀) (hne : i ≠ id)
    (ht : e.tasks.get id = some t) (htx : t.tx = none) (a : Answer) :
    Awaited (e.settle id a).1.lookups i t₀ := by
  rw [settle_eq ht htx]
  unfold Awaited at h ⊢
  cases ho : t₀.owner with
  | resolve q => trivial
  | lookup q =>
    simp only [ho] at h ⊢
    obtain ⟨l, hl, hmem⟩ := h
    have hpush : i ∈ (l.push id t.rtype a).pending := by
      simp only [Lookup.push, mem_filter, bne_iff_ne]
      exact ⟨hmem, hne⟩
    by_cases hq : t.owner = .lookup q
    · refine ⟨l.push id t.rtype a, ?_, hpush⟩
      simp only [settled, hq, hl, ne_eq, ne_nil_of_mem hpush, not_false_iff, if_true,
        Table.get_insert]
    · exact ⟨l, (settled_lookups_ne hq a).trans hl, hmem⟩

end Settle

/-! ### Operations that bring no answer -/

/-- The operation neither asks nor abandons a question, and brings no answer. -/
structure Barren (st : Step Engine Op) : Prop where
  asks : st.input.asks = none
  abandons : ∀ q, st.input ≠ .abandon q
  answers : ∀ tx x t M, ¬ Answers st tx x t M

theorem Barren.not_searches (h : Barren st) : ¬ Searches st := by
  intro hs
  cases hs with
  | asked hq =>
    rw [h.asks] at hq
    cases hq
  | answered hM _ => exact h.answers _ _ _ _ hM

/-- The step brings a timeout, a failure of the transport or of sending, another response code, or a
truncated reply. -/
def Fails (st : Step Engine Op) : Prop :=
  match st.input with
  | .tick _ | .failed .. | .localFailed .. => True
  | .received tx _ _ => ∀ x t M, ¬ Answers st tx x t M
  | _ => False

theorem Fails.barren (h : Fails st) : Barren st := by
  unfold Fails at h
  have hno : (∀ tx bytes now, st.input ≠ .received tx bytes now) →
      ∀ tx x t M, ¬ Answers st tx x t M := by
    intro hne tx x t M hM
    obtain ⟨bytes, now, hop, -⟩ := hM.input
    exact hne tx bytes now hop
  cases hop : st.input with
  | tick now => exact ⟨by rw [hop]; rfl, by simp [hop], hno (by simp [hop])⟩
  | failed tx now => exact ⟨by rw [hop]; rfl, by simp [hop], hno (by simp [hop])⟩
  | localFailed tx now => exact ⟨by rw [hop]; rfl, by simp [hop], hno (by simp [hop])⟩
  | received tx bytes now =>
    rw [hop] at h
    refine ⟨by rw [hop]; rfl, by simp [hop], fun tx' x t M hM => ?_⟩
    obtain ⟨bytes', now', hop', -⟩ := hM.input
    rw [hop] at hop'
    obtain ⟨rfl, -, -⟩ := Op.received.inj hop'
    exact h x t M hM
  | _ => rw [hop] at h; exact h.elim

theorem Why.unavailable (hb : Barren st) {e : Engine} {a : Answer}
    (h : Why st e id t a) : a.outcome = .unavailable := by
  cases h with
  | synthetic hop => rw [hb.asks] at hop; cases hop
  | noCandidates hop => rw [hb.asks] at hop; cases hop
  | unroutable hop => exact absurd hop hb.not_searches
  | cached hop => exact absurd hop hb.not_searches
  | replied hM => exact absurd hM (hb.answers _ _ _ _)
  | budget h => rfl
  | noServers h => rfl
  | ceiling h => rfl
  | entropy h => rfl

/-- A task that was there is there, in the same scope, and waited for; or its owner was told
`unavailable`. -/
def Fate (m : Mid) (id : TaskId) (t₀ : Task) : Prop :=
  (∃ t, m.engine.tasks.get id = some t ∧ t₀.Kin t ∧ t.scope = t₀.scope ∧
    Awaited m.engine.lookups id t₀) ∨
    (m.engine.tasks.get id = none ∧
      Told m.engine.lookups m.acts t₀ fun a => a.outcome = .unavailable)

/-- A change of tasks that leaves the lookups alone. -/
theorem Fate.of_tasks {more : List Action} (h : Fate m id t₀)
    (hlookups : m'.engine.lookups = m.engine.lookups) (hacts : m'.acts = m.acts ++ more)
    (hsome : ∀ t, m.engine.tasks.get id = some t →
      ∃ t', m'.engine.tasks.get id = some t' ∧ t.Kin t' ∧ t'.scope = t.scope)
    (hnone : m.engine.tasks.get id = none → m'.engine.tasks.get id = none) : Fate m' id t₀ := by
  rcases h with ⟨t, ht, hk, hs, hw⟩ | ⟨ht, htold⟩
  · obtain ⟨t', ht', hk', hs'⟩ := hsome t ht
    exact .inl ⟨t', ht', hk.trans hk', hs'.trans hs, hlookups ▸ hw⟩
  · refine .inr ⟨hnone ht, ?_⟩
    rw [hlookups, hacts]
    exact htold.append more

theorem Tweaked.scope (hb : Barren st)
    (h : Tweaked st m id t') (ht : m.engine.tasks.get id = some t) : t'.scope = t.scope := by
  cases h with
  | kept h => rw [Option.mem_unique h ht]
  | marked h hop hst =>
    obtain rfl := Option.mem_unique h ht
    exact hst.scope
  | expanded hop => exact absurd hop hb.not_searches
  | chosen hop => exact absurd hop hb.not_searches
  | refunded hM hid h heq =>
    obtain rfl := Option.mem_unique h ht
    rw [heq]
  | noted hid h heq =>
    obtain rfl := Option.mem_unique h ht
    rw [heq]

theorem Fate.tweak (hb : Barren st) (h : Fate m id t₀) (hm : Tweak st m m') : Fate m' id t₀ := by
  have hq := hm.quiet
  have hacts : m'.acts = m.acts ++ [] := by rw [hq.acts, append_nil]
  refine h.of_tasks hq.lookups hacts (fun t ht => ?_) fun hnone => ?_
  · obtain ⟨t', ht', hlike, -⟩ := hq.task id t ht
    exact ⟨t', ht', hlike.toKin, (hm.task_cases ht').scope hb ht⟩
  · cases ht' : m'.engine.tasks.get id with
    | none => rfl
    | some t' =>
      obtain ⟨t, ht⟩ := hq.old id t' ht'
      rw [hnone] at ht
      cases ht

theorem Fate.shift (hb : Barren st) (h : Fate m id t₀) (hm : Shift st m m') : Fate m' id t₀ := by
  have hno : ∀ q, st.input.asks ≠ some q := fun q hq => by rw [hb.asks] at hq; cases hq
  have hkeep : ∀ t, m.engine.tasks.get id = some t →
      ∃ t', m.engine.tasks.get id = some t' ∧ t.Kin t' ∧ t'.scope = t.scope :=
        fun t ht => ⟨t, ht, .refl t, rfl⟩
  cases hm with
  | refuse h' _ => exact absurd h'.asks (hno _)
  | start h' _ => exact absurd h'.asks (hno _)
  | startAll h' _ => exact absurd h'.asks (hno _)
  | abandon h' _ => exact absurd h' (hb.abandons _)
  | @close tx x t acts hx ht hc =>
    refine h.of_tasks rfl rfl (fun t' ht' => ?_) fun hnone => ?_
    · by_cases hid : id = x.task
      · subst hid
        exact ⟨_, get_closeTx_self ht', ⟨rfl, rfl, rfl, rfl⟩, rfl⟩
      · exact ⟨t', (closeTx_tasks_ne hid).trans ht', .refl t', rfl⟩
    · have hne : id ≠ x.task := fun heq => by rw [heq, ht] at hnone; cases hnone
      exact (closeTx_tasks_ne hne).trans hnone
  | orphan hx ht hc => exact h.of_tasks rfl rfl hkeep fun hnone => hnone
  | stray _ _ _ => exact h.of_tasks rfl rfl hkeep fun hnone => hnone
  | @launch i t server tcp random hi ht htx hcur hbudget hroom htarget =>
    refine h.of_tasks rfl rfl (fun t' ht' => ?_) fun hnone => ?_
    · by_cases hid : id = i
      · subst hid
        obtain rfl := Option.mem_unique ht ht'
        exact ⟨_, launch_tasks_self server tcp random st.input.now ht, ⟨rfl, rfl, rfl, rfl⟩, rfl⟩
      · exact ⟨t', (launch_tasks_ne server tcp random st.input.now hid).trans ht', .refl t', rfl⟩
    · have hne : id ≠ i := fun heq => by rw [heq, ht] at hnone; cases hnone
      exact (launch_tasks_ne server tcp random st.input.now hne).trans hnone
  | @settle i t a hi ht htx hwhy =>
    have hP : a.outcome = .unavailable := hwhy.unavailable hb
    by_cases hid : id = i
    · subst hid
      rcases h with ⟨t', ht', hk, -, hw⟩ | ⟨hnone, -⟩
      · obtain rfl := Option.mem_unique ht ht'
        have hgone : (m.engine.settle id a).1.tasks.get id = none := by
          simp only [settle_eq ht htx, Table.get_remove, if_true]
        refine .inr ⟨hgone, ?_⟩
        have htold : Told (m.engine.settle id a).1.lookups
            (m.acts ++ (m.engine.settle id a).2) t fun a =>
            a.outcome = .unavailable := told_settle ht htx hP (hw.kin hk)
        exact htold.kin ⟨hk.owner.symm, hk.original.symm, hk.rtype.symm, hk.noCache.symm⟩
      · rw [ht] at hnone
        cases hnone
    · rcases h with ⟨t', ht', hk, hscope, hw⟩ | ⟨hnone, htold⟩
      · exact .inl ⟨t', (settle_tasks_ne hid a).trans ht', hk, hscope, hw.settle hid ht htx a⟩
      · exact .inr ⟨(settle_tasks_ne hid a).trans hnone, htold.settle ht htx a⟩

/-- **Without an answer a task ends `unavailable`.** -/
theorem Barren.told (hb : Barren st) (ht : st.before.tasks.get id = some t)
    (hw : Awaited st.before.lookups id t) : Fate (.last st) id t := by
  have hpath : ∀ m, Path st (.first st) m → Fate m id t := by
    intro m hp
    induction hp with
    | refl => exact .inl ⟨t, ht, .refl t, rfl, hw⟩
    | tail _ hm ih =>
      cases hm with
      | tweak hm => exact ih.tweak hb hm
      | shift hm => exact ih.shift hb hm
  exact hpath _ (apply_path st)

end Resolvd.Engine
