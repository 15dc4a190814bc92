import Resolvd.Daemon.Answers

/-!
# Native connections

A native connection belongs to one table at a time: that of the connections that are still sending
their request, or that of those who wait.  `reading_turn` is the account of the first table for one
turn of the loop, as `Matched.turn` is that of the second one; `Runs.accounted` puts them together
for whole runs.
-/

namespace Resolvd.Daemon

open Lib Dns Engine List

variable {d d' : Daemon} {entropy : Entropy} {log : Log Daemon Input}

/-! ### Who comes and who goes -/

/-- The native connection that waits. -/
def Waiter.stream? : Waiter → Option Stream
  | .native stream => some stream
  | .stub _ => none

/-- The native connections among those who wait. -/
def natives (ws : List Waiter) : List Stream := ws.filterMap Waiter.stream?

/-- The connections that are still sending their request. -/
def reading (d : Daemon) : List Stream := d.clients.values.map Client.stream

/-- The connections that are taken in with this turn of the loop, from those that come: as many as
there is room for. -/
def taken (d : Daemon) (i : Input) : List Stream :=
  match i.wake with
  | .accept streams =>
    (streams.take ioBatchLimit).take
      (maxPendingClients - (d.clients.len + (d.waiters.select fun _ w => w.isNative).length))
  | _ => []

/-- The connections that are closed with this turn of the loop before they have sent their request.
-/
def shut (d : Daemon) (i : Input) : List Stream :=
  match i.wake with
  | .client id .closed _ => (d.clients.get id).toList.map Client.stream
  | .tick =>
    (d.clients.values.filter fun c => !decide (i.now - c.since < clientTimeout)).map Client.stream
  | _ => []

/-! ### What the engine does not touch -/

/-- The connections that are read from, and the ids, are as they were. -/
structure Untouched (d d' : Daemon) : Prop where
  clients : d'.clients = d.clients
  nextId : d'.nextId = d.nextId

theorem Untouched.refl (d : Daemon) : Untouched d d := ⟨rfl, rfl⟩

theorem Untouched.trans {d'' : Daemon} (h : Untouched d d') (h' : Untouched d' d'') :
    Untouched d d'' :=
  ⟨h'.clients.trans h.clients, h'.nextId.trans h.nextId⟩

section Perform

variable (os : Os) (now : Instant) (d : Daemon)

theorem untouched_performOne (a : Action) : Untouched d (performOne os now d a).1 := by
  cases a with
  | cancel tx => exact ⟨rfl, rfl⟩
  | done q c =>
    simp only [performOne, deliver]
    split <;> exact ⟨rfl, rfl⟩
  | send tx server interface tcp payload =>
    simp only [performOne]
    split <;> exact ⟨rfl, rfl⟩

theorem untouched_performUpTo (n : ℕ) (p : List Action) :
    Untouched d (performUpTo os now n d p).1 :=
  performUpTo_rule os now (I := fun _ d' _ _ => Untouched d d')
    (fun _ d' a _ _ h => h.trans (untouched_performOne os now d' a)) (fun _ _ _ _ h => h) n [] []
      (.refl d)

theorem untouched_operate (op : Op) : Untouched d (operate os now d op).1 := by
  obtain ⟨hc, hn⟩ := untouched_performUpTo os now { d with engine := (d.engine.apply op).1 }
    (maxAttempts + 1)
    (d.engine.apply op).2
  exact ⟨hc, hn⟩

theorem ask_untouched (w : Waiter) (op : Qid → Op) :
    (ask os now d w op).1.clients = d.clients ∧ (ask os now d w op).1.nextId = d.nextId + 1 := by
  obtain ⟨hc, hn⟩ := untouched_operate os now
    { d with nextId := d.nextId + 1, waiters := d.waiters.insert d.nextId w } (op d.nextId)
  exact ⟨hc, hn⟩

end Perform

/-! ### One turn -/

/-- The ids of the connections were given out. -/
def Below (d : Daemon) : Prop := ∀ id c, d.clients.get id = some c → id < d.nextId

theorem Below.of_within (h : Below d) (hc : d'.clients.Within d.clients)
    (hn : d.nextId ≤ d'.nextId) : Below d' :=
  fun id c hget => lt_of_lt_of_le (h id c (hc id c hget)) hn

theorem Below.free (h : Below d) : d.clients.get d.nextId = none :=
  Option.eq_none_iff_forall_ne_some.mpr fun c hget => lt_irrefl _ (h _ c hget)

section Turn

variable {d : Daemon} (os : Os) (now : Instant)

/-- The connections of the table are accounted for. -/
structure Accounts (d : Daemon) (came gone : List Stream) (d' : Daemon) : Prop where
  below : Below d'
  perm : (d.reading ++ came).Perm (gone ++ d'.reading)

theorem Accounts.same {d' : Daemon} (h : Below d) (hc : d'.clients = d.clients)
    (hn : d.nextId ≤ d'.nextId) : Accounts d [] [] d' := by
  refine ⟨h.of_within (by rw [hc]; exact .refl _) hn, ?_⟩
  rw [append_nil, nil_append, reading, reading, hc]

theorem Accounts.removed {d' : Daemon} (h : Below d) {id : ℕ} {c : Client}
    (hget : d.clients.get id = some c) (hc : d'.clients = d.clients.remove id)
    (hn : d.nextId ≤ d'.nextId) : Accounts d [] [c.stream] d' := by
  refine ⟨h.of_within (by rw [hc]; exact Table.within_remove _ _) hn, ?_⟩
  rw [append_nil, reading, reading, hc]
  exact (Table.values_remove hget).map Client.stream

theorem handleRequest_clients (stream : Stream) (request : Request) (permitted : Bool) :
    (handleRequest os now d stream request permitted).1.clients = d.clients ∧
      d.nextId ≤ (handleRequest os now d stream request permitted).1.nextId := by
  have hask : ∀ w op, (ask os now d w op).1.clients = d.clients ∧
      d.nextId ≤ (ask os now d w op).1.nextId := by
    intro w op
    obtain ⟨hc, hn⟩ := ask_untouched os now d w op
    exact ⟨hc, hn ▸ Nat.le_succ _⟩
  unfold handleRequest
  split
  · exact ⟨rfl, le_rfl⟩
  · cases request with
    | status => exact ⟨rfl, Nat.le_succ _⟩
    | flush => exact ⟨rfl, Nat.le_succ _⟩
    | resolve name rtype noCache => exact hask _ _
    | lookup name family => exact hask _ _
    | reverse address => exact hask _ _

/-- A connection leaves the table with its request, or when it is closed. -/
theorem clients_serviceClient {id : ℕ} {c : Client} (hget : d.clients.get id = some c)
    (progress : Progress) (permitted : Bool) (hdone : progress ≠ .incomplete) :
    (serviceClient os now d id progress permitted).1.clients = d.clients.remove id ∧
      d.nextId ≤ (serviceClient os now d id progress permitted).1.nextId := by
  simp only [serviceClient, hget]
  cases progress with
  | incomplete => exact absurd rfl hdone
  | closed => exact ⟨rfl, le_rfl⟩
  | reply reply => exact ⟨rfl, le_rfl⟩
  | request request =>
    exact handleRequest_clients (d := { d with clients := d.clients.remove id }) os now c.stream
      request permitted

theorem Accounts.serviceClient (h : Below d) (id : ℕ) (progress : Progress) (permitted : Bool) :
    Accounts d [] (natives (askers d ⟨.client id progress permitted, now, os⟩) ++
      shut d ⟨.client id progress permitted, now, os⟩)
        (serviceClient os now d id progress permitted).1 := by
  cases hget : d.clients.get id with
  | none =>
    cases progress <;> simp only [Daemon.serviceClient, askers, shut, hget] <;> exact .same h
      rfl le_rfl
  | some client =>
    have hdone := clients_serviceClient os now hget progress permitted
    cases progress with
    | incomplete =>
      simp only [Daemon.serviceClient, askers, shut, hget]
      exact .same h rfl le_rfl
    | _ =>
      simp only [askers, shut, hget]
      obtain ⟨hclients, hnext⟩ := hdone (by simp)
      exact .removed h hget hclients hnext

theorem handleStub_clients (incoming : List Incoming) :
    (handleStub os now incoming d).1.clients = d.clients ∧
      d.nextId ≤ (handleStub os now incoming d).1.nextId := by
  induction incoming generalizing d with
  | nil => exact ⟨rfl, le_rfl⟩
  | cons i incoming ih =>
    have hone : (handleStubOne os now d i).1.clients = d.clients ∧
        d.nextId ≤ (handleStubOne os now d i).1.nextId := by
      unfold handleStubOne
      cases i with
      | nothing => exact ⟨rfl, le_rfl⟩
      | query origin =>
        dsimp only
        split
        · exact ⟨rfl, le_rfl⟩
        · split
          · exact ⟨rfl, le_rfl⟩
          · obtain ⟨hc, hn⟩ := ask_untouched os now d (.stub origin) _
            exact ⟨hc, hn ▸ Nat.le_succ _⟩
    obtain ⟨hc, hn⟩ := ih (d := (handleStubOne os now d i).1)
    exact ⟨hc.trans hone.1, hone.2.trans hn⟩

theorem natives_askers (incoming : List Incoming) :
    natives (incoming.filterMap Incoming.asker) = [] := by
  refine filterMap_eq_nil_iff.mpr fun w hw => ?_
  obtain ⟨i, -, hi⟩ := mem_filterMap.mp hw
  cases i with
  | nothing => cases hi
  | query origin =>
    obtain ⟨q, -, rfl⟩ := Option.map_eq_some_iff.mp hi
    rfl

/-- The connections that come are taken in as long as there is room. -/
theorem Accounts.accept (h : Below d) (pending : ℕ) (streams : List Stream) :
    Accounts d (streams.take (maxPendingClients - (d.clients.len + pending))) []
      (streams.foldl (acceptOne now pending) d) := by
  induction streams generalizing d with
  | nil =>
    rw [take_nil]
    exact .same h rfl le_rfl
  | cons s streams ih =>
    by_cases hfull : maxPendingClients ≤ d.clients.len + pending
    · have hone : acceptOne now pending d s = d := if_pos hfull
      have hroom : maxPendingClients - (d.clients.len + pending) = 0 := Nat.sub_eq_zero_of_le hfull
      have hrest := ih h
      rw [hroom] at hrest ⊢
      rw [foldl_cons, hone]
      exact hrest
    · have hone : acceptOne now pending d s =
          { d with clients := d.clients.insert d.nextId ⟨s, now⟩, nextId := d.nextId + 1 } :=
            if_neg hfull
      have hbelow : Below { d with clients := d.clients.insert d.nextId ⟨s, now⟩, nextId := d.nextId + 1 } := by
        intro id c hget
        dsimp only at hget ⊢
        rw [Table.get_insert] at hget
        split at hget
        · next heq => exact heq ▸ Nat.lt_succ_self _
        · exact Nat.lt_succ_of_lt (h id c hget)
      obtain ⟨hb, hperm⟩ := ih hbelow
      have hlen := Table.len_insert h.free ⟨s, now⟩
      have hroom : maxPendingClients - (d.clients.len + pending) =
          maxPendingClients - (d.clients.len + 1 + pending) + 1 := by omega
      rw [foldl_cons, hone]
      refine ⟨hb, ?_⟩
      simp only [hlen, reading, Table.values_insert h.free, map_cons] at hperm
      rw [hroom, take_succ_cons]
      exact perm_middle.trans hperm

/-- **The account of one turn.**  The connections that were sending their request or were taken in
are those that have sent one, were closed, or are still sending. -/
theorem reading_turn (h : Below d) (i : Input) :
    Accounts d (taken d i) (natives (askers d i) ++ shut d i) (turn d i).1 := by
  obtain ⟨wake, now, os⟩ := i
  cases wake with
  | hangup q =>
    simp only [Daemon.turn, hangup]
    split
    · exact .same h rfl le_rfl
    · split
      · obtain ⟨hc, hn⟩ := untouched_operate os now { d with waiters := d.waiters.remove q }
          (.abandon q)
        exact .same h hc hn.ge
      · exact .same h rfl le_rfl
  | upstream tx ready =>
    simp only [Daemon.turn, serviceUpstream]
    split
    · next u bytes _ =>
      obtain ⟨hc, hn⟩ := untouched_operate os now { d with upstream := u } (.received tx bytes now)
      exact .same h hc hn.ge
    · next u _ =>
      obtain ⟨hc, hn⟩ := untouched_operate os now { d with upstream := u } (.failed tx now)
      exact .same h hc hn.ge
    · exact .same h rfl le_rfl
  | stub incoming =>
    obtain ⟨hc, hn⟩ := handleStub_clients os now incoming
    have hnone : natives (incoming.filterMap Incoming.asker) = [] := natives_askers incoming
    simp only [askers, shut, taken, hnone]
    exact .same h hc hn
  | accept streams => exact Accounts.accept now h _ _
  | client id progress permitted => exact .serviceClient os now h id progress permitted
  | snapshot hostname scopes => exact .same h rfl le_rfl
  | config servers search hosts => exact .same h rfl le_rfl
  | tick =>
    obtain ⟨hclients, hnext⟩ := untouched_operate os now d (.tick now)
    simp only [Daemon.turn, tick, hclients]
    refine ⟨h.of_within (Table.within_retain _ _) hnext.ge, ?_⟩
    simp only [taken, askers, shut, natives, filterMap_nil, nil_append, append_nil, reading,
      Table.values_retain]
    rw [← map_append]
    exact ((filter_append_perm _ _).symm.trans perm_append_comm).map _

end Turn

/-! ### Runs -/

/-- The connections that were taken in, in the course of a log. -/
def takenIn (log : Log Daemon Input) : List Stream := log.flatMap fun st => taken st.before st.input

/-- The connections that were closed before they had sent their request, in the course of a log. -/
def shutOut (log : Log Daemon Input) : List Stream := log.flatMap fun st => shut st.before st.input

theorem Below.reorder (h : Below d) (hr : Reorder d d') : Below d' := by
  intro id c hget
  rw [hr.nextId]
  exact h id c (hr.clients.get_eq id ▸ hget)

theorem Runs.below (h : Runs entropy log d) : Below d := by
  refine Machine.Run.invariant (M := machine entropy) (I := fun _ d => Below d) ?_
    (fun _ _ _ hI hr => hI.reorder hr) (fun _ _ i hI => (reading_turn hI i).below) h
  rintro _ ⟨hostname, servers, search, hosts, rfl⟩ id c hget
  cases hget

theorem Runs.reading_perm (h : Runs entropy log d) :
    (takenIn log).Perm (natives (came log) ++ shutOut log ++ d.reading) := by
  have hperm := Machine.Run.balance (M := machine entropy) (I := Below) reading
    (fun st => taken st.before st.input) (fun st =>
      natives (askers st.before st.input) ++ shut st.before st.input)
    (fun h hidle => (Runs.below h).reorder hidle)
      (by rintro _ ⟨hostname, servers, search, hosts, rfl⟩; rfl)
    (fun _ _ hidle => hidle.clients.values_perm.map _)
      (fun st hI => (reading_turn hI st.input).perm) h
  have hcame : natives (came log) = log.flatMap fun st => natives (askers st.before st.input) :=
    filterMap_flatMap
  rw [hcame]
  exact hperm.trans ((flatMap_append_perm log _ _).symm.append_right _)

/-- **The account of a run.**  Every connection that was taken in got a reply, has hung up, was
closed before it had sent its request, waits, or is still sending. -/
theorem Runs.accounted (h : Runs entropy log d) :
    (takenIn log).Perm (natives (served ((machine entropy).outs log)) ++
      (natives (left log) ++ shutOut log) ++
      (natives d.waiting ++ d.reading)) := by
  have hcame : (natives (came log)).Perm
      (natives (served ((machine entropy).outs log)) ++ natives (left log) ++
      natives d.waiting) := by
    have h := h.tally.filterMap Waiter.stream?
    rwa [filterMap_append, filterMap_append] at h
  classical
  refine h.reading_perm.trans (perm_iff_count.mpr fun s => ?_)
  have hcount := hcame.count_eq s
  simp only [count_append] at hcount ⊢
  omega

end Resolvd.Daemon
