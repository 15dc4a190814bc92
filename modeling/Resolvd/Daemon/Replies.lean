import Resolvd.Engine.Types
import Resolvd.Lib.Run
import Resolvd.Lib.Socket
import Resolvd.Lib.Table

/-!
# Replies that are being written

`reply_queue.rs`: frames whose peer does not take them at once.  A frame is offered to its stream
when it comes; what is left of it waits in a table, and is offered again each time the stream is
ready, until its deadline.

The entry of a frame knows which octets of it the stream has accepted (`Sink`), and a step of the
machine tells which entries a write was tried for and which ones have left, with the result they
left with.  `Replies.delivers_in_order` says what these have in common in every run.
-/

namespace Resolvd.Daemon

open Lib Engine List

/-- `WRITE_TIMEOUT`. -/
abbrev writeTimeout : ℕ := secs 1

/-- `MAX_PENDING_REPLIES`. -/
abbrev maxPendingReplies : ℕ := 256

/-- How a call ends without success. -/
inductive WriteError where
  | writeZero
  | tooMany
  | timedOut
  | os
  deriving DecidableEq

/-- A stream that is written to, with the octets it has accepted. -/
structure Sink (S : Type) where
  stream : S
  accepted : Bytes := []

variable {S : Type}

/-- `write`: the kernel takes so many of the octets, if there are so many. -/
def Sink.write (sink : Sink S) (bytes : Bytes) : Io ℕ → Io ℕ × Sink S
  | .ok n => (.ok (min n bytes.length), { sink with accepted := sink.accepted ++ bytes.take n })
  | .wouldBlock => (.wouldBlock, sink)
  | .interrupted => (.interrupted, sink)
  | .error => (.error, sink)

/-- `write_once`. -/
def writeOnce (sink : Sink S) (bytes : Bytes) (kernel : Io ℕ) : Except WriteError ℕ × Sink S :=
  match sink.write bytes kernel with
  | (.ok 0, sink) => (.error .writeZero, sink)
  | (.ok n, sink) => (.ok n, sink)
  | (.wouldBlock, sink) | (.interrupted, sink) => (.ok 0, sink)
  | (.error, sink) => (.error .os, sink)

/-- `reply_queue::Pending`. -/
structure Pending (S : Type) where
  sink : Sink S
  frame : Bytes
  sent : ℕ
  deadline : Instant

/-- A frame nothing of which was written yet. -/
def Pending.unwritten (stream : S) (frame : Bytes) (now : Instant) : Pending S :=
  ⟨⟨stream, []⟩, frame, 0, now + writeTimeout⟩

/-- The rest of the frame is offered to the stream. -/
def Pending.push (p : Pending S) (kernel : Io ℕ) : Except WriteError Unit × Pending S :=
  match writeOnce p.sink (p.frame.drop p.sent) kernel with
  | (.ok n, sink) => (.ok (), { p with sink, sent := p.sent + n })
  | (.error e, sink) => (.error e, { p with sink })

/-- `reply_queue::Replies`. -/
structure Replies (S : Type) where
  pending : Table ℕ (Pending S) := Table.empty
  nextId : ℕ := 0

/-- What happened to an entry. -/
inductive ReplyEvent (S : Type) where
  | tried (p : Pending S) (now : Instant)
  | left (p : Pending S) (result : Except WriteError Unit)

namespace Replies

/-- `Replies::enqueue`. -/
def enqueue (r : Replies S) (stream : S) (frame : Bytes) (now : Instant) (kernel : Io ℕ) :
    Replies S × List (ReplyEvent S) :=
  let p := Pending.unwritten stream frame now
  match p.push kernel with
  | (.error e, p') => (r, [.tried p now, .left p' (.error e)])
  | (.ok (), p') =>
    if p'.sent = frame.length then (r, [.tried p now, .left p' (.ok ())])
    else if maxPendingReplies ≤ r.pending.len then (r, [.tried p now, .left p' (.error .tooMany)])
    else ({ pending := r.pending.insert r.nextId p', nextId := r.nextId + 1 }, [.tried p now])

/-- `Replies::service`. -/
def service (r : Replies S) (id : ℕ) (now : Instant) (kernel : Io ℕ) :
    Replies S × List (ReplyEvent S) :=
  match r.pending.get id with
  | none => (r, [])
  | some p =>
    let removed := { r with pending := r.pending.remove id }
    if p.deadline ≤ now then (removed, [.left p (.error .timedOut)])
    else match p.push kernel with
      | (.error e, p') => (removed, [.tried p now, .left p' (.error e)])
      | (.ok (), p') =>
        if p'.sent < p'.frame.length then
          ({ removed with pending := removed.pending.insert id p' }, [.tried p now])
        else (removed, [.tried p now, .left p' (.ok ())])

/-- `Replies::expire`. -/
def expire (r : Replies S) (now : Instant) : Replies S × List (ReplyEvent S) :=
  ({ r with pending := r.pending.retain fun _ p => now < p.deadline },
    (r.pending.select fun _ p => p.deadline ≤ now).filterMap fun id =>
      (r.pending.get id).map fun p => .left p (.error .timedOut))

/-- A call, with the time and what the kernel answers. -/
inductive Op (S : Type) where
  | enqueue (stream : S) (frame : Bytes) (now : Instant) (kernel : Io ℕ)
  | service (id : ℕ) (now : Instant) (kernel : Io ℕ)
  | expire (now : Instant)

def step (r : Replies S) : Op S → Replies S × List (ReplyEvent S)
  | .enqueue stream frame now kernel => r.enqueue stream frame now kernel
  | .service id now kernel => r.service id now kernel
  | .expire now => r.expire now

/-- The queue, from the empty one on. -/
def machine (S : Type) : Machine (Replies S) (Op S) (ReplyEvent S) where
  start := fun r => r = {}
  step := step
  idle := fun r r' => r' = r

abbrev Runs (log : Log (Replies S) (Op S)) (r : Replies S) : Prop := (machine S).Run log r

end Replies

/-! ### One entry -/

/-- The stream has accepted the front of the frame, and as much of it as the entry says. -/
structure Pending.InOrder (p : Pending S) : Prop where
  accepted : p.sink.accepted = p.frame.take p.sent
  le : p.sent ≤ p.frame.length

/-- The entries are about the same frame. -/
structure Pending.Alike (p p' : Pending S) : Prop where
  stream : p'.sink.stream = p.sink.stream
  frame : p'.frame = p.frame
  deadline : p'.deadline = p.deadline

theorem Pending.Alike.refl (p : Pending S) : p.Alike p := ⟨rfl, rfl, rfl⟩

/-- `write_once` hands out the front of what it is given. -/
theorem writeOnce_spec (sink : Sink S) (bytes : Bytes) (kernel : Io ℕ) :
    (writeOnce sink bytes kernel).2.stream = sink.stream ∧
    (∀ n, (writeOnce sink bytes kernel).1 = .ok n → n ≤ bytes.length ∧
      (writeOnce sink bytes kernel).2.accepted = sink.accepted ++ bytes.take n) ∧
    ∀ e, (writeOnce sink bytes kernel).1 = .error e →
      (writeOnce sink bytes kernel).2.accepted = sink.accepted := by
  cases kernel with
  | ok n =>
    cases hmin : min n bytes.length with
    | zero =>
      -- nothing was taken: the write is an error
      have htake : bytes.take n = [] := by
        rw [take_eq_nil_iff]
        rcases Nat.min_eq_zero_iff.mp hmin with h | h
        · exact .inl h
        · exact .inr (length_eq_zero_iff.mp h)
      simp [writeOnce, Sink.write, hmin, htake]
    | succ m =>
      have htake : bytes.take n = bytes.take (m + 1) := by
        rw [← hmin]
        exact take_eq_take_min
      have hle : m + 1 ≤ bytes.length := by omega
      simp [writeOnce, Sink.write, hmin, htake, hle]
  | wouldBlock => simp [writeOnce, Sink.write]
  | interrupted => simp [writeOnce, Sink.write]
  | error => simp [writeOnce, Sink.write]

theorem Pending.push_spec {p : Pending S} (h : p.InOrder) (kernel : Io ℕ) :
    (p.push kernel).2.InOrder ∧ p.Alike (p.push kernel).2 ∧
      ∀ e, (p.push kernel).1 = .error e → (p.push kernel).2.sent = p.sent := by
  obtain ⟨hstream, hok, herror⟩ := writeOnce_spec p.sink (p.frame.drop p.sent) kernel
  unfold Pending.push
  generalize writeOnce p.sink (p.frame.drop p.sent) kernel = w at hstream hok herror ⊢
  obtain ⟨e | n, sink⟩ := w
  · have haccepted := herror e rfl
    exact ⟨⟨haccepted.trans h.accepted, h.le⟩, ⟨hstream, rfl, rfl⟩, fun _ _ => rfl⟩
  · obtain ⟨hle, haccepted⟩ := hok n rfl
    rw [length_drop] at hle
    have hbound := h.le
    refine ⟨⟨?_, ?_⟩, ⟨hstream, rfl, rfl⟩, fun e he => (by cases he)⟩
    · show sink.accepted = p.frame.take (p.sent + n)
      rw [haccepted, h.accepted, take_add]
    · show p.sent + n ≤ p.frame.length
      omega

/-- A write that does not fail takes octets, or is to be tried again. -/
theorem Pending.kernel_of_push {p : Pending S} {kernel : Io ℕ} (h : (p.push kernel).1 = .ok ()) :
    kernel ≠ .error ∧ kernel ≠ .ok 0 := by
  constructor
  · rintro rfl
    cases h
  · rintro rfl
    simp [Pending.push, writeOnce, Sink.write] at h

namespace Replies

/-! ### One call -/

/-- The entry is that of a frame which was put into the queue, and its deadline is counted from
then. -/
def Queued (log : Log (Replies S) (Op S)) (p : Pending S) : Prop :=
  ∃ st ∈ log, ∃ now kernel, st.input = .enqueue p.sink.stream p.frame now kernel ∧
    p.deadline = now + writeTimeout

theorem Queued.alike {log : Log (Replies S) (Op S)} {p p' : Pending S} (h : Queued log p)
    (ha : p.Alike p') : Queued log p' := by
  obtain ⟨st, hst, now, kernel, hinput, hdeadline⟩ := h
  exact ⟨st, hst, now, kernel, by rw [ha.stream, ha.frame, hinput], by rw [ha.deadline, hdeadline]⟩

theorem Queued.cons {log : Log (Replies S) (Op S)} {p : Pending S} (h : Queued log p)
    (st : Step (Replies S) (Op S)) : Queued (st :: log) p := by
  obtain ⟨st', hst', h⟩ := h
  exact ⟨st', mem_cons_of_mem _ hst', h⟩

/-- What is true of the events of a run: a write is tried before the deadline, and the stream of an
entry that leaves has accepted the front of the frame, all of it exactly if the entry is done. -/
def EventOk (log : Log (Replies S) (Op S)) : ReplyEvent S → Prop
  | .tried p now => Queued log p ∧ p.InOrder ∧ now < p.deadline
  | .left p result => Queued log p ∧ p.InOrder ∧ (p.sent = p.frame.length ↔ result = .ok ())

/-- What a call does to the entries there are. -/
structure Careful (st : Step (Replies S) (Op S)) : Prop where
  /-- an entry changes only when it is serviced, and leaves only then or when its deadline has
  passed -/
  spares : ∀ id p, st.before.pending.get id = some p →
    (∀ now kernel, st.input ≠ .service id now kernel) →
    (∀ now, st.input = .expire now → now < p.deadline) →
      ((machine S).after st).pending.get id = some p
  /-- one that stays keeps its stream, its frame and its deadline -/
  keeps : ∀ id p p', st.before.pending.get id = some p →
    ((machine S).after st).pending.get id = some p' → p.Alike p'
  /-- one that leaves is told about -/
  leaves : ∀ id p, st.before.pending.get id = some p →
    ((machine S).after st).pending.get id = none →
    ∃ p' result, .left p' result ∈ (machine S).out st ∧ p.Alike p'
  /-- one whose write fails or takes nothing leaves, and so does one whose deadline has passed -/
  ends : ∀ id p, st.before.pending.get id = some p →
    (∃ now kernel, st.input = .service id now kernel ∧
      (p.deadline ≤ now ∨ kernel = .error ∨ kernel = .ok 0)) ∨
      (∃ now, st.input = .expire now ∧ p.deadline ≤ now) →
        ((machine S).after st).pending.get id = none
  /-- one that is new is that of the frame which is put in, under the next id, and no entry has left
  -/
  enters : ∀ id p, st.before.pending.get id = none →
    ((machine S).after st).pending.get id = some p →
    id = st.before.nextId ∧ (∀ q result, .left q result ∉ (machine S).out st) ∧
      ∃ now kernel, st.input = .enqueue p.sink.stream p.frame now kernel ∧ kernel ≠ .error ∧
        kernel ≠ .ok 0

/-- The queue at the end of a run. -/
structure Good (log : Log (Replies S) (Op S)) (r : Replies S) : Prop where
  entries : ∀ id p, r.pending.get id = some p → Queued log p ∧ p.InOrder ∧ p.sent < p.frame.length ∧
    id < r.nextId
  bounded : r.pending.len ≤ maxPendingReplies
  events : ∀ st ∈ log, ∀ event ∈ (machine S).out st, EventOk log event
  careful : ∀ st ∈ log, Careful st

theorem EventOk.cons {log : Log (Replies S) (Op S)} {event : ReplyEvent S} (h : EventOk log event)
    (st : Step (Replies S) (Op S)) : EventOk (st :: log) event := by
  cases event with
  | tried p now => exact ⟨h.1.cons st, h.2⟩
  | left p result => exact ⟨h.1.cons st, h.2⟩

theorem eventOk_left_error {log : Log (Replies S) (Op S)} {p : Pending S} (hq : Queued log p)
    (ho : p.InOrder) (hsent : p.sent < p.frame.length) (e : WriteError) :
    EventOk log (.left p (.error e)) := by
  refine ⟨hq, ho, ?_⟩
  simp only [reduceCtorEq, iff_false]
  omega

theorem eventOk_left_ok {log : Log (Replies S) (Op S)} {p : Pending S} (hq : Queued log p)
    (ho : p.InOrder) (hsent : p.sent = p.frame.length) : EventOk log (.left p (.ok ())) :=
  ⟨hq, ho, by simp [hsent]⟩

section

variable {log : Log (Replies S) (Op S)} {r : Replies S} (h : Good log r)
include h

theorem Good.extend (op : Op S)
    (hentries : ∀ id p, (r.step op).1.pending.get id = some p → Queued (⟨r, op⟩ :: log) p ∧
      p.InOrder ∧ p.sent < p.frame.length ∧ id < (r.step op).1.nextId)
    (hbounded : (r.step op).1.pending.len ≤ maxPendingReplies)
    (hevents : ∀ event ∈ (r.step op).2, EventOk (⟨r, op⟩ :: log) event)
    (hcareful : Careful ⟨r, op⟩) : Good (⟨r, op⟩ :: log) (r.step op).1 := by
  refine ⟨hentries, hbounded, fun st hst event he => ?_, fun st hst => ?_⟩
  · rcases mem_cons.mp hst with rfl | hst
    · exact hevents event he
    · exact (h.events st hst event he).cons _
  · rcases mem_cons.mp hst with rfl | hst
    · exact hcareful
    · exact h.careful st hst

theorem Good.unchanged {op : Op S} {events : List (ReplyEvent S)} (hstep : r.step op = (r, events))
    (hop : ∀ id p, r.pending.get id = some p → (∀ now kernel, op ≠ .service id now kernel) ∧
      ∀ now, op ≠ .expire now) (hevents : ∀ event ∈ events, EventOk (⟨r, op⟩ :: log) event) :
    Good (⟨r, op⟩ :: log) (r.step op).1 := by
  have hafter : (machine S).after ⟨r, op⟩ = r := congrArg Prod.fst hstep
  refine h.extend op (fun id p hp => ?_) ?_ (by rwa [hstep])
    ⟨fun id p hp _ _ => (by rwa [hafter]), fun id p p' hp hp' => ?_, fun id p hp hp' => ?_,
      fun id p hp hends => ?_, fun id p hp hp' => ?_⟩
  · rw [hstep] at hp ⊢
    obtain ⟨hq, hrest⟩ := h.entries id p hp
    exact ⟨hq.cons _, hrest⟩
  · rw [hstep]
    exact h.bounded
  · rw [hafter] at hp'
    obtain rfl := Option.mem_unique hp hp'
    exact .refl p
  · rw [hafter] at hp'
    cases hp.symm.trans hp'
  · rcases hends with ⟨now, kernel, hinput, -⟩ | ⟨now, hinput, -⟩
    · exact absurd hinput ((hop id p hp).1 now kernel)
    · exact absurd hinput ((hop id p hp).2 now)
  · rw [hafter] at hp'
    cases hp.symm.trans hp'

theorem Good.removed {id : ℕ} {p : Pending S}
    (hp : r.pending.get id = some p) {now : Instant} {kernel : Io ℕ} {events : List (ReplyEvent S)}
    (hstep : r.step (.service id now kernel) = ({ r with pending := r.pending.remove id }, events))
    (hevents : ∀ event ∈ events, EventOk (⟨r, .service id now kernel⟩ :: log) event)
    (hleft : ∃ p' result, .left p' result ∈ events ∧ p.Alike p') :
    Good (⟨r, .service id now kernel⟩ :: log) (r.step (.service id now kernel)).1 := by
  have hafter : (machine S).after ⟨r, .service id now kernel⟩ =
      { r with pending := r.pending.remove id } :=
    congrArg Prod.fst hstep
  refine h.extend _ (fun id' p' hp' => ?_) ?_ (by rwa [hstep])
    ⟨fun id' p' hp' hother _ => ?_, fun id' q q' hq hq' => ?_, fun id' q hq hq' => ?_,
      fun id' q _ hends => ?_, fun id' q hq hq' => ?_⟩
  · rw [hstep] at hp' ⊢
    rw [Table.get_remove] at hp'
    split at hp'
    · cases hp'
    · obtain ⟨hq, hrest⟩ := h.entries id' p' hp'
      exact ⟨hq.cons _, hrest⟩
  · rw [hstep]
    have hlen := Table.len_remove hp
    have hbounded := h.bounded
    show (r.pending.remove id).len ≤ maxPendingReplies
    omega
  · have hne : id' ≠ id := by
      rintro rfl
      exact hother now kernel rfl
    rw [hafter, Table.get_remove, if_neg hne]
    exact hp'
  · rw [hafter, Table.get_remove] at hq'
    split at hq'
    · cases hq'
    · obtain rfl := Option.mem_unique hq hq'
      exact .refl q
  · rw [hafter, Table.get_remove] at hq'
    split at hq'
    · next hid =>
      obtain rfl := Option.mem_unique hp (hid ▸ hq)
      have hout : (machine S).out ⟨r, .service id now kernel⟩ = events := congrArg Prod.snd hstep
      rw [hout]
      exact hleft
    · cases hq.symm.trans hq'
  · rcases hends with ⟨now', kernel', hinput, -⟩ | ⟨now', hinput, -⟩
    · obtain ⟨rfl, -, -⟩ := Op.service.inj hinput
      rw [hafter, Table.get_remove, if_pos rfl]
    · cases hinput
  · rw [hafter, Table.get_remove] at hq'
    split at hq'
    · cases hq'
    · cases hq.symm.trans hq'

theorem Good.added {stream : S} {frame : Bytes} {now : Instant} {kernel : Io ℕ} {p : Pending S}
    {events : List (ReplyEvent S)}
    (hstep : r.step (.enqueue stream frame now kernel) =
      (⟨r.pending.insert r.nextId p, r.nextId + 1⟩, events))
    (hroom : r.pending.len < maxPendingReplies) (hstream : p.sink.stream = stream)
    (hframe : p.frame = frame) (hkernel : kernel ≠ .error ∧ kernel ≠ .ok 0)
    (hp : Queued (⟨r, .enqueue stream frame now kernel⟩ :: log) p ∧ p.InOrder ∧
      p.sent < p.frame.length)
    (hevents : ∀ event ∈ events, EventOk (⟨r, .enqueue stream frame now kernel⟩ :: log) event)
    (hleft : ∀ q result, .left q result ∉ events) :
    Good (⟨r, .enqueue stream frame now kernel⟩ :: log)
      (r.step (.enqueue stream frame now kernel)).1 := by
  have hnew : r.pending.get r.nextId = none := by
    cases hget : r.pending.get r.nextId with
    | none => rfl
    | some p' => exact absurd (h.entries _ _ hget).2.2.2 (Nat.lt_irrefl _)
  have hafter : (machine S).after ⟨r, .enqueue stream frame now kernel⟩ =
      ⟨r.pending.insert r.nextId p, r.nextId + 1⟩ := congrArg Prod.fst hstep
  have hout : (machine S).out ⟨r, .enqueue stream frame now kernel⟩ = events :=
    congrArg Prod.snd hstep
  have hspares : ∀ id p', r.pending.get id = some p' →
      ((machine S).after ⟨r, .enqueue stream frame now kernel⟩).pending.get id = some p' := by
    intro id p' hp'
    have hne : id ≠ r.nextId := by
      rintro rfl
      rw [hp'] at hnew
      cases hnew
    rw [hafter, Table.get_insert, if_neg hne]
    exact hp'
  refine h.extend _ (fun id p' hp' => ?_) ?_ (by rwa [hstep])
    ⟨fun id p' hp' _ _ => hspares id p' hp', fun id q q' hq hq' => ?_, fun id q hq hq' => ?_,
      by simp, fun id q hq hq' => ?_⟩
  · rw [hstep] at hp' ⊢
    rw [Table.get_insert] at hp'
    split at hp'
    · next hid =>
      cases hp'
      exact ⟨hp.1, hp.2.1, hp.2.2, hid ▸ Nat.lt_succ_self _⟩
    · obtain ⟨hq, ho, hs, hid⟩ := h.entries id p' hp'
      exact ⟨hq.cons _, ho, hs, Nat.lt_succ_of_lt hid⟩
  · rw [hstep, Table.len_insert hnew]
    exact hroom
  · obtain rfl := Option.some.inj ((hspares id q hq).symm.trans hq')
    exact .refl q
  · cases (hspares id q hq).symm.trans hq'
  · rw [hafter, Table.get_insert] at hq'
    split at hq'
    · next hid =>
      cases hq'
      exact ⟨hid, hout ▸ hleft, now, kernel, by rw [hstream, hframe], hkernel⟩
    · cases hq.symm.trans hq'

theorem Good.replaced {id : ℕ} {p p' : Pending S} (hp : r.pending.get id = some p) {now : Instant}
    {kernel : Io ℕ} {events : List (ReplyEvent S)}
    (hstep : r.step (.service id now kernel) =
      ({ r with pending := (r.pending.remove id).insert id p' }, events))
    (halike : p.Alike p') (hlate : now < p.deadline) (hkernel : kernel ≠ .error ∧ kernel ≠ .ok 0)
    (hp' : Queued (⟨r, .service id now kernel⟩ :: log) p' ∧ p'.InOrder ∧ p'.sent < p'.frame.length)
    (hevents : ∀ event ∈ events, EventOk (⟨r, .service id now kernel⟩ :: log) event) :
    Good (⟨r, .service id now kernel⟩ :: log) (r.step (.service id now kernel)).1 := by
  have hget : ∀ id', ((machine S).after ⟨r, .service id now kernel⟩).pending.get id' =
      if id' = id then some p' else r.pending.get id' := by
    intro id'
    have hafter : (machine S).after ⟨r, .service id now kernel⟩ =
        { r with pending := (r.pending.remove id).insert id p' } := congrArg Prod.fst hstep
    rw [hafter, Table.get_insert, Table.get_remove]
    split <;> rfl
  refine h.extend _ (fun id' q hq => ?_) ?_ (by rwa [hstep])
    ⟨fun id' q hq hother _ => ?_, fun id' q q' hq hq' => ?_, fun id' q hq hq' => ?_,
      fun id' q hq hends => ?_, fun id' q hq hq' => ?_⟩
  · have hnextId : (r.step (.service id now kernel)).1.nextId = r.nextId := by rw [hstep]
    rw [hnextId]
    rw [show (r.step (.service id now kernel)).1.pending.get id' = _ from hget id'] at hq
    split at hq
    · next hid' =>
      cases hq
      exact ⟨hp'.1, hp'.2.1, hp'.2.2, hid' ▸ (h.entries id p hp).2.2.2⟩
    · obtain ⟨hq', hrest⟩ := h.entries id' q hq
      exact ⟨hq'.cons _, hrest⟩
  · have hremoved : (r.pending.remove id).get id = none := by
      rw [Table.get_remove, if_pos rfl]
    rw [hstep, Table.len_insert hremoved, Table.len_remove hp]
    exact h.bounded
  · have hne : id' ≠ id := by
      rintro rfl
      exact hother now kernel rfl
    rw [hget, if_neg hne]
    exact hq
  · rw [hget] at hq'
    split at hq'
    · next hid' =>
      cases hq'
      obtain rfl := Option.mem_unique hp (hid' ▸ hq)
      exact halike
    · obtain rfl := Option.mem_unique hq hq'
      exact .refl q
  · rw [hget] at hq'
    split at hq'
    · cases hq'
    · cases hq.symm.trans hq'
  · exfalso
    rcases hends with ⟨now', kernel', hinput, hfails⟩ | ⟨now', hinput, -⟩
    · obtain ⟨rfl, rfl, rfl⟩ := Op.service.inj hinput
      obtain rfl := Option.mem_unique hp hq
      rcases hfails with hpassed | hfails | hfails
      · exact Nat.not_le.mpr hlate hpassed
      · exact hkernel.1 hfails
      · exact hkernel.2 hfails
    · cases hinput
  · rw [hget] at hq'
    split at hq'
    · next hid' =>
      rw [hid'] at hq
      cases hp.symm.trans hq
    · cases hq.symm.trans hq'

theorem Good.enqueue {frame : Bytes} (hframe : frame ≠ []) (stream : S) (now : Instant)
    (kernel : Io ℕ) :
    Good (⟨r, .enqueue stream frame now kernel⟩ :: log)
      (r.step (.enqueue stream frame now kernel)).1 := by
  have hlength : 0 < frame.length := length_pos_iff.mpr hframe
  have hfresh : (Pending.unwritten stream frame now).InOrder := ⟨rfl, Nat.zero_le _⟩
  have hqueued : Queued (⟨r, .enqueue stream frame now kernel⟩ :: log)
      (Pending.unwritten stream frame now) :=
    ⟨_, mem_cons_self, now, kernel, rfl, rfl⟩
  have htried : EventOk (⟨r, .enqueue stream frame now kernel⟩ :: log)
      (.tried (Pending.unwritten stream frame now) now) :=
    ⟨hqueued, hfresh, Nat.lt_add_of_pos_right (by decide)⟩
  obtain ⟨horder, halike, herror⟩ := Pending.push_spec hfresh kernel
  generalize hpush : (Pending.unwritten stream frame now).push kernel = w at horder halike herror
  obtain ⟨result, p⟩ := w
  have hsame : p.frame = frame := halike.frame
  cases result with
  | error e =>
    have hstep : r.step (.enqueue stream frame now kernel) =
        (r, [.tried (Pending.unwritten stream frame now) now, .left p (.error e)]) := by
      simp only [step, Replies.enqueue, hpush]
    have hsent : p.sent < p.frame.length := by
      rw [show p.sent = 0 from herror e rfl, hsame]
      exact hlength
    refine h.unchanged hstep (by simp) (forall_mem_cons.mpr ⟨htried, forall_mem_singleton.mpr ?_⟩)
    exact eventOk_left_error (hqueued.alike halike) horder hsent e
  | ok =>
    have hle : p.sent ≤ p.frame.length := horder.le
    by_cases hdone : p.sent = frame.length
    · have hstep : r.step (.enqueue stream frame now kernel) =
          (r, [.tried (Pending.unwritten stream frame now) now, .left p (.ok ())]) := by
        simp only [step, Replies.enqueue, hpush, if_pos hdone]
      refine h.unchanged hstep (by simp) (forall_mem_cons.mpr ⟨htried, forall_mem_singleton.mpr ?_⟩)
      exact eventOk_left_ok (hqueued.alike halike) horder (hsame ▸ hdone)
    · have hsent : p.sent < p.frame.length := by
        rw [hsame] at hle ⊢
        omega
      by_cases hmany : maxPendingReplies ≤ r.pending.len
      · have hstep : r.step (.enqueue stream frame now kernel) =
            (r, [.tried (Pending.unwritten stream frame now) now, .left p (.error .tooMany)]) := by
          simp only [step, Replies.enqueue, hpush, if_neg hdone, if_pos hmany]
        refine h.unchanged hstep (by simp)
          (forall_mem_cons.mpr ⟨htried, forall_mem_singleton.mpr ?_⟩)
        exact eventOk_left_error (hqueued.alike halike) horder hsent .tooMany
      · have hstep : r.step (.enqueue stream frame now kernel) =
            (⟨r.pending.insert r.nextId p, r.nextId + 1⟩,
              [.tried (Pending.unwritten stream frame now) now]) := by
          simp only [step, Replies.enqueue, hpush, if_neg hdone, if_neg hmany]
        exact h.added hstep (Nat.not_le.mp hmany) halike.stream hsame
          (Pending.kernel_of_push (congrArg Prod.fst hpush))
          ⟨hqueued.alike halike, horder, hsent⟩ (forall_mem_singleton.mpr htried) (by simp)

theorem Good.service (id : ℕ) (now : Instant) (kernel : Io ℕ) :
    Good (⟨r, .service id now kernel⟩ :: log) (r.step (.service id now kernel)).1 := by
  cases hp : r.pending.get id with
  | none =>
    have hstep : r.step (.service id now kernel) = (r, []) := by
      simp only [step, Replies.service, hp]
    refine h.unchanged hstep (fun id' p hp' => ⟨fun now' kernel' hop => ?_, by simp⟩) (by simp)
    obtain ⟨rfl, -, -⟩ := Op.service.inj hop
    cases hp.symm.trans hp'
  | some p =>
    obtain ⟨hqueued, horder, hsent, -⟩ := h.entries id p hp
    have hqueued' := hqueued.cons ⟨r, .service id now kernel⟩
    by_cases hlate : p.deadline ≤ now
    · have hstep : r.step (.service id now kernel) =
          ({ r with pending := r.pending.remove id }, [.left p (.error .timedOut)]) := by
        simp only [step, Replies.service, hp, if_pos hlate]
      exact h.removed hp hstep
        (forall_mem_singleton.mpr (eventOk_left_error hqueued' horder hsent _))
        ⟨p, _, mem_singleton_self _, .refl p⟩
    · have htried : EventOk (⟨r, .service id now kernel⟩ :: log) (.tried p now) :=
        ⟨hqueued', horder, Nat.not_le.mp hlate⟩
      obtain ⟨horder', halike, herror⟩ := Pending.push_spec horder kernel
      generalize hpush : p.push kernel = w at horder' halike herror
      obtain ⟨e | _, p'⟩ := w
      · have hstep : r.step (.service id now kernel) =
            ({ r with pending := r.pending.remove id }, [.tried p now, .left p' (.error e)]) := by
          simp only [step, Replies.service, hp, if_neg hlate, hpush]
        have hsent' : p'.sent < p'.frame.length := by
          rw [show p'.sent = p.sent from herror e rfl, show p'.frame = p.frame from halike.frame]
          exact hsent
        refine h.removed hp hstep (forall_mem_cons.mpr ⟨htried, forall_mem_singleton.mpr ?_⟩)
          ⟨p', _, mem_cons_of_mem _ (mem_singleton_self _), halike⟩
        exact eventOk_left_error (hqueued'.alike halike) horder' hsent' e
      · by_cases hmore : p'.sent < p'.frame.length
        · have hstep : r.step (.service id now kernel) =
              ({ r with pending := (r.pending.remove id).insert id p' }, [.tried p now]) := by
            simp only [step, Replies.service, hp, if_neg hlate, hpush, if_pos hmore]
          exact h.replaced hp hstep halike (Nat.not_le.mp hlate)
            (Pending.kernel_of_push (congrArg Prod.fst hpush))
            ⟨hqueued'.alike halike, horder', hmore⟩ (forall_mem_singleton.mpr htried)
        · have hstep : r.step (.service id now kernel) =
              ({ r with pending := r.pending.remove id }, [.tried p now, .left p' (.ok ())]) := by
            simp only [step, Replies.service, hp, if_neg hlate, hpush, if_neg hmore]
          refine h.removed hp hstep (forall_mem_cons.mpr ⟨htried, forall_mem_singleton.mpr ?_⟩)
            ⟨p', _, mem_cons_of_mem _ (mem_singleton_self _), halike⟩
          exact eventOk_left_ok (hqueued'.alike halike) horder'
            (Nat.le_antisymm horder'.le (Nat.not_lt.mp hmore))

theorem Good.expire (now : Instant) : Good (⟨r, .expire now⟩ :: log) (r.step (.expire now)).1 := by
  have hget : ∀ id p, ((machine S).after ⟨r, .expire now⟩).pending.get id = some p ↔
      r.pending.get id = some p ∧ now < p.deadline := by
    intro id p
    show (r.pending.retain fun _ p => now < p.deadline).get id = some p ↔ _
    rw [Table.get_retain, Option.filter_eq_some_iff, decide_eq_true_iff]
  refine h.extend _ (fun id p hp => ?_) (le_trans (Table.within_retain _ _).len_le h.bounded)
    (fun event he => ?_)
    ⟨fun id p hp _ hlate => (hget id p).mpr ⟨hp, hlate now rfl⟩, fun id p p' hp hp' => ?_,
      fun id p hp hp' => ?_, fun id p hp hends => ?_, fun id p hp hp' => ?_⟩
  · obtain ⟨hq, hrest⟩ := h.entries id p ((hget id p).mp hp).1
    exact ⟨hq.cons _, hrest⟩
  · obtain ⟨id, hid, hevent⟩ := mem_filterMap.mp he
    obtain ⟨p, hp, rfl⟩ := Option.map_eq_some_iff.mp hevent
    obtain ⟨hq, ho, hs, -⟩ := h.entries id p hp
    exact eventOk_left_error (hq.cons _) ho hs _
  · obtain rfl := Option.some.inj (hp.symm.trans ((hget id p').mp hp').1)
    exact .refl p
  · have hlate : p.deadline ≤ now := by
      by_contra hlt
      rw [(hget id p).mpr ⟨hp, Nat.not_le.mp hlt⟩] at hp'
      cases hp'
    refine ⟨p, .error .timedOut, mem_filterMap.mpr ⟨id, ?_, ?_⟩, .refl p⟩
    · exact Table.mem_select.mpr ⟨p, hp, decide_eq_true hlate⟩
    · exact Option.map_eq_some_iff.mpr ⟨p, hp, rfl⟩
  · rcases hends with ⟨now', kernel', hinput, -⟩ | ⟨now', hinput, hpassed⟩
    · cases hinput
    · obtain rfl := Op.expire.inj hinput
      refine Option.eq_none_iff_forall_ne_some.mpr fun p' hp' => ?_
      obtain ⟨hp₀, hlt⟩ := (hget id p').mp hp'
      obtain rfl := Option.mem_unique hp hp₀
      exact absurd hlt (Nat.not_lt.mpr hpassed)
  · cases hp.symm.trans ((hget id p).mp hp').1

end

theorem Runs.good {log : Log (Replies S) (Op S)} {r : Replies S} (h : Runs log r)
    (hframes : ∀ st ∈ log, ∀ stream frame now kernel, st.input = .enqueue stream frame now kernel →
      frame ≠ []) : Good log r := by
  refine Machine.Run.invariant (M := machine S) (I := fun log r =>
    (∀ st ∈ log, ∀ stream frame now kernel, st.input = .enqueue stream frame now kernel →
      frame ≠ []) → Good log r)
    ?_ ?_ ?_ h hframes
  · rintro r rfl -
    exact ⟨by simp, Nat.zero_le _, by simp, by simp⟩
  · rintro log r r' hgood rfl
    exact hgood
  · intro log r op hgood hframes
    have hlog := hgood fun st hst => hframes st (mem_cons_of_mem _ hst)
    cases op with
    | enqueue stream frame now kernel =>
      exact hlog.enqueue (hframes _ mem_cons_self _ _ _ _ rfl) stream now kernel
    | service id now kernel => exact hlog.service id now kernel
    | expire now => exact hlog.expire now

/-- **Each frame is delivered once and in order.**  In every run of the queue with frames that are
not empty: the octets a stream has accepted are the front of its frame.  An entry that waits was not
sent completely; there are at most `MAX_PENDING_REPLIES` of them, and the deadline of each is
counted from the time it was put in.  A write is tried only before the deadline, and goes on where
the last one stopped.  When an entry leaves, with success or without it, its stream has accepted all
of the frame exactly if it was a success.  An entry that is not serviced and whose deadline has not
passed when entries are expired is left as it is, and one that stays keeps its frame and its
deadline; one whose write fails or takes nothing, or whose deadline has passed, leaves.  A call that
puts a frame in makes at most one entry, and none if it has ended the frame itself; the other calls
make none. -/
theorem delivers_in_order {log : Log (Replies S) (Op S)} {r : Replies S} (h : Runs log r)
    (hframes : ∀ st ∈ log, ∀ stream frame now kernel, st.input = .enqueue stream frame now kernel →
      frame ≠ []) :
    (∀ id p, r.pending.get id = some p → p.sink.accepted = p.frame.take p.sent ∧
      p.sent < p.frame.length ∧ Queued log p) ∧
    r.pending.len ≤ maxPendingReplies ∧
    (∀ st ∈ log, ∀ p now, .tried p now ∈ (machine S).out st →
      p.sink.accepted = p.frame.take p.sent ∧ Queued log p ∧ now < p.deadline) ∧
    (∀ st ∈ log, ∀ p result, .left p result ∈ (machine S).out st →
      p.sink.accepted <+: p.frame ∧ Queued log p ∧ (p.sink.accepted = p.frame ↔ result = .ok ())) ∧
    ∀ st ∈ log, Careful st := by
  have hgood := h.good hframes
  refine ⟨fun id p hp => ?_, hgood.bounded, fun st hst p now he => ?_, fun st hst p result he => ?_,
    hgood.careful⟩
  · obtain ⟨hq, ho, hs, -⟩ := hgood.entries id p hp
    exact ⟨ho.accepted, hs, hq⟩
  · obtain ⟨hq, ho, hnow⟩ := hgood.events st hst _ he
    exact ⟨ho.accepted, hq, hnow⟩
  · obtain ⟨hq, ho, hresult⟩ := hgood.events st hst _ he
    refine ⟨ho.accepted ▸ take_prefix .., hq, ?_⟩
    rw [← hresult, ho.accepted]
    refine ⟨fun hall => ?_, fun hsent => by rw [hsent, take_length]⟩
    have hlen := congrArg List.length hall
    rwa [length_take, Nat.min_eq_left ho.le] at hlen

/-- A frame goes out in three pieces while another one fails. -/
def slowReader : List (Op ℕ) :=
  [.enqueue 7 [1, 2, 3] 0 (.ok 1), .enqueue 8 [4] 0 .wouldBlock, .service 0 5 (.ok 1),
    .service 1 6 .error, .service 0 7 (.ok 2)]

theorem delivers_in_order_slowReader :
    ∃ st ∈ ((machine ℕ).exec {} slowReader).1, ∃ p, .left p (.ok ()) ∈ (machine ℕ).out st ∧
      p.frame = [1, 2, 3] ∧
      p.sink.accepted = p.frame ∧ Queued ((machine ℕ).exec {} slowReader).1 p := by
  have hrun : Runs ((machine ℕ).exec {} slowReader).1 ((machine ℕ).exec {} slowReader).2 := by
    have h := Machine.Run.exec (M := machine ℕ) (fun _ => rfl) (.start rfl) slowReader
    rwa [append_nil] at h
  have hframes : ∀ st ∈ ((machine ℕ).exec {} slowReader).1, ∀ stream frame now kernel,
      st.input = .enqueue stream frame now kernel → frame ≠ [] := by
    intro st hst stream frame now kernel hinput
    have hmem := Machine.exec_input hst
    rw [hinput] at hmem
    simp only [slowReader, mem_cons, Op.enqueue.injEq, reduceCtorEq, not_mem_nil, or_false] at hmem
    rcases hmem with ⟨-, rfl, -⟩ | ⟨-, rfl, -⟩ <;> simp
  have hleft := (delivers_in_order hrun hframes).2.2.2.1 _ mem_cons_self
    ⟨⟨7, [1, 2, 3]⟩, [1, 2, 3], 3, secs 1⟩ (.ok ())
    (mem_cons_of_mem _ mem_cons_self)
  exact ⟨_, mem_cons_self, _, mem_cons_of_mem _ mem_cons_self, rfl, hleft.2.2.mpr rfl, hleft.2.1⟩

end Replies

end Resolvd.Daemon
