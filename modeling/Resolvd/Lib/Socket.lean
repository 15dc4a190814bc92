import Mathlib.Data.List.Basic
import Mathlib.Data.Nat.Notation
import Mathlib.Tactic.Common

/-!
# Reading from a nonblocking stream

A `Socket` is a stream as its reader sees it: what the peer has sent or is going to send and was not
read yet, and how the reads were answered so far.  A read says how much room it has; how the kernel
takes it is an `Attempt`.

`fill` is the loop that reads into a buffer until the buffer is full, the stream has ended or
failed, or the next read would block.  What full means is up to the caller: `room` says how much the
next read may take.  `fill_spec` says what the loop did in terms of the answers it got, and
`fill_invariant` is its invariant rule.
-/

namespace Resolvd.Lib

open List

/-- The result of a system call on a nonblocking socket. -/
inductive Io (α : Type) where
  | ok (a : α)
  | wouldBlock
  | interrupted
  | error
  deriving DecidableEq

/-- How the kernel takes a read. -/
inductive Attempt where
  /-- up to `n + 1` octets have come, or the end of the stream -/
  | ready (n : ℕ)
  | wouldBlock
  | interrupted
  | error

/-- A stream. -/
structure Socket (α : Type) where
  unread : List α
  /-- the answers to the reads so far -/
  answers : List (Io (List α)) := []

variable {α : Type}

/-! ### Answers -/

/-- The octets an answer has. -/
def Io.chunk : Io (List α) → List α
  | .ok chunk => chunk
  | _ => []

/-- The octets that were read. -/
def delivered (answers : List (Io (List α))) : List α := answers.flatMap Io.chunk

@[simp] theorem delivered_nil : delivered ([] : List (Io (List α))) = [] := rfl

@[simp] theorem delivered_cons (a : Io (List α)) (as : List (Io (List α))) :
    delivered (a :: as) = a.chunk ++ delivered as := rfl

@[simp] theorem delivered_append (as bs : List (Io (List α))) :
    delivered (as ++ bs) = delivered as ++ delivered bs := by
  simp [delivered]

/-- The answer is that the stream has ended or has failed. -/
def Io.Ends : Io (List α) → Prop
  | .ok chunk => chunk = []
  | .error => True
  | _ => False

instance [DecidableEq α] (a : Io (List α)) : Decidable a.Ends :=
  match a with
  | .ok chunk => inferInstanceAs (Decidable (chunk = []))
  | .error => isTrue trivial
  | .wouldBlock => isFalse not_false
  | .interrupted => isFalse not_false

namespace Socket

/-- All that was read. -/
def received (s : Socket α) : List α := delivered s.answers

/-- The stream has ended, or has failed. -/
def Ended (s : Socket α) : Prop := ∃ a ∈ s.answers, a.Ends

/-- `read`, with room for so many octets. -/
def read (s : Socket α) (room : ℕ) (attempt : Attempt) : Io (List α) × Socket α :=
  let (answer, unread) := match attempt with
    | .ready n => (Io.ok (s.unread.take (min (n + 1) room)), s.unread.drop (min (n + 1) room))
    | .wouldBlock => (.wouldBlock, s.unread)
    | .interrupted => (.interrupted, s.unread)
    | .error => (.error, s.unread)
  (answer, ⟨unread, s.answers ++ [answer]⟩)

/-- A read takes from the front of what is unread, no more than there is room for. -/
theorem read_spec (s : Socket α) (room : ℕ) (attempt : Attempt) :
    (s.read room attempt).2.answers = s.answers ++ [(s.read room attempt).1] ∧
      s.unread = (s.read room attempt).1.chunk ++ (s.read room attempt).2.unread ∧
      (s.read room attempt).1.chunk.length ≤ room := by
  cases attempt with
  | ready n =>
    refine ⟨rfl, (take_append_drop _ _).symm, ?_⟩
    simp only [read, Io.chunk, length_take]
    omega
  | wouldBlock => exact ⟨rfl, rfl, Nat.zero_le _⟩
  | interrupted => exact ⟨rfl, rfl, Nat.zero_le _⟩
  | error => exact ⟨rfl, rfl, Nat.zero_le _⟩

end Socket

/-! ### The loop -/

/-- Why a loop of reads is left. -/
inductive Stop where
  | full
  | eof
  | blocked
  | failed
  deriving DecidableEq

/-- The loop is left because the stream has come to its end, or has failed. -/
def Stop.Ends : Stop → Prop
  | .eof | .failed => True
  | .full | .blocked => False

variable {stop : Stop}

theorem Stop.ends_iff : stop.Ends ↔ stop = .eof ∨ stop = .failed := by
  cases stop <;> simp [Stop.Ends]

/-- The loop of reads into a buffer, with room for `room buf` octets behind the octets `buf`.  When
there are no attempts left, the next read would block. -/
def fill (room : List α → ℕ) : List Attempt → List α → Socket α → Stop × List α × Socket α
  | [], buf, s =>
    if room buf = 0 then (.full, buf, s) else (.blocked, buf, (s.read (room buf) .wouldBlock).2)
  | attempt :: attempts, buf, s =>
    if room buf = 0 then (.full, buf, s)
    else match s.read (room buf) attempt with
      | (.ok [], s) => (.eof, buf, s)
      | (.ok chunk, s) => fill room attempts (buf ++ chunk) s
      | (.wouldBlock, s) => (.blocked, buf, s)
      | (.interrupted, s) => fill room attempts buf s
      | (.error, s) => (.failed, buf, s)

/-- What a loop of reads did: the octets of the answers it got are in the buffer, and no longer
unread. -/
structure Fills (room : List α → ℕ) (buf : List α) (s : Socket α) (stop : Stop) (buf' : List α)
    (s' : Socket α) (new : List (Io (List α))) : Prop where
  answers : s'.answers = s.answers ++ new
  buf_eq : buf' = buf ++ delivered new
  unread : s.unread = delivered new ++ s'.unread
  full : stop = .full ↔ room buf' = 0
  ends : stop.Ends ↔ ∃ a ∈ new, a.Ends
  failed : stop = .failed ↔ .error ∈ new

theorem Fills.cons {room : List α → ℕ} {buf buf' : List α} {s s₁ s' : Socket α} {a : Io (List α)}
    {new : List (Io (List α))} (hanswers : s₁.answers = s.answers ++ [a])
    (hunread : s.unread = a.chunk ++ s₁.unread) (ha : ¬ a.Ends)
    (h : Fills room (buf ++ a.chunk) s₁ stop buf' s' new) :
    Fills room buf s stop buf' s' (a :: new) where
  answers := by rw [h.answers, hanswers, append_assoc, singleton_append]
  buf_eq := by rw [h.buf_eq, delivered_cons, append_assoc]
  unread := by rw [hunread, h.unread, delivered_cons, append_assoc]
  full := h.full
  ends := by simp [h.ends, ha]
  failed := by
    have : a ≠ .error := by
      rintro rfl
      exact ha trivial
    simp [h.failed, this.symm]

theorem Fills.last {room : List α → ℕ} {buf : List α} {s s' : Socket α} {a : Io (List α)}
    (hanswers : s'.answers = s.answers ++ [a]) (hunread : s.unread = a.chunk ++ s'.unread)
    (ha : a.chunk = []) (hroom : room buf ≠ 0) (hfull : stop ≠ .full) (hends : stop.Ends ↔ a.Ends)
    (hfailed : stop = .failed ↔ a = .error) : Fills room buf s stop buf s' [a] where
  answers := hanswers
  buf_eq := by simp [ha]
  unread := by simpa using hunread
  full := by simp [hfull, hroom]
  ends := by simp [hends]
  failed := by simp [hfailed, eq_comm]

theorem fill_of_full {room : List α → ℕ} {buf : List α} (attempts : List Attempt) (s : Socket α)
    (hroom : room buf = 0) : fill room attempts buf s = (.full, buf, s) := by
  cases attempts <;> exact if_pos hroom

theorem Fills.full_now {room : List α → ℕ} {buf : List α} {s : Socket α} (hroom : room buf = 0) :
    Fills room buf s .full buf s [] :=
  ⟨by simp, by simp, by simp, by simp [hroom], by simp [Stop.Ends], by simp⟩

/-- **What the loop did.** -/
theorem fill_spec (room : List α → ℕ) (attempts : List Attempt) (buf : List α) (s : Socket α) :
    ∃ new, Fills room buf s (fill room attempts buf s).1 (fill room attempts buf s).2.1
      (fill room attempts buf s).2.2 new := by
  induction attempts generalizing buf s with
  | nil =>
    by_cases hroom : room buf = 0
    · rw [fill_of_full _ s hroom]
      exact ⟨[], .full_now hroom⟩
    · have hfill : fill room [] buf s = (.blocked, buf, (s.read (room buf) .wouldBlock).2) := by
        rw [fill, if_neg hroom]
      rw [hfill]
      exact ⟨[.wouldBlock], .last rfl rfl rfl hroom (by simp) (by simp [Stop.Ends, Io.Ends])
        (by simp)⟩
  | cons attempt attempts ih =>
    by_cases hroom : room buf = 0
    · rw [fill_of_full _ s hroom]
      exact ⟨[], .full_now hroom⟩
    · rw [fill, if_neg hroom]
      obtain ⟨hanswers, hunread, -⟩ := s.read_spec (room buf) attempt
      generalize s.read (room buf) attempt = r at hanswers hunread ⊢
      obtain ⟨a, s₁⟩ := r
      split
      · next h =>
        cases h
        exact ⟨_, .last hanswers hunread rfl hroom (by simp) (by simp [Stop.Ends, Io.Ends])
          (by simp)⟩
      · next chunk s₁' hne h =>
        cases h
        obtain ⟨new, hnew⟩ := ih (buf ++ chunk) s₁
        exact ⟨_, .cons hanswers hunread hne hnew⟩
      · next h =>
        cases h
        exact ⟨_, .last hanswers hunread rfl hroom (by simp) (by simp [Stop.Ends, Io.Ends])
          (by simp)⟩
      · next h =>
        cases h
        obtain ⟨new, hnew⟩ := ih buf s₁
        exact ⟨_, .cons hanswers hunread (fun hc => hc)
          (by simpa only [Io.chunk, append_nil] using hnew)⟩
      · next h =>
        cases h
        exact ⟨_, .last hanswers hunread rfl hroom (by simp) (by simp [Stop.Ends, Io.Ends])
          (by simp)⟩

/-- A reader between two loops: its buffer has all that was read, and the stream goes on. -/
structure Reading (buf : List α) (s : Socket α) : Prop where
  received : s.received = buf
  goesOn : ¬ s.Ended

theorem reading_nil (unread : List α) : Reading [] ⟨unread, []⟩ := ⟨rfl, by simp [Socket.Ended]⟩

theorem Reading.read {buf : List α} {s : Socket α} (h : Reading buf s) (room : ℕ)
    (attempt : Attempt) :
    (s.read room attempt).2.received = buf ++ (s.read room attempt).1.chunk ∧
      ((s.read room attempt).2.Ended ↔ (s.read room attempt).1.Ends) ∧
      (s.read room attempt).2.received ++ (s.read room attempt).2.unread = s.received ++
        s.unread := by
  obtain ⟨hanswers, hunread, -⟩ := s.read_spec room attempt
  generalize s.read room attempt = r at hanswers hunread ⊢
  have hreceived : r.2.received = s.received ++ r.1.chunk := by
    rw [Socket.received, hanswers, delivered_append, Socket.received]
    simp
  refine ⟨by rw [hreceived, h.received], ?_, by rw [hreceived, hunread, append_assoc]⟩
  rw [Socket.Ended, hanswers]
  constructor
  · rintro ⟨a, ha, hends⟩
    rcases mem_append.mp ha with hold | hnew
    · exact absurd ⟨a, hold, hends⟩ h.goesOn
    · exact mem_singleton.mp hnew ▸ hends
  · exact fun hends => ⟨_, mem_append_right _ (mem_singleton_self _), hends⟩

namespace Fills

variable {room : List α → ℕ} {buf buf' : List α} {s s' : Socket α} {stop : Stop}
  {new : List (Io (List α))}

section

variable (h : Fills room buf s stop buf' s' new)
include h

theorem received_eq : s'.received = s.received ++ delivered new := by
  rw [Socket.received, h.answers, delivered_append, Socket.received]

theorem received (hr : Reading buf s) : s'.received = buf' := by
  rw [h.received_eq, hr.received, h.buf_eq]

theorem ended_iff (hs : ¬ s.Ended) : s'.Ended ↔ stop.Ends := by
  rw [h.ends, Socket.Ended, h.answers]
  constructor
  · rintro ⟨a, ha, hends⟩
    rcases mem_append.mp ha with hold | hnew
    · exact absurd ⟨a, hold, hends⟩ hs
    · exact ⟨a, hnew, hends⟩
  · rintro ⟨a, ha, hends⟩
    exact ⟨a, mem_append_right _ ha, hends⟩

theorem failed_iff (hs : ¬ s.Ended) : .error ∈ s'.answers ↔ stop = .failed := by
  rw [h.failed, h.answers, mem_append, or_iff_right]
  exact fun hold => hs ⟨.error, hold, trivial⟩

/-- What was read is off the front of what was unread. -/
theorem stream : s'.received ++ s'.unread = s.received ++ s.unread := by
  rw [h.received_eq, h.unread, append_assoc]

end

end Fills

/-- **The invariant rule of the loop.**  What a read keeps that had no more room than it was given,
the loop keeps. -/
theorem fill_invariant {room : List α → ℕ} {P : List α → Prop}
    (hread : ∀ buf chunk, P buf → room buf ≠ 0 → chunk.length ≤ room buf → P (buf ++ chunk))
    (attempts : List Attempt) {buf : List α} (s : Socket α) (h : P buf) :
    P (fill room attempts buf s).2.1 := by
  induction attempts generalizing buf s with
  | nil =>
    rw [fill]
    split <;> exact h
  | cons attempt attempts ih =>
    rw [fill]
    split
    · exact h
    · next hroom =>
      obtain ⟨-, -, hlen⟩ := s.read_spec (room buf) attempt
      split
      · exact h
      · next heq =>
        rw [heq] at hlen
        exact ih _ (hread _ _ h hroom hlen)
      · exact h
      · exact ih _ h
      · exact h

end Resolvd.Lib
