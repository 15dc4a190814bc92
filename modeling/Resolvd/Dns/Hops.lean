import Mathlib.Data.Prod.Lex
import Resolvd.Dns.Wire
import Resolvd.Lib.Run

/-!
# The hops of `Name::read`

A pointer leads to an earlier position, but the labels there lead forward again, past the pointer or
onto it.  So the position alone does not go down.  What does is the rest of the 255 octets, and at
the same rest the position: a label uses some of the rest, and a pointer, which uses nothing, goes
back.  The loop returns by that alone, whether the pointers are counted or not
(`read_returns_uncounted`).
-/

namespace Resolvd.Dns

open Lib

/-- The variables of the loop of `Name::read`. -/
structure Reading where
  p : ℕ
  total : ℕ := 0
  hops : ℕ := 0
  labels : List Bytes := []
  fin : Option ℕ := none
  deriving DecidableEq

/-- One turn of the loop of `Name::read`, with the limit of its pointers or without one. -/
def Reading.turn (limit : Option ℕ) (msg : Bytes) (s : Reading) :
    Reading ⊕ Result Error (List Bytes × ℕ) :=
  match msg[s.p]? with
  | none => .inr (.error (.err .truncated))
  | some b =>
    if b.toNat &&& 0xC0 = 0x00 then
      if b.toNat = 0 then .inr (.ok (s.labels, s.fin.getD (s.p + 1)))
      else
        match slice? msg (s.p + 1) (s.p + 1 + b.toNat) with
        | none => .inr (.error (.err .truncated))
        | some label =>
          if s.total + (b.toNat + 1) + 1 > maxNameLen then .inr (.error (.err .nameTooLong))
          else .inl { s with
            p := s.p + 1 + b.toNat, total := s.total + (b.toNat + 1), labels :=
              s.labels ++ [label] }
    else if b.toNat &&& 0xC0 = 0xC0 then
      match msg[s.p + 1]? with
      | none => .inr (.error (.err .truncated))
      | some lo =>
        if ((b.toNat &&& 0x3F) <<< 8) ||| lo.toNat ≥ s.p then .inr (.error (.err .badPointer))
        else if limit.any fun most => s.hops + 1 > most then .inr (.error (.err .badPointer))
        else .inl { s with
          p := ((b.toNat &&& 0x3F) <<< 8) ||| lo.toNat, hops := s.hops + 1, fin :=
            some (s.fin.getD (s.p + 2)) }
    else .inr (.error (.err .badLabel))

namespace Reading

variable {limit : Option ℕ} {msg : Bytes} {s s' : Reading}

/-- The rest of the octets of a name, and the position. -/
def measure (s : Reading) : ℕ × ℕ := (255 - s.total, s.p)

/-- **What a turn that goes on does**: a label takes some of the rest, a pointer goes back. -/
theorem turn_cases (h : turn limit msg s = .inl s') :
    s'.total + 1 ≤ 255 ∧ s.total < s'.total ∨ s'.total = s.total ∧ s'.p < s.p := by
  unfold turn at h
  split at h
  · cases h
  · split at h
    · split at h
      · cases h
      · split at h
        · cases h
        · split at h
          · cases h
          · next hfit =>
            obtain rfl := Sum.inl.inj h
            simp only [maxNameLen] at hfit
            left
            dsimp only
            omega
    · split at h
      · split at h
        · cases h
        · split at h
          · cases h
          · next hback =>
            split at h
            · cases h
            · obtain rfl := Sum.inl.inj h
              right
              exact ⟨rfl, not_le.mp hback⟩
      · cases h

/-- **Every turn goes down.** -/
theorem turn_lt (h : turn limit msg s = .inl s') :
    Prod.Lex (· < ·) (· < ·) s'.measure s.measure := by
  rcases turn_cases h with ⟨hfit, hlt⟩ | ⟨htotal, hlt⟩
  · exact Prod.Lex.left _ _ (by omega)
  · unfold measure
    rw [htotal]
    exact Prod.Lex.right _ hlt

theorem turns_returns (limit : Option ℕ) (msg : Bytes) (s : Reading) :
    ∃ n r, turns (turn limit msg) n s = .inr r :=
  exists_turns_eq_inr (InvImage.wf measure (Prod.lex ⟨_, Nat.lt_wfRel.wf⟩ ⟨_, Nat.lt_wfRel.wf⟩).wf)
    (fun _ _ => turn_lt) s

/-! ### The loop of the code -/

/-- The result of the rest of the loop, behind the labels it has. -/
def behind (labels : List Bytes) : Result Error (List Bytes × ℕ) → Result Error (List Bytes × ℕ)
  | .ok (rest, next) => .ok (labels ++ rest, next)
  | .error e => .error e

/-- A pointer back is followed unless it is one too many. -/
theorem turn_pointer {b lo : UInt8} (hb : msg[s.p]? = some b) (h0 : ¬ b.toNat &&& 0xC0 = 0)
    (hc : b.toNat &&& 0xC0 = 0xC0) (hlo : msg[s.p + 1]? = some lo)
    (hback : ¬ ((b.toNat &&& 0x3F) <<< 8) ||| lo.toNat ≥ s.p) :
    turn limit msg s =
      if limit.any fun most => s.hops + 1 > most then .inr (.error (.err .badPointer))
      else .inl { s with
        p := ((b.toNat &&& 0x3F) <<< 8) ||| lo.toNat, hops := s.hops + 1, fin :=
          some (s.fin.getD (s.p + 2)) } := by
  simp only [turn, hb, if_neg h0, if_pos hc, hlo, if_neg hback]

/-- `readLabels` is the loop with the limit of 64. -/
theorem turns_readLabels (msg : Bytes) (p total hops : ℕ) (fin : Option ℕ) (labels : List Bytes) :
    ∃ n, turns (turn (some 64) msg) n ⟨p, total, hops, labels, fin⟩ =
      .inr (behind labels (readLabels msg p total hops fin)) := by
  fun_induction readLabels msg p total hops fin generalizing labels with
  | case1 p total hops fin hb => exact ⟨1, turns_inr (by simp [turn, hb, behind])⟩
  | case2 p total hops fin b hb h0 hz => exact ⟨1, turns_inr (by simp [turn, hb, hz, behind])⟩
  | case3 p total hops fin b hb h0 hz hl =>
    exact ⟨1, turns_inr (by simp [turn, hb, h0, hz, hl, behind])⟩
  | case4 p total hops fin b hb h0 hz label hl hlong =>
    exact ⟨1, turns_inr (by simp [turn, hb, h0, hz, hl, hlong, behind])⟩
  | case5 p total hops fin b hb h0 hz label hl hfit rest next hrec ih =>
    obtain ⟨n, hn⟩ := ih (labels ++ [label])
    refine ⟨n + 1, (turns_inl ?_ n).trans (hn.trans ?_)⟩
    · simp [turn, hb, h0, hz, hl, hfit]
    · simp [hrec, behind]
  | case6 p total hops fin b hb h0 hz label hl hfit e hrec ih =>
    obtain ⟨n, hn⟩ := ih (labels ++ [label])
    refine ⟨n + 1, (turns_inl ?_ n).trans (hn.trans ?_)⟩
    · simp [turn, hb, h0, hz, hl, hfit]
    · simp [hrec, behind]
  | case7 p total hops fin b hb h0 hc hlo =>
    exact ⟨1, turns_inr (by simp [turn, hb, hc, hlo, behind])⟩
  | case8 p total hops fin b hb h0 hc lo hlo hback =>
    exact ⟨1, turns_inr (by simp [turn, hb, hc, hlo, hback, behind])⟩
  | case9 p total hops fin b hb h0 hc lo hlo hback hhops =>
    refine ⟨1, turns_inr ?_⟩
    rw [turn_pointer hb h0 hc hlo hback, if_pos (by simpa using hhops), behind]
  | case10 p total hops fin b hb h0 hc lo hlo hback hhops ih =>
    obtain ⟨n, hn⟩ := ih labels
    refine ⟨n + 1, (turns_inl ?_ n).trans hn⟩
    rw [turn_pointer hb h0 hc hlo hback, if_neg (by simpa using hhops)]
  | case11 p total hops fin b hb h0 hc => exact ⟨1, turns_inr (by simp [turn, hb, h0, hc, behind])⟩

/-- The limit is felt as a bad pointer only. -/
theorem turn_unlimited {x : Reading ⊕ Result Error (List Bytes × ℕ)} (h : turn limit msg s = x)
    (hx : x ≠ .inr (.error (.err .badPointer))) : turn none msg s = x := by
  subst h
  unfold turn at hx ⊢
  split
  · rfl
  · split
    · rfl
    · split
      · split
        · rfl
        · split
          · rfl
          · next hb h0 hc _ lo hlo hback =>
            -- the one branch that looks at the limit
            by_cases hmost : limit.any fun most => s.hops + 1 > most
            · simp only [hb, hc, hlo, hback, hmost, if_true, if_false] at hx
              exact absurd rfl hx
            · rw [if_neg hmost]
              rfl
      · rfl

theorem turns_unlimited {n : ℕ} {r : Result Error (List Bytes × ℕ)}
    (h : turns (turn limit msg) n s = .inr r) (hr : r ≠ .error (.err .badPointer)) :
    turns (turn none msg) n s = .inr r := by
  induction n generalizing s with
  | zero => cases h
  | succ n ih =>
    cases ht : turn limit msg s with
    | inl s' =>
      rw [turns_inl ht] at h
      rw [turns_inl (turn_unlimited ht (by simp))]
      exact ih h
    | inr r' =>
      rw [turns, ht] at h
      obtain rfl := Sum.inr.inj h
      rw [turns, turn_unlimited ht (by simpa using hr)]

end Reading

/-- **`Name::read` returns without counting its pointers.**  Every turn of the loop goes down in
(rest of the 255 octets, position); so the loop returns from every position of every message.  The
loop of the code is this loop with a limit, and returns the same unless it says that a pointer is
bad.  Messages whose pointers lead onto themselves again, or to labels that reach past them, are
among them. -/
theorem read_returns_uncounted :
    (∀ msg s s', Reading.turn none msg s = .inl s' →
      Prod.Lex (· < ·) (· < ·) (255 - s'.total, s'.p) (255 - s.total, s.p)) ∧
    (∀ msg pos, ∃ n r, turns (Reading.turn none msg) n { p := pos } = .inr r) ∧
    (∀ msg pos, ∃ n, turns (Reading.turn (some 64) msg) n { p := pos } = .inr
      (readLabels msg pos 0 0 none)) ∧
    (∀ msg pos, readLabels msg pos 0 0 none ≠ .error (.err .badPointer) →
      ∃ n, turns (Reading.turn none msg) n { p := pos } = .inr (readLabels msg pos 0 0 none)) ∧
    (∃ msg pos s, turns (Reading.turn none msg) 2 { p := pos } = .inl s ∧ 1 ≤ s.hops ∧ s.p = pos) ∧
    ∃ msg pos s, turns (Reading.turn none msg) 2 { p := pos } = .inl s ∧ 1 ≤ s.hops ∧
      pos + 2 ≤ s.p := by
  have hcode : ∀ msg pos, ∃ n, turns (Reading.turn (some 64) msg) n { p := pos } =
      .inr (readLabels msg pos 0 0 none) := fun msg pos => by
    obtain ⟨n, hn⟩ := Reading.turns_readLabels msg pos 0 0 none []
    refine ⟨n, hn.trans ?_⟩
    rcases readLabels msg pos 0 0 none with _ | ⟨_, _⟩ <;> rfl
  refine ⟨fun msg s s' => Reading.turn_lt, fun msg pos => Reading.turns_returns none msg _, hcode,
    ?_, ?_, ?_⟩
  · intro msg pos hgood
    obtain ⟨n, hn⟩ := hcode msg pos
    exact ⟨n, Reading.turns_unlimited hn hgood⟩
  · -- a label of one octet, and a pointer to it
    exact ⟨[1, 0x61, 0xC0, 0], 2, ⟨2, 2, 1, [[0x61]], some 4⟩, by decide, by decide, rfl⟩
  · -- a pointer that is the label at its target
    exact ⟨[2, 0xC0, 0, 0], 1, ⟨3, 3, 1, [[0xC0, 0]], some 3⟩, by decide, by decide, by decide⟩

/-- A pointer that leads onto itself again, and a name without pointers. -/
theorem read_returns_uncounted_circle :
    (∃ n r, turns (Reading.turn none [1, 0x61, 0xC0, 0]) n { p := 2 } = .inr r) ∧
    Prod.Lex (· < ·) (· < ·) (255 - 0, 0) (255 - 0, 2) ∧
    ∃ n, turns (Reading.turn none [1, 0x61, 0]) n { p := 0 } = .inr
      (readLabels [1, 0x61, 0] 0 0 0 none) := by
  obtain ⟨hlt, hreturns, -, hsame, -, -⟩ := read_returns_uncounted
  refine ⟨hreturns _ 2, hlt [1, 0x61, 0xC0, 0] { p := 2 } ⟨0, 0, 1, [], some 4⟩ (by decide),
    hsame _ 0 ?_⟩
  have hroot : readLabels [1, 0x61, 0] 2 2 0 none = .ok ([], 3) := readLabels_root rfl
  rw [readLabels_label (b := 1) rfl (by decide) (by decide) rfl (by decide) hroot]
  simp

end Resolvd.Dns
