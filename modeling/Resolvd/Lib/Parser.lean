import Resolvd.Lib.Bytes

/-!
# Readers of octets

A reader takes octets from the front of what is left and returns a value or an error.  Three
statements say what a reader does, and none needs its definition again:

* `Reads p v a`: put in front of anything, the octets `v` are read as `a` and nothing behind them is touched.
* `Takes p L`: whatever `p` returns, it reads (`Reads`) from the octets it took, and these and the value satisfy `L`.
* `Stops p v e`: what is left of `v` when its end is missing makes `p` fail with `e`.

The first is for what was written, the second for what was received, the third for what was cut
short.  A reader for which the first two are known reads the same octets the same way wherever they
stand (`Reads.unique`, `Takes.of_reads`).
-/

namespace Resolvd.Lib

open List

/-- A reader: from what is left, a value and what is then left. -/
abbrev Parser (ε α : Type) := StateT Bytes (Except ε) α

namespace Parser

variable {ε ε' α β : Type} {v : Bytes}

/-- `?` into another type of errors. -/
def mapError (f : ε → ε') (p : Parser ε α) : Parser ε' α := fun bs =>
  match p bs with
  | .ok r => .ok r
  | .error e => .error (f e)

/-- `p`, and then `p` again, `n` times in all. -/
def times (p : Parser ε Unit) : ℕ → Parser ε Unit
  | 0 => pure ()
  | n + 1 => do
    p
    times p n

/-- `n` values one behind the other. -/
def many (p : Parser ε α) : ℕ → Parser ε (List α)
  | 0 => pure []
  | n + 1 => do
    let a ← p
    let as ← many p n
    return a :: as

/-! ### One call behind another -/

variable {p : Parser ε α} {f : α → Parser ε β} {bs rest : Bytes} {a : α} {b : β}

theorem pure_apply (a : α) (bs : Bytes) : (pure a : Parser ε α) bs = .ok (a, bs) := rfl

theorem throw_apply (e : ε) (bs : Bytes) : (throw e : Parser ε α) bs = .error e := rfl

theorem bind_apply_ok {mid : Bytes} (h : p bs = .ok (a, mid)) : (p >>= f) bs = f a mid := by
  show (p bs >>= fun r => f r.1 r.2) = _
  rw [h]
  rfl

theorem bind_apply_error {e : ε} (h : p bs = .error e) : (p >>= f) bs = .error e := by
  show (p bs >>= fun r => f r.1 r.2) = _
  rw [h]
  rfl

theorem bind_eq_ok :
    (p >>= f) bs = .ok (b, rest) ↔ ∃ a mid, p bs = .ok (a, mid) ∧ f a mid = .ok (b, rest) := by
  show (p bs >>= fun r => f r.1 r.2) = _ ↔ _
  cases p bs with
  | error e => simp [bind, Except.bind]
  | ok r =>
    obtain ⟨a, mid⟩ := r
    simp [bind, Except.bind]

theorem map_eq_ok {g : α → β} :
    (g <$> p) bs = .ok (b, rest) ↔ ∃ a, p bs = .ok (a, rest) ∧ g a = b := by
  show (p bs >>= fun r => .ok (g r.1, r.2)) = _ ↔ _
  cases p bs with
  | error e => simp [bind, Except.bind]
  | ok r =>
    obtain ⟨a, mid⟩ := r
    simp [bind, Except.bind, and_comm]

theorem mapError_eq_ok {g : ε → ε'} : p.mapError g bs = .ok (a, rest) ↔ p bs = .ok (a, rest) := by
  unfold mapError
  cases p bs <;> simp

/-! ### What is read of octets that were put there -/

/-- The octets `v` are read as `a`, whatever stands behind them. -/
def Reads (p : Parser ε α) (v : Bytes) (a : α) : Prop := ∀ rest, p (v ++ rest) = .ok (a, rest)

theorem Reads.pure (a : α) : Reads (pure a : Parser ε α) [] a := fun _ => rfl

theorem Reads.bind {w : Bytes} (hp : Reads p v a) (hf : Reads (f a) w b) :
    Reads (p >>= f) (v ++ w) b := by
  intro rest
  rw [append_assoc, bind_apply_ok (hp (w ++ rest)), hf rest]

theorem Reads.map (g : α → β) (hp : Reads p v a) : Reads (g <$> p) v (g a) := fun rest =>
  map_eq_ok.mpr ⟨a, hp rest, rfl⟩

theorem Reads.mapError (g : ε → ε') (hp : Reads p v a) : Reads (p.mapError g) v a := fun rest =>
  mapError_eq_ok.mpr (hp rest)

/-- Octets that are read at the front of the same string are the same octets. -/
theorem Reads.unique {v' r r' : Bytes} {a a' : α} (h : Reads p v a) (h' : Reads p v' a')
    (e : v ++ r = v' ++ r') : v = v' ∧ a = a' ∧ r = r' := by
  have hr := h r
  rw [e, h' r'] at hr
  simp only [Except.ok.injEq, Prod.mk.injEq] at hr
  obtain ⟨rfl, rfl⟩ := hr
  exact ⟨append_cancel_right e, rfl, rfl⟩

theorem Reads.times {p : Parser ε Unit} {w : Bytes} {n : ℕ} (h : Reads p v ())
    (hn : Reads (times p n) w ()) : Reads (p.times (n + 1)) (v ++ w) () :=
  h.bind hn

theorem Reads.many {vs : List Bytes} {as : List α} (h : List.Forall₂ (Reads p) vs as) :
    Reads (p.many vs.length) vs.flatten as := by
  induction h with
  | nil => exact Reads.pure []
  | @cons v a vs as hv _ ih =>
    have := hv.bind (f := fun a => do return a :: (← p.many vs.length))
      (ih.bind (Reads.pure (a :: as)))
    simpa [Parser.many] using this

/-! ### What was taken -/

/-- Whatever `p` returns, it reads from the octets it took; these and the value satisfy `L`. -/
def Takes (p : Parser ε α) (L : Bytes → α → Prop) : Prop :=
  ∀ ⦃bs a rest⦄, p bs = .ok (a, rest) → ∃ v, bs = v ++ rest ∧ Reads p v a ∧ L v a

variable {L : Bytes → α → Prop} {M : α → Bytes → β → Prop}

theorem Takes.of_reads (h : Takes p L) (hr : Reads p v a) : L v a := by
  obtain ⟨v', e, -, hL⟩ := h (hr [])
  rw [append_cancel_right e]
  exact hL

theorem Takes.mono {L' : Bytes → α → Prop} (h : Takes p L) (hL : ∀ v a, L v a → L' v a) :
    Takes p L' := by
  intro bs a rest hp
  obtain ⟨v, rfl, hr, hv⟩ := h hp
  exact ⟨v, rfl, hr, hL v a hv⟩

theorem Takes.pure (a : α) : Takes (pure a : Parser ε α) (fun v b => v = [] ∧ b = a) := by
  intro bs b rest h
  obtain ⟨rfl, rfl⟩ : a = b ∧ bs = rest := by simpa [pure_apply] using h
  exact ⟨[], rfl, Reads.pure a, rfl, rfl⟩

theorem Takes.throw (e : ε) (L : Bytes → α → Prop) : Takes (throw e : Parser ε α) L := by
  intro bs a rest h
  simp [throw_apply] at h

theorem Takes.bind (hp : Takes p L) (hf : ∀ a, Takes (f a) (M a)) :
    Takes (p >>= f) (fun v b => ∃ a v₁ v₂, v = v₁ ++ v₂ ∧ L v₁ a ∧ M a v₂ b) := by
  intro bs b rest h
  obtain ⟨a, mid, h1, h2⟩ := bind_eq_ok.mp h
  obtain ⟨v₁, rfl, hr₁, hL⟩ := hp h1
  obtain ⟨v₂, rfl, hr₂, hM⟩ := hf a h2
  exact ⟨v₁ ++ v₂, (append_assoc ..).symm, hr₁.bind hr₂, a, v₁, v₂, rfl, hL, hM⟩

theorem Takes.map (g : α → β) (hp : Takes p L) :
    Takes (g <$> p) (fun v b => ∃ a, g a = b ∧ L v a) := by
  intro bs b rest h
  obtain ⟨a, h1, rfl⟩ := map_eq_ok.mp h
  obtain ⟨v, rfl, hr, hL⟩ := hp h1
  exact ⟨v, rfl, hr.map g, a, rfl, hL⟩

theorem Takes.reads_of_map {g : α → β} (hp : Takes p L) (h : Reads (g <$> p) v b) :
    ∃ a, Reads p v a ∧ g a = b := by
  obtain ⟨a, ha, hg⟩ := map_eq_ok.mp (h [])
  obtain ⟨w, e, hr, -⟩ := hp ha
  rw [append_cancel_right e]
  exact ⟨a, hr, hg⟩

theorem Takes.mapError (g : ε → ε') (hp : Takes p L) : Takes (p.mapError g) L := by
  intro bs a rest h
  obtain ⟨v, rfl, hr, hL⟩ := hp (mapError_eq_ok.mp h)
  exact ⟨v, rfl, hr.mapError g, hL⟩

theorem Takes.many (hp : Takes p L) (n : ℕ) :
    Takes (p.many n) (fun v as => ∃ vs, v = vs.flatten ∧ as.length = n ∧ List.Forall₂ L vs as ∧
      List.Forall₂ (Reads p) vs as) := by
  induction n with
  | zero =>
    refine (Takes.pure []).mono ?_
    rintro v as ⟨rfl, rfl⟩
    exact ⟨[], rfl, rfl, .nil, .nil⟩
  | succ n ih =>
    have hp' : Takes p (fun v a => L v a ∧ Reads p v a) := by
      intro bs a rest h
      obtain ⟨v, e, hr, hL⟩ := hp h
      exact ⟨v, e, hr, hL, hr⟩
    refine (hp'.bind fun a => ih.bind fun as => Takes.pure (a :: as)).mono ?_
    rintro v as ⟨a, v₁, w, rfl, ⟨hL, hr⟩, as', v₂, v₃, rfl, ⟨vs, rfl, rfl, hLs, hrs⟩, rfl, rfl⟩
    exact ⟨v₁ :: vs, by simp, rfl, .cons hL hLs, .cons hr hrs⟩

/-! ### What is cut short -/

/-- On what is left of `v` when something at its end is missing, `p` fails with `e`. -/
def Stops (p : Parser ε α) (v : Bytes) (e : ε) : Prop :=
  ∀ ⦃u w⦄, v = u ++ w → w ≠ [] → p u = .error e

section Stops

variable {v w : Bytes} {e : ε}

theorem Stops.nil : Stops p [] e := by
  intro u w h hw
  simp at h
  exact absurd h.2 hw

theorem Stops.bind_left (h : Stops p v e) : Stops (p >>= f) v e :=
  fun _ _ hv hw => bind_apply_error (h hv hw)

theorem Stops.bind (hp : Reads p v a) (h : Stops p v e) (hf : Stops (f a) w e) :
    Stops (p >>= f) (v ++ w) e := by
  intro x y hxy hy
  -- What is missing begins in `v` or behind it.
  rcases append_eq_append_iff.mp hxy with ⟨z, rfl, hz⟩ | ⟨z, hz, rfl⟩
  · rw [bind_apply_ok (hp z)]
    exact hf hz hy
  · by_cases hz' : z = []
    · subst hz'
      rw [append_nil] at hz
      rw [← hz, ← append_nil v, bind_apply_ok (hp [])]
      exact hf rfl hy
    · exact bind_apply_error (h hz hz')

theorem Stops.map (g : α → β) (h : Stops p v e) : Stops (g <$> p) v e := by
  rw [map_eq_pure_bind]
  exact h.bind_left

theorem Stops.times {p : Parser ε Unit} {n : ℕ} (hp : Reads p v ()) (h : Stops p v e)
    (hn : Stops (p.times n) w e) : Stops (p.times (n + 1)) (v ++ w) e :=
  h.bind hp hn

end Stops

end Parser

end Resolvd.Lib
