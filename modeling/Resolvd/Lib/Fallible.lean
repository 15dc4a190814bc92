import Resolvd.Lib.Bytes

/-!
# Computations that fail or panic

A call either returns, returns an error of type `ε`, or panics: an index or a slice copy was out of
range.  `Fault ε` is the two ways of not returning, `Result ε` the monad, and the rules below take a
`do` block apart one bind at a time.  `Safe` says that a computation does not panic.

`readMany` reads a number of items one behind the other.  What it does to a list follows from what
the reader does to one item: `readMany_wire` for reading back what was written, `readMany_spec` for
what was read.
-/

namespace Resolvd.Lib

/-- How a call ends without a value. -/
inductive Fault (ε : Type) where
  | err (e : ε)
  | panic
  deriving DecidableEq, Repr

abbrev Result (ε α : Type) := Except (Fault ε) α

variable {ε α β : Type}

/-- `o.ok_or(e)?`. -/
def okOr (o : Option α) (e : ε) : Result ε α :=
  match o with
  | some a => .ok a
  | none => .error (.err e)

/-- `bs[i]`: an index out of range panics. -/
def index (bs : Bytes) (i : ℕ) : Result ε UInt8 :=
  match bs[i]? with
  | some b => .ok b
  | none => .error .panic

theorem bind_eq_ok {x : Result ε α} {f : α → Result ε β} {b : β} :
    (x >>= f) = .ok b ↔ ∃ a, x = .ok a ∧ f a = .ok b := by
  cases x with
  | error e => simp [bind, Except.bind]
  | ok a => simp [bind, Except.bind]

@[simp] theorem ok_bind (a : α) (f : α → Result ε β) : ((.ok a : Result ε α) >>= f) = f a := rfl

@[simp] theorem pure_eq_ok (a : α) : (pure a : Result ε α) = .ok a := rfl

@[simp] theorem okOr_eq_ok {o : Option α} {e : ε} {a : α} : okOr o e = .ok a ↔ o = some a := by
  cases o <;> simp [okOr]

@[simp] theorem okOr_some (a : α) (e : ε) : okOr (some a) e = .ok a := rfl

@[simp] theorem index_eq_ok {bs : Bytes} {i : ℕ} {b : UInt8} :
    (index bs i : Result ε UInt8) = .ok b ↔ bs[i]? = some b := by
  unfold index
  cases bs[i]? <;> simp

/-! ### Not panicking -/

/-- The computation returns a value or an error. -/
def Safe (x : Result ε α) : Prop := x ≠ .error .panic

theorem Safe.ok (a : α) : Safe (.ok a : Result ε α) := by simp [Safe]

theorem Safe.err (e : ε) : Safe (.error (.err e) : Result ε α) := by simp [Safe]

theorem Safe.okOr (o : Option α) (e : ε) : Safe (okOr o e) := by
  cases o <;> simp [Safe, Lib.okOr]

theorem Safe.index {bs : Bytes} {i : ℕ} (h : i < bs.length) :
    Safe (index bs i : Result ε UInt8) := by
  simp [Safe, Lib.index, h]

theorem Safe.bind {x : Result ε α} {f : α → Result ε β} (hx : Safe x)
    (hf : ∀ a, x = .ok a → Safe (f a)) : Safe (x >>= f) := by
  cases x with
  | error e =>
    intro h
    exact hx (by simpa [Bind.bind, Except.bind] using h)
  | ok a => exact hf a rfl

/-! ### Items one behind the other -/

/-- `count` items from position `p` on, and the position after the last. -/
def readMany (read : ℕ → Result ε (α × ℕ)) : ℕ → ℕ → Result ε (List α × ℕ)
  | 0, p => .ok ([], p)
  | count + 1, p => do
    let (a, next) ← read p
    let (as, fin) ← readMany read count next
    .ok (a :: as, fin)

section ReadMany

variable {read read' : ℕ → Result ε (α × ℕ)} {count p : ℕ}

theorem readMany_succ_eq_ok {fin : ℕ} {as : List α} :
    readMany read (count + 1) p = .ok (as, fin) ↔ ∃ a rest next, as = a :: rest ∧
      read p = .ok (a, next) ∧
      readMany read count next = .ok (rest, fin) := by
  simp only [readMany, bind_eq_ok]
  constructor
  · rintro ⟨⟨a, next⟩, h1, ⟨rest, fin'⟩, h2, h3⟩
    simp only [Except.ok.injEq, Prod.mk.injEq] at h3
    obtain ⟨rfl, rfl⟩ := h3
    exact ⟨a, rest, next, rfl, h1, h2⟩
  · rintro ⟨a, rest, next, rfl, h1, h2⟩
    exact ⟨(a, next), h1, (rest, fin), h2, rfl⟩

/-- A list of items that were written one behind the other is read back when each of them is. -/
theorem readMany_wire {msg : Bytes} {wire : β → Bytes} {f : β → α} (bs : List β) (p : ℕ)
    (h : ∀ b ∈ bs, ∀ p, At msg p (wire b) → read p = .ok (f b, p + (wire b).length))
    (hat : At msg p (bs.flatMap wire)) :
    readMany read bs.length p = .ok (bs.map f, p + (bs.flatMap wire).length) := by
  induction bs generalizing p with
  | nil => rfl
  | cons b bs ih =>
    rw [List.flatMap_cons] at hat
    rw [List.length_cons, readMany_succ_eq_ok]
    refine ⟨f b, bs.map f, p + (wire b).length, rfl, h b (by simp) p hat.left, ?_⟩
    rw [ih _ (fun b' hb' => h b' (List.mem_cons_of_mem _ hb')) hat.right]
    simp [Nat.add_assoc]

/-- Every item came out of the reader, and each took at least `k` octets of at most `n`. -/
theorem readMany_spec {P : α → Prop} {k n : ℕ}
    (h : ∀ p a next, read p = .ok (a, next) → P a ∧ p + k ≤ next ∧ next ≤ n) {fin : ℕ} {as : List α}
    (hr : readMany read count p = .ok (as, fin)) (hp : p ≤ n) :
    (∀ a ∈ as, P a) ∧ p + k * as.length ≤ fin ∧ fin ≤ n := by
  induction count generalizing p as with
  | zero =>
    simp only [readMany, Except.ok.injEq, Prod.mk.injEq] at hr
    obtain ⟨rfl, rfl⟩ := hr
    simpa using hp
  | succ count ih =>
    obtain ⟨a, rest, next, rfl, h1, h2⟩ := readMany_succ_eq_ok.mp hr
    obtain ⟨ha, hk, hn⟩ := h p a next h1
    obtain ⟨ih1, ih2, ih3⟩ := ih h2 hn
    refine ⟨List.forall_mem_cons.mpr ⟨ha, ih1⟩, ?_, ih3⟩
    rw [List.length_cons, Nat.mul_add]
    omega

/-- A reader that returns what another one does, when that one returns. -/
theorem readMany_mono (h : ∀ p r, read p = .ok r → read' p = .ok r) {r : List α × ℕ}
    (hr : readMany read count p = .ok r) : readMany read' count p = .ok r := by
  induction count generalizing p r with
  | zero => exact hr
  | succ count ih =>
    obtain ⟨as, fin⟩ := r
    obtain ⟨a, rest, next, rfl, h1, h2⟩ := readMany_succ_eq_ok.mp hr
    exact readMany_succ_eq_ok.mpr ⟨a, rest, next, rfl, h _ _ h1, ih h2⟩

theorem Safe.readMany (h : ∀ p, Safe (read p)) (count p : ℕ) : Safe (readMany read count p) := by
  induction count generalizing p with
  | zero => exact Safe.ok _
  | succ count ih => exact Safe.bind (h p) fun r _ => Safe.bind (ih r.2) fun _ _ => Safe.ok _

end ReadMany

end Resolvd.Lib
