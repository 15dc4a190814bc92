import Mathlib.Data.List.Infix

/-!
# Views into an arena

An arena keeps what is put into it where it is, until it is dropped as a whole.  What is given out
are views: records of pointers into the arena.  A value is *built* by a program that adds to the
arena and returns a view, and whoever reads the view later, when the arena may have grown, has to
find the value (`Builds`).

The rules follow the program: `Builds.pure`, `Builds.bind`, `Builds.mapM` for lists, and
`builds_alloc` for one allocation.  A view that can be read stays readable, which is what
`Builds.bind` passes on.
-/

namespace Resolvd.Lib

open List

/-- A pointer and a length.  A pointer is the number of an allocation, or null. -/
structure Slice (α : Type) where
  data : Option ℕ
  len : ℕ

/-- Elements of type `α` can be an allocation of type `β`. -/
class Stores (β α : Type) where
  put : List α → β
  get : β → Option (List α)
  get_put : ∀ xs, get (put xs) = some xs

namespace Arena

variable {α β V W ρ ρ' : Type}

/-- A program that adds to an arena. -/
abbrev Builder (β : Type) := StateM (List β)

/-- An allocation.  An empty one has a pointer, too, and it is not null. -/
def alloc [Stores β α] (xs : List α) : Builder β (Slice α) :=
  fun A => (⟨some A.length, xs.length⟩, A ++ [Stores.put xs])

/-- The elements at a slice.  It is undefined what is read behind a pointer that is none, or behind
the end of the allocation. -/
def slice [Stores β α] (A : List β) (s : Slice α) : Option (List α) :=
  if s.len = 0 then some []
  else do
    let xs ← Stores.get (← A[(← s.data)]?)
    if s.len ≤ xs.length then some (xs.take s.len) else none

/-- In the arena, the program builds a view that reads as `r` in every arena that grows out of it.
-/
structure Builds (A : List β) (m : Builder β V) (view : List β → V → ρ) (r : ρ) : Prop where
  grows : A <+: (m A).2
  reads : ∀ B, (m A).2 <+: B → view B (m A).1 = r

theorem Builds.pure {A : List β} {v : V} {view : List β → V → ρ} {r : ρ}
    (h : ∀ B, A <+: B → view B v = r) : Builds A (pure v) view r :=
  ⟨prefix_rfl, h⟩

/-- One program after the other.  The second one can rely on the view of the first one. -/
theorem Builds.bind {A : List β} {m : Builder β V} {f : V → Builder β W} {view : List β → V → ρ}
    {r : ρ} {view' : List β → W → ρ'} {r' : ρ'} (h : Builds A m view r)
    (h' : ∀ A' v, A <+: A' → (∀ B, A' <+: B → view B v = r) → Builds A' (f v) view' r') :
    Builds A (m >>= f) view' r' := by
  obtain ⟨hgrows, hreads⟩ := h
  obtain ⟨hgrows', hreads'⟩ := h' (m A).2 (m A).1 hgrows hreads
  exact ⟨hgrows.trans hgrows', hreads'⟩

theorem Builds.mapM {ι : Type} {f : ι → Builder β V} {view : List β → V → ρ} {g : ι → ρ}
    (xs : List ι) (h : ∀ A x, Builds A (f x) view (g x)) (A : List β) :
    Builds A (xs.mapM f) (fun B vs => vs.map (view B)) (xs.map g) := by
  induction xs generalizing A with
  | nil => exact .pure fun _ _ => rfl
  | cons x xs ih =>
    rw [mapM_cons]
    refine (h A x).bind fun A₁ v _ hv => (ih A₁).bind fun A₂ vs hA₂ hvs => .pure fun B hB => ?_
    rw [map_cons, map_cons, hv B (hA₂.trans hB), hvs B hB]

/-- **What was allocated can be read.** -/
theorem builds_alloc [Stores β α] (xs : List α) (A : List β) :
    Builds A (alloc xs) slice (some xs) := by
  refine ⟨prefix_append _ _, fun B hB => ?_⟩
  obtain ⟨C, rfl⟩ := hB
  unfold slice alloc
  dsimp only
  split
  · next hlen => rw [length_eq_zero_iff.mp hlen]
  · simp [Stores.get_put]

/-! ### Readers -/

variable {ε τ : Type}

/-- A reader of views: it may fail, and what it does is undefined where it reads what is not there.
-/
abbrev Reader (ε : Type) := ExceptT ε Option

/-- A slice, read. -/
def read [Stores β α] (A : List β) (s : Slice α) : Reader ε (List α) := ExceptT.lift (slice A s)

theorem builds_read [Stores β α] (xs : List α) (A : List β) :
    Builds A (alloc xs) (fun B s => (read B s : Reader ε (List α))) (Pure.pure xs) := by
  obtain ⟨hgrows, hreads⟩ := builds_alloc xs A
  refine ⟨hgrows, fun B hB => ?_⟩
  rw [read, hreads B hB]
  rfl

theorem mapM_of_map {f : V → Reader ε τ} {vs : List V} {ts : List τ}
    (h : vs.map f = ts.map Pure.pure) : vs.mapM f = Pure.pure ts := by
  induction vs generalizing ts with
  | nil =>
    cases ts with
    | nil => rfl
    | cons t ts => cases h
  | cons v vs ih =>
    cases ts with
    | nil => cases h
    | cons t ts =>
      obtain ⟨hv, hvs⟩ := List.cons.inj h
      rw [mapM_cons, hv, ih hvs]
      rfl

/-- **A list of views, as an allocation of its own**: the elements first, and then the array of
their views. -/
theorem builds_list [Stores β V] {ι : Type} {f : ι → Builder β V} {view : List β → V → Reader ε τ}
    {g : ι → τ} (h : ∀ A x, Builds A (f x) view (Pure.pure (g x))) (xs : List ι) (A : List β) :
    Builds A (do alloc (← xs.mapM f)) (fun B s => do (← read B s).mapM (view B))
      (Pure.pure (xs.map g)) := by
  refine (Builds.mapM xs h A).bind fun A₁ vs _ hvs => ?_
  obtain ⟨hgrows, hreads⟩ : Builds A₁ (alloc vs) (fun B s => (read B s : Reader ε (List V)))
    (Pure.pure vs) :=
    builds_read vs A₁
  refine ⟨hgrows, fun B hB => ?_⟩
  have hall : vs.map (view B) = (xs.map g).map Pure.pure := by
    rw [hvs B (hgrows.trans hB), map_map]
    rfl
  rw [hreads B hB, pure_bind, mapM_of_map hall]

end Arena

end Resolvd.Lib
