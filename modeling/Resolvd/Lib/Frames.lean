import Resolvd.Lib.Bytes

/-!
# Frames on a stream

A stream carries messages one behind the other, each behind a header of a fixed width that says how
long it is.  There may be headers that no message has.  `split` takes the first frame off a string
when all of it is there.  `frames` are the messages of a string's complete frames, up to a bad
header, and `rest` is what the string has behind them.

The rest is all that matters for what comes later (`frames_append`, `rest_append`): the frames of a
stream do not depend on how it is cut, and a reader that keeps the rest finds them all.
-/

namespace Resolvd.Lib

open List

/-- A way of putting messages on a stream. -/
structure Framing (α : Type) where
  /-- the length of a header -/
  width : ℕ
  /-- the length of the message behind a header, if there is such a message -/
  size : List α → Option ℕ
  width_pos : 0 < width

namespace Framing

variable {α : Type} (f : Framing α)

/-- The message of the first frame, when it is complete, and what comes behind it. -/
def split (s : List α) : Option (List α × List α) :=
  if s.length < f.width then none
  else match f.size (s.take f.width) with
    | none => none
    | some n =>
      if (s.drop f.width).length < n then none
      else some ((s.drop f.width).take n, (s.drop f.width).drop n)

/-- There is a header, and no message has it. -/
def bad (s : List α) : Bool := f.width ≤ s.length && (f.size (s.take f.width)).isNone

variable {f}

theorem split_eq_some {s p r : List α} :
    f.split s = some (p, r) ↔ ∃ h, s = h ++ (p ++ r) ∧ h.length = f.width ∧
      f.size h = some p.length := by
  constructor
  · intro hs
    unfold split at hs
    split at hs
    · cases hs
    · next hlen =>
      split at hs
      · cases hs
      · next n hn =>
        split at hs
        · cases hs
        · next hbody =>
          cases hs
          refine ⟨s.take f.width, ?_, ?_, ?_⟩
          · rw [take_append_drop, take_append_drop]
          · simp only [length_take]
            omega
          · rw [hn, length_take]
            congr 1
            omega
  · rintro ⟨h, rfl, hlen, hsize⟩
    unfold split
    have htake : (h ++ (p ++ r)).take f.width = h := by rw [← hlen, take_left]
    have hdrop : (h ++ (p ++ r)).drop f.width = p ++ r := by rw [← hlen, drop_left]
    rw [htake, hdrop, hsize]
    simp only [take_left, drop_left]
    rw [if_neg (by simp only [length_append]; omega), if_neg (by simp only [length_append]; omega)]

/-- A string that does not begin with a complete frame is shorter than its header, has a bad one, or
is shorter than its header says. -/
theorem split_eq_none {s : List α} :
    f.split s = none ↔ s.length < f.width ∨ f.size (s.take f.width) = none ∨
      ∃ n, f.size (s.take f.width) = some n ∧ s.length < f.width + n := by
  unfold split
  by_cases hlen : s.length < f.width
  · simp [hlen]
  · cases hsize : f.size (s.take f.width) with
    | none => simp
    | some n =>
      simp only [hlen, if_false, false_or, reduceCtorEq, length_drop, Option.some.injEq,
        exists_eq_left']
      split
      · simp only [true_iff]
        omega
      · simp only [reduceCtorEq, false_iff]
        omega

theorem length_of_split {s p r : List α} (h : f.split s = some (p, r)) : r.length < s.length := by
  obtain ⟨header, rfl, hlen, -⟩ := split_eq_some.mp h
  have := f.width_pos
  simp only [length_append]
  omega

/-- More symbols at the end do not change a frame that is complete. -/
theorem split_append {s p r : List α} (h : f.split s = some (p, r)) (t : List α) :
    f.split (s ++ t) = some (p, r ++ t) := by
  obtain ⟨header, rfl, hlen, hsize⟩ := split_eq_some.mp h
  exact split_eq_some.mpr ⟨header, by simp only [append_assoc], hlen, hsize⟩

/-- A frame is complete as soon as all of it is there. -/
theorem split_of_append {s t p r : List α} (h : f.split (s ++ t) = some (p, r))
    (hlen : f.width + p.length ≤ s.length) : ∃ r', f.split s = some (p, r') := by
  obtain ⟨header, heq, hwidth, hsize⟩ := split_eq_some.mp h
  rw [← append_assoc] at heq
  obtain ⟨r', rfl⟩ : header ++ p <+: s :=
    prefix_of_prefix_length_le ⟨r, heq.symm⟩ ⟨t, rfl⟩ (by rw [length_append]; omega)
  exact ⟨r', split_eq_some.mpr ⟨header, append_assoc .., hwidth, hsize⟩⟩

variable (f)

/-- The messages of the complete frames. -/
def frames (s : List α) : List (List α) :=
  match _h : f.split s with
  | none => []
  | some (p, r) => p :: frames r
termination_by s.length
decreasing_by exact length_of_split _h

/-- What is left behind the complete frames. -/
def rest (s : List α) : List α :=
  match _h : f.split s with
  | none => s
  | some (_, r) => rest r
termination_by s.length
decreasing_by exact length_of_split _h

variable {f}

theorem frames_of_none {s : List α} (h : f.split s = none) : f.frames s = [] := by
  unfold frames
  split
  · rfl
  · next hs => cases h.symm.trans hs

theorem frames_of_some {s p r : List α} (h : f.split s = some (p, r)) :
    f.frames s = p :: f.frames r := by
  rw [frames]
  split
  · next hs => cases h.symm.trans hs
  · next hs =>
    cases h.symm.trans hs
    rfl

theorem rest_of_none {s : List α} (h : f.split s = none) : f.rest s = s := by
  unfold rest
  split
  · rfl
  · next hs => cases h.symm.trans hs

theorem rest_of_some {s p r : List α} (h : f.split s = some (p, r)) : f.rest s = f.rest r := by
  rw [rest]
  split
  · next hs => cases h.symm.trans hs
  · next hs =>
    cases h.symm.trans hs
    rfl

/-- Induction on a string along its frames. -/
theorem induction {P : List α → Prop} (short : ∀ s, f.split s = none → P s)
    (whole : ∀ s p r, f.split s = some (p, r) → P r → P s) (s : List α) : P s := by
  induction hn : s.length using Nat.strongRecOn generalizing s with
  | ind n ih =>
    cases h : f.split s with
    | none => exact short s h
    | some pr =>
      obtain ⟨p, r⟩ := pr
      exact whole s p r h (ih r.length (hn ▸ length_of_split h) r rfl)

theorem split_rest (s : List α) : f.split (f.rest s) = none := by
  induction s using induction (f := f) with
  | short s h => rw [rest_of_none h, h]
  | whole s p r h ih => rw [rest_of_some h, ih]

/-- **The rest of a string stands for the string.**  The frames of a longer string are those of the
string, and those that its rest begins. -/
theorem frames_append (s t : List α) :
    f.frames (s ++ t) = f.frames s ++ f.frames (f.rest s ++ t) := by
  induction s using induction (f := f) with
  | short s h => rw [frames_of_none h, rest_of_none h, nil_append]
  | whole s p r h ih =>
    rw [frames_of_some (split_append h t), frames_of_some h, rest_of_some h, ih, cons_append]

theorem rest_append (s t : List α) : f.rest (s ++ t) = f.rest (f.rest s ++ t) := by
  induction s using induction (f := f) with
  | short s h => rw [rest_of_none h]
  | whole s p r h ih => rw [rest_of_some (split_append h t), rest_of_some h, ih]

theorem rest_suffix (s : List α) : f.rest s <:+ s := by
  induction s using induction (f := f) with
  | short s h => exact (rest_of_none h).symm ▸ suffix_rfl
  | whole s p r h ih =>
    obtain ⟨header, rfl, -⟩ := split_eq_some.mp h
    rw [rest_of_some h]
    exact ih.trans ((suffix_append p r).trans (suffix_append header _))

/-! ### Numbers as headers -/

/-- A header is the length, in network order. -/
def bigEndian (width : ℕ) (h : 0 < width) : Framing UInt8 :=
  ⟨width, fun header => some (ofBe header), h⟩

/-- A `u32` has octets. -/
theorem four_pos : 0 < 4 := by decide

/-- A header is the length, with the low octet first, and messages have a greatest length. -/
def littleEndian (width limit : ℕ) (h : 0 < width) : Framing UInt8 :=
  ⟨width, fun header => if ofLe header ≤ limit then some (ofLe header) else none, h⟩

/-- A string that may become the front of a frame is shorter than the longest frame. -/
theorem length_lt_of_short {width limit : ℕ} {h : 0 < width} {s : Bytes}
    (hsplit : (littleEndian width limit h).split s = none)
    (hbad : (littleEndian width limit h).bad s = false) : s.length < width + limit := by
  rcases split_eq_none.mp hsplit with hshort | hnone | ⟨n, hn, hshort⟩
  · exact Nat.lt_add_right limit hshort
  · have hshort : s.length < (littleEndian width limit h).width := by simpa [bad, hnone] using hbad
    exact Nat.lt_add_right limit hshort
  · have hle : n ≤ limit := by
      simp only [littleEndian] at hn
      split at hn
      · cases hn
        assumption
      · cases hn
    exact lt_of_lt_of_le hshort (Nat.add_le_add_left hle width)

theorem split_littleEndian {width limit : ℕ} {h : 0 < width} {payload : Bytes}
    (hle : payload.length ≤ limit) (hlt : payload.length < 256 ^ width) (rest : Bytes) :
    (littleEndian width limit h).split (toLe width payload.length ++ (payload ++ rest)) =
      some (payload, rest) := by
  have hvalue : ofLe (toLe width payload.length) = payload.length := by
    rw [ofLe, toLe, reverse_reverse, ofBe_toBe, Nat.mod_eq_of_lt hlt]
  refine split_eq_some.mpr ⟨toLe width payload.length, rfl, ?_, ?_⟩
  · rw [toLe, length_reverse, length_toBe]
    rfl
  · show (if ofLe (toLe width payload.length) ≤ limit then some (ofLe (toLe width payload.length))
      else none) = _
    rw [hvalue, if_pos hle]

end Framing

end Resolvd.Lib
