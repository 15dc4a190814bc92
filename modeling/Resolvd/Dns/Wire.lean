import Resolvd.Dns.Name
import Resolvd.Lib.Fallible

/-!
# Names on the wire

`Name::write` and `Name::read`.  A name is written uncompressed and read with compression pointers
followed, which must go strictly backwards.  The loop of `read` is `readLabels`; it keeps the limits
of a name as it goes (`readLabels_fits`), which is what lets `Name.read` return a `Name`.

* `read_wire`: a written name is read back, label for label, whatever stands around it;
* `read_bounds`: the position after a name lies beyond its start and inside the message;
* `read_append`: bytes after the message change nothing.
-/

namespace Resolvd.Dns

open Lib List

variable {msg : Bytes} {p total hops next pos : ℕ} {fin : Option ℕ} {labels : List Bytes} {n : Name}

/-! ### Writing -/

/-- The octets of a list of labels, each behind its length, without the root label. -/
def labelsWire (labels : List Bytes) : Bytes := labels.flatMap fun l => UInt8.ofNat l.length :: l

namespace Name

/-- `Name::write` appends the name to `out`. -/
def write (n : Name) (out : Bytes) : Bytes := out ++ labelsWire n.labels ++ [0]

/-- What `write` appends. -/
def wire (n : Name) : Bytes := labelsWire n.labels ++ [0]

theorem write_eq (n : Name) (out : Bytes) : n.write out = out ++ n.wire := by
  simp [write, wire]

end Name

theorem length_labelsWire (labels : List Bytes) :
    (labelsWire labels).length = (labels.map fun l => l.length + 1).sum := by
  simp [labelsWire, length_flatMap]

theorem Name.length_wire (n : Name) : n.wire.length = n.wireLen := by
  simp [Name.wire, length_labelsWire, Name.wireLen, wireLenOf]

theorem Name.length_wire_pos (n : Name) : 1 ≤ n.wire.length := by
  simp [Name.wire]

/-! ### Reading -/

/-- The loop of `Name::read`: `p` is the cursor, `total` the octets of the labels so far, `hops` the
pointers followed, `fin` the position after the first of them.  The result is the labels from `p` on
and the position after the name. -/
def readLabels (msg : Bytes) (p total hops : ℕ) (fin : Option ℕ) : Result Error (List Bytes × ℕ) :=
  match msg[p]? with
  | none => .error (.err .truncated)
  | some b =>
    if b.toNat &&& 0xC0 = 0x00 then
      if b.toNat = 0 then .ok ([], fin.getD (p + 1))
      else
        match slice? msg (p + 1) (p + 1 + b.toNat) with
        | none => .error (.err .truncated)
        | some label =>
          if total + (b.toNat + 1) + 1 > maxNameLen then .error (.err .nameTooLong)
          else
            match readLabels msg (p + 1 + b.toNat) (total + (b.toNat + 1)) hops fin with
            | .ok (labels, next) => .ok (label :: labels, next)
            | .error e => .error e
    else if b.toNat &&& 0xC0 = 0xC0 then
      match msg[p + 1]? with
      | none => .error (.err .truncated)
      | some lo =>
        if ((b.toNat &&& 0x3F) <<< 8) ||| lo.toNat ≥ p then .error (.err .badPointer)
        else if hops + 1 > 64 then .error (.err .badPointer)
        else
          readLabels msg (((b.toNat &&& 0x3F) <<< 8) ||| lo.toNat) total (hops + 1)
            (some (fin.getD (p + 2)))
    else .error (.err .badLabel)
-- a label uses up octets of the name, a pointer one of the hops
termination_by (255 - total) + (65 - hops)
decreasing_by
  · simp only [maxNameLen] at *; omega
  · omega

/-- The table of the length octets: a label and a pointer by their two highest bits. -/
theorem lenBits_table : ∀ b : UInt8, (b.toNat &&& 0xC0 = 0 ↔ b.toNat < 64) ∧
    (b.toNat &&& 0xC0 = 0xC0 ↔ 192 ≤ b.toNat) :=
  forall_byte (by decide +kernel)

theorem lenBits_zero {b : UInt8} : b.toNat &&& 0xC0 = 0 ↔ b.toNat < 64 := (lenBits_table b).1

/-- **What one turn of the loop can do**, when the loop returns: it ends at the root label, reads
one label, or follows one pointer. -/
theorem readLabels_cases (h : readLabels msg p total hops fin = .ok (labels, next)) :
    (msg[p]? = some 0 ∧ labels = [] ∧ next = fin.getD (p + 1)) ∨
    (∃ (b : UInt8) (label : Bytes) (rest : List Bytes), msg[p]? = some b ∧ 1 ≤ b.toNat ∧
      b.toNat < 64 ∧
      slice? msg (p + 1) (p + 1 + b.toNat) = some label ∧ total + (b.toNat + 1) + 1 ≤ maxNameLen ∧
      labels = label :: rest ∧
      readLabels msg (p + 1 + b.toNat) (total + (b.toNat + 1)) hops fin = .ok (rest, next)) ∨
    (∃ b lo : UInt8, msg[p]? = some b ∧ b.toNat &&& 0xC0 = 0xC0 ∧ msg[p + 1]? = some lo ∧
      ((b.toNat &&& 0x3F) <<< 8) ||| lo.toNat < p ∧ hops < 64 ∧
      readLabels msg (((b.toNat &&& 0x3F) <<< 8) ||| lo.toNat) total (hops + 1)
        (some (fin.getD (p + 2))) =
        .ok (labels, next)) := by
  rw [readLabels] at h
  split at h
  · cases h
  · next b hb =>
    split at h
    · next h0 =>
      have hlt := lenBits_zero.mp h0
      split at h
      · next hz =>
        left
        simp only [Except.ok.injEq, Prod.mk.injEq] at h
        have hb0 : b = 0 := UInt8.toNat_inj.mp (by simpa using hz)
        exact ⟨hb0 ▸ hb, h.1.symm, h.2.symm⟩
      · next hnz =>
        right; left
        split at h
        · cases h
        · next label hl =>
          split at h
          · cases h
          · next hfit =>
            split at h
            · next rest next' hrec =>
              simp only [Except.ok.injEq, Prod.mk.injEq] at h
              obtain ⟨rfl, rfl⟩ := h
              exact ⟨b, label, rest, hb, by omega, hlt, hl, by omega, rfl, hrec⟩
            · cases h
    · split at h
      · next hc =>
        right; right
        split at h
        · cases h
        · next lo hlo =>
          split at h
          · cases h
          · next hlt =>
            split at h
            · cases h
            · next hhops => exact ⟨b, lo, hb, hc, hlo, by omega, by omega, h⟩
      · cases h

/-! #### The three turns, forwards -/

section Turns

variable {msg : Bytes} {p total hops : ℕ} {fin : Option ℕ}

theorem readLabels_root (h : msg[p]? = some 0) :
    readLabels msg p total hops fin = .ok ([], fin.getD (p + 1)) := by
  rw [readLabels, h]
  simp

theorem readLabels_label {b : UInt8} {label : Bytes} {rest : List Bytes} {next : ℕ}
    (hb : msg[p]? = some b) (h1 : 1 ≤ b.toNat) (h64 : b.toNat < 64)
    (hl : slice? msg (p + 1) (p + 1 + b.toNat) = some label)
    (hfit : total + (b.toNat + 1) + 1 ≤ maxNameLen)
    (hrec : readLabels msg (p + 1 + b.toNat) (total + (b.toNat + 1)) hops fin = .ok (rest, next)) :
    readLabels msg p total hops fin = .ok (label :: rest, next) := by
  rw [readLabels, hb]
  simp only [lenBits_zero.mpr h64, if_true, hl, hrec]
  rw [if_neg (by omega), if_neg (by omega)]

theorem readLabels_pointer {b lo : UInt8} {r : List Bytes × ℕ} (hb : msg[p]? = some b)
    (hc : b.toNat &&& 0xC0 = 0xC0) (hlo : msg[p + 1]? = some lo)
    (hlt : ((b.toNat &&& 0x3F) <<< 8) ||| lo.toNat < p) (hhops : hops < 64)
    (hrec : readLabels msg (((b.toNat &&& 0x3F) <<< 8) ||| lo.toNat) total (hops + 1)
      (some (fin.getD (p + 2))) = .ok r) : readLabels msg p total hops fin = .ok r := by
  rw [readLabels, hb]
  simp only [hc, hlo]
  rw [if_neg (by decide), if_pos trivial, if_neg (by omega), if_neg (by omega)]
  exact hrec

end Turns

/-- **Induction over a reading that returns**: one case for each turn. -/
theorem readLabels_ind {P : ℕ → ℕ → ℕ → Option ℕ → List Bytes → ℕ → Prop}
    (root : ∀ p total hops fin, msg[p]? = some 0 → P p total hops fin [] (fin.getD (p + 1)))
    (label : ∀ p total hops fin (b : UInt8) label rest next, msg[p]? = some b → 1 ≤ b.toNat →
      b.toNat < 64 →
      slice? msg (p + 1) (p + 1 + b.toNat) = some label → total + (b.toNat + 1) + 1 ≤ maxNameLen →
      P (p + 1 + b.toNat) (total + (b.toNat + 1)) hops fin rest next →
        P p total hops fin (label :: rest) next)
    (pointer : ∀ p total hops fin (b lo : UInt8) labels next, msg[p]? = some b →
      b.toNat &&& 0xC0 = 0xC0 →
      msg[p + 1]? = some lo → ((b.toNat &&& 0x3F) <<< 8) ||| lo.toNat < p → hops < 64 →
      P (((b.toNat &&& 0x3F) <<< 8) ||| lo.toNat) total (hops + 1)
        (some (fin.getD (p + 2))) labels next →
      P p total hops fin labels next) (p total hops : ℕ) (fin : Option ℕ) (labels : List Bytes)
    (next : ℕ) (h : readLabels msg p total hops fin = .ok (labels, next)) :
    P p total hops fin labels next := by
  -- on the measure that makes the loop terminate
  generalize hm : (255 - total) + (65 - hops) = m
  induction m using Nat.strong_induction_on generalizing p total hops fin labels with
  | _ m ih =>
    rcases readLabels_cases h with ⟨hb, rfl, rfl⟩ | ⟨b, l, rest, hb, h1, h64, hl, hfit, rfl, hrec⟩ |
      ⟨b, lo, hb, hc, hlo, hlt, hhops, hrec⟩
    · exact root p total hops fin hb
    · refine label p total hops fin b l rest next hb h1 h64 hl hfit (ih _ ?_ _ _ _ _ _ hrec rfl)
      simp only [maxNameLen] at hfit
      omega
    · exact pointer p total hops fin b lo labels next hb hc hlo hlt hhops
        (ih _ (by omega) _ _ _ _ _ hrec rfl)

/-- **What was read keeps the limits of a name.** -/
theorem readLabels_fits (h : readLabels msg p 0 0 none = .ok (labels, next)) : Fits labels := by
  have key : (∀ l ∈ labels, 1 ≤ l.length ∧ l.length ≤ maxLabelLen) ∧
      (0 + 1 ≤ maxNameLen → 0 + wireLenOf labels ≤ maxNameLen) := by
    refine readLabels_ind (P := fun _ total _ _ labels _ =>
      (∀ l ∈ labels, 1 ≤ l.length ∧ l.length ≤ maxLabelLen) ∧
        (total + 1 ≤ maxNameLen → total + wireLenOf labels ≤ maxNameLen)) ?_ ?_ ?_ p 0 0
          none labels next h
    · intro _ _ _ _ _
      simp [wireLenOf]
    · intro p total _ _ b label rest _ _ h1 h64 hl hfit ih
      obtain ⟨ih1, ih2⟩ := ih
      have hlen : label.length = b.toNat := by
        rw [length_of_slice? hl]; omega
      refine ⟨?_, fun _ => ?_⟩
      · intro l hl'
        rcases mem_cons.mp hl' with rfl | hl'
        · simp only [maxLabelLen]; omega
        · exact ih1 l hl'
      · have := ih2 (by omega)
        simp only [wireLenOf, map_cons, sum_cons] at *
        omega
    · intro _ _ _ _ _ _ _ _ _ _ _ _ _ ih
      exact ih
  refine ⟨key.1, ?_⟩
  simpa using key.2 (by decide)

/-- `Name::read`: the name at `pos` and the position after it. -/
def Name.read (msg : Bytes) (pos : ℕ) : Result Error (Name × ℕ) :=
  match h : readLabels msg pos 0 0 none with
  | .ok (labels, next) => .ok (⟨labels, readLabels_fits h⟩, next)
  | .error e => .error e

theorem Name.read_eq_ok :
    Name.read msg pos = .ok (n, next) ↔ readLabels msg pos 0 0 none = .ok (n.labels, next) := by
  unfold Name.read
  constructor
  · intro h
    split at h
    · next labels next' hr =>
      simp only [Except.ok.injEq, Prod.mk.injEq] at h
      obtain ⟨rfl, rfl⟩ := h
      exact hr
    · cases h
  · intro h
    split
    · next labels next' hr =>
      rw [h] at hr
      simp only [Except.ok.injEq, Prod.mk.injEq] at hr ⊢
      exact ⟨Name.ext_labels hr.1.symm, hr.2.symm⟩
    · next e hr => rw [h] at hr; cases hr

/-! ### What is written is read back -/

theorem readLabels_wire (labels : List Bytes) (p total hops : ℕ)
    (hat : At msg p (labelsWire labels ++ [0]))
    (hlab : ∀ l ∈ labels, 1 ≤ l.length ∧ l.length ≤ maxLabelLen)
    (hfit : total + wireLenOf labels ≤ maxNameLen) :
    readLabels msg p total hops none = .ok (labels, p + (labelsWire labels).length + 1) := by
  induction labels generalizing p total with
  | nil => exact readLabels_root hat.head
  | cons l ls ih =>
    obtain ⟨h1, h63⟩ := hlab l (by simp)
    simp only [maxLabelLen] at h63
    have hb : (UInt8.ofNat l.length).toNat = l.length := by
      simp; omega
    simp only [wireLenOf, map_cons, sum_cons] at hfit
    -- behind the length octet stands the label, and behind it the rest of the name
    have e : labelsWire (l :: ls) ++ [0] = UInt8.ofNat l.length ::
        (l ++ (labelsWire ls ++ [0])) := by
      simp [labelsWire]
    rw [e] at hat
    have hrec := ih (p + 1 + l.length) (total + (l.length + 1)) hat.tail.right
      (fun l' hl' => hlab l' (mem_cons_of_mem _ hl')) (by simp only [wireLenOf]; omega)
    have hnext : p + (labelsWire (l :: ls)).length + 1 = p + 1 + l.length +
        (labelsWire ls).length + 1 := by
      simp only [length_labelsWire, map_cons, sum_cons]; omega
    rw [hnext]
    refine readLabels_label hat.head (by omega) (by omega) ?_ (by omega) (by rw [hb]; exact hrec)
    rw [hb]
    exact hat.tail.left.slice

/-- **A written name is read back**, with every label as it was. -/
theorem Name.read_wire (h : At msg p n.wire) : Name.read msg p = .ok (n, p + n.wire.length) := by
  rw [Name.read_eq_ok]
  have := readLabels_wire n.labels p 0 0 h n.fits.1 (by simpa using n.fits.2)
  simpa [Name.wire, Nat.add_assoc] using this

/-! ### Where a name ends, and what follows the message -/

theorem readLabels_bounds (h : readLabels msg p total hops fin = .ok (labels, next)) :
    (fin = none → p < next ∧ next ≤ msg.length) ∧ ∀ k, fin = some k → next = k := by
  refine readLabels_ind (P := fun p _ _ fin _ next =>
    (fin = none → p < next ∧ next ≤ msg.length) ∧ ∀ k, fin = some k → next = k)
    ?_ ?_ ?_ p total hops fin labels next h
  · intro p _ _ fin hb
    obtain ⟨hp, -⟩ := List.getElem?_eq_some_iff.mp hb
    constructor
    · rintro rfl
      simp only [Option.getD_none]
      omega
    · rintro k rfl
      rfl
  · intro p _ _ fin b label rest next _ _ _ _ _ ih
    obtain ⟨ih1, ih2⟩ := ih
    exact ⟨fun hf => ⟨by have := (ih1 hf).1; omega, (ih1 hf).2⟩, ih2⟩
  · intro p _ _ fin b lo labels next _ _ hlo _ _ ih
    obtain ⟨-, ih2⟩ := ih
    obtain ⟨hp, -⟩ := List.getElem?_eq_some_iff.mp hlo
    have hnext := ih2 _ rfl
    constructor
    · rintro rfl
      simp only [Option.getD_none] at hnext
      omega
    · rintro k rfl
      simpa using hnext

theorem Name.read_bounds (h : Name.read msg pos = .ok (n, next)) : pos < next ∧ next ≤ msg.length :=
  (readLabels_bounds (Name.read_eq_ok.mp h)).1 rfl

theorem readLabels_append (x : Bytes) (h : readLabels msg p total hops fin = .ok (labels, next)) :
    readLabels (msg ++ x) p total hops fin = .ok (labels, next) := by
  refine readLabels_ind (P := fun p total hops fin labels next =>
    readLabels (msg ++ x) p total hops fin = .ok (labels, next)) ?_ ?_ ?_ p total hops fin
      labels next h
  · intro p total hops fin hb
    exact readLabels_root (getElem?_append_some x hb)
  · intro p total hops fin b label rest next hb h1 h64 hl hfit ih
    exact readLabels_label (getElem?_append_some x hb) h1 h64 (slice?_append x hl) hfit ih
  · intro p total hops fin b lo labels next hb hc hlo hlt hhops ih
    exact readLabels_pointer (getElem?_append_some x hb) hc
      (getElem?_append_some x hlo) hlt hhops ih

theorem Name.read_append (x : Bytes)
    (h : Name.read msg pos = .ok (n, next)) : Name.read (msg ++ x) pos = .ok (n, next) :=
  Name.read_eq_ok.mpr (readLabels_append x (Name.read_eq_ok.mp h))

theorem readLabels_safe (msg : Bytes) (p total hops : ℕ) (fin : Option ℕ) :
    Safe (readLabels msg p total hops fin) := by
  fun_induction readLabels msg p total hops fin <;> simp_all [Safe]

theorem Name.read_safe (msg : Bytes) (pos : ℕ) : Safe (Name.read msg pos) := by
  have h := readLabels_safe msg pos 0 0 none
  unfold Name.read
  split
  · exact Safe.ok _
  · next e he =>
    rw [he] at h
    simpa [Safe] using h

end Resolvd.Dns
