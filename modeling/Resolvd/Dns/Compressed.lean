import Resolvd.Dns.Wire

/-!
# Compressed names

RFC 1035, 4.1.4: a name is a sequence of labels that ends in a zero octet or in a pointer to another
name earlier in the message.  `NameAt` is this grammar, with the number of pointers and the position
behind the name where it begins.  `Name::read` accepts what the grammar allows within the limits and
nothing else (`read_grammar`).
-/

namespace Resolvd.Dns

open Lib List

variable {msg : Bytes} {p k e : ℕ} {labels : List Bytes}

/-- The labels stand in the message from position `p` on, behind so many pointers; `fin` is the
position after the zero octet, or after the first pointer. -/
inductive NameAt (msg : Bytes) : ℕ → List Bytes → ℕ → ℕ → Prop where
  | root {p : ℕ} (h : msg[p]? = some 0) : NameAt msg p [] 0 (p + 1)
  | label {p : ℕ} {len : UInt8} {label : Bytes} {labels : List Bytes} {hops fin : ℕ}
      (hlen : msg[p]? = some len) (hpos : 1 ≤ len.toNat) (hmax : len.toNat ≤ 63)
      (hlabel : At msg (p + 1) label) (hlength : label.length = len.toNat)
      (h : NameAt msg (p + 1 + len.toNat) labels hops fin) :
      NameAt msg p (label :: labels) hops fin
  | pointer {p : ℕ} {hi lo : UInt8} {labels : List Bytes} {hops fin : ℕ} (hhi : msg[p]? = some hi)
      (htop : 192 ≤ hi.toNat) (hlo : msg[p + 1]? = some lo)
      (hback : 256 * (hi.toNat - 192) + lo.toNat < p)
      (h : NameAt msg (256 * (hi.toNat - 192) + lo.toNat) labels hops fin) :
      NameAt msg p labels (hops + 1) (p + 2)

/-! ### The octets of a pointer -/

theorem pointerBits {b : UInt8} : b.toNat &&& 0xC0 = 0xC0 ↔ 192 ≤ b.toNat := (lenBits_table b).2

theorem pointerTarget {hi lo : UInt8} (h : 192 ≤ hi.toNat) :
    ((hi.toNat &&& 0x3F) <<< 8) ||| lo.toNat = 256 * (hi.toNat - 192) + lo.toNat := by
  have hand : hi.toNat &&& 0x3F = hi.toNat - 192 := by
    have hlt := hi.toNat_lt
    rw [Nat.and_two_pow_sub_one_eq_mod hi.toNat 6]
    omega
  rw [hand, ← Nat.shiftLeft_add_eq_or_of_lt lo.toNat_lt, Nat.shiftLeft_eq]
  omega

theorem slice?_eq_some_iff_at {label : Bytes} {n : ℕ} :
    slice? msg p (p + n) = some label ↔ At msg p label ∧ label.length = n := by
  constructor
  · intro h
    have hlen := length_of_slice? h
    obtain ⟨-, hle, rfl⟩ := slice?_eq_some.mp h
    refine ⟨⟨msg.take p, (msg.drop p).drop n, ?_, ?_⟩, by omega⟩
    · rw [Nat.add_sub_cancel_left, append_assoc, take_append_drop, take_append_drop]
    · rw [length_take]
      omega
  · rintro ⟨hat, rfl⟩
    exact hat.slice

/-! ### The reader and the grammar -/

/-- **What the loop reads is in the grammar.** -/
theorem nameAt_of_readLabels {total hops : ℕ} {fin : Option ℕ} {next : ℕ}
    (h : readLabels msg p total hops fin = .ok (labels, next)) :
    hops ≤ 64 → ∃ k e, NameAt msg p labels k e ∧ hops + k ≤ 64 ∧ next = fin.getD e := by
  refine readLabels_ind (P := fun p _ hops fin labels next =>
    hops ≤ 64 → ∃ k e, NameAt msg p labels k e ∧ hops + k ≤ 64 ∧ next = fin.getD e)
    ?_ ?_ ?_ p total hops fin labels next h
  · intro p _ hops fin hroot hle
    exact ⟨0, p + 1, .root hroot, hle, rfl⟩
  · intro p _ hops fin len label rest next hlen h1 h64 hslice _ ih hle
    obtain ⟨k, e, hname, hk, hnext⟩ := ih hle
    obtain ⟨hat, hlength⟩ := slice?_eq_some_iff_at.mp hslice
    exact ⟨k, e, .label hlen h1 (by omega) hat hlength hname, hk, hnext⟩
  · intro p _ hops fin hi lo labels next hhi hc hlo hlt hhops ih _
    have htop := pointerBits.mp hc
    rw [pointerTarget htop] at hlt ih
    obtain ⟨k, e, hname, hk, hnext⟩ := ih (by omega)
    exact ⟨k + 1, p + 2, .pointer hhi htop hlo hlt hname, by omega, by simpa using hnext⟩

/-- **What is in the grammar the loop reads**, within the limits. -/
theorem readLabels_of_nameAt (h : NameAt msg p labels k e) {total hops : ℕ} (fin : Option ℕ)
    (hhops : hops + k ≤ 64) (hfit : total + wireLenOf labels ≤ maxNameLen) :
    readLabels msg p total hops fin = .ok (labels, fin.getD e) := by
  induction h generalizing total hops fin with
  | root hroot => exact readLabels_root hroot
  | @label p len label labels k e hlen hpos hmax hlabel hlength _ ih =>
    simp only [wireLenOf, map_cons, sum_cons, hlength] at hfit
    refine readLabels_label hlen hpos (by omega) (slice?_eq_some_iff_at.mpr ⟨hlabel, hlength⟩)
      (by omega) ?_
    exact ih fin hhops (by simp only [wireLenOf]; omega)
  | @pointer p hi lo labels k e hhi htop hlo hback _ ih =>
    have hrec : readLabels msg _ total (hops + 1) (some (fin.getD (p + 2))) =
        .ok (labels, fin.getD (p + 2)) :=
      ih _ (by omega) hfit
    rw [← pointerTarget htop] at hback hrec
    exact readLabels_pointer hhi (pointerBits.mpr htop) hlo hback (by omega) hrec

theorem read_iff_nameAt {pos fin : ℕ} {n : Name} :
    Name.read msg pos = .ok (n, fin) ↔ ∃ hops ≤ 64, NameAt msg pos n.labels hops fin := by
  rw [Name.read_eq_ok]
  constructor
  · intro h
    obtain ⟨k, e, hname, hk, rfl⟩ := nameAt_of_readLabels h (by decide)
    exact ⟨k, by omega, hname⟩
  · rintro ⟨k, hk, hname⟩
    exact readLabels_of_nameAt hname none (by omega) (by simpa using n.fits.2)

/-- The labels of the grammar have the lengths of labels. -/
theorem NameAt.label_lengths (h : NameAt msg p labels k e) :
    ∀ l ∈ labels, 1 ≤ l.length ∧ l.length ≤ maxLabelLen := by
  induction h with
  | root => simp
  | label _ hpos hmax _ hlength _ ih =>
    rw [forall_mem_cons]
    exact ⟨⟨by omega, by simp only [maxLabelLen]; omega⟩, ih⟩
  | pointer _ _ _ _ _ ih => exact ih

theorem NameAt.front {front : List Bytes} {q : ℕ} {hi lo : UInt8}
    (hat : At msg p (labelsWire front ++ [hi, lo]))
    (hfront : ∀ l ∈ front, 1 ≤ l.length ∧ l.length ≤ maxLabelLen) (htop : 192 ≤ hi.toNat)
    (hq : q = 256 * (hi.toNat - 192) + lo.toNat) (hback : q < p + (labelsWire front).length)
    (h : NameAt msg q labels k e) :
    NameAt msg p (front ++ labels) (k + 1) (p + (labelsWire front).length + 2) := by
  induction front generalizing p with
  | nil =>
    subst hq
    exact .pointer hat.head htop hat.tail.head (by simpa [labelsWire] using hback) h
  | cons l front ih =>
    rw [forall_mem_cons] at hfront
    have hwire : labelsWire (l :: front) = UInt8.ofNat l.length :: (l ++ labelsWire front) := by
      simp [labelsWire]
    have hlen : (UInt8.ofNat l.length).toNat = l.length := by
      have := hfront.1.2
      simp only [maxLabelLen] at this
      simp
      omega
    have hpos : p + (labelsWire (l :: front)).length = p + 1 + l.length +
        (labelsWire front).length := by
      rw [hwire, length_cons, length_append]
      omega
    rw [hwire, cons_append, append_assoc] at hat
    rw [hpos] at hback ⊢
    refine .label hat.head (by omega)
      (by have := hfront.1.2; simp only [maxLabelLen] at this; omega) hat.tail.left
      hlen.symm ?_
    rw [hlen]
    exact ih hat.tail.right hfront.2 hback

/-- **`Name::read` accepts exactly the compressed names.**  A name is read when the grammar has its
labels at the position, with no more than 64 pointers and 255 octets; the position after it lies
behind its start and inside the message.  Labels in front of a pointer are read as these labels and
the name the pointer points to. -/
theorem read_grammar (msg : Bytes) (pos : ℕ) :
    (∀ labels fin, (∃ n : Name, n.labels = labels ∧ Name.read msg pos = .ok (n, fin)) ↔
      wireLenOf labels ≤ 255 ∧ ∃ hops ≤ 64, NameAt msg pos labels hops fin) ∧
    (∀ n fin, Name.read msg pos = .ok (n, fin) → pos < fin ∧ fin ≤ msg.length) ∧
    ∀ (front : List Bytes) (hi lo : UInt8) (q : ℕ) (n : Name) (e : ℕ),
      At msg pos (labelsWire front ++ [hi, lo]) →
      (∀ l ∈ front, 1 ≤ l.length ∧ l.length ≤ 63) → 192 ≤ hi.toNat →
      q = 256 * (hi.toNat - 192) + lo.toNat →
      q < pos + (labelsWire front).length → Name.read msg q = .ok (n, e) →
      (∃ hops < 64, NameAt msg q n.labels hops e) → wireLenOf (front ++ n.labels) ≤ 255 →
      ∃ m : Name, m.labels = front ++ n.labels ∧
        Name.read msg pos = .ok (m, pos + (labelsWire front).length + 2) := by
  refine ⟨fun labels fin => ⟨?_, ?_⟩, fun n fin h => Name.read_bounds h, ?_⟩
  · rintro ⟨n, rfl, h⟩
    exact ⟨n.fits.2, read_iff_nameAt.mp h⟩
  · rintro ⟨hfit, hops, hle, hname⟩
    exact ⟨⟨labels, hname.label_lengths, hfit⟩, rfl, read_iff_nameAt.mpr ⟨hops, hle, hname⟩⟩
  · rintro front hi lo q n e hat hfront htop hq hback - ⟨hops, hlt, hname⟩ hfit
    have hwhole := NameAt.front hat hfront htop hq hback hname
    exact ⟨⟨front ++ n.labels, hwhole.label_lengths, hfit⟩, rfl,
      read_iff_nameAt.mpr ⟨hops + 1, hlt, hwhole⟩⟩

/-- The name `a`, and behind it `b` with a pointer to it. -/
def pointing : Bytes := [1, 0x61, 0, 1, 0x62, 0xC0, 0]

/-- The name behind is `b.a`. -/
theorem read_grammar_pointing :
    ∃ m : Name, m.labels = [[0x62], [0x61]] ∧ Name.read pointing 3 = .ok (m, 7) := by
  have hname : NameAt pointing 0 [[0x61]] 0 3 :=
    .label rfl (by decide) (by decide) ⟨[1], [0, 1, 0x62, 0xC0, 0], rfl, rfl⟩ rfl (.root rfl)
  obtain ⟨n, hlabels, hread⟩ :=
    ((read_grammar pointing 0).1 [[0x61]] 3).mpr ⟨by decide, 0, by decide, hname⟩
  obtain ⟨m, hm, hreadm⟩ := (read_grammar pointing 3).2.2 [[0x62]] 0xC0 0 0 n 3
    ⟨[1, 0x61, 0], [], rfl, rfl⟩
    (by decide) (by decide) rfl (by decide) hread ⟨0, by decide, hlabels ▸ hname⟩
      (by rw [hlabels]; decide)
  exact ⟨m, by rw [hm, hlabels]; rfl, hreadm⟩

end Resolvd.Dns
