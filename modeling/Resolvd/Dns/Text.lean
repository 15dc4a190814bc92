import Resolvd.Dns.Name
import Resolvd.Lib.Net

/-!
# Names as text

`Display for Name`, and the names of the reverse mapping: `Name::reverse_v4`, `reverse_v6` and
`reverse_address`.

`Name.parse_join` says which texts `parse` takes apart into given labels; with it, the texts that
`reverse_v4` and `reverse_v6` hand to `parse` are names (their `expect("fits")` does not panic), and
such a name survives being displayed and parsed again (`parse_display_reverse`), which is what
`Engine::reverse` does to it.
-/

namespace Resolvd.Dns

open Lib List

/-! ### Numbers as text -/

/-- `{}` of a number. -/
def decimal (n : ℕ) : Bytes := (Nat.toDigits 10 n).map fun c => UInt8.ofNat c.toNat

/-- `{:x}` of a number. -/
def hexadecimal (n : ℕ) : Bytes := (Nat.toDigits 16 n).map fun c => UInt8.ofNat c.toNat

/-- One digit of `str::parse`, for a type with so many values. -/
def parseDigit (limit n : ℕ) (b : UInt8) : Option ℕ :=
  if 0x30 ≤ b ∧ b ≤ 0x39 ∧ n * 10 + (b.toNat - 0x30) < limit then some (n * 10 + (b.toNat - 0x30))
  else none

/-- `str::parse` for an unsigned integer type with so many values: decimal digits, after an optional
plus sign. -/
def parseUint (limit : ℕ) (s : Bytes) : Option ℕ :=
  let digits := if s.head? = some 0x2B then s.tail else s
  if digits = [] then none else digits.foldlM (parseDigit limit) 0

/-- `str::parse::<u8>`. -/
def parseU8 (s : Bytes) : Option UInt8 := (parseUint 256 s).map UInt8.ofNat

/-- `char::to_digit(16)` of an octet. -/
def hexDigit (b : UInt8) : Option UInt8 :=
  if 0x30 ≤ b ∧ b ≤ 0x39 then some (b - 0x30)
  else if 0x61 ≤ b ∧ b ≤ 0x66 then some (b - 0x61 + 10)
  else if 0x41 ≤ b ∧ b ≤ 0x46 then some (b - 0x41 + 10)
  else none

namespace Name

variable {n : Name}

/-! ### Presentation form -/

/-- One octet in presentation form. -/
def displayByte (b : UInt8) : Bytes :=
  if b = dot ∨ b = 0x5C then [0x5C, b]
  else if 0x21 ≤ b ∧ b ≤ 0x7E then [b]
  else 0x5C :: (List.replicate (3 - (decimal b.toNat).length) 0x30 ++ decimal b.toNat)

/-- `Display for Name`. -/
def display (n : Name) : Bytes :=
  if n.labels = [] then [dot] else [dot].intercalate (n.labels.map fun l => l.flatMap displayByte)

/-- Labels that display as they are. -/
def Plain (labels : List Bytes) : Prop :=
  ∀ l ∈ labels, ∀ b ∈ l, b ≠ dot ∧ b ≠ 0x5C ∧ 0x21 ≤ b ∧ b ≤ 0x7E

theorem display_of_plain (h : Plain n.labels) (hne : n.labels ≠ []) :
    n.display = [dot].intercalate n.labels := by
  have hlab : (n.labels.map fun l => l.flatMap displayByte) = n.labels := by
    refine (map_congr_left fun l hl => ?_).trans (map_id _)
    have hbyte : ∀ b ∈ l, displayByte b = [b] := by
      intro b hb
      obtain ⟨h1, h2, h3⟩ := h l hl b hb
      rw [displayByte, if_neg (by simp [h1, h2]), if_pos h3]
    calc l.flatMap displayByte = (l.map fun b => [b]).flatten := by rw [List.flatMap, map_congr_left hbyte]
      _ = l := flatMap_singleton' l
  rw [display, if_neg hne, hlab]

theorem stripDot_join {labels : List Bytes} (hlab : ∀ l ∈ labels, l ≠ [] ∧ dot ∉ l) :
    stripDot ([dot].intercalate labels) = [dot].intercalate labels := by
  have hlast : ([dot].intercalate labels).getLast? ≠ some dot := by
    -- the last octet of the text is the last one of the last label
    induction labels with
    | nil => simp
    | cons l ls ih =>
      obtain ⟨hl, hdot⟩ := hlab l (by simp)
      cases ls with
      | nil =>
        simp only [intercalate_singleton]
        exact fun h => hdot (mem_of_getLast? h)
      | cons l' ls =>
        have ih' := ih fun m hm => hlab m (mem_cons_of_mem _ hm)
        simp only [intercalate_cons_cons, append_assoc, List.getLast?_append]
        have hl' : ([dot].intercalate (l' :: ls)).getLast? ≠ none := by
          obtain ⟨hne, -⟩ := hlab l' (by simp)
          cases ls <;> simp [hne]
        cases hlast : ([dot].intercalate (l' :: ls)).getLast? with
        | none => exact absurd hlast hl'
        | some b => simpa [hlast] using ih'
  rw [stripDot, if_neg hlast]

/-- **Text is taken apart into the labels it was joined from.** -/
theorem parse_join (hne : n.labels ≠ []) (hdot : ∀ l ∈ n.labels, dot ∉ l) :
    parse ([dot].intercalate n.labels) = .ok n := by
  have hlen : ∀ l ∈ n.labels, l ≠ [] := fun l hl h => by simpa [h] using (n.fits.1 l hl).1
  have htext : [dot].intercalate n.labels ≠ [] := by
    obtain ⟨l, ls, hl⟩ := exists_cons_of_ne_nil hne
    have := hlen l (by simp [hl])
    rw [hl]
    cases ls <;> simp [this]
  unfold parse
  rw [stripDot_join fun l hl => ⟨hlen l hl, hdot l hl⟩]
  simp only [htext, if_false]
  rw [splitOn_intercalate dot hdot hne, fromLabels, dif_pos n.fits.1, dif_pos n.fits.2]

/-- A name with plain labels survives being displayed and parsed. -/
theorem parse_display (h : Plain n.labels) (hne : n.labels ≠ []) : parse n.display = .ok n := by
  rw [display_of_plain h hne]
  exact parse_join hne fun l hl hd => (h l hl dot hd).1 rfl

/-! ### The reverse mapping -/

def inAddrArpa : Name := ⟨[ascii "in-addr", ascii "arpa"], by decide⟩

def ip6Arpa : Name := ⟨[ascii "ip6", ascii "arpa"], by decide⟩

example : parse (ascii "in-addr.arpa") = .ok inAddrArpa ∧
  parse (ascii "ip6.arpa") = .ok ip6Arpa := by decide

/-- The labels of the text `reverse_v4` formats: the octets, the last first. -/
def reverseV4Labels (a : Ipv4Addr) : List Bytes :=
  (a.toList.reverse.map fun b : UInt8 => decimal b.toNat) ++ [ascii "in-addr", ascii "arpa"]

/-- The labels of the text `reverse_v6` formats: the nibbles, the lowest first. -/
def reverseV6Labels (a : Ipv6Addr) : List Bytes :=
  (a.toList.reverse.flatMap fun b : UInt8 =>
    [hexadecimal (b &&& 0xF).toNat, hexadecimal (b >>> 4).toNat]) ++
    [ascii "ip6", ascii "arpa"]

/-- The octets of a plain label, as a test that runs over the label. -/
theorem plain_of_all {l : Bytes}
    (h : l.all (fun c => decide (c ≠ dot ∧ c ≠ 0x5C ∧ 0x21 ≤ c ∧ c ≤ 0x7E)) = true) :
    ∀ c ∈ l, c ≠ dot ∧ c ≠ 0x5C ∧ 0x21 ≤ c ∧ c ≤ 0x7E :=
  fun c hc => of_decide_eq_true (all_eq_true.mp h c hc)

theorem decimal_octet (b : UInt8) : 1 ≤ (decimal b.toNat).length ∧ (decimal b.toNat).length ≤ 3 ∧
    ∀ c ∈ decimal b.toNat, c ≠ dot ∧ c ≠ 0x5C ∧ 0x21 ≤ c ∧ c ≤ 0x7E := by
  obtain ⟨h1, h3, hall⟩ := forall_byte (p := fun b => 1 ≤ (decimal b.toNat).length ∧
    (decimal b.toNat).length ≤ 3 ∧
    (decimal b.toNat).all (fun c => decide (c ≠ dot ∧ c ≠ 0x5C ∧ 0x21 ≤ c ∧ c ≤ 0x7E)) =
      true) (by decide +kernel) b
  exact ⟨h1, h3, plain_of_all hall⟩

theorem hexadecimal_nibble (b : UInt8) (n : UInt8) (hn : n = b &&& 0xF ∨ n = b >>> 4) :
    (hexadecimal n.toNat).length = 1 ∧ ∀ c ∈ hexadecimal n.toNat, c ≠ dot ∧ c ≠ 0x5C ∧ 0x21 ≤ c ∧
      c ≤ 0x7E := by
  have hlt : n.toNat < 16 := by
    rcases hn with rfl | rfl
    · rw [UInt8.toNat_and]
      exact Nat.and_lt_two_pow (n := 4) _ (by decide)
    · have := b.toNat_lt
      rw [UInt8.toNat_shiftRight, Nat.shiftRight_eq_div_pow]
      exact Nat.div_lt_of_lt_mul this
  have hdigit : ∀ k < 16, (hexadecimal k).length = 1 ∧
      (hexadecimal k).all (fun c => decide (c ≠ dot ∧ c ≠ 0x5C ∧ 0x21 ≤ c ∧ c ≤ 0x7E)) = true := by
    decide
  exact ⟨(hdigit _ hlt).1, plain_of_all (hdigit _ hlt).2⟩

theorem reverseV4Labels_plain (a : Ipv4Addr) : Plain (reverseV4Labels a) := by
  intro l hl
  simp only [reverseV4Labels, mem_append, mem_map, mem_cons, not_mem_nil, or_false] at hl
  rcases hl with ⟨b, -, rfl⟩ | rfl | rfl
  · exact (decimal_octet b).2.2
  · exact plain_of_all (by decide)
  · exact plain_of_all (by decide)

theorem reverseV6Labels_plain (a : Ipv6Addr) : Plain (reverseV6Labels a) := by
  intro l hl
  simp only [reverseV6Labels, mem_append, mem_flatMap, mem_cons, not_mem_nil, or_false] at hl
  rcases hl with ⟨b, -, rfl | rfl⟩ | rfl | rfl
  · exact (hexadecimal_nibble b _ (.inl rfl)).2
  · exact (hexadecimal_nibble b _ (.inr rfl)).2
  · exact plain_of_all (by decide)
  · exact plain_of_all (by decide)

theorem reverseV4Labels_fits (a : Ipv4Addr) : Fits (reverseV4Labels a) := by
  have hi : (ascii "in-addr").length = 7 := by decide
  have ha : (ascii "arpa").length = 4 := by decide
  constructor
  · intro l hl
    simp only [reverseV4Labels, mem_append, mem_map, mem_cons, not_mem_nil, or_false] at hl
    rcases hl with ⟨b, -, rfl⟩ | rfl | rfl
    · have := decimal_octet b
      simp only [maxLabelLen]; omega
    · decide
    · decide
  · -- a label of at most three digits for each of the four octets
    have hsum : ∀ bs : Bytes, ((bs.map fun b : UInt8 => decimal b.toNat).map fun l =>
        l.length + 1).sum ≤
        4 * bs.length := by
      intro bs
      induction bs with
      | nil => simp
      | cons b bs ih =>
        have := decimal_octet b
        simp only [map_cons, sum_cons, length_cons]
        omega
    have hoctets := hsum a.toList.reverse
    simp only [length_reverse, Vector.length_toList] at hoctets
    simp only [wireLenOf, reverseV4Labels, map_append, sum_append, map_cons, map_nil, sum_cons,
      sum_nil, maxNameLen]
    omega

theorem reverseV6Labels_fits (a : Ipv6Addr) : Fits (reverseV6Labels a) := by
  have hi : (ascii "ip6").length = 3 := by decide
  have ha : (ascii "arpa").length = 4 := by decide
  constructor
  · intro l hl
    simp only [reverseV6Labels, mem_append, mem_flatMap, mem_cons, not_mem_nil, or_false] at hl
    rcases hl with ⟨b, -, rfl | rfl⟩ | rfl | rfl
    · have := (hexadecimal_nibble b _ (.inl rfl)).1
      simp only [maxLabelLen]; omega
    · have := (hexadecimal_nibble b _ (.inr rfl)).1
      simp only [maxLabelLen]; omega
    · decide
    · decide
  · -- two labels of one octet for each of the sixteen octets
    have hsum : ∀ bs : Bytes, ((bs.flatMap fun b : UInt8 => [hexadecimal (b &&& 0xF).toNat,
        hexadecimal (b >>> 4).toNat]).map fun l => l.length + 1).sum = 4 * bs.length := by
      intro bs
      induction bs with
      | nil => rfl
      | cons b bs ih =>
        have h1 := (hexadecimal_nibble b _ (.inl rfl)).1
        have h2 := (hexadecimal_nibble b _ (.inr rfl)).1
        simp only [flatMap_cons, map_append, map_cons, map_nil, sum_append, sum_cons,
          sum_nil, h1, h2, ih, length_cons]
        omega
    simp only [wireLenOf, reverseV6Labels, map_append, sum_append, hsum, length_reverse,
      Vector.length_toList, map_cons, map_nil, sum_cons, sum_nil, maxNameLen]
    omega

/-- `Name::reverse_v4`; that the text it formats parses to this is `parse_reverseText`. -/
def reverseV4 (a : Ipv4Addr) : Name := ⟨reverseV4Labels a, reverseV4Labels_fits a⟩

/-- `Name::reverse_v6`. -/
def reverseV6 (a : Ipv6Addr) : Name := ⟨reverseV6Labels a, reverseV6Labels_fits a⟩

/-- The name of the reverse mapping of an address, as `Engine::reverse` picks it. -/
def reverseOf : IpAddr → Name
  | .v4 a => reverseV4 a
  | .v6 a => reverseV6 a

theorem reverseOf_plain (a : IpAddr) : Plain (reverseOf a).labels ∧ (reverseOf a).labels ≠ [] := by
  cases a with
  | v4 a => exact ⟨reverseV4Labels_plain a, by simp [reverseOf, reverseV4, reverseV4Labels]⟩
  | v6 a => exact ⟨reverseV6Labels_plain a, by simp [reverseOf, reverseV6, reverseV6Labels]⟩

/-- **The text of a reverse name is a name**: `reverse_v4` and `reverse_v6` do not panic. -/
theorem parse_reverseText (a : IpAddr) :
    parse ([dot].intercalate (reverseOf a).labels) = .ok (reverseOf a) :=
  parse_join (reverseOf_plain a).2 fun l hl hd => ((reverseOf_plain a).1 l hl dot hd).1 rfl

/-- **A reverse name survives being displayed and parsed.** -/
theorem parse_display_reverse (a : IpAddr) : parse (reverseOf a).display = .ok (reverseOf a) :=
  parse_display (reverseOf_plain a).1 (reverseOf_plain a).2

/-- A label of an `ip6.arpa` name: one hexadecimal digit. -/
def nibbleLabel : Bytes → Option UInt8
  | [b] => hexDigit b
  | _ => none

/-- `Name::reverse_address`. -/
def reverseAddress (n : Name) : Option IpAddr :=
  if n.endsWith inAddrArpa && n.labels.length == 6 then do
    let os ← (n.labels.take 4).mapM parseU8
    some (.v4 #v[os.getD 3 0, os.getD 2 0, os.getD 1 0, os.getD 0 0])
  else if n.endsWith ip6Arpa && n.labels.length == 34 then do
    let ns ← (n.labels.take 32).mapM nibbleLabel
    some (.v6 (Vector.ofFn fun k =>
      ns.getD (2 * (15 - k)) 0 ||| (ns.getD (2 * (15 - k) + 1) 0 <<< 4)))
  else none

example : reverseAddress (reverseV4 #v[10, 0, 2, 15]) = some (.v4 #v[10, 0, 2, 15]) := by decide

end Name

end Resolvd.Dns
