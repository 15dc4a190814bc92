import Resolvd.Core.Msgpack

/-!
# The values of MessagePack

`Values text d n v` says that the octets `v` are `n` values of MessagePack one behind the other,
with containers nested at most `d` deep and with `text` true of the octets of every string: a
grammar of the format, from its tables of markers, that says nothing of the reader.  Every value is
a token, and behind the token of an array or a map stand as many values as it announces.

`Reader::skip` passes over exactly the values whose strings are UTF-8 and whose containers are
nested at most `MAX_DEPTH` deep (`skip_reads`, `skip_takes`).  Where one value ends does not depend
on what stands behind it (`Values.unique`).
-/

namespace Resolvd.Msgpack

open Lib Lib.Parser List

variable {t : Bytes} {es : List (Bytes × Bytes)}

/-! ### Skipping a value -/

/-- What a marker announces, by the arms of `Reader::skip`. -/
inductive Kind where
  | one
  | fixed
  | ext
  | str
  | bin
  | array
  | map
  | reserved
  deriving DecidableEq, Repr

/-- The arms of `Reader::skip`. -/
def kind (b : UInt8) : Kind :=
  if b ≤ 0x7f ∨ 0xe0 ≤ b ∨ b = 0xc0 ∨ b = 0xc2 ∨ b = 0xc3 then .one
  else if 0xca ≤ b ∧ b ≤ 0xd8 then .fixed
  else if 0xc7 ≤ b ∧ b ≤ 0xc9 then .ext
  else if (0xa0 ≤ b ∧ b ≤ 0xbf) ∨ (0xd9 ≤ b ∧ b ≤ 0xdb) then .str
  else if 0xc4 ≤ b ∧ b ≤ 0xc6 then .bin
  else if (0x90 ≤ b ∧ b ≤ 0x9f) ∨ b = 0xdc ∨ b = 0xdd then .array
  else if (0x80 ≤ b ∧ b ≤ 0x8f) ∨ b = 0xde ∨ b = 0xdf then .map
  else .reserved

/-- The octets behind the marker of a float, an integer or a fixed extension, the type of the
extension included. -/
def fixedSizes : List (UInt8 × ℕ) :=
  [(0xcc, 1), (0xd0, 1), (0xcd, 2), (0xd1, 2), (0xd4, 2), (0xd5, 3), (0xca, 4), (0xce, 4),
    (0xd2, 4), (0xd6, 5), (0xcb, 8), (0xcf, 8), (0xd3, 8), (0xd7, 9), (0xd8, 17)]

/-- `*self.buf.get(self.pos).ok_or(Error::Truncated)?`. -/
def front : Reader UInt8 := fun bs =>
  match bs with
  | [] => .error .truncated
  | b :: bs => .ok (b, b :: bs)

/-- `Reader::nested`: `f` runs one level deeper, when there is such a level. -/
def nested (deeper : Option (Reader Unit)) (f : Reader Unit → Reader Unit) : Reader Unit :=
  match deeper with
  | none => throw .depth
  | some r => f r

/-- The arms of `Reader::skip`, where `deeper` is `skip` one level deeper. -/
def skipArm (deeper : Option (Reader Unit)) : Kind → Reader Unit
  | .one => discard byte
  | .fixed => do
    let b ← byte
    discard (take ((fixedSizes.lookup b).getD 0))
  | .ext => do
    let n ← extMarks.size
    -- The type of the extension, even when the data is empty.
    discard byte
    discard (take n)
  | .str => discard readStr
  | .bin => discard readBin
  | .array => do
    let n ← readArray
    nested deeper fun r => times r n
  | .map => do
    let n ← readMap
    nested deeper fun r => times (do r; r) n
  | .reserved => throw .unsupported

/-- One call of `Reader::skip`. -/
def skipWith (deeper : Option (Reader Unit)) : Reader Unit := do
  skipArm deeper (kind (← front))

/-- `Reader::skip` with `left` levels left (`MAX_DEPTH - self.depth`). -/
def skipAt : ℕ → Reader Unit
  | 0 => skipWith none
  | left + 1 => skipWith (some (skipAt left))

/-- `MAX_DEPTH`. -/
abbrev maxDepth : ℕ := 32

/-- `Reader::skip`.  Every caller is at level zero: only `skip` itself descends. -/
def skip : Reader Unit := skipAt maxDepth

/-! ### The grammar -/

/-- `String::from_utf8` accepts the octets. -/
def Utf8 (bs : Bytes) : Prop := ∃ s, octets s = bs

/-- The octets of a value up to its end, or, for a container, up to its first item; then with the
number of items. -/
inductive Token (text : Bytes → Prop) : Bytes → Option ℕ → Prop
  | one {b : UInt8} : b ≤ 0x7f ∨ 0xe0 ≤ b ∨ b = 0xc0 ∨ b = 0xc2 ∨ b = 0xc3 → Token text [b] none
  | fixed {b : UInt8} {data : Bytes} : (b, data.length) ∈ fixedSizes → Token text (b :: data) none
  | ext {h data : Bytes} (type : UInt8) : extMarks.Head data.length h →
    Token text (h ++ type :: data) none
  | str {h data : Bytes} : strMarks.Head data.length h → text data → Token text (h ++ data) none
  | bin {h data : Bytes} : binMarks.Head data.length h → Token text (h ++ data) none
  | array {n : ℕ} {h : Bytes} : arrayMarks.Head n h → Token text h (some n)
  | map {n : ℕ} {h : Bytes} : mapMarks.Head n h → Token text h (some (2 * n))

/-- `n` values one behind the other, with containers nested at most `d` deep. -/
inductive Values (text : Bytes → Prop) : ℕ → ℕ → Bytes → Prop
  | nil {d : ℕ} : Values text d 0 []
  | leaf {d n : ℕ} {t rest : Bytes} :
      Token text t none → Values text d n rest → Values text d (n + 1) (t ++ rest)
  | node {d n k : ℕ} {t body rest : Bytes} :
      Token text t (some k) → Values text d k body → Values text (d + 1) n rest →
        Values text (d + 1) (n + 1) (t ++ (body ++ rest))

variable {text : Bytes → Prop} {d n : ℕ} {v w : Bytes}

theorem Values.append {m : ℕ} (h : Values text d n v) (h' : Values text d m w) :
    Values text d (n + m) (v ++ w) := by
  induction h with
  | nil => simpa using h'
  | leaf ht _ ih =>
    rw [append_assoc, Nat.add_right_comm]
    exact .leaf ht (ih h')
  | node ht hb _ _ ih =>
    rw [append_assoc, append_assoc, Nat.add_right_comm]
    exact .node ht hb (ih h')

theorem Values.mono {d' : ℕ} (h : Values text d n v) (hd : d ≤ d') : Values text d' n v := by
  induction h generalizing d' with
  | nil => exact .nil
  | leaf ht _ ih => exact .leaf ht (ih hd)
  | node ht _ _ ihb ih =>
    obtain ⟨e, rfl⟩ : ∃ e, d' = e + 1 := ⟨d' - 1, by omega⟩
    exact .node ht (ihb (by omega)) (ih hd)

theorem Token.weaken {c : Option ℕ} (h : Token text t c) : Token (fun _ => True) t c := by
  cases h with
  | one hb => exact .one hb
  | fixed hb => exact .fixed hb
  | ext ty hh => exact .ext ty hh
  | str hh _ => exact .str hh trivial
  | bin hh => exact .bin hh
  | array hh => exact .array hh
  | map hh => exact .map hh

/-- A value is a value whatever is asked of its strings. -/
theorem Values.weaken (h : Values text d n v) : Values (fun _ => True) d n v := by
  induction h with
  | nil => exact .nil
  | leaf ht _ ih => exact .leaf ht.weaken ih
  | node ht _ _ ihb ih => exact .node ht.weaken ihb ih

theorem Token.length_pos {c : Option ℕ} (h : Token text t c) : 0 < t.length := by
  cases h with
  | one => simp
  | fixed => simp
  | ext _ hh => have := hh.length_pos; simp
  | str hh => have := hh.length_pos; simp only [length_append]; omega
  | bin hh => have := hh.length_pos; simp only [length_append]; omega
  | array hh => exact hh.length_pos
  | map hh => exact hh.length_pos

theorem Values.le_length (h : Values text d n v) : n ≤ v.length := by
  induction h with
  | nil => simp
  | leaf ht _ ih =>
    have := ht.length_pos
    simp only [length_append]
    omega
  | node ht _ _ _ ih =>
    have := ht.length_pos
    simp only [length_append]
    omega

/-! ### Counts in front of items -/

/-- `c` reads the number of items of a container, which take at least `least` octets each. -/
structure Counts {ε : Type} (c : Parser ε ℕ) (m : Marks) (least : ℕ) : Prop where
  reads : ∀ {n h rest}, m.Head n h → n * least ≤ rest.length → c (h ++ rest) = .ok (n, rest)
  takes : ∀ {bs n rest}, c bs = .ok (n, rest) → ∃ h, bs = h ++ rest ∧ m.Head n h

theorem counts_readCount (m : Marks) (least : ℕ) : Counts (readCount m least) m least where
  reads := by
    intro n h rest hh hle
    unfold readCount
    rw [bind_apply_ok (hh.reads rest)]
    show (if n * least > rest.length then throw Error.truncated
      else Pure.pure n : Reader ℕ) rest = _
    rw [if_neg (by omega), pure_apply]
  takes := by
    intro bs n rest hc
    obtain ⟨k, mid, h1, h2⟩ := bind_eq_ok.mp hc
    obtain ⟨h, rfl, -, hh⟩ := m.size_takes h1
    change (if k * least > mid.length then throw Error.truncated else Pure.pure k : Reader ℕ)
      mid = _ at h2
    split at h2
    · simp [throw_apply] at h2
    · obtain ⟨rfl, rfl⟩ : k = n ∧ mid = rest := by simpa [pure_apply] using h2
      exact ⟨h, rfl, hh⟩

section Counts

variable {ε ε' α : Type} {c : Parser ε ℕ} {m : Marks} {least : ℕ} {p : ℕ → Parser ε α} {a : α}

theorem Counts.mapError (hc : Counts c m least) (f : ε → ε') : Counts (c.mapError f) m least where
  reads hh hle := mapError_eq_ok.mpr (hc.reads hh hle)
  takes h := hc.takes (mapError_eq_ok.mp h)

theorem Counts.bind_reads {h : Bytes} (hc : Counts c m least) (hh : m.Head n h)
    (hp : Reads (p n) v a) (hle : n * least ≤ v.length) : Reads (c >>= p) (h ++ v) a := by
  intro rest
  rw [append_assoc, bind_apply_ok (hc.reads hh (by simp only [length_append]; omega)), hp rest]

theorem Counts.bind_takes {L : ℕ → Bytes → α → Prop} (hc : Counts c m least)
    (hp : ∀ n, Takes (p n) (L n)) (hL : ∀ n v a, L n v a → n * least ≤ v.length) :
    Takes (c >>= p) (fun w a => ∃ n h v, w = h ++ v ∧ m.Head n h ∧ L n v a) := by
  intro bs a rest hb
  obtain ⟨n, mid, h1, h2⟩ := bind_eq_ok.mp hb
  obtain ⟨h, rfl, hh⟩ := hc.takes h1
  obtain ⟨v, rfl, hr, hv⟩ := hp n h2
  exact ⟨h ++ v, by simp, hc.bind_reads hh hr (hL n v a hv), n, h, v, rfl, hh, hv⟩

end Counts

/-! ### Markers and arms -/

/-- The table of the markers: which arm takes which. -/
theorem kind_table : ∀ b, (strMarks.Mark b → kind b = .str) ∧ (binMarks.Mark b → kind b = .bin) ∧
    (arrayMarks.Mark b → kind b = .array) ∧ (mapMarks.Mark b → kind b = .map) ∧
    (extMarks.Mark b → kind b = .ext) ∧
    (kind b = .one ↔ b ≤ 0x7f ∨ 0xe0 ≤ b ∨ b = 0xc0 ∨ b = 0xc2 ∨ b = 0xc3) ∧
    (Ty.of b = .nil ↔ b = 0xc0) ∧
    (kind b = .fixed ↔ b ∈ fixedSizes.map Prod.fst) :=
  forall_byte (by decide +kernel)

theorem kind_str (b : UInt8) : strMarks.Mark b → kind b = .str := (kind_table b).1

theorem kind_bin (b : UInt8) : binMarks.Mark b → kind b = .bin := (kind_table b).2.1

theorem kind_array (b : UInt8) : arrayMarks.Mark b → kind b = .array := (kind_table b).2.2.1

theorem kind_map (b : UInt8) : mapMarks.Mark b → kind b = .map := (kind_table b).2.2.2.1

theorem kind_ext (b : UInt8) : extMarks.Mark b → kind b = .ext := (kind_table b).2.2.2.2.1

theorem kind_one (b : UInt8) :
    kind b = .one ↔ b ≤ 0x7f ∨ 0xe0 ≤ b ∨ b = 0xc0 ∨ b = 0xc2 ∨ b = 0xc3 :=
  (kind_table b).2.2.2.2.2.1

theorem of_nil (b : UInt8) : Ty.of b = .nil ↔ b = 0xc0 := (kind_table b).2.2.2.2.2.2.1

theorem kind_fixed (b : UInt8) : kind b = .fixed ↔ b ∈ fixedSizes.map Prod.fst :=
  (kind_table b).2.2.2.2.2.2.2

theorem lookup_fixedSizes {e : UInt8 × ℕ} (he : e ∈ fixedSizes) :
    fixedSizes.lookup e.1 = some e.2 :=
  lookup_of_mem (by decide) he

/-! ### What `skip` passes over -/

section Skip

variable {ε α : Type} {deeper : Option (Reader Unit)} {t : Bytes}

theorem discard_reads {p : Parser ε α} {a : α} (h : Reads p v a) : Reads (discard p) v () := h.map _

theorem discard_takes {p : Parser ε α} {L : Bytes → α → Prop} (h : Takes p L) :
    Takes (discard p) (fun v _ => ∃ a, L v a) := by
  refine (h.map _).mono ?_
  rintro v _ ⟨a, -, hL⟩
  exact ⟨a, hL⟩

theorem skipWith_reads {b : UInt8} {k : Kind} (hk : kind b = k)
    (h : Reads (skipArm deeper k) (b :: v) ()) : Reads (skipWith deeper) (b :: v) () := by
  intro rest
  subst hk
  exact h rest

theorem skipWith_reads_head {m : Marks} {k : Kind} {h : Bytes} (hm : ∀ b, m.Mark b → kind b = k)
    (hh : m.Head n h) (hr : Reads (skipArm deeper k) (h ++ v) ()) :
    Reads (skipWith deeper) (h ++ v) () := by
  obtain ⟨b, tail, rfl, hb⟩ := hh.mark
  exact skipWith_reads (hm b hb) hr

theorem skipWith_leaf (h : Token Utf8 t none) (deeper : Option (Reader Unit)) :
    Reads (skipWith deeper) t () := by
  cases h with
  | @one b hb => exact skipWith_reads ((kind_one b).mpr hb) (discard_reads (byte_reads b))
  | @fixed b data hb =>
    refine skipWith_reads ((kind_fixed b).mpr (mem_map_of_mem hb))
      ((byte_reads b).bind (v := [b]) ?_)
    rw [lookup_fixedSizes hb]
    exact discard_reads (take_reads data)
  | @ext h data ty hh =>
    refine skipWith_reads_head kind_ext hh (hh.reads.bind ?_)
    exact (discard_reads (byte_reads ty)).bind (v := [ty]) (discard_reads (take_reads data))
  | @str h data hh ht =>
    obtain ⟨s, rfl⟩ := ht
    rw [length_octets] at hh
    exact skipWith_reads_head kind_str hh (discard_reads (Str.reads ⟨h, hh, rfl⟩))
  | @bin h data hh => exact skipWith_reads_head kind_bin hh (discard_reads (Bin.reads ⟨h, hh, rfl⟩))

theorem times_pair (r : Parser ε Unit) (n : ℕ) : times (do r; r) n = times r (2 * n) := by
  induction n with
  | zero => rfl
  | succ n ih => simp only [times, ih, Nat.mul_succ, bind_assoc]

/-- Passing over a container, when its items are passed over one level deeper. -/
theorem skipWith_node {k : ℕ} {r : Reader Unit} {body : Bytes} (h : Token text t (some k))
    (hb : Reads (times r k) body ()) (hle : k ≤ body.length) :
    Reads (skipWith (some r)) (t ++ body) () := by
  cases h with
  | array hh =>
    exact skipWith_reads_head kind_array hh ((counts_readCount _ 1).bind_reads hh hb (by omega))
  | @map n _ hh =>
    rw [← times_pair] at hb
    exact skipWith_reads_head kind_map hh ((counts_readCount _ 2).bind_reads hh hb (by omega))

/-- **`skip` passes over every value whose strings are UTF-8 and that is not nested deeper than
allowed.** -/
theorem skipAt_reads (h : Values Utf8 d n v) {left : ℕ} (hd : d ≤ left) :
    Reads (times (skipAt left) n) v () := by
  induction h generalizing left with
  | nil => exact Reads.pure ()
  | @leaf d n t rest ht _ ih =>
    have hskip : Reads (skipAt left) t () := by
      cases left <;> exact skipWith_leaf ht _
    exact hskip.times (ih hd)
  | @node d n k t body rest ht hb _ ihb ih =>
    obtain ⟨left, rfl⟩ : ∃ l, left = l + 1 := ⟨left - 1, by omega⟩
    have hskip : Reads (skipAt (left + 1)) (t ++ body) () :=
      skipWith_node ht (ihb (by omega)) hb.le_length
    rw [← append_assoc]
    exact hskip.times (ih hd)

theorem Token.value (h : Token text t none) : Values text d 1 t := by
  simpa using Values.leaf h (.nil (d := d))

theorem Token.container {k : ℕ} {body : Bytes} (h : Token text t (some k))
    (hb : Values text d k body) : Values text (d + 1) 1 (t ++ body) := by
  simpa using Values.node h hb .nil

/-- What `r` passes over is a value, nested at most `d` deep. -/
def Passes (r : Reader Unit) (d : ℕ) : Prop :=
  ∀ ⦃bs rest⦄, r bs = .ok ((), rest) → ∃ v, bs = v ++ rest ∧ Values Utf8 d 1 v

theorem Passes.times {r : Reader Unit} (h : Passes r d) (n : ℕ) {bs rest : Bytes}
    (hr : times r n bs = .ok ((), rest)) : ∃ v, bs = v ++ rest ∧ Values Utf8 d n v := by
  induction n generalizing bs with
  | zero =>
    obtain rfl : bs = rest := by simpa [Parser.times, pure_apply] using hr
    exact ⟨[], rfl, .nil⟩
  | succ n ih =>
    obtain ⟨_, mid, h1, h2⟩ := bind_eq_ok.mp hr
    obtain ⟨v, rfl, hv⟩ := h h1
    obtain ⟨w, rfl, hw⟩ := ih h2
    refine ⟨v ++ w, by simp, ?_⟩
    rw [Nat.add_comm]
    exact hv.append hw

/-- One call of `skip` passes over a value, when a call one level deeper does. -/
theorem skipWith_passes {left : ℕ} (hdeep : ∀ r, deeper = some r → ∃ d, left = d + 1 ∧ Passes r d) :
    Passes (skipWith deeper) left := by
  intro bs rest h
  obtain ⟨b, mid, h1, h2⟩ := bind_eq_ok.mp h
  obtain ⟨tail, rfl, rfl⟩ : ∃ tail, bs = b :: tail ∧ mid = b :: tail := by
    cases bs with
    | nil => simp [front] at h1
    | cons c tail =>
      obtain ⟨rfl, rfl⟩ : c = b ∧ c :: tail = mid := by simpa [front] using h1
      exact ⟨tail, rfl, rfl⟩
  cases hk : kind b with
  | one =>
    rw [hk] at h2
    obtain ⟨v, e, -, c, rfl⟩ := discard_takes byte_takes h2
    obtain ⟨rfl, -⟩ : b = c ∧ tail = rest := by simpa using e
    exact ⟨[b], e, (Token.one ((kind_one b).mp hk)).value⟩
  | fixed =>
    rw [hk] at h2
    obtain ⟨c, mid, h3, h4⟩ := bind_eq_ok.mp h2
    obtain ⟨rfl, rfl⟩ : b = c ∧ tail = mid := by simpa [byte] using h3
    obtain ⟨e, he, rfl⟩ := mem_map.mp ((kind_fixed b).mp hk)
    rw [lookup_fixedSizes he] at h4
    obtain ⟨data, rfl, -, _, rfl, hlen⟩ := discard_takes (take_takes _) h4
    refine ⟨e.1 :: data, rfl, (Token.fixed ?_).value⟩
    rw [hlen]
    exact he
  | ext =>
    rw [hk] at h2
    obtain ⟨v, e, -, len, h, w, rfl, hh, _, x, y, rfl, ⟨ty, rfl⟩, data, rfl, rfl⟩ :=
      (extMarks.size_takes.bind fun n => (discard_takes byte_takes).bind fun _ =>
        discard_takes (take_takes n)) h2
    exact ⟨_, e, (Token.ext ty hh).value⟩
  | str =>
    rw [hk] at h2
    obtain ⟨v, e, -, s, h, hh, rfl⟩ := discard_takes readStr_takes h2
    exact ⟨_, e, (Token.str (by rwa [length_octets]) ⟨s, rfl⟩).value⟩
  | bin =>
    rw [hk] at h2
    obtain ⟨v, e, -, data, h, hh, rfl⟩ := discard_takes readBin_takes h2
    exact ⟨_, e, (Token.bin hh).value⟩
  | array =>
    rw [hk] at h2
    obtain ⟨k, mid, h3, h4⟩ := bind_eq_ok.mp h2
    obtain ⟨head, e, hh⟩ := (counts_readCount _ 1).takes h3
    cases deeper with
    | none => simp [nested, throw_apply] at h4
    | some r =>
      obtain ⟨d, rfl, hr⟩ := hdeep r rfl
      obtain ⟨body, rfl, hb⟩ := hr.times k h4
      exact ⟨head ++ body, by rw [e]; simp, (Token.array hh).container hb⟩
  | map =>
    rw [hk] at h2
    obtain ⟨k, mid, h3, h4⟩ := bind_eq_ok.mp h2
    obtain ⟨head, e, hh⟩ := (counts_readCount _ 2).takes h3
    cases deeper with
    | none => simp [nested, throw_apply] at h4
    | some r =>
      obtain ⟨d, rfl, hr⟩ := hdeep r rfl
      simp only [nested, times_pair] at h4
      obtain ⟨body, rfl, hb⟩ := hr.times (2 * k) h4
      exact ⟨head ++ body, by rw [e]; simp, (Token.map hh).container hb⟩
  | reserved =>
    rw [hk] at h2
    simp [skipArm, throw_apply] at h2

theorem skipAt_passes (left : ℕ) : Passes (skipAt left) left := by
  induction left with
  | zero => exact skipWith_passes (by simp)
  | succ left ih =>
    refine skipWith_passes fun r hr => ⟨left, rfl, ?_⟩
    obtain rfl := Option.some.inj hr
    exact ih

theorem skip_reads (h : Values Utf8 d 1 v) (hd : d ≤ maxDepth) : Reads skip v () := by
  have := skipAt_reads h hd
  rwa [show times (skipAt maxDepth) 1 = skip by simp [times, skip]] at this

/-- **`skip` passes over nothing but such values.** -/
theorem skip_takes : Takes skip (fun v _ => Values Utf8 maxDepth 1 v) := by
  intro bs _ rest h
  obtain ⟨v, rfl, hv⟩ := skipAt_passes maxDepth h
  exact ⟨v, rfl, skip_reads hv le_rfl, hv⟩

end Skip

/-! ### Where a value ends -/

/-- The token at the front, whatever its strings hold, with the number of items of a container. -/
def tokenArm : Kind → Reader (Option ℕ)
  | .one => do
    let _ ← byte
    return none
  | .fixed => do
    let b ← byte
    let _ ← take ((fixedSizes.lookup b).getD 0)
    return none
  | .ext => do
    let n ← extMarks.size
    let _ ← byte
    let _ ← take n
    return none
  | .str => do
    let n ← strMarks.size
    let _ ← take n
    return none
  | .bin => do
    let n ← binMarks.size
    let _ ← take n
    return none
  | .array => some <$> arrayMarks.size
  | .map => (fun n => some (2 * n)) <$> mapMarks.size
  | .reserved => throw .unsupported

def token : Reader (Option ℕ) := do
  tokenArm (kind (← front))

section Ends

variable {t : Bytes} {c : Option ℕ}

theorem token_reads {b : UInt8} {k : Kind} (hk : kind b = k) (h : Reads (tokenArm k) (b :: v) c) :
    Reads token (b :: v) c := by
  intro rest
  subst hk
  exact h rest

theorem token_reads_head {m : Marks} {k : Kind} {h : Bytes} (hm : ∀ b, m.Mark b → kind b = k)
    (hh : m.Head n h) (hr : Reads (tokenArm k) (h ++ v) c) : Reads token (h ++ v) c := by
  obtain ⟨b, tail, rfl, hb⟩ := hh.mark
  exact token_reads (hm b hb) hr

theorem drop_reads (data : Bytes) :
    Reads (do let _ ← take data.length; return none : Reader (Option ℕ)) data none := by
  simpa using (take_reads data).bind (f := fun _ => (return none : Reader (Option ℕ)))
    (Reads.pure none)

theorem Token.reads (h : Token text t c) : Reads token t c := by
  cases h with
  | @one b hb =>
    exact token_reads ((kind_one b).mpr hb) ((byte_reads b).bind (w := []) (Reads.pure none))
  | @fixed b data hb =>
    refine token_reads ((kind_fixed b).mpr (mem_map_of_mem hb)) ((byte_reads b).bind (v := [b]) ?_)
    rw [lookup_fixedSizes hb]
    exact drop_reads data
  | @ext h data ty hh =>
    exact token_reads_head kind_ext hh
      (hh.reads.bind ((byte_reads ty).bind (v := [ty]) (drop_reads data)))
  | @str h data hh => exact token_reads_head kind_str hh (hh.reads.bind (drop_reads data))
  | @bin h data hh => exact token_reads_head kind_bin hh (hh.reads.bind (drop_reads data))
  | array hh =>
    rw [← append_nil t]
    exact token_reads_head kind_array hh (by rw [append_nil]; exact hh.reads.map some)
  | map hh =>
    rw [← append_nil t]
    exact token_reads_head kind_map hh (by rw [append_nil]; exact hh.reads.map _)

/-- **Where values end does not depend on what stands behind them.** -/
theorem Values.unique {text' : Bytes → Prop} {d' : ℕ} {v' r r' : Bytes} (h : Values text d n v)
    (h' : Values text' d' n v') (e : v ++ r = v' ++ r') : v = v' ∧ r = r' := by
  induction h generalizing d' v' r r' with
  | nil =>
    cases h'
    exact ⟨rfl, e⟩
  | leaf ht _ ih =>
    cases h' with
    | leaf ht' hr' =>
      simp only [append_assoc] at e
      obtain ⟨rfl, -, erest⟩ := ht.reads.unique ht'.reads e
      obtain ⟨rfl, rfl⟩ := ih hr' erest
      exact ⟨rfl, rfl⟩
    | node ht' =>
      simp only [append_assoc] at e
      obtain ⟨-, hc, -⟩ := ht.reads.unique ht'.reads e
      cases hc
  | node ht _ _ ihb ih =>
    cases h' with
    | leaf ht' =>
      simp only [append_assoc] at e
      obtain ⟨-, hc, -⟩ := ht.reads.unique ht'.reads e
      cases hc
    | node ht' hb' hr' =>
      simp only [append_assoc] at e
      obtain ⟨rfl, hc, ebody⟩ := ht.reads.unique ht'.reads e
      obtain rfl := Option.some.inj hc
      obtain ⟨rfl, erest⟩ := ihb hb' ebody
      obtain ⟨rfl, rfl⟩ := ih hr' erest
      exact ⟨rfl, rfl⟩

end Ends

/-! ### Readers of one value -/

/-- The octets are one value, nested as deep as it may be. -/
def Value (v : Bytes) : Prop := ∃ d, Values Utf8 d 1 v

theorem Value.length_pos (h : Value v) : 0 < v.length := by
  obtain ⟨d, h⟩ := h
  exact h.le_length

/-- The reader takes one value, whole, and returns something with the property `Q`. -/
abbrev Reads1 {ε α : Type} (p : Parser ε α) (Q : α → Prop) : Prop :=
  Takes p (fun v a => Q a ∧ Value v)

theorem Token.isValue (h : Token Utf8 t none) : Value t := ⟨0, h.value⟩

theorem Str.value {s : String} (h : Str s v) : Value v := by
  obtain ⟨head, hh, rfl⟩ := h
  exact (Token.str (by rwa [length_octets]) ⟨s, rfl⟩).isValue

theorem readStr_one : Reads1 readStr (fun s => s.utf8ByteSize < 2 ^ 32) :=
  readStr_takes.mono fun _ _ h => ⟨h.size_lt, h.value⟩

theorem readBin_one : Reads1 readBin (fun b => b.length < 2 ^ 32) := by
  refine readBin_takes.mono ?_
  rintro v b h
  obtain ⟨head, hh, rfl⟩ := id h
  exact ⟨h.length_lt, (Token.bin hh).isValue⟩

theorem writeBool_reads (b : Bool) : Reads readBool (writeBool b) b := by
  cases b <;> exact fun _ => rfl

theorem readBool_one : Reads1 readBool (fun _ => True) := by
  refine (byte_takes.bind (M := fun c v b => v = [] ∧ [c] = writeBool b) fun c => ?_).mono ?_
  · split
    · next hc =>
      refine (Takes.pure false).mono ?_
      rintro _ _ ⟨rfl, rfl⟩
      exact ⟨rfl, by rw [hc]; rfl⟩
    · split
      · next hc =>
        refine (Takes.pure true).mono ?_
        rintro _ _ ⟨rfl, rfl⟩
        exact ⟨rfl, by rw [hc]; rfl⟩
      · exact Takes.throw _ _
  · rintro v b ⟨c, _, _, rfl, rfl, rfl, hc⟩
    rw [append_nil, hc]
    refine ⟨trivial, ?_⟩
    cases b <;> exact (Token.one (by decide)).isValue

theorem readNil_reads : Reads readNil writeNil () := fun _ => rfl

/-! ### Integers -/

theorem signed_lt {w : ℕ} (hw : w ≤ 8) (hn : n < 256 ^ w) : signed w n < 2 ^ 63 := by
  unfold signed
  split
  · next h =>
    have : 2 ^ (8 * w - 1) ≤ 2 ^ 63 := Nat.pow_le_pow_right (by omega) (by omega)
    have : n < 2 ^ 63 := by omega
    exact_mod_cast this
  · have : n < 2 ^ (8 * w) := by rwa [Nat.pow_mul]
    have : (n : ℤ) < 2 ^ (8 * w) := by exact_mod_cast this
    omega

theorem beU_takes (w : ℕ) : Takes (beU w) (fun v n => v.length = w ∧ n < 256 ^ w) := by
  refine ((take_takes w).map ofBe).mono ?_
  rintro v n ⟨_, rfl, rfl, rfl⟩
  exact ⟨rfl, ofBe_lt v⟩

/-- What follows a marker of an integer, with the integer. -/
theorem readInt_one : Reads1 readInt (fun i => i < 2 ^ 63) := by
  refine (byte_takes.bind (M := fun b v i => i < 2 ^ 63 ∧
    ((v = [] ∧ (b ≤ 0x7f ∨ 0xe0 ≤ b)) ∨ (b, v.length) ∈ fixedSizes)) fun b => ?_).mono ?_
  · split
    · next hb =>
      refine (Takes.pure _).mono ?_
      rintro _ _ ⟨rfl, rfl⟩
      refine ⟨?_, .inl ⟨rfl, .inl hb⟩⟩
      have := b.toNat_lt
      omega
    · split
      · next hb =>
        refine (Takes.pure _).mono ?_
        rintro _ _ ⟨rfl, rfl⟩
        exact ⟨signed_lt (by decide) b.toNat_lt, .inl ⟨rfl, .inr hb⟩⟩
      · cases hu : uintMarks.wide.lookup b with
        | some w =>
          dsimp only
          have hmem : ∀ e ∈ uintMarks.wide, e ∈ fixedSizes := by decide
          refine ((beU_takes w).bind (M := fun (n : ℕ) v (i : ℤ) => v = [] ∧ i = n ∧ n < 2 ^ 63)
            fun n => ?_).mono ?_
          · split
            · next hn =>
              refine (Takes.pure _).mono ?_
              rintro _ _ ⟨rfl, rfl⟩
              exact ⟨rfl, rfl, hn⟩
            · exact Takes.throw _ _
          · rintro _ _ ⟨n, v, _, rfl, ⟨rfl, -⟩, rfl, rfl, hn⟩
            refine ⟨by exact_mod_cast hn, .inr ?_⟩
            rw [append_nil]
            exact hmem _ (mem_of_lookup hu)
        | none =>
          cases hi : intWide.lookup b with
          | some w =>
            have hmem : ∀ e ∈ intWide, e ∈ fixedSizes ∧ e.2 ≤ 8 := by decide
            obtain ⟨h1, h2⟩ := hmem _ (mem_of_lookup hi)
            refine ((beU_takes w).map (signed w)).mono ?_
            rintro v _ ⟨n, rfl, rfl, hn⟩
            exact ⟨signed_lt h2 hn, .inr h1⟩
          | none => exact Takes.throw _ _
  · rintro _ i ⟨b, _, v, rfl, rfl, hi, ⟨rfl, hb⟩ | hb⟩
    · exact ⟨hi, (Token.one (hb.imp_right .inl)).isValue⟩
    · exact ⟨hi, (Token.fixed hb).isValue⟩

theorem readUint_one : Reads1 readUint (fun n => n < 2 ^ 63) := by
  refine (readInt_one.bind (M := fun i v n => v = [] ∧ 0 ≤ i ∧ n = i.toNat) fun i => ?_).mono ?_
  · split
    · next hi =>
      refine (Takes.pure _).mono ?_
      rintro _ _ ⟨rfl, rfl⟩
      exact ⟨rfl, hi, rfl⟩
    · exact Takes.throw _ _
  · rintro _ _ ⟨i, v, _, rfl, ⟨hi, hv⟩, rfl, h0, rfl⟩
    rw [append_nil]
    exact ⟨by omega, hv⟩

theorem readInt_reads {h : Bytes} (hh : uintMarks.Head n h) (hn : n < 2 ^ 63) :
    Reads readInt h n := by
  rcases hh with ⟨hroom, rfl⟩ | ⟨e, he, hlt, rfl⟩
  · refine (byte_reads _).bind (w := []) ?_
    have hnat := Marks.toNat_short hroom
    have hle : UInt8.ofNat (uintMarks.short + n) ≤ 0x7f := by
      rw [UInt8.le_iff_toNat_le, hnat]
      simp only [uintMarks] at hroom ⊢
      simpa using Nat.le_of_lt_succ hroom
    rw [if_pos hle, hnat]
    simpa [uintMarks] using Reads.pure (ε := Error) (n : ℤ)
  · refine (byte_reads e.1).bind (w := toBe e.2 n) ?_
    have hmark : ∀ e ∈ uintMarks.wide, ¬ e.1 ≤ 0x7f ∧ ¬ 0xe0 ≤ e.1 := by decide
    obtain ⟨h1, h2⟩ := hmark e he
    rw [if_neg h1, if_neg h2]
    simp only [lookup_of_mem uintMarks.nodup he]
    rw [← append_nil (toBe e.2 n)]
    refine (beU_reads hlt).bind ?_
    rw [if_pos hn]
    exact Reads.pure _

theorem writeUint_reads {v : UInt64} (hv : v.toNat < 2 ^ 63) :
    Reads readUint (writeUint v) v.toNat := by
  rw [← append_nil (writeUint v)]
  refine (readInt_reads (writeUint_head v) hv).bind ?_
  rw [if_pos (Int.natCast_nonneg _), Int.toNat_natCast]
  exact Reads.pure _

/-! ### Arrays -/

section Arrays

variable {ε α : Type} {f : Error → ε} {p : Parser ε α} {Q : α → Prop} {vs : List Bytes}

/-- `for _ in 0..r.read_array()?`: the items of an array. -/
def arrayOf (f : Error → ε) (p : Parser ε α) : Parser ε (List α) := do
  let n ← readArray.mapError f
  many p n

/-- The octets are an array of MessagePack, the values `vs`. -/
def ArrayOf (vs : List Bytes) (v : Bytes) : Prop :=
  ∃ h, arrayMarks.Head vs.length h ∧ v = h ++ vs.flatten

theorem arrayOf_reads {as : List α} (hv : ArrayOf vs v) (hpos : ∀ v ∈ vs, 0 < v.length)
    (h : List.Forall₂ (Reads p) vs as) : Reads (arrayOf f p) v as := by
  obtain ⟨head, hh, rfl⟩ := hv
  refine ((counts_readCount _ 1).mapError f).bind_reads hh (Reads.many h) ?_
  have := length_le_flatten hpos
  omega

theorem values_flatten (h : ∀ v ∈ vs, Value v) : ∃ d, Values Utf8 d vs.length vs.flatten := by
  induction vs with
  | nil => exact ⟨0, .nil⟩
  | cons v vs ih =>
    rw [forall_mem_cons] at h
    obtain ⟨⟨d, hd⟩, hvs⟩ := h
    obtain ⟨d', hd'⟩ := ih hvs
    refine ⟨max d d', ?_⟩
    rw [length_cons, flatten_cons, Nat.add_comm]
    exact (hd.mono (le_max_left ..)).append (hd'.mono (le_max_right ..))

theorem ArrayOf.value (hv : ArrayOf vs v) (h : ∀ v ∈ vs, Value v) : Value v := by
  obtain ⟨head, hh, rfl⟩ := hv
  obtain ⟨d, hd⟩ := values_flatten h
  exact ⟨d + 1, (Token.array hh).container hd⟩

/-- What an array's reader takes: an array, each item of which the items' reader takes. -/
theorem arrayOf_takes (hp : Reads1 p Q) :
    Takes (arrayOf f p) (fun v as => ∃ vs, ArrayOf vs v ∧ as.length < 2 ^ 32 ∧
      List.Forall₂ (Reads p) vs as ∧
      List.Forall₂ (fun v a => Q a ∧ Value v) vs as) := by
  refine (((counts_readCount arrayMarks 1).mapError f).bind_takes (fun n => hp.many n) ?_).mono ?_
  · rintro n v as ⟨vs, rfl, rfl, hvs, -⟩
    have hpos : ∀ v ∈ vs, 0 < v.length := by
      intro v hv
      obtain ⟨a, -, -, hval⟩ := forall₂_left hvs v hv
      exact hval.length_pos
    have := length_le_flatten hpos
    rw [hvs.length_eq] at this
    omega
  · rintro _ as ⟨n, h, _, rfl, hh, vs, rfl, rfl, hvs, hr⟩
    rw [← hvs.length_eq] at hh
    exact ⟨vs, ⟨h, hh, rfl⟩, by rw [← hvs.length_eq]; exact hh.lt (by decide) (by decide), hr, hvs⟩

end Arrays

/-! ### Maps -/

/-- The octets are a map of MessagePack with the fields `es`, each the octets of its key and of its
value. -/
def MapOf (es : List (Bytes × Bytes)) (v : Bytes) : Prop :=
  ∃ h, mapMarks.Head es.length h ∧ v = h ++ es.flatMap fun e => e.1 ++ e.2

theorem values_flatMap (h : ∀ e ∈ es, Value e.1 ∧ Value e.2) :
    ∃ d, Values Utf8 d (2 * es.length) (es.flatMap fun e => e.1 ++ e.2) := by
  induction es with
  | nil => exact ⟨0, .nil⟩
  | cons e es ih =>
    rw [forall_mem_cons] at h
    obtain ⟨d, hd⟩ := ih h.2
    have hpair : ∀ v ∈ [e.1, e.2], Value v := by simpa using h.1
    obtain ⟨d', hd'⟩ := values_flatten hpair
    refine ⟨max d' d, ?_⟩
    have := (hd'.mono (le_max_left d' d)).append (hd.mono (le_max_right d' d))
    simpa [Nat.mul_succ, Nat.add_comm] using this

theorem MapOf.value (hv : MapOf es v) (h : ∀ e ∈ es, Value e.1 ∧ Value e.2) : Value v := by
  obtain ⟨head, hh, rfl⟩ := hv
  obtain ⟨d, hd⟩ := values_flatMap h
  exact ⟨d + 1, (Token.map hh).container hd⟩

end Resolvd.Msgpack
