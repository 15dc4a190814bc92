import Resolvd.Core.Cursor

/-!
# What `skip` advances over

`Reader::skip` advances over one value of MessagePack, whole, or fails; on a value whose end is
missing it fails with `Truncated`; and it advances over what a `Writer` has written as far as the
reads that match the writes (`skip_exact`).

The reads that match what was written are part of the statement: `Scalar fits v m` says that a
`Writer` has written the one scalar `v` and that `m` is the read of its type, and `Written d n v m`
that it has written `n` values nested at most `d` deep and that `m` is the sequence of reads, the
count of a container first and then its items.  `m` goes on where a read fails, so that only its
position counts: `write_uint` writes numbers that `read_uint` has no type for.
-/

namespace Resolvd.Msgpack

open Lib Lib.Parser List

variable {w : ℕ} {v : ℤ}

/-! ### Values whose end is missing -/

section Stops

variable {n : ℕ} {v : Bytes} {deeper : Option (Reader Unit)} {t : Bytes} {m : Marks} {h : Bytes}

theorem byte_stops (b : UInt8) : Stops byte [b] .truncated := by
  intro u w h hw
  obtain rfl : u = [] := by
    rcases cons_eq_append_iff.mp h with ⟨rfl, -⟩ | ⟨u, rfl, hnil⟩
    · rfl
    · exact absurd (append_eq_nil_iff.mp hnil.symm).2 hw
  rfl

theorem take_stops (v : Bytes) : Stops (take v.length) v .truncated := by
  intro u w h hw
  have : 0 < w.length := length_pos_iff.mpr hw
  have : ¬ v.length ≤ u.length := by
    rw [h, length_append]
    omega
  simp only [take, if_neg this]

theorem beU_stops {w : ℕ} : Stops (beU w) (toBe w n) .truncated := by
  have h := (take_stops (toBe w n)).map ofBe
  rwa [length_toBe] at h

theorem Marks.Head.stops (hh : m.Head n h) : Stops m.size h .truncated := by
  unfold Marks.size
  rcases hh with ⟨hn, rfl⟩ | ⟨e, he, hlt, rfl⟩
  · exact (byte_stops _).bind_left
  · refine (byte_stops e.1).bind (byte_reads e.1) (w := toBe e.2 n) ?_
    have := m.apart e he
    rw [if_neg (by omega)]
    simp only [lookup_of_mem m.nodup he]
    exact beU_stops

theorem Str.stops {s : String} (h : Str s v) : Stops readStr v .truncated := by
  obtain ⟨head, hh, rfl⟩ := h
  have ht := take_stops (octets s)
  rw [length_octets] at ht
  exact hh.stops.bind hh.reads ht.bind_left

theorem Bin.stops {b : Bytes} (h : Bin b v) : Stops readBin v .truncated := by
  obtain ⟨head, hh, rfl⟩ := h
  exact hh.stops.bind hh.reads (take_stops b)

/-- Where the items of a container are cut short, either the count is refused or an item is. -/
theorem readCount_stops {α : Type} {least : ℕ} {p : ℕ → Reader α} (hh : m.Head n h)
    (hp : Stops (p n) v .truncated) : Stops (readCount m least >>= p) (h ++ v) .truncated := by
  unfold readCount
  rw [bind_assoc]
  refine hh.stops.bind hh.reads fun u w hv hw => ?_
  show ((if n * least > u.length then throw .truncated else pure n : Reader ℕ) >>= p) u = _
  split
  · rfl
  · exact hp hv hw

theorem skipWith_stops {b : UInt8} {k : Kind} (hk : kind b = k)
    (h : Stops (skipArm deeper k) (b :: v) .truncated) :
    Stops (skipWith deeper) (b :: v) .truncated := by
  intro u w hv hw
  subst hk
  cases u with
  | nil => rfl
  | cons c u =>
    obtain ⟨rfl, -⟩ := List.cons.inj hv
    exact h hv hw

theorem skipWith_stops_head {k : Kind} (hm : ∀ b, m.Mark b → kind b = k) (hh : m.Head n h)
    (hs : Stops (skipArm deeper k) (h ++ v) .truncated) :
    Stops (skipWith deeper) (h ++ v) .truncated := by
  obtain ⟨b, tail, rfl, hb⟩ := hh.mark
  exact skipWith_stops (hm b hb) hs

theorem skipWith_leaf_stops (h : Token Utf8 t none) : Stops (skipWith deeper) t .truncated := by
  cases h with
  | @one b hb => exact skipWith_stops ((kind_one b).mpr hb) ((byte_stops b).map _)
  | @fixed b data hb =>
    refine skipWith_stops ((kind_fixed b).mpr (mem_map_of_mem hb)) ?_
    refine (byte_stops b).bind (v := [b]) (byte_reads b) ?_
    rw [lookup_fixedSizes hb]
    exact (take_stops data).map _
  | @ext h data ty hh =>
    refine skipWith_stops_head kind_ext hh (hh.stops.bind hh.reads ?_)
    exact ((byte_stops ty).map _).bind (v := [ty]) (discard_reads (byte_reads ty))
      ((take_stops data).map _)
  | @str h data hh ht =>
    obtain ⟨s, rfl⟩ := ht
    rw [length_octets] at hh
    exact skipWith_stops_head kind_str hh ((Str.stops ⟨h, hh, rfl⟩).map _)
  | @bin h data hh => exact skipWith_stops_head kind_bin hh ((Bin.stops ⟨h, hh, rfl⟩).map _)

theorem skipWith_node_stops {k : ℕ} {r : Reader Unit} {body : Bytes} (h : Token Utf8 t (some k))
    (hb : Stops (times r k) body .truncated) :
    Stops (skipWith (some r)) (t ++ body) .truncated := by
  cases h with
  | array hh => exact skipWith_stops_head kind_array hh (readCount_stops hh hb)
  | map hh =>
    rw [← times_pair] at hb
    exact skipWith_stops_head kind_map hh (readCount_stops hh hb)

/-- **On values whose end is missing `skip` fails with `Truncated`.** -/
theorem skipAt_stops {d : ℕ} (h : Values Utf8 d n v) {left : ℕ} (hd : d ≤ left) :
    Stops (times (skipAt left) n) v .truncated := by
  induction h generalizing left with
  | nil => exact Stops.nil
  | @leaf d n t rest ht _ ih =>
    have hreads : Reads (skipAt left) t () := by
      cases left <;> exact skipWith_leaf ht _
    have hstops : Stops (skipAt left) t .truncated := by
      cases left <;> exact skipWith_leaf_stops ht
    exact hstops.times hreads (ih hd)
  | @node d n k t body rest ht hb _ ihb ih =>
    obtain ⟨left, rfl⟩ : ∃ l, left = l + 1 := ⟨left - 1, by omega⟩
    have hreads : Reads (skipAt (left + 1)) (t ++ body) () :=
      skipWith_node ht (skipAt_reads hb (by omega)) hb.le_length
    have hstops : Stops (skipAt (left + 1)) (t ++ body) .truncated :=
      skipWith_node_stops ht (ihb (by omega))
    rw [← append_assoc]
    exact hstops.times hreads (ih hd)

end Stops

/-! ### Integers of either sign -/

theorem length_low (w : ℕ) (v : ℤ) : (low w v).length = w := length_toBe ..

theorem signed_low (hw : 0 < w) (hneg : v < 0) (hlo : -2 ^ (8 * w - 1) ≤ v) :
    (v % 2 ^ (8 * w)).toNat < 256 ^ w ∧ signed w (v % 2 ^ (8 * w)).toNat = v := by
  obtain ⟨half, hhalf⟩ : ∃ half : ℕ, half = 2 ^ (8 * w - 1) := ⟨_, rfl⟩
  have hpow : 2 ^ (8 * w) = 2 * half := by
    rw [hhalf, ← Nat.pow_succ']
    congr 1
    omega
  have hpowInt : (2 : ℤ) ^ (8 * w) = 2 * half := by exact_mod_cast hpow
  have hloInt : -(half : ℤ) ≤ v := by
    rw [hhalf]
    exact_mod_cast hlo
  have hmod : v % 2 ^ (8 * w) = v + 2 * half := by
    rw [hpowInt, ← Int.add_emod_right]
    exact Int.emod_eq_of_lt (by omega) (by omega)
  rw [hmod]
  constructor
  · rw [show (256 : ℕ) ^ w = 2 ^ (8 * w) by rw [Nat.pow_mul], hpow]
    omega
  · unfold signed
    rw [← hhalf, hpowInt, if_neg (by omega)]
    omega

/-- A negative number under one of the markers for it. -/
theorem readInt_reads_wide {b : UInt8} (hb : (b, w) ∈ intWide) (hneg : v < 0)
    (hlo : -2 ^ (8 * w - 1) ≤ v) : Reads readInt (b :: low w v) v := by
  have htable : ∀ e ∈ intWide, ¬ e.1 ≤ 0x7f ∧ ¬ 0xe0 ≤ e.1 ∧ uintMarks.wide.lookup e.1 = none ∧
      0 < e.2 ∧
      intWide.lookup e.1 = some e.2 := by decide
  obtain ⟨h1, h2, h3, hw, h4⟩ := htable _ hb
  obtain ⟨hlt, hsigned⟩ := signed_low hw hneg hlo
  refine (byte_reads b).bind (v := [b]) (w := low w v) ?_
  simp only [if_neg h1, if_neg h2, h3, h4]
  have := (beU_reads hlt).map (signed w)
  rwa [hsigned] at this

theorem uint_token {n : ℕ} {h : Bytes} (hh : uintMarks.Head n h) : Token Utf8 h none := by
  rcases hh with ⟨hn, rfl⟩ | ⟨e, he, -, rfl⟩
  · refine .one (.inl ?_)
    rw [UInt8.le_iff_toNat_le, Marks.toNat_short hn]
    simp only [uintMarks] at hn ⊢
    simpa using Nat.le_of_lt_succ hn
  · have hmem : ∀ e ∈ uintMarks.wide, e ∈ fixedSizes := by decide
    refine .fixed ?_
    rw [length_toBe]
    exact hmem e he

theorem int_token {b : UInt8} (hb : (b, w) ∈ intWide) : Token Utf8 (b :: low w v) none := by
  have hmem : ∀ e ∈ intWide, e ∈ fixedSizes := by decide
  refine .fixed ?_
  rw [length_low]
  exact hmem _ hb

theorem toNat_toUInt64 {v : Int64} (h : 0 ≤ v.toInt) : (v.toUInt64.toNat : ℤ) = v.toInt := by
  have hcond := v.toBitVec.toInt_eq_toNat_cond
  have hlt := v.toBitVec.isLt
  change 0 ≤ v.toBitVec.toInt at h
  show (v.toBitVec.toNat : ℤ) = v.toBitVec.toInt
  split at hcond <;> omega

/-- One octet holds a negative number down to -32 and is its own marker. -/
theorem fixint_spec (hneg : v < 0) (hlo : -32 ≤ v) :
    Reads readInt (low 1 v) v ∧ Token Utf8 (low 1 v) none := by
  obtain ⟨hlt, hsigned⟩ := signed_low (w := 1) (by decide) hneg (by omega)
  obtain ⟨b, hb, hnat⟩ : ∃ b : UInt8, low 1 v = [b] ∧ b.toNat = (v % 2 ^ (8 * 1)).toNat :=
    ⟨_, rfl, UInt8.toNat_ofNat_of_lt' hlt⟩
  have hge : 0xe0 ≤ b := by
    simp only [UInt8.le_iff_toNat_le, hnat, UInt8.reduceToNat]
    omega
  rw [hb]
  refine ⟨(byte_reads b).bind (w := []) ?_, .one (.inr (.inl hge))⟩
  have hgt : ¬ b ≤ 0x7f := by
    simp only [UInt8.le_iff_toNat_le, UInt8.reduceToNat] at hge ⊢
    omega
  rw [if_neg hgt, if_pos hge, hnat, hsigned]
  exact Reads.pure v

/-- What `write_int` writes is an integer, and `read_int` reads it. -/
theorem writeInt_spec (v : Int64) :
    Reads readInt (writeInt v) v.toInt ∧ Token Utf8 (writeInt v) none := by
  have hlo := v.le_toInt
  have hhi := v.toInt_lt
  unfold writeInt
  split
  · next h0 =>
    have hnat := toNat_toUInt64 h0
    refine ⟨?_, uint_token (writeUint_head _)⟩
    have := readInt_reads (writeUint_head v.toUInt64) (by omega)
    rwa [hnat] at this
  · next h0 =>
    split
    · next h1 => exact fixint_spec (by omega) h1
    · split
      · next h1 =>
          exact ⟨readInt_reads_wide (by decide) (by omega) (by omega), int_token (by decide)⟩
      · split
        · next h1 =>
            exact ⟨readInt_reads_wide (by decide) (by omega) (by omega), int_token (by decide)⟩
        · split
          · next h1 =>
              exact ⟨readInt_reads_wide (by decide) (by omega) (by omega), int_token (by decide)⟩
          · exact ⟨readInt_reads_wide (by decide) (by omega) (by omega), int_token (by decide)⟩

/-! ### What a writer has written, and the reads that match -/

/-- A read of which only the position counts. -/
def Method.skim {α : Type} (m : Method α) : Method Unit := fun c => (m c).map fun r => (.ok (), r.2)

/-- The octets are one scalar that a `Writer` has written, and the method is the read of its type;
`fits` is what the size of a string or a binary satisfies. -/
inductive Scalar (fits : ℕ → Prop) : Bytes → Method Unit → Prop
  | nil : Scalar fits writeNil Method.readNil.skim
  | bool (b : Bool) : Scalar fits (writeBool b) Method.readBool.skim
  | uint (v : UInt64) : Scalar fits (writeUint v) Method.readUint.skim
  | int (v : Int64) : Scalar fits (writeInt v) Method.readInt.skim
  | str (s : String) : fits s.utf8ByteSize → Scalar fits (writeStr s) Method.readStr.skim
  | bin (b : Bytes) : fits b.length → Scalar fits (writeBin b) Method.readBin.skim

/-- The octets are `n` values that a `Writer` has written, with containers nested at most `d` deep,
and the method is the sequence of the reads that match. -/
inductive Written : ℕ → ℕ → Bytes → Method Unit → Prop
  | nil {d : ℕ} : Written d 0 [] (pure ())
  | scalar {d n : ℕ} {v rest : Bytes} {m more : Method Unit} :
      Scalar (· < 2 ^ 32) v m → Written d n rest more → Written d (n + 1) (v ++ rest) (do m; more)
  | array {d n : ℕ} {count : UInt32} {body rest : Bytes} {items more : Method Unit} :
      Written d count.toNat body items → Written (d + 1) n rest more →
        Written (d + 1) (n + 1) (writeArray count ++ (body ++ rest))
          (do Method.readArray.skim; items; more)
  | map {d n : ℕ} {count : UInt32} {body rest : Bytes} {items more : Method Unit} :
      Written d (2 * count.toNat) body items → Written (d + 1) n rest more →
        Written (d + 1) (n + 1) (writeMap count ++ (body ++ rest))
          (do Method.readMap.skim; items; more)

section Written

variable {α : Type} {c c' : Cursor} {v w rest : Bytes} {m : Method Unit} {d n : ℕ}

theorem Method.skim_apply {m : Method α} {r : Except Error α} (h : m c = some (r, c')) :
    m.skim c = some (.ok (), c') := by
  simp only [Method.skim, h, Option.map_some]

/-- The reader stands in front of `v`, with `rest` behind it. -/
structure Cursor.Before (c : Cursor) (v rest : Bytes) : Prop where
  pos_le : c.pos ≤ c.buf.length
  rest_eq : c.rest = v ++ rest

theorem Cursor.Before.of_ne_nil (h : c.rest = v ++ rest) (hv : v ≠ []) : c.Before v rest := by
  refine ⟨?_, h⟩
  by_contra hlt
  rw [Cursor.rest, drop_eq_nil_of_le (by omega)] at h
  exact hv (append_eq_nil_iff.mp h.symm).1

theorem Cursor.Before.left (h : c.Before (v ++ w) rest) : c.Before v (w ++ rest) :=
  ⟨h.pos_le, by rw [h.rest_eq, append_assoc]⟩

theorem Cursor.Before.next (h : c.Before (v ++ w) rest) : (c.advance v.length).Before w rest where
  pos_le := by
    have hlen := c.length_rest
    have := h.pos_le
    rw [h.rest_eq] at hlen
    simp only [length_append, Cursor.remaining] at hlen
    simp only [Cursor.advance]
    omega
  rest_eq := by
    rw [Cursor.rest_advance, h.rest_eq]
    simp

theorem Sim.run {m : Method α} {p : Reader α} {a : α} (hm : Sim c.depth.toNat m p)
    (h : c.Before v rest) (hp : p (v ++ rest) = .ok (a, rest)) :
    m c = some (.ok a, c.advance v.length) := by
  rcases hm c h.pos_le rfl with ⟨b, k, hk, hok, hrun⟩ | ⟨e, c', herr, -⟩
  · rw [h.rest_eq, hp] at hok
    obtain ⟨rfl, hdrop⟩ : a = b ∧ rest = (v ++ rest).drop k := by simpa using hok
    have hlen := congrArg List.length hdrop
    have hrem := c.length_rest
    rw [h.rest_eq] at hrem
    simp only [length_drop, length_append] at hlen hrem
    obtain rfl : k = v.length := by omega
    exact hrun
  · rw [h.rest_eq, hp] at herr
    cases herr

/-- `read_uint` advances over every number, also over one it has no type for. -/
theorem readUint_skims (x : UInt64) (h : c.Before (writeUint x) rest) :
    Method.readUint.skim c = some (.ok (), c.advance (writeUint x).length) := by
  by_cases hx : x.toNat < 2 ^ 63
  · exact Method.skim_apply (sim_readUint.run h (writeUint_reads hx rest))
  · have hout : writeUint x = [0xcf] ++ toBe 8 x.toNat := by
      simp only [writeUint, Marks.write, uintMarks, Marks.writeWide]
      rw [if_neg (by omega), if_neg (by omega), if_neg (by omega), if_neg (by omega)]
      rfl
    have hlt : x.toNat < 256 ^ 8 := by
      have := x.toNat_lt
      omega
    rw [hout] at h ⊢
    have hbyte : Method.byte c = some (.ok 0xcf, c.advance 1) :=
      sim_byte.run h.left (byte_reads 0xcf _)
    have hnum : Method.beU 8 (c.advance 1) = some (.ok x.toNat,
        (c.advance 1).advance (toBe 8 x.toNat).length) :=
      (sim_beU 8).run h.next (beU_reads hlt rest)
    have hint : Method.readInt c = some (.error .type, c.advance 9) := by
      rw [Method.readInt, Method.bind_apply_ok hbyte]
      show (Method.beU 8 >>= fun v => if v < 2 ^ 63 then _ else _) (c.advance 1) = _
      rw [Method.bind_apply_ok hnum, if_neg hx]
      simp [Method.fail]
    have huint : Method.readUint c = some (.error .type, c.advance 9) :=
      Method.bind_apply_error hint
    simpa using Method.skim_apply huint

theorem Scalar.token (h : Scalar (· < 2 ^ 32) v m) : Token Utf8 v none := by
  cases h with
  | nil => exact .one (by decide)
  | bool b => cases b <;> exact .one (by decide)
  | uint x => exact uint_token (writeUint_head x)
  | int x => exact (writeInt_spec x).2
  | str s hs =>
    obtain ⟨head, hh, e⟩ := writeStr_str hs
    rw [e]
    exact .str (by rwa [length_octets]) ⟨s, rfl⟩
  | bin b hb =>
    obtain ⟨head, hh, e⟩ := writeBin_bin hb
    rw [e]
    exact .bin hh

/-- The read of its type advances over a scalar that fits. -/
theorem Scalar.skims (h : Scalar (· < 2 ^ 32) v m) (hc : c.Before v rest) :
    m c = some (.ok (), c.advance v.length) := by
  cases h with
  | nil => exact Method.skim_apply (sim_readNil.run hc (readNil_reads rest))
  | bool b => exact Method.skim_apply (sim_readBool.run hc (writeBool_reads b rest))
  | uint x => exact readUint_skims x hc
  | int x => exact Method.skim_apply (sim_readInt.run hc ((writeInt_spec x).1 rest))
  | str s hs => exact Method.skim_apply (sim_readStr.run hc ((writeStr_str hs).reads rest))
  | bin b hb => exact Method.skim_apply (sim_readBin.run hc ((writeBin_bin hb).reads rest))

theorem Written.values (h : Written d n v m) : Values Utf8 d n v := by
  induction h with
  | nil => exact .nil
  | scalar hs _ ih => exact .leaf hs.token ih
  | array _ _ ihb ih => exact .node (.array (writeArray_head _)) ihb ih
  | map _ _ ihb ih => exact .node (.map (writeMap_head _)) ihb ih

/-- The read of a count advances over it, when the items are there. -/
theorem readCount_skims {marks : Marks} {least : ℕ} (hh : marks.Head n v)
    (hle : n * least ≤ w.length) (hc : c.Before (v ++ w) rest) :
    (Method.readCount marks least).skim c = some (.ok (), c.advance v.length) := by
  refine Method.skim_apply ((sim_readCount marks least).run hc.left
    ((counts_readCount marks least).reads hh ?_))
  simp only [length_append]
  omega

/-- **The reads that match advance over what was written.** -/
theorem Written.skims (h : Written d n v m) (hc : c.Before v rest) :
    m c = some (.ok (), c.advance v.length) := by
  induction h generalizing c rest with
  | nil => rfl
  | @scalar d n v w m more hs _ ih =>
    rw [Method.bind_apply_ok (hs.skims hc.left), ih hc.next]
    simp
  | @array d n count body w items more hb _ ihb ih =>
    have hle : count.toNat * 1 ≤ (body ++ w).length := by
      have := hb.values.le_length
      simp only [length_append]
      omega
    have hcount : Method.readArray.skim c = _ := readCount_skims (writeArray_head count) hle hc
    rw [Method.bind_apply_ok hcount, Method.bind_apply_ok (ihb hc.next.left), ih hc.next.next]
    simp [Nat.add_assoc]
  | @map d n count body w items more hb _ ihb ih =>
    have hle : count.toNat * 2 ≤ (body ++ w).length := by
      have := hb.values.le_length
      simp only [length_append]
      omega
    have hcount : Method.readMap.skim c = _ := readCount_skims (writeMap_head count) hle hc
    rw [Method.bind_apply_ok hcount, Method.bind_apply_ok (ihb hc.next.left), ih hc.next.next]
    simp [Nat.add_assoc]

end Written

/-! ### One call of `skip` -/

section Skip

variable {c c' : Cursor} {v w rest : Bytes} {m : Method Unit} {levels : ℕ} {α : Type}

/-- `skip` goes by the octet in front. -/
theorem skip_of_front {b : UInt8} (h : c.buf[c.pos]? = some b) :
    Method.skipUpTo (levels + 1) c = Method.skipArm (Method.skipUpTo levels) (kind b) c :=
  Method.bind_apply_ok (by simp only [Method.front, h])

theorem skip_of_rest_eq_nil (h : c.rest = []) :
    Method.skipUpTo (levels + 1) c = some (.error .truncated, c) :=
  Method.bind_apply_error (by simp only [Method.front, rest_eq_nil.mp h])

theorem skipAt_one {d left : ℕ} (h : Values Utf8 d 1 v) (hd : d ≤ left) :
    Reads (skipAt left) v () ∧ Stops (skipAt left) v .truncated := by
  have hone : times (skipAt left) 1 = skipAt left := by simp [times]
  have hreads := skipAt_reads h hd
  have hstops := skipAt_stops h hd
  rw [hone] at hreads hstops
  exact ⟨hreads, hstops⟩

section

variable (hdepth : c.depth.toNat + 1 < 2 ^ 32)
include hdepth

/-- In front of a value `skip` advances over it. -/
theorem skip_of_value {d : ℕ} (h : Values Utf8 d 1 v) (hd : d ≤ maxDepth - c.depth.toNat)
    (hv : c.rest = v ++ rest) : Method.skip c = some (.ok (), c.advance v.length) := by
  have hne : v ≠ [] := length_pos_iff.mp h.le_length
  exact (sim_skip hdepth).run (.of_ne_nil hv hne) ((skipAt_one h hd).1 rest)

/-- Where `skip` succeeds there is a value. -/
theorem value_of_skip (h : Method.skip c = some (.ok (), c')) :
    ∃ v rest, c.rest = v ++ rest ∧ Values Utf8 (maxDepth - c.depth.toNat) 1 v ∧
      c' = c.advance v.length := by
  by_cases hc : c.pos ≤ c.buf.length
  · rcases sim_skip hdepth c hc rfl with ⟨_, k, hk, hok, hrun⟩ | ⟨e, c'', -, hrun⟩
    · obtain rfl : c' = c.advance k := by simpa [h] using hrun
      obtain ⟨v, hv, hval⟩ := skipAt_passes _ hok
      have hlen := congrArg List.length hv
      simp only [length_append, length_drop, Cursor.length_rest] at hlen
      obtain rfl : k = v.length := by omega
      exact ⟨v, _, hv, hval, rfl⟩
    · simp [h] at hrun
  · have hnil : c.rest = [] := drop_eq_nil_of_le (by omega)
    simp [Method.skip, skip_of_rest_eq_nil hnil] at h

/-- In front of a value whose end is missing `skip` fails with `Truncated`. -/
theorem skip_of_missing (h : Values Utf8 (maxDepth - c.depth.toNat) 1 v)
    (hv : v = c.rest ++ w) (hw : w ≠ []) : ∃ c', Method.skip c = some (.error .truncated, c') := by
  by_cases hc : c.pos ≤ c.buf.length
  · have hstop := (skipAt_one h le_rfl).2 hv hw
    rcases sim_skip hdepth c hc rfl with ⟨a, k, -, hok, -⟩ | ⟨e, c', herr, hrun⟩
    · simp [hstop] at hok
    · obtain rfl : Error.truncated = e := by simpa [hstop] using herr
      exact ⟨c', hrun⟩
  · exact ⟨c, skip_of_rest_eq_nil (drop_eq_nil_of_le (by omega))⟩

end

/-! ### The calls that are open -/

/-- Where `m` comes back, `m'` does the same. -/
def Extends {α : Type} (m m' : Method α) : Prop := ∀ c r, m c = some r → m' c = some r

theorem Extends.refl (m : Method α) : Extends m m := fun _ _ h => h

theorem Extends.bind {β : Type} {m m' : Method α} {f f' : α → Method β} (h : Extends m m')
    (hf : ∀ a, Extends (f a) (f' a)) : Extends (m >>= f) (m' >>= f') := by
  intro c r hr
  cases hm : m c with
  | none => simp [Bind.bind, hm] at hr
  | some x =>
    obtain ⟨a | a, c'⟩ := x
    · rw [Method.bind_apply_error hm] at hr
      rw [Method.bind_apply_error (h c _ hm), hr]
    · rw [Method.bind_apply_ok hm] at hr
      rw [Method.bind_apply_ok (h c _ hm)]
      exact hf a c' r hr

theorem Extends.times {m' : Method Unit} (h : Extends m m') (n : ℕ) :
    Extends (m.times n) (m'.times n) := by
  induction n with
  | zero => exact .refl _
  | succ n ih => exact h.bind fun _ => ih

theorem Extends.nested {m m' : Method α} (h : Extends m m') : Extends m.nested m'.nested := by
  intro c r hr
  unfold Method.nested at hr ⊢
  split at hr
  · next hdeep => rw [if_pos hdeep, hr]
  · next hdeep =>
    rw [if_neg hdeep]
    cases hm : m { c with depth := c.depth + 1 } with
    | none => simp [hm] at hr
    | some x => rwa [hm, ← h _ _ hm] at hr

theorem Extends.skipArm {m' : Method Unit} (h : Extends m m') (k : Kind) :
    Extends (Method.skipArm m k) (Method.skipArm m' k) := by
  cases k with
  | array => exact (Extends.refl _).bind fun n => (h.times n).nested
  | map => exact (Extends.refl _).bind fun n => ((h.bind fun _ => h).times n).nested
  | _ => exact .refl _

/-- More levels change nothing where `skip` has come back. -/
theorem skipUpTo_extends (levels : ℕ) :
    Extends (Method.skipUpTo levels) (Method.skipUpTo (levels + 1)) := by
  induction levels with
  | zero => intro c r h; cases h
  | succ levels ih => exact (Extends.refl _).bind fun b => ih.skipArm (kind b)

theorem skipUpTo_mono {k : ℕ} {r : Except Error Unit × Cursor}
    (h : Method.skipUpTo levels c = some r) : Method.skipUpTo (levels + k) c = some r := by
  induction k with
  | zero => exact h
  | succ k ih => exact skipUpTo_extends (levels + k) c r ih

section

variable (hdepth : c.depth.toNat + 1 < 2 ^ 32) (hl : maxDepth - c.depth.toNat < levels)
include hdepth hl

/-- `skip` comes back with one call for each level that is left and one for the value. -/
theorem skipUpTo_returns : ∃ r, Method.skipUpTo levels c = some r := by
  by_cases hc : c.pos ≤ c.buf.length
  · rcases sim_skipUpTo hdepth hl c hc rfl with ⟨a, k, -, -, hrun⟩ | ⟨e, c', -, hrun⟩
    · exact ⟨_, hrun⟩
    · exact ⟨_, hrun⟩
  · obtain ⟨levels, rfl⟩ : ∃ l, levels = l + 1 := ⟨levels - 1, by omega⟩
    exact ⟨_, skip_of_rest_eq_nil (drop_eq_nil_of_le (by omega))⟩

theorem skipUpTo_eq_skip : Method.skipUpTo levels c = Method.skip c := by
  obtain ⟨r, hr⟩ := skipUpTo_returns hdepth hl
  obtain ⟨s, hs⟩ : ∃ s, Method.skipUpTo (maxDepth + 1) c = some s :=
    skipUpTo_returns hdepth (by omega)
  have hr' := skipUpTo_mono (k := maxDepth + 1) hr
  rw [Nat.add_comm, skipUpTo_mono (k := levels) hs] at hr'
  rw [hr, ← hr']
  exact hs.symm

end

/-! ### `skip` and the reads of scalars -/

/-- `skip` and `m` both come back, and leave the reader at the same position. -/
def SamePosition (c : Cursor) (m : Method Unit) : Prop :=
  ∃ r c₁ c₂, Method.skip c = some (r, c₁) ∧ m c = some (.ok (), c₂) ∧ c₁.pos = c₂.pos

theorem Marks.write_mark (marks : Marks) (n : ℕ) (hw : marks.wide ≠ []) :
    ∃ b tail, marks.write n = b :: tail ∧ marks.Mark b := by
  have hwide : ∀ wide : List (UInt8 × ℕ), wide ≠ [] →
      ∃ b tail, writeWide n wide = b :: tail ∧ b ∈ wide.map Prod.fst := by
    intro wide
    fun_induction writeWide n wide with
    | case1 => simp
    | case2 b w => exact fun _ => ⟨b, _, rfl, by simp⟩
    | case3 b w e wide hlt => exact fun _ => ⟨b, _, rfl, by simp⟩
    | case4 b w e wide hlt ih =>
      obtain ⟨c, tail, hc, hmem⟩ := ih (by simp)
      exact fun _ => ⟨c, tail, hc, mem_cons_of_mem _ hmem⟩
  unfold write
  split
  · next hn => exact ⟨_, [], rfl, .inl (by rw [toNat_short hn]; omega)⟩
  · obtain ⟨b, tail, hb, hmem⟩ := hwide marks.wide hw
    exact ⟨b, tail, hb, .inr hmem⟩

/-- Where `skip` calls the read of the type, they leave the reader at the same position, whatever
the read returns. -/
theorem samePosition_of_arm {read : Method α} {p : Reader α} {marks : Marks} {n : ℕ} {k : Kind}
    (hsim : Sim c.depth.toNat read p) (hw : marks.wide ≠ []) (hk : ∀ b, marks.Mark b → kind b = k)
    (harm : ∀ again, Method.skipArm again k = discard read)
    (h : c.rest = (marks.write n ++ v) ++ rest) : SamePosition c read.skim := by
  obtain ⟨b, tail, hb, hmark⟩ := marks.write_mark n hw
  have hfront : c.buf[c.pos]? = some b := by
    have := congrArg (·[0]?) h
    simpa [Cursor.rest, hb] using this
  have hskip : Method.skip c = (discard read : Method Unit) c := by
    rw [Method.skip, skip_of_front hfront, hk b hmark, harm]
  have hbefore : c.Before (marks.write n ++ v) rest := .of_ne_nil h (by simp [hb])
  rcases hsim c hbefore.pos_le rfl with ⟨a, k, -, -, hrun⟩ | ⟨e, c', -, hrun⟩
  · exact ⟨.ok (), _, _, hskip.trans (Method.bind_apply_ok hrun), Method.skim_apply hrun, rfl⟩
  · exact ⟨.error e, _, _, hskip.trans (Method.bind_apply_error hrun), Method.skim_apply hrun, rfl⟩

theorem Scalar.samePosition (hdepth : c.depth.toNat + 1 < 2 ^ 32) (h : Scalar (fun _ => True) v m)
    (hv : c.rest = v ++ rest) : SamePosition c m := by
  have hfit (hs : Scalar (· < 2 ^ 32) v m) : SamePosition c m := by
    have hval : Values Utf8 0 1 v := hs.token.value
    have hne : v ≠ [] := length_pos_iff.mp hs.token.length_pos
    exact ⟨_, _, _, skip_of_value hdepth hval (Nat.zero_le _) hv, hs.skims (.of_ne_nil hv hne), rfl⟩
  cases h with
  | nil => exact hfit .nil
  | bool b => exact hfit (.bool b)
  | uint x => exact hfit (.uint x)
  | int x => exact hfit (.int x)
  | str s => exact samePosition_of_arm sim_readStr (by decide) kind_str (fun _ => rfl) hv
  | bin b => exact samePosition_of_arm sim_readBin (by decide) kind_bin (fun _ => rfl) hv

variable (c) in
/-- **`skip` advances over exactly one value.**  It comes back whatever the buffer holds, with at
most one open call for each level; it succeeds exactly in front of a value, advances over it and
leaves the count of open containers as it was; on a value whose end is missing it fails with
`Truncated`; and it advances as far as the reads that match what a writer has written, for a scalar
whatever its size. -/
theorem skip_exact (hd : c.depth.toNat + 1 < 2 ^ 32) :
    (Method.skip c ≠ none ∧
      ∀ levels, maxDepth - c.depth.toNat < levels → Method.skipUpTo levels c = Method.skip c) ∧
    (∀ c', Method.skip c = some (.ok (), c') ↔
      ∃ v rest, c.rest = v ++ rest ∧ Values Utf8 (maxDepth - c.depth.toNat) 1 v ∧
        c' = c.advance v.length) ∧
    (∀ v w, Values Utf8 (maxDepth - c.depth.toNat) 1 v → v = c.rest ++ w → w ≠ [] →
      ∃ c', Method.skip c = some (.error .truncated, c')) ∧
    (∀ v m rest, Scalar (fun _ => True) v m → c.rest = v ++ rest → SamePosition c m) ∧
    ∀ d v m rest, Written d 1 v m → d ≤ maxDepth - c.depth.toNat → c.rest = v ++ rest →
      Method.skip c = some (.ok (), c.advance v.length) ∧
        m c = some (.ok (), c.advance v.length) := by
  refine ⟨⟨?_, fun levels hl => skipUpTo_eq_skip hd hl⟩, fun c' => ⟨value_of_skip hd, ?_⟩,
    fun v w hv hvw hw => skip_of_missing hd hv hvw hw, fun v m rest hs hv =>
      hs.samePosition hd hv, ?_⟩
  · obtain ⟨r, hr⟩ : ∃ r, Method.skipUpTo (maxDepth + 1) c = some r :=
      skipUpTo_returns hd (by omega)
    rw [Method.skip, hr]
    exact Option.some_ne_none r
  · rintro ⟨v, rest, hv, hval, rfl⟩
    exact skip_of_value hd hval le_rfl hv
  · intro d v m rest hw hle hv
    have hne : v ≠ [] := length_pos_iff.mp hw.values.le_length
    exact ⟨skip_of_value hd hw.values hle hv, hw.skims (.of_ne_nil hv hne)⟩

/-- An array of a number that `read_uint` has no type for, and a string. -/
def wideArray : Bytes := writeArray 2 ++ (writeUint 0x8000000000000000 ++ writeStr "A")

theorem wideArray_written : ∃ m, Written 1 1 wideArray m := by
  have hitems : Written 0 2 (writeUint 0x8000000000000000 ++ (writeStr "A" ++ [])) _ :=
    .scalar (.uint 0x8000000000000000) (.scalar (.str "A" (by decide)) .nil)
  have harray : Written 1 1 (writeArray 2 ++
      ((writeUint 0x8000000000000000 ++ (writeStr "A" ++ [])) ++ [])) _ :=
    .array hitems .nil
  exact ⟨_, by simpa [wideArray] using harray⟩

/-- The whole of it is skipped, and without its last octet it is `Truncated`. -/
theorem skip_exact_array :
    Method.skip ⟨wideArray, 0, 0⟩ = some (.ok (), ⟨wideArray, wideArray.length, 0⟩) ∧
      ∃ c', Method.skip ⟨wideArray.dropLast, 0, 0⟩ = some (.error .truncated, c') := by
  obtain ⟨m, hm⟩ := wideArray_written
  constructor
  · have h := (skip_exact ⟨wideArray, 0, 0⟩ (by decide)).2.2.2.2 1 wideArray m [] hm (by decide)
    simpa [Cursor.advance] using (h (by simp [Cursor.rest])).1
  · have hne : wideArray ≠ [] := length_pos_iff.mp hm.values.le_length
    have h := (skip_exact ⟨wideArray.dropLast, 0, 0⟩ (by decide)).2.2.1 wideArray
      [wideArray.getLast hne]
    have hlast : wideArray = Cursor.rest ⟨wideArray.dropLast, 0, 0⟩ ++ [wideArray.getLast hne] := by
      rw [Cursor.rest, drop_zero, dropLast_append_getLast hne]
    exact h (hm.values.mono (by decide)) hlast (by simp)

end Skip

end Resolvd.Msgpack
