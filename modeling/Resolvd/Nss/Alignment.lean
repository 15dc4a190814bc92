import Resolvd.Nss.Retry
import Mathlib.Data.Nat.ModEq

/-!
# Alignment in the caller's buffer

`Packer::offset` rounds the offset into the buffer up to a multiple of the alignment, and `reserve`
adds it to the buffer's address.  The address it returns is as far from a multiple of the alignment
as the buffer is: it is aligned exactly when the buffer is (`aligned_iff`).  `Packer::new` asks for
no alignment of the buffer, and a caller of `gethostbyname_r` may pass one at any address.

An alignment that is no power of two does not divide 2^64, so that a rounding that leaves the
`usize`s and starts again at 0 comes to another place; what it has left them by is the carry
(`Space.carry`).
-/

namespace Resolvd.Nss

open Lib Dns Msgpack
open Resolvd.Core (Addresses AddressOut Answer RecordOut Family)

/-! ### Runs of calls -/

/-- What is to hold of a run: every call that succeeds is given a multiple of its alignment. -/
def Aligned (calls : List Call) (s : Space) : Prop := ∀ r ∈ (runCalls calls s).1, r.1.align ∣ r.2

/-- By how much rounding up has left the `usize`s: nothing, unless it wraps. -/
def Space.carry (s : Space) (align : ℕ) : ℕ := 2 ^ 64 * (roundUp align s.used / 2 ^ 64)

/-- The address of the buffer suits every call that succeeds: but for the carry it is a multiple of
its alignment. -/
def Suits : List Call → Space → Prop
  | [], _ => True
  | c :: calls, s =>
    ((c.run s).1 ≠ none → s.base ≡ s.carry c.align [MOD c.align]) ∧ Suits calls (c.run s).2

section Calls

variable {c : Call} {calls : List Call} {s : Space} {align : ℕ}

theorem dvd_base_add_start_iff :
    align ∣ s.base + s.start align ↔ s.base ≡ s.carry align [MOD align] := by
  have hsum : s.carry align + s.start align = roundUp align s.used := Nat.div_add_mod _ _
  have hzero : s.carry align + s.start align ≡ 0 [MOD align] := by
    rw [hsum]
    exact Nat.modEq_zero_iff_dvd.mpr (dvd_roundUp align s.used)
  constructor
  · intro h
    exact Nat.ModEq.add_right_cancel' (s.start align)
      ((Nat.modEq_zero_iff_dvd.mpr h).trans hzero.symm)
  · intro h
    exact Nat.modEq_zero_iff_dvd.mp ((h.add_right (s.start align)).trans hzero)

theorem aligned_iff_suits (calls : List Call) (hs : s.Valid) : Aligned calls s ↔ Suits calls s := by
  induction calls generalizing s with
  | nil => simp [Aligned, runCalls, Suits]
  | cons c calls ih =>
    have hrest := ih (c.run_follows hs).valid
    rcases c.run_cases hs with h | ⟨-, h⟩
    · rw [h] at hrest
      rw [Aligned, runCalls_cons_none h, Suits, h, ← hrest]
      simp [Aligned]
    · have hsome : (c.run s).1 = some (s.base + s.start c.align) := by rw [h]
      rw [Aligned, runCalls_cons_some hsome, List.forall_mem_cons, Suits, hsome, ← hrest]
      exact and_congr (by simpa using dvd_base_add_start_iff) Iff.rfl

/-- The carry is no matter for a power of two. -/
theorem suits_iff_of_dvd (calls : List Call) (hs : s.Valid) (hc : ∀ c ∈ calls, c.align ∣ 2 ^ 64) :
    Suits calls s ↔ ∀ r ∈ (runCalls calls s).1, r.1.align ∣ s.base := by
  induction calls generalizing s with
  | nil => simp [runCalls, Suits]
  | cons c calls ih =>
    rw [List.forall_mem_cons] at hc
    have hfol := c.run_follows hs
    have hrest := ih hfol.valid hc.2
    rw [hfol.base_eq] at hrest
    have hcarry : s.carry c.align ≡ 0 [MOD c.align] :=
      Nat.modEq_zero_iff_dvd.mpr (hc.1.trans (Nat.dvd_mul_right _ _))
    rcases c.run_cases hs with h | ⟨-, h⟩
    · rw [h] at hrest
      rw [runCalls_cons_none h, Suits, h]
      simpa using hrest
    · have hsome : (c.run s).1 = some (s.base + s.start c.align) := by rw [h]
      rw [runCalls_cons_some hsome, List.forall_mem_cons, Suits, hsome, hrest]
      refine and_congr ?_ Iff.rfl
      rw [← Nat.modEq_zero_iff_dvd]
      exact ⟨fun hm => (hm (by simp)).trans hcarry, fun hm _ => hm.trans hcarry.symm⟩

end Calls

/-! ### The arrays and the tuples -/

/-- A run on the buffer at `base` that succeeds leaves the buffer where it is, and `Q` holds of what
it returns and of the memory. -/
def Yields {α : Type} (base : ℕ) (run : Packing α) (memory : Memory) (Q : α → Memory → Prop) :
    Prop :=
  ∀ len used a t, run ⟨⟨base, len, used⟩, memory⟩ = (some a, t) → t.base = base ∧ Q a t.memory

section Yields

variable {α β : Type} {base : ℕ} {memory : Memory} {run : Packing α} {Q Q' : α → Memory → Prop}
  {R : β → Memory → Prop}

theorem Yields.mono (h : Yields base run memory Q) (hQ : ∀ a m, Q a m → Q' a m) :
    Yields base run memory Q' :=
  fun len used a t hrun => ⟨(h len used a t hrun).1, hQ a t.memory (h len used a t hrun).2⟩

theorem Yields.bind {f : α → Packing β} (h : Yields base run memory Q)
    (hf : ∀ a m, Q a m → Yields base (f a) m R) : Yields base (run >>= f) memory R := by
  intro len used b t ht
  rcases hrun : run ⟨⟨base, len, used⟩, memory⟩ with ⟨_ | a, u⟩
  · rw [Packing.bind_apply_none hrun] at ht
    cases ht
  · rw [Packing.bind_apply_some hrun] at ht
    obtain ⟨rfl, hQ⟩ := h len used a u hrun
    exact hf a u.memory hQ u.len u.used b t ht

theorem yields_pure (a : α) : Yields base (pure a) memory fun b m => b = a ∧ m = memory := by
  rintro len used b t ⟨⟩
  exact ⟨rfl, rfl, rfl⟩

theorem yields_write (dst : ℕ) (bs : Bytes) :
    Yields base (Packing.write dst bs) memory fun _ m => m = memory.store dst bs := by
  rintro len used b t ⟨⟩
  exact ⟨rfl, rfl⟩

/-- **What `reserve` returns is as far from a multiple of the alignment as the buffer is.** -/
theorem yields_reserve (size : ℕ) {align : ℕ} (h : align ∣ 2 ^ 64) :
    Yields base (Packing.reserve size align) memory fun p m =>
      p ≡ base [MOD align] ∧ m = memory := by
  have hoffset : Yields base (Packing.offset size align) memory fun start m =>
      align ∣ start ∧ m = memory := by
    intro len used start t ht
    unfold Packing.offset at ht
    simp only at ht
    split at ht
    · cases ht
    · split at ht
      · cases ht
      · cases ht
        exact ⟨rfl, (Nat.dvd_mod_iff h).mpr (dvd_roundUp align used), rfl⟩
  refine hoffset.bind fun start m hstart => ?_
  obtain ⟨hdvd, rfl⟩ := hstart
  rintro len used p t ⟨⟩
  exact ⟨rfl, (Nat.modEq_zero_iff_dvd.mpr hdvd).add_left base, rfl⟩

theorem yields_str {value : Bytes} :
    Yields base (Packing.str value) memory fun p m => m = memory.store p (value ++ [0]) := by
  unfold Packing.str
  split
  · rintro len used p t ⟨⟩
  · refine (yields_reserve _ (one_dvd _)).bind fun dst m hm =>
      (yields_write _ _).bind fun _ m' hm' => ?_
    refine (yields_write _ _).bind fun _ m'' hm'' => (yields_pure _).mono fun p t ht => ?_
    obtain ⟨rfl, rfl⟩ := ht
    rw [hm'', hm', hm.2, Memory.store_store]

theorem yields_bytes {value : Bytes} {align : ℕ} (h : align ∣ 2 ^ 64) :
    Yields base (Packing.bytes value align) memory fun _ _ => True :=
  (yields_reserve _ h).bind fun _ _ _ => (yields_write _ _).bind fun _ _ _ =>
    (yields_pure _).mono (by simp)

theorem yields_pointers {count : ℕ} :
    Yields base (Packing.pointers count) memory fun p _ => p ≡ base [MOD 8] := by
  refine (yields_reserve _ (by decide)).bind fun dst m hdst => ?_
  intro len used p t ht
  rw [Packing.bind_apply_some (nulls_eq dst (count + 1) _)] at ht
  cases ht
  exact ⟨rfl, hdst.1⟩

theorem yields_fillSlots {γ : Type} {pack : γ → Packing ℕ}
    (hpack : ∀ x memory, Yields base (pack x) memory fun _ _ => True) {array i : ℕ} {xs : List γ} :
    Yields base (fillSlots pack array i xs) memory fun _ _ => True := by
  induction xs generalizing i memory with
  | nil => exact (yields_pure ()).mono (by simp)
  | cons x xs ih => exact (hpack x memory).bind fun _ _ _ => (yields_write _ _).bind fun _ _ _ => ih

/-- The arrays of a `hostent`. -/
theorem yields_packLaid (name : Bytes) (aliases : List Bytes) (addresses : List IpAddr) :
    Yields base (packLaid name aliases addresses) memory fun p _ =>
      p.2.1 ≡ base [MOD 8] ∧ p.2.2 ≡ base [MOD 8] := by
  refine yields_str.bind fun hName _ _ => yields_pointers.bind fun hAliases _ haliases => ?_
  refine (yields_fillSlots fun t _ => yields_str.mono (by simp)).bind fun _ _ _ => ?_
  refine yields_pointers.bind fun hAddrList _ haddrs => ?_
  refine (yields_fillSlots fun a _ => yields_bytes (by decide)).bind fun _ _ _ =>
    (yields_pure _).mono fun p m hp => ?_
  rw [hp.1]
  exact ⟨haliases, haddrs⟩

/-- Tuples written at these slots, each made the next one of the tuple before it. -/
def writeTuples (canonical : ℕ) : ℕ → List (ℕ × IpAddr) → Memory → Memory
  | _, [], m => m
  | previous, (slot, a) :: rest, m =>
    let m := m.store slot (tuple 0 canonical a)
    writeTuples canonical slot rest (if previous = 0 then m
      else m.store previous (Packing.pointer slot))

theorem yields_packTuples {canonical previous first : ℕ} {xs : List AddressOut} :
    Yields base (packTuples canonical previous first xs) memory fun _ m => ∃ slots : List ℕ,
      slots.length = xs.length ∧ (∀ p ∈ slots, p ≡ base [MOD 8]) ∧
        m = writeTuples canonical previous (slots.zip (xs.map AddressOut.address)) memory := by
  induction xs generalizing previous first memory with
  | nil =>
    refine (yields_pure first).mono fun f m hm => ⟨[], rfl, by simp, ?_⟩
    rw [hm.2]
    rfl
  | cons x xs ih =>
    refine (yields_reserve 40 (by decide)).bind fun slot m hslot =>
      (yields_write _ _).bind fun _ m' hm' => ?_
    obtain ⟨hslot, rfl⟩ := hslot
    subst hm'
    -- The rest of the loop, when the tuple and the pointer to it have been written.
    have hrest : ∀ first' m', m' = (if previous = 0 then m.store slot (tuple 0 canonical x.address)
        else (m.store slot (tuple 0 canonical x.address)).store previous (Packing.pointer slot)) →
        Yields base (packTuples canonical slot first' xs) m' fun _ t => ∃ slots : List ℕ,
          slots.length = (x :: xs).length ∧ (∀ p ∈ slots, p ≡ base [MOD 8]) ∧
            t = writeTuples canonical previous
              (slots.zip ((x :: xs).map AddressOut.address)) m := by
      intro first' m' hm'
      refine ih.mono fun f t ht => ?_
      obtain ⟨slots, hlength, hslots, ht⟩ := ht
      refine ⟨slot :: slots, by simp [hlength], List.forall_mem_cons.mpr ⟨hslot, hslots⟩, ?_⟩
      rw [ht, hm']
      rfl
    by_cases hprevious : previous = 0
    · rw [if_pos hprevious]
      exact hrest _ _ (if_pos hprevious).symm
    · rw [if_neg hprevious]
      refine (yields_write _ _).bind fun _ m' hm' => hrest _ _ ?_
      rw [hm', if_neg hprevious]

theorem Yields.render {packing : Packing α} {write : α → Outs → Outs} {buffer : ℕ} {buflen : UInt64}
    {o : Outs} (h : Yields buffer packing memory Q)
    (hr : (render packing write buffer buflen memory o).status = .success) :
    ∃ a m, render packing write buffer buflen memory o = ⟨.success, write a o, m⟩ ∧ Q a m := by
  rcases hpack : packing (Space.new buffer buflen memory) with ⟨_ | a, t⟩
  · simp only [Nss.render, hpack] at hr
    cases hr
  · refine ⟨a, t.memory, by simp only [Nss.render, hpack], ?_⟩
    exact (h _ _ a t hpack).2

end Yields

/-- Both arrays of a `hostent` lie where pointers may lie. -/
def Hostent.Aligned (h : Hostent) : Prop := 8 ∣ h.hAliases ∧ 8 ∣ h.hAddrList

section Entries

variable {buffer : ℕ} {buflen : UInt64} {memory : Memory} {o : Outs} {af : Int32}
    {lookup : Bytes → Family → Got Addresses}

theorem hostent_aligned_iff {h : Hostent} (haliases : h.hAliases ≡ buffer [MOD 8])
    (haddrs : h.hAddrList ≡ buffer [MOD 8]) : h.Aligned ↔ 8 ∣ buffer := by
  rw [Hostent.Aligned, haliases.dvd_iff dvd_rfl, haddrs.dvd_iff dvd_rfl, and_self]

theorem renderHostent_aligned_iff {a : Addresses}
    (hr : (renderHostent a af buffer buflen memory o).status = .success) :
    (renderHostent a af buffer buflen memory o).outs.result.Aligned ↔ 8 ∣ buffer := by
  rw [renderHostent, packHostent_eq] at hr ⊢
  obtain ⟨p, m, heq, haliases, haddrs⟩ := (yields_packLaid _ _ _).render hr
  rw [heq]
  exact hostent_aligned_iff haliases haddrs

theorem renderNames_aligned_iff {a : Answer} {address : IpAddr} {len : UInt32}
    (hr : (renderNames a address af len buffer buflen memory o).status = .success) :
    (renderNames a address af len buffer buflen memory o).outs.result.Aligned ↔ 8 ∣ buffer := by
  rcases hnames : ptrNames a with _ | ⟨first, others⟩
  · simp only [renderNames, hnames] at hr
    cases hr
  · simp only [renderNames, hnames, packNames_eq] at hr ⊢
    obtain ⟨p, m, heq, haliases, haddrs⟩ := (yields_packLaid _ _ _).render hr
    rw [heq]
    exact hostent_aligned_iff haliases haddrs

theorem Got.render_success {α : Type} {got : Got α} {value : α → Entry}
    (hr : (got.render value buffer buflen memory o).status = .success) : ∃ a, got = .value a := by
  cases got with
  | value a => exact ⟨a, rfl⟩
  | _ => cases hr

theorem gethostbyname3_aligned_iff {name : Option Bytes}
    (hr : (gethostbyname3 lookup name af buffer buflen memory o).status = .success) :
    (gethostbyname3 lookup name af buffer buflen memory o).outs.result.Aligned ↔ 8 ∣ buffer := by
  rcases name with _ | name
  · cases hr
  rcases hfamily : familyOf af with _ | family
  · simp only [gethostbyname3, hfamily] at hr
    cases hr
  · simp only [gethostbyname3, hfamily] at hr ⊢
    obtain ⟨a, hgot⟩ := Got.render_success hr
    rw [hgot] at hr ⊢
    exact renderHostent_aligned_iff hr

theorem gethostbyaddr2_aligned_iff {reverse : IpAddr → Got Answer} {addr : Option Bytes}
    {len : UInt32}
    (hr : (gethostbyaddr2 reverse addr len af buffer buflen memory o).status = .success) :
    (gethostbyaddr2 reverse addr len af buffer buflen memory o).outs.result.Aligned ↔
      8 ∣ buffer := by
  rcases addr with _ | addr
  · cases hr
  rcases haddr : addressOf addr af len with _ | address
  · simp only [gethostbyaddr2, haddr] at hr
    cases hr
  · simp only [gethostbyaddr2, haddr] at hr ⊢
    obtain ⟨a, hgot⟩ := Got.render_success hr
    rw [hgot] at hr ⊢
    exact renderNames_aligned_iff hr

/-- Where `gethostbyname4_r` writes its tuples. -/
theorem gethostbyname4_slots {name : Bytes} {a : Addresses}
    (hgot : resolveAddresses lookup name .any = .value a)
    (hr : (gethostbyname4 lookup (some name) buffer buflen memory o).status = .success) :
    ∃ (canonical : ℕ) (slots : List ℕ), slots.length = a.addresses.length ∧
      (∀ p ∈ slots, p ≡ buffer [MOD 8]) ∧
      (gethostbyname4 lookup (some name) buffer buflen memory o).memory =
        writeTuples canonical 0 (slots.zip (a.addresses.map AddressOut.address))
          (memory.store canonical (octets a.canonical ++ [0])) := by
  simp only [gethostbyname4, hgot, Got.render, renderAddrtuples] at hr ⊢
  have hyields : Yields buffer (packAddrtuples a) memory fun _ m =>
      ∃ (canonical : ℕ) (slots : List ℕ),
      slots.length = a.addresses.length ∧ (∀ p ∈ slots, p ≡ buffer [MOD 8]) ∧
        m = writeTuples canonical 0 (slots.zip (a.addresses.map AddressOut.address))
          (memory.store canonical (octets a.canonical ++ [0])) := by
    refine yields_str.bind fun canonical m hm => yields_packTuples.mono fun _ m' hm' => ?_
    subst hm
    exact ⟨canonical, hm'⟩
  obtain ⟨first, m, heq, hm⟩ := hyields.render hr
  rwa [heq]

end Entries

/-- **Addresses in the buffer are aligned exactly when the buffer is.**  A run of calls is given
multiples of the alignments exactly when the buffer's address suits each call that succeeds; for
alignments that are powers of two that is to be a multiple of each.  So the arrays of a `hostent`
and the tuples of a list lie at multiples of 8 exactly when the buffer does. -/
theorem aligned_iff (calls : List Call) (buffer : ℕ) (buflen : UInt64) (memory : Memory) :
    (Aligned calls (Space.new buffer buflen memory) ↔
      Suits calls (Space.new buffer buflen memory)) ∧
    ((∀ c ∈ calls, c.align ∣ 2 ^ 64) → (Aligned calls (Space.new buffer buflen memory) ↔
      ∀ r ∈ (runCalls calls (Space.new buffer buflen memory)).1, r.1.align ∣ buffer)) ∧
    (∀ (lookup : Bytes → Family → Got Addresses) (name : Option Bytes) (af : Int32) (o : Outs),
      (gethostbyname3 lookup name af buffer buflen memory o).status = .success →
      ((gethostbyname3 lookup name af buffer buflen memory o).outs.result.Aligned ↔ 8 ∣ buffer)) ∧
    (∀ (reverse : IpAddr → Got Answer) (addr : Option Bytes) (len : UInt32) (af : Int32) (o : Outs),
      (gethostbyaddr2 reverse addr len af buffer buflen memory o).status = .success →
      ((gethostbyaddr2 reverse addr len af buffer buflen memory o).outs.result.Aligned ↔
        8 ∣ buffer)) ∧
    ∀ (lookup : Bytes → Family → Got Addresses) (name : Bytes) (a : Addresses) (o : Outs),
      resolveAddresses lookup name .any = .value a →
      (gethostbyname4 lookup (some name) buffer buflen memory o).status = .success →
      ∃ (canonical : ℕ) (slots : List ℕ), slots.length = a.addresses.length ∧
        (∀ p ∈ slots, 8 ∣ p ↔ 8 ∣ buffer) ∧
        (gethostbyname4 lookup (some name) buffer buflen memory o).memory =
          writeTuples canonical 0 (slots.zip (a.addresses.map AddressOut.address))
            (memory.store canonical (octets a.canonical ++ [0])) := by
  have hs := Space.new_valid buffer buflen memory
  refine ⟨aligned_iff_suits calls hs, fun hc => ?_, ?_, ?_, ?_⟩
  · exact (aligned_iff_suits calls hs).trans (suits_iff_of_dvd calls hs hc)
  · intro lookup name af o hr
    exact gethostbyname3_aligned_iff hr
  · intro reverse addr len af o hr
    exact gethostbyaddr2_aligned_iff hr
  · intro lookup name a o hgot hr
    obtain ⟨canonical, slots, hlength, hslots, hm⟩ := gethostbyname4_slots hgot hr
    exact ⟨canonical, slots, hlength, fun p hp => (hslots p hp).dvd_iff dvd_rfl, hm⟩

section Localhost

variable (lookup : Bytes → Family → Got Addresses) (buffer : ℕ) (buflen : UInt64) (memory : Memory)
  (o : Outs)

theorem octets_localhost : octets "localhost" = Engine.localhost.display := by decide

theorem resolveAddresses_localhost (family : Family) :
    resolveAddresses lookup (ascii "localhost") family = .value (localAddresses family) :=
      if_pos (by decide)

/-- `localhost` is found without a daemon, in a buffer that is large enough. -/
theorem gethostbyname3_localhost (h : 60 ≤ buflen.toNat) :
    (gethostbyname3 lookup (some (ascii "localhost")) afInet buffer buflen memory o).status =
      .success := by
  have hfamily : familyOf afInet = some .v4 := rfl
  have hsize : hostentSize (localAddresses .v4) = 60 := by decide
  have hconverges := renderHostent_converges (a := localAddresses .v4) afInet octets_localhost
    (by decide)
  simp only [gethostbyname3, hfamily, resolveAddresses_localhost, Got.render]
  exact (hconverges.success_iff buffer buflen memory o).mpr (by omega)

theorem gethostbyname4_localhost (h : 96 ≤ buflen.toNat) :
    (gethostbyname4 lookup (some (ascii "localhost")) buffer buflen memory o).status =
      .success := by
  have hsize : tuplesSize (localAddresses .any) = 96 := by decide
  have hconverges := renderAddrtuples_converges (a := localAddresses .any) octets_localhost
    (by decide)
  simp only [gethostbyname4, resolveAddresses_localhost, Got.render]
  exact (hconverges.success_iff buffer buflen memory o).mpr (by omega)

end Localhost

/-- The variables of a caller, all of them 0. -/
def zeroOuts : Outs := ⟨⟨0, 0, 0, 0, 0⟩, some 0, some 0, some 0, some 0, some 0⟩

/-- In a buffer at the start of a page a tuple and the arrays are aligned. -/
theorem aligned_iff_page :
    Aligned [.reserve 40 8] (Space.new 4096 1024 fun _ => 0) ∧
    (gethostbyname3 (fun _ _ => .unavailable) (some (ascii "localhost")) afInet 4096 1024
      (fun _ => 0)
      zeroOuts).outs.result.Aligned := by
  obtain ⟨-, hcalls, hname, -, -⟩ := aligned_iff [.reserve 40 8] 4096 1024 fun _ => 0
  refine ⟨(hcalls (by decide)).mpr ?_, ?_⟩
  · have hrun : (Call.run (.reserve 40 8) (Space.new 4096 1024 fun _ => 0)).1 = some 4096 := by
      decide
    rw [runCalls_cons_some hrun]
    simp [runCalls, Call.align]
  · exact (hname _ _ _ _ (gethostbyname3_localhost _ 4096 1024 _ zeroOuts (by decide))).mpr
      (by decide)

/-- In a buffer one octet behind it `reserve` returns an odd address for an alignment of 8.  So do
the arrays of a `hostent` and both tuples for `localhost` lie at odd addresses. -/
theorem misaligned_buffer :
    (Call.run (.reserve 40 8) (Space.new 4097 1024 fun _ => 0)).1 = some 4097 ∧
    ¬ Aligned [.reserve 40 8] (Space.new 4097 1024 fun _ => 0) ∧
    ¬ (gethostbyname3 (fun _ _ => .unavailable) (some (ascii "localhost")) afInet 4097 1024
      (fun _ => 0)
      zeroOuts).outs.result.Aligned ∧
    ∃ (canonical : ℕ) (slots : List ℕ), slots.length = 2 ∧ (∀ p ∈ slots, ¬ 8 ∣ p) ∧
      (gethostbyname4 (fun _ _ => .unavailable) (some (ascii "localhost")) 4097 1024
        (fun _ => 0) zeroOuts).memory =
        writeTuples canonical 0 (slots.zip [.v4 IpAddr.localhost4, .v6 IpAddr.localhost6])
          (Memory.store (fun _ => 0) canonical (octets "localhost" ++ [0])) := by
  have hrun : (Call.run (.reserve 40 8) (Space.new 4097 1024 fun _ => 0)).1 = some 4097 := by decide
  have hodd : ¬ 8 ∣ 4097 := by decide
  refine ⟨hrun, fun h => hodd ?_, fun h => hodd ?_, ?_⟩
  · exact h (.reserve 40 8, 4097) (by rw [runCalls_cons_some hrun]; exact List.mem_cons_self)
  · exact (gethostbyname3_aligned_iff
      (gethostbyname3_localhost _ 4097 1024 _ zeroOuts (by decide))).mp h
  · obtain ⟨canonical, slots, hlength, hslots, hm⟩ :=
      gethostbyname4_slots (resolveAddresses_localhost _ .any)
      (gethostbyname4_localhost _ 4097 1024 _ zeroOuts (by decide))
    exact ⟨canonical, slots, hlength, fun p hp hdvd =>
      hodd (((hslots p hp).dvd_iff dvd_rfl).mp hdvd), hm⟩

end Resolvd.Nss
