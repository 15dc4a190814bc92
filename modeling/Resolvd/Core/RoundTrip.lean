import Resolvd.Core.Protocol

/-!
# What is written is read back

Every reader of the native protocol takes one MessagePack value, and what it returns can be written
again: its strings are shorter than `2 ^ 32` octets, its lists shorter than `2 ^ 32` items, its
counters below `2 ^ 63` (`Fits`).  And whatever fits is read back from what is written of it.  So a
request or a reply survives the round trip exactly when it fits, and all that a decoder returns
does.
-/

namespace Resolvd.Core

open Lib Lib.Parser Msgpack List
open Engine (Outcome)

variable {α φ : Type} {bs : Bytes} {v : ReplyVars} {seen : List String} {r : Request} {p : Reply}

/-! ### What fits the format -/

/-- A string whose length can be written. -/
abbrev Small (s : String) : Prop := s.utf8ByteSize < 2 ^ 32

/-- A list of strings that can be written. -/
structure SmallAll (l : List String) : Prop where
  length : l.length < 2 ^ 32
  items : ∀ s ∈ l, Small s

def Request.Fits : Request → Prop
  | .resolve name _ _ => Small name
  | .lookup name _ => Small name
  | _ => True

structure RecordOut.Fits (r : RecordOut) : Prop where
  name : Small r.name
  data : r.data.length < 2 ^ 32
  text : Small r.text

structure Answer.Fits (a : Answer) : Prop where
  length : a.records.length < 2 ^ 32
  records : ∀ r ∈ a.records, r.Fits
  source : Small a.source
  server : ∀ s ∈ a.server, Small s
  interface : ∀ s ∈ a.interface, Small s

structure Addresses.Fits (a : Addresses) : Prop where
  canonical : Small a.canonical
  length : a.addresses.length < 2 ^ 32
  source : Small a.source

structure ScopeStatus.Fits (sc : ScopeStatus) : Prop where
  interface : Small sc.interface
  servers : SmallAll sc.servers
  domains : SmallAll sc.domains
  subnets : SmallAll sc.subnets
  demoted : SmallAll sc.demoted

/-- A number that `read_uint` can return. -/
abbrev Below (n : UInt64) : Prop := n.toNat < 2 ^ 63

structure Counters.Fits (c : Counters) : Prop where
  queries : Below c.queries
  synthetic : Below c.synthetic
  cacheHits : Below c.cacheHits
  upstreamSent : Below c.upstreamSent
  upstreamAnswered : Below c.upstreamAnswered
  upstreamFailed : Below c.upstreamFailed
  refused : Below c.refused

structure StatusReport.Fits (s : StatusReport) : Prop where
  hostname : Small s.hostname
  length : s.scopes.length < 2 ^ 32
  scopes : ∀ sc ∈ s.scopes, sc.Fits
  fallbackServers : SmallAll s.fallbackServers
  cacheEntries : Below s.cacheEntries
  counters : s.counters.Fits

def Reply.Fits : Reply → Prop
  | .ok => True
  | .error message => Small message
  | .answer a => a.Fits
  | .addresses a => a.Fits
  | .status s => s.Fits

/-! ### Arms -/

theorem arm {p : Parser WireError α} {Q : α → Prop} {Q' : φ → Prop} {g : α → φ} (hp : Reads1 p Q)
    (h : ∀ a, Q a → Q' (g a)) : Reads1 (g <$> p) Q' := by
  refine (hp.map g).mono ?_
  rintro v _ ⟨a, rfl, ha, hv⟩
  exact ⟨h a ha, hv⟩

theorem str_one : Reads1 (wire readStr) Small := readStr_one.mapError _

theorem bool_one : Reads1 (wire readBool) (fun _ => True) := readBool_one.mapError _

theorem uint_one : Reads1 (wire readUint) (fun n => n < 2 ^ 63) := readUint_one.mapError _

theorem counter_one : Reads1 readCounter Below := by
  refine arm uint_one fun n hn => ?_
  rw [Below, UInt64.toNat_ofNat']
  omega

theorem list_one {p : Parser WireError α} {Q : α → Prop} (hp : Reads1 p Q) :
    Reads1 (arrayOf .encoding p) (fun l => l.length < 2 ^ 32 ∧ ∀ a ∈ l, Q a) := by
  refine (arrayOf_takes hp).mono ?_
  rintro v as ⟨vs, hv, hlen, -, hvs⟩
  refine ⟨⟨hlen, fun a ha => ?_⟩, hv.value fun w hw => ?_⟩
  · obtain ⟨_, -, hQ, -⟩ := forall₂_right hvs a ha
    exact hQ
  · obtain ⟨_, -, -, hval⟩ := forall₂_left hvs w hw
    exact hval

theorem strList_one : Reads1 readStrList SmallAll :=
  (list_one str_one).mono fun _ _ h => ⟨⟨h.1.1, h.1.2⟩, h.2⟩

theorem readOptStr_nil : Reads readOptStr writeNil none := fun _ => rfl

/-- What does not begin with the marker of `nil` is read as a string. -/
theorem readOptStr_eq (hb : bs.head? ≠ some 0xc0) : readOptStr bs = (some <$> wire readStr) bs := by
  have hpeek : wire peek bs = .ok (bs.head?.map Ty.of, bs) := rfl
  unfold readOptStr
  rw [bind_apply_ok hpeek, if_neg]
  cases bs with
  | nil => simp
  | cons b bs => simpa [of_nil] using hb

theorem readOptStr_reads {s : String} {v : Bytes} (h : Str s v) : Reads readOptStr v (some s) := by
  intro rest
  have hread := (h.reads.mapError WireError.encoding).map some rest
  obtain ⟨head, hh, rfl⟩ := h
  obtain ⟨b, tail, rfl, hb⟩ := hh.mark
  have hne : ∀ b, strMarks.Mark b → b ≠ 0xc0 := forall_byte (by decide +kernel)
  rw [readOptStr_eq (by simpa using hne b hb)]
  exact hread

theorem optStr_one : Reads1 readOptStr (fun o => ∀ s ∈ o, Small s) := by
  intro bs o rest h
  by_cases hb : bs.head? = some 0xc0
  · obtain ⟨tail, rfl⟩ : ∃ tail, bs = writeNil ++ tail := by
      cases bs with
      | nil => simp at hb
      | cons b tail => exact ⟨tail, by simpa [writeNil] using hb⟩
    rw [readOptStr_nil tail] at h
    obtain ⟨rfl, rfl⟩ : none = o ∧ tail = rest := by simpa using h
    exact ⟨writeNil, rfl, readOptStr_nil, by simp, (Token.one (by decide)).isValue⟩
  · rw [readOptStr_eq hb] at h
    obtain ⟨s, hs, rfl⟩ := map_eq_ok.mp h
    obtain ⟨v, rfl, -, hstr⟩ := readStr_takes (mapError_eq_ok.mp hs)
    exact ⟨v, rfl, readOptStr_reads hstr, by simpa using hstr.size_lt, hstr.value⟩

theorem type_one : Reads1 readType (fun _ => True) := by
  refine (uint_one.bind (M := fun _ v _ => v = []) fun n => ?_).mono ?_
  · split
    · exact (Takes.pure _).mono fun _ _ h => h.1
    · exact Takes.throw _ _
  · rintro _ _ ⟨n, v, _, rfl, ⟨-, hv⟩, rfl⟩
    rw [append_nil]
    exact ⟨trivial, hv⟩

/-- What is asked of the fields of a request. -/
def RequestField.Fits : RequestField → Prop
  | .name s => Small s
  | _ => True

theorem requestSchema_lawful : requestSchema.Lawful RequestField.Fits where
  known := by
    simp only [requestSchema, forall_mem_cons]
    exact ⟨arm str_one fun _ _ => ⟨trivial, rfl⟩, arm str_one fun _ h => ⟨h, rfl⟩,
      arm type_one fun _ _ => ⟨trivial, rfl⟩, arm bool_one fun _ _ => ⟨trivial, rfl⟩,
      arm str_one fun _ _ => ⟨trivial, rfl⟩, arm str_one fun _ _ => ⟨trivial, rfl⟩, by simp⟩
  comm := by
    intro s a b h
    cases a <;> cases b <;> first | rfl | exact absurd rfl h

theorem request_one : Reads1 (requestSchema.forEachField {}) (fun v => ∀ n ∈ v.name, Small n) := by
  refine requestSchema_lawful.forEachField_one (P := fun _ v => ∀ n ∈ v.name, Small n) (by simp) ?_
    (fun _ _ _ h => h) (fun _ _ h => h)
  intro seen v a h ha _
  cases a with
  | name s =>
    intro n hn
    obtain rfl := Option.some.inj hn
    exact ha
  | _ => exact h

/-- What is asked of the fields of a record. -/
def RecordField.Fits : RecordField → Prop
  | .name s => Small s
  | .data b => b.length < 2 ^ 32
  | .text s => Small s
  | _ => True

theorem recordSchema_lawful : recordSchema.Lawful RecordField.Fits where
  known := by
    simp only [recordSchema, forall_mem_cons]
    exact ⟨arm str_one fun _ h => ⟨h, rfl⟩, arm uint_one fun _ _ => ⟨trivial, rfl⟩,
      arm uint_one fun _ _ => ⟨trivial, rfl⟩, arm (readBin_one.mapError _) fun _ h => ⟨h, rfl⟩,
      arm str_one fun _ h => ⟨h, rfl⟩, by simp⟩
  comm := by
    intro s a b h
    cases a <;> cases b <;> first | rfl | exact absurd rfl h

theorem small_empty : Small "" := by decide

theorem record_one : Reads1 (recordSchema.forEachField {}) RecordOut.Fits := by
  refine recordSchema_lawful.forEachField_one (P := fun _ r => r.Fits)
    ⟨small_empty, by simp, small_empty⟩ ?_
    (fun _ _ _ h => h) (fun _ _ h => h)
  intro seen r a h ha _
  cases a with
  | name s => exact { h with name := ha }
  | data b => exact { h with data := ha }
  | text s => exact { h with text := ha }
  | rtype n => exact { h with }
  | ttl n => exact { h with }

theorem addressSchema_lawful (T : AddressText) : (addressSchema T).Lawful (fun _ => True) where
  known := by
    simp only [addressSchema, forall_mem_cons]
    exact ⟨arm str_one fun _ _ => ⟨trivial, rfl⟩, arm uint_one fun _ _ => ⟨trivial, rfl⟩, by simp⟩
  comm := by
    intro s a b h
    cases a <;> cases b <;> first | rfl | exact absurd rfl h

theorem address_one (T : AddressText) :
    Reads1 ((addressSchema T).forEachField {}) (fun _ => True) :=
  (addressSchema_lawful T).forEachField_one (P := fun _ _ => True) trivial
    (fun _ _ _ _ _ _ => trivial)
    (fun _ _ _ h => h) (fun _ _ h => h)

/-- What is asked of the fields of a scope. -/
def ScopeField.Fits : ScopeField → Prop
  | .interface s => Small s
  | .servers l => SmallAll l
  | .domains l => SmallAll l
  | .subnets l => SmallAll l
  | .demoted l => SmallAll l
  | _ => True

theorem scopeSchema_lawful : scopeSchema.Lawful ScopeField.Fits where
  known := by
    simp only [scopeSchema, forall_mem_cons]
    exact ⟨arm str_one fun _ h => ⟨h, rfl⟩, arm strList_one fun _ h => ⟨h, rfl⟩,
      arm strList_one fun _ h => ⟨h, rfl⟩, arm bool_one fun _ _ => ⟨trivial, rfl⟩,
      arm bool_one fun _ _ => ⟨trivial, rfl⟩, arm uint_one fun _ _ => ⟨trivial, rfl⟩,
      arm strList_one fun _ h => ⟨h, rfl⟩, arm strList_one fun _ h => ⟨h, rfl⟩, by simp⟩
  comm := by
    intro s a b h
    cases a <;> cases b <;> first | rfl | exact absurd rfl h

theorem smallAll_nil : SmallAll [] := ⟨by simp, by simp⟩

theorem scope_one : Reads1 (scopeSchema.forEachField {}) ScopeStatus.Fits := by
  refine scopeSchema_lawful.forEachField_one (P := fun _ sc => sc.Fits)
    ⟨small_empty, smallAll_nil, smallAll_nil, smallAll_nil, smallAll_nil⟩ ?_ (fun _ _ _ h => h)
      (fun _ _ h => h)
  intro seen sc a h ha _
  cases a with
  | interface s => exact { h with interface := ha }
  | servers l => exact { h with servers := ha }
  | domains l => exact { h with domains := ha }
  | subnets l => exact { h with subnets := ha }
  | demoted l => exact { h with demoted := ha }
  | defaultRoute b => exact { h with }
  | exclusive b => exact { h with }
  | metric n => exact { h with }

/-- What is asked of the counters. -/
def CounterField.Fits : CounterField → Prop
  | .queries n => Below n
  | .synthetic n => Below n
  | .cacheHits n => Below n
  | .upstreamSent n => Below n
  | .upstreamAnswered n => Below n
  | .upstreamFailed n => Below n
  | .refused n => Below n

theorem counterSchema_lawful : counterSchema.Lawful CounterField.Fits where
  known := by
    simp only [counterSchema, forall_mem_cons]
    exact ⟨arm counter_one fun _ h => ⟨h, rfl⟩, arm counter_one fun _ h => ⟨h, rfl⟩,
      arm counter_one fun _ h => ⟨h, rfl⟩, arm counter_one fun _ h => ⟨h, rfl⟩,
      arm counter_one fun _ h => ⟨h, rfl⟩, arm counter_one fun _ h => ⟨h, rfl⟩,
      arm counter_one fun _ h => ⟨h, rfl⟩, by simp⟩
  comm := by
    intro s a b h
    cases a <;> cases b <;> first | rfl | exact absurd rfl h

theorem fits_counters : Counters.Fits {} := by constructor <;> decide

theorem counters_one : Reads1 (counterSchema.forEachField {}) Counters.Fits := by
  refine counterSchema_lawful.forEachField_one (P := fun _ c => c.Fits)
    fits_counters ?_ (fun _ _ _ h => h)
    (fun _ _ h => h)
  intro seen c a h ha _
  cases a with
  | queries n => exact { h with queries := ha }
  | synthetic n => exact { h with synthetic := ha }
  | cacheHits n => exact { h with cacheHits := ha }
  | upstreamSent n => exact { h with upstreamSent := ha }
  | upstreamAnswered n => exact { h with upstreamAnswered := ha }
  | upstreamFailed n => exact { h with upstreamFailed := ha }
  | refused n => exact { h with refused := ha }

/-- What is asked of the fields of a reply. -/
def ReplyField.Fits : ReplyField → Prop
  | .error s => Small s
  | .source s => Small s
  | .server o => ∀ s ∈ o, Small s
  | .interface o => ∀ s ∈ o, Small s
  | .records l => l.length < 2 ^ 32 ∧ ∀ r ∈ l, r.Fits
  | .canonical s => Small s
  | .addresses l => l.length < 2 ^ 32
  | .hostname s => Small s
  | .fallbackServers l => SmallAll l
  | .cacheEntries n => Below n
  | .scopes l => l.length < 2 ^ 32 ∧ ∀ sc ∈ l, sc.Fits
  | .counters c => c.Fits
  | _ => True

theorem replySchema_lawful (T : AddressText) : (replySchema T).Lawful ReplyField.Fits where
  known := by
    simp only [replySchema, forall_mem_cons]
    exact ⟨arm bool_one fun _ _ => ⟨trivial, rfl⟩, arm str_one fun _ h => ⟨h, rfl⟩,
      arm str_one fun _ _ => ⟨trivial, rfl⟩, arm str_one fun _ _ => ⟨trivial, rfl⟩,
      arm str_one fun _ _ => ⟨trivial, rfl⟩, arm str_one fun _ h => ⟨h, rfl⟩,
      arm optStr_one fun _ h => ⟨h, rfl⟩, arm optStr_one fun _ h => ⟨h, rfl⟩,
      arm uint_one fun _ _ => ⟨trivial, rfl⟩, arm (list_one record_one) fun _ h => ⟨h, rfl⟩,
      arm str_one fun _ h => ⟨h, rfl⟩, arm (list_one (address_one T)) fun _ h => ⟨h.1, rfl⟩,
      arm str_one fun _ h => ⟨h, rfl⟩, arm bool_one fun _ _ => ⟨trivial, rfl⟩,
      arm strList_one fun _ h => ⟨h, rfl⟩, arm counter_one fun _ h => ⟨h, rfl⟩,
      arm (list_one scope_one) fun _ h => ⟨h, rfl⟩, arm counters_one fun _ h => ⟨h, rfl⟩, by simp⟩
  comm := by
    intro s a b h
    cases a <;> cases b <;> first | rfl | exact absurd rfl h

/-- The variables of `Reply::decode` fit, and a list that is pushed to is empty until its key comes
up. -/
structure ReplyVars.Fits (seen : List String) (v : ReplyVars) : Prop where
  error : ∀ m ∈ v.error, Small m
  answer : v.answer.Fits
  addresses : v.addresses.Fits
  status : v.status.Fits
  noRecords : "records" ∉ seen → v.answer.records = []
  noAddresses : "addresses" ∉ seen → v.addresses.addresses = []
  noScopes : "scopes" ∉ seen → v.status.scopes = []

theorem ReplyVars.Fits.mono {seen' : List String} (h : v.Fits seen) (hs : seen ⊆ seen') :
    v.Fits seen' where
  error := h.error
  answer := h.answer
  addresses := h.addresses
  status := h.status
  noRecords hn := h.noRecords fun hm => hn (hs hm)
  noAddresses hn := h.noAddresses fun hm => hn (hs hm)
  noScopes hn := h.noScopes fun hm => hn (hs hm)

theorem fits_replyVars : ReplyVars.Fits [] {} where
  error := by simp
  answer := ⟨by simp, by simp, small_empty, by simp, by simp⟩
  addresses := ⟨small_empty, by simp, small_empty⟩
  status := ⟨small_empty, by simp, by simp, smallAll_nil, by decide, fits_counters⟩
  noRecords _ := rfl
  noAddresses _ := rfl
  noScopes _ := rfl

theorem ReplyVars.Fits.store (T : AddressText) {a : ReplyField}
    (h : v.Fits seen) (ha : a.Fits) (hn : (replySchema T).tag a ∉ seen) :
    ((replySchema T).store v a).Fits ((replySchema T).tag a :: seen) := by
  have h' := h.mono (subset_cons_self ((replySchema T).tag a) seen)
  cases a with
  | ok b => exact { h' with }
  | error m => exact { h' with error := by rintro _ ⟨⟩; exact ha }
  | kind k => exact { h' with }
  | outcome o => exact { h' with answer := { h.answer with }, addresses := { h.addresses with } }
  | validation x => exact { h' with answer := { h.answer with }, addresses := { h.addresses with } }
  | source s =>
    exact { h' with answer := { h.answer with source := ha }, addresses := { h.addresses with source := ha } }
  | server s => exact { h' with answer := { h.answer with server := ha } }
  | interface s => exact { h' with answer := { h.answer with interface := ha } }
  | rcode n => exact { h' with answer := { h.answer with } }
  | canonical s => exact { h' with addresses := { h.addresses with canonical := ha } }
  | hostname s => exact { h' with status := { h.status with hostname := ha } }
  | netd b => exact { h' with status := { h.status with } }
  | fallbackServers l => exact { h' with status := { h.status with fallbackServers := ha } }
  | cacheEntries n => exact { h' with status := { h.status with cacheEntries := ha } }
  | counters c => exact { h' with status := { h.status with counters := ha } }
  | records l =>
    have hl : v.answer.records ++ l = l := by rw [h.noRecords hn, nil_append]
    exact { h' with
      answer := { h.answer with
        length := (congrArg List.length hl).trans_lt ha.1
        records := fun r hr => ha.2 r (hl ▸ hr) }
      noRecords := fun hc => absurd mem_cons_self hc }
  | addresses l =>
    have hl : v.addresses.addresses ++ l.filterMap AddressVars.out =
        l.filterMap AddressVars.out := by
      rw [h.noAddresses hn, nil_append]
    exact { h' with
      addresses := { h.addresses with
        length := (congrArg List.length hl).trans_lt (lt_of_le_of_lt (length_filterMap_le ..) ha) }
      noAddresses := fun hc => absurd mem_cons_self hc }
  | scopes l =>
    have hl : v.status.scopes ++ l = l := by rw [h.noScopes hn, nil_append]
    exact { h' with
      status := { h.status with
        length := (congrArg List.length hl).trans_lt ha.1
        scopes := fun sc hsc => ha.2 sc (hl ▸ hsc) }
      noScopes := fun hc => absurd mem_cons_self hc }

theorem reply_one (T : AddressText) :
    Reads1 ((replySchema T).forEachField {}) (fun v => ∃ seen, v.Fits seen) :=
  (replySchema_lawful T).forEachField_one (P := fun seen v => v.Fits seen) fits_replyVars
    (fun _ _ _ h ha hn => h.store T ha hn) (fun _ _ _ h => h.mono (subset_cons_self ..))
      (fun seen _ h => ⟨seen, h⟩)

/-! ### What a decoder returns fits -/

variable {T : AddressText} {bytes : Bytes}

theorem Request.decode_eq_ok :
    Request.decode T bytes = .ok r ↔ ∃ v rest, requestSchema.forEachField {} bytes = .ok (v, rest) ∧
      v.request T = .ok r := by
  unfold Request.decode
  cases requestSchema.forEachField {} bytes with
  | error e => simp [bind, Except.bind]
  | ok vr => simp [bind, Except.bind, Prod.ext_iff]

theorem Reply.decode_eq_ok :
    Reply.decode T bytes = .ok p ↔ ∃ v rest, (replySchema T).forEachField {} bytes = .ok (v, rest) ∧
      v.reply = .ok p := by
  unfold Reply.decode
  cases (replySchema T).forEachField {} bytes with
  | error e => simp [bind, Except.bind]
  | ok vr => simp [bind, Except.bind, Prod.ext_iff]

theorem required_eq_ok {o : Option α} {field : String} {a : α} :
    required o field = .ok a ↔ o = some a := by
  cases o <;> simp [required]

theorem except_bind_eq_ok {ε β : Type} {x : Except ε α} {f : α → Except ε β} {b : β} :
    (x >>= f) = .ok b ↔ ∃ a, x = .ok a ∧ f a = .ok b := by
  cases x <;> simp [bind, Except.bind]

theorem RequestVars.request_fits {v : RequestVars} (hv : ∀ n ∈ v.name, Small n)
    (h : v.request T = .ok r) : r.Fits := by
  unfold RequestVars.request at h
  split at h
  · cases h
  repeat' split at h
  · simp only [except_bind_eq_ok, required_eq_ok, pure, Except.pure, Except.ok.injEq] at h
    obtain ⟨name, hname, t, -, rfl⟩ := h
    exact hv name hname
  · simp only [except_bind_eq_ok, required_eq_ok, pure, Except.pure, Except.ok.injEq] at h
    obtain ⟨name, hname, rfl⟩ := h
    exact hv name hname
  · simp only [except_bind_eq_ok, required_eq_ok, pure, Except.pure, Except.ok.injEq] at h
    obtain ⟨_, -, _, -, rfl⟩ := h
    trivial
  · cases h
    trivial
  · cases h
    trivial
  · cases h

theorem Request.decode_fits (h : Request.decode T bytes = .ok r) : r.Fits := by
  obtain ⟨v, rest, hv, hr⟩ := Request.decode_eq_ok.mp h
  obtain ⟨_, -, -, hname, -⟩ := request_one hv
  exact RequestVars.request_fits hname hr

theorem ReplyVars.reply_fits (hv : v.Fits seen) (h : v.reply = .ok p) : p.Fits := by
  unfold ReplyVars.reply at h
  split at h
  · cases h
  · obtain rfl := Except.ok.inj h
    show Small (v.error.getD "unspecified error")
    cases he : v.error with
    | none => decide
    | some m => exact hv.error m he
  · repeat' split at h
    all_goals obtain rfl := Except.ok.inj h
    · exact hv.answer
    · exact hv.addresses
    · exact hv.status
    · trivial

theorem Reply.decode_fits (h : Reply.decode T bytes = .ok p) : p.Fits := by
  obtain ⟨v, rest, hv, hp⟩ := Reply.decode_eq_ok.mp h
  obtain ⟨_, -, -, ⟨seen, hfits⟩, -⟩ := reply_one T hv
  exact ReplyVars.reply_fits hfits hp

/-! ### What is written is read back -/

theorem str_reads {s : String} (h : Small s) : Reads (wire readStr) (writeStr s) s :=
  (writeStr_str h).reads.mapError _

theorem bool_reads (b : Bool) : Reads (wire readBool) (writeBool b) b :=
  (writeBool_reads b).mapError _

theorem uint_reads {n : UInt64} (h : Below n) : Reads (wire readUint) (writeUint n) n.toNat :=
  (writeUint_reads h).mapError _

theorem counter_reads {n : UInt64} (h : Below n) : Reads readCounter (writeUint n) n := by
  simpa [readCounter] using (uint_reads h).map UInt64.ofNat

theorem below_of_u16 (n : UInt16) : Below n.toUInt64 := by
  have := n.toNat_lt
  simp only [Below, UInt16.toNat_toUInt64]
  omega

theorem below_of_u32 (n : UInt32) : Below n.toUInt64 := by
  have := n.toNat_lt
  simp only [Below, UInt32.toNat_toUInt64]
  omega

theorem u16_reads (g : UInt16 → φ) (n : UInt16) :
    Reads ((fun k => g (UInt16.ofNat k)) <$> wire readUint) (writeUint n.toUInt64) (g n) := by
  simpa using (uint_reads (below_of_u16 n)).map fun k => g (UInt16.ofNat k)

theorem u32_reads (g : UInt32 → φ) (n : UInt32) :
    Reads ((fun k => g (UInt32.ofNat k)) <$> wire readUint) (writeUint n.toUInt64) (g n) := by
  simpa using (uint_reads (below_of_u32 n)).map fun k => g (UInt32.ofNat k)

theorem type_reads (n : UInt16) : Reads readType (writeUint n.toUInt64) n := by
  have hlt : n.toUInt64.toNat < 2 ^ 16 := by
    rw [UInt16.toNat_toUInt64]
    exact n.toNat_lt
  rw [← append_nil (writeUint _)]
  refine (uint_reads (below_of_u16 n)).bind ?_
  rw [if_pos hlt, UInt16.toNat_toUInt64, UInt16.ofNat_toNat]
  exact Reads.pure n

theorem optStr_reads {o : Option String} (h : ∀ s ∈ o, Small s) :
    Reads readOptStr (writeOptStr o) o := by
  cases o with
  | none => exact readOptStr_nil
  | some s => exact readOptStr_reads (writeStr_str (h s rfl))

theorem list_reads {β : Type} {p : Parser WireError β} {Q : β → Prop} {write : α → Bytes}
    {f : α → β} {l : List α} (hp : Reads1 p Q) (hlen : l.length < 2 ^ 32)
    (h : ∀ a ∈ l, Reads p (write a) (f a)) :
    Reads (arrayOf .encoding p) (writeList write l) (l.map f) := by
  have harray : ArrayOf (l.map write) (writeList write l) := by
    refine ⟨writeArray (UInt32.ofNat l.length), ?_, by rw [writeList, List.flatMap]⟩
    have hhead := writeArray_head (UInt32.ofNat l.length)
    rw [UInt32.toNat_ofNat_of_lt' hlen] at hhead
    rwa [length_map]
  refine arrayOf_reads harray (fun v hv => ?_) ?_
  · obtain ⟨a, ha, rfl⟩ := mem_map.mp hv
    exact (hp.of_reads (h a ha)).2.length_pos
  · rw [forall₂_map_left_iff, forall₂_map_right_iff]
    exact forall₂_same.mpr h

theorem strList_reads {l : List String} (h : SmallAll l) :
    Reads readStrList (writeStrList l) l := by
  have := list_reads (f := id) str_one h.length fun s hs => str_reads (h.items s hs)
  rwa [map_id] at this

/-- A map with a field for each of `fs`, whose arms read back what was written, is read back. -/
theorem written_reads {σ : Type} {S : Schema σ φ} {Q : φ → Prop} (hl : S.Lawful Q) (count : UInt32)
    (fs : List (String × Bytes × φ)) (hcount : count.toNat = fs.length)
    (hkeys : (fs.map Prod.fst).Nodup) (hsmall : ∀ k ∈ fs.map Prod.fst, Small k)
    {s s' : σ} (hs : fs.foldl (fun s f => S.store s f.2.2) s = s')
    (h : ∀ f ∈ fs, ∃ p, S.known.lookup f.1 = some p ∧ Reads p f.2.1 f.2.2) :
    Reads (S.forEachField s) (writeMap count ++ writeFields (fs.map fun f => (f.1, f.2.1))) s' := by
  let item (f : String × Bytes × φ) : Schema.Item φ := ⟨f.1, writeStr f.1, f.2.1, some f.2.2⟩
  have hkey : (fs.map item).map Schema.Item.key = fs.map Prod.fst := by
    simp [item, Function.comp_def]
  have hmap : MapOf ((fs.map item).map Schema.Item.pair)
      (writeMap count ++ writeFields (fs.map fun f => (f.1, f.2.1))) := by
    refine ⟨writeMap count, ?_, ?_⟩
    · rw [length_map, length_map, ← hcount]
      exact writeMap_head count
    · simp [writeFields, flatMap_map, Schema.Item.pair, item]
  have hgood : ∀ i ∈ fs.map item, S.Good i := by
    intro i hi
    obtain ⟨f, hf, rfl⟩ := mem_map.mp hi
    exact ⟨writeStr_str (hsmall _ (mem_map_of_mem hf)), h f hf⟩
  subst hs
  have := hl.forEachField_reads hmap hgood (hkey ▸ hkeys) s
  simpa [Schema.gather, Schema.keep, foldl_map, item] using this

theorem record_reads {r : RecordOut} (h : r.Fits) :
    Reads (recordSchema.forEachField {}) r.encode r := by
  refine written_reads recordSchema_lawful 5
    [("name", writeStr r.name, .name r.name), ("type", writeUint r.rtype.toUInt64, .rtype r.rtype),
      ("ttl", writeUint r.ttl.toUInt64, .ttl r.ttl), ("data", writeBin r.data, .data r.data),
      ("text", writeStr r.text, .text r.text)] rfl (by simp) (by simp; decide)
        (by simp [recordSchema]) ?_
  simp only [forall_mem_cons]
  exact ⟨⟨_, rfl, (str_reads h.name).map _⟩, ⟨_, rfl, u16_reads _ _⟩, ⟨_, rfl, u32_reads _ _⟩,
    ⟨_, rfl, ((writeBin_bin h.data).reads.mapError _).map _⟩,
      ⟨_, rfl, (str_reads h.text).map _⟩, by simp⟩

theorem address_reads (T : AddressText) (x : AddressOut) :
    Reads ((addressSchema T).forEachField {}) (x.encode T) ⟨some x.address, x.ttl⟩ := by
  have hshort : Small (T.display x.address) := lt_of_le_of_lt (T.short _) (by decide)
  have hparse := (str_reads hshort).map fun s => AddressField.address (T.parse s)
  rw [T.parse_display] at hparse
  refine written_reads (addressSchema_lawful T) 2
    [("address", writeStr (T.display x.address), .address (some x.address)),
      ("ttl", writeUint x.ttl.toUInt64, .ttl x.ttl)]
    rfl (by simp) (by simp; decide) (by simp [addressSchema]) ?_
  simp only [forall_mem_cons]
  exact ⟨⟨_, rfl, hparse⟩, ⟨_, rfl, u32_reads _ _⟩, by simp⟩

theorem scope_reads {sc : ScopeStatus} (h : sc.Fits) :
    Reads (scopeSchema.forEachField {}) sc.encode sc := by
  refine written_reads scopeSchema_lawful 8
    [("interface", writeStr sc.interface, .interface sc.interface),
      ("servers", writeStrList sc.servers, .servers sc.servers),
      ("domains", writeStrList sc.domains, .domains sc.domains),
      ("default_route", writeBool sc.defaultRoute, .defaultRoute sc.defaultRoute),
      ("exclusive", writeBool sc.exclusive, .exclusive sc.exclusive),
      ("metric", writeUint sc.metric.toUInt64, .metric sc.metric),
      ("subnets", writeStrList sc.subnets, .subnets sc.subnets),
      ("demoted", writeStrList sc.demoted, .demoted sc.demoted)] rfl (by simp) (by simp; decide)
        (by simp [scopeSchema]) ?_
  simp only [forall_mem_cons]
  exact ⟨⟨_, rfl, (str_reads h.interface).map _⟩, ⟨_, rfl, (strList_reads h.servers).map _⟩,
    ⟨_, rfl, (strList_reads h.domains).map _⟩, ⟨_, rfl, (bool_reads _).map _⟩,
    ⟨_, rfl, (bool_reads _).map _⟩,
    ⟨_, rfl, u32_reads _ _⟩, ⟨_, rfl, (strList_reads h.subnets).map _⟩,
    ⟨_, rfl, (strList_reads h.demoted).map _⟩,
    by simp⟩

theorem counters_reads {c : Counters} (h : c.Fits) :
    Reads (counterSchema.forEachField {}) c.encode c := by
  refine written_reads counterSchema_lawful 7
    [("queries", writeUint c.queries, .queries c.queries),
      ("synthetic", writeUint c.synthetic, .synthetic c.synthetic),
      ("cache_hits", writeUint c.cacheHits, .cacheHits c.cacheHits),
      ("upstream_sent", writeUint c.upstreamSent, .upstreamSent c.upstreamSent),
      ("upstream_answered", writeUint c.upstreamAnswered, .upstreamAnswered c.upstreamAnswered),
      ("upstream_failed", writeUint c.upstreamFailed, .upstreamFailed c.upstreamFailed),
      ("refused", writeUint c.refused, .refused c.refused)] rfl (by simp) (by simp; decide)
      (by simp [counterSchema]) ?_
  simp only [forall_mem_cons]
  exact ⟨⟨_, rfl, (counter_reads h.queries).map _⟩, ⟨_, rfl, (counter_reads h.synthetic).map _⟩,
    ⟨_, rfl, (counter_reads h.cacheHits).map _⟩, ⟨_, rfl, (counter_reads h.upstreamSent).map _⟩,
    ⟨_, rfl, (counter_reads h.upstreamAnswered).map _⟩,
    ⟨_, rfl, (counter_reads h.upstreamFailed).map _⟩,
    ⟨_, rfl, (counter_reads h.refused).map _⟩, by simp⟩

/-! ### Requests and replies -/

theorem Request.decode_of_reads {v : RequestVars} (h : Reads (requestSchema.forEachField {}) bs v)
    (hr : v.request T = .ok r) : Request.decode T bs = .ok r := by
  have hv := h []
  rw [append_nil] at hv
  exact Request.decode_eq_ok.mpr ⟨v, [], hv, hr⟩

theorem Reply.decode_of_reads (h : Reads ((replySchema T).forEachField {}) bs v)
    (hp : v.reply = .ok p) : Reply.decode T bs = .ok p := by
  have hv := h []
  rw [append_nil] at hv
  exact Reply.decode_eq_ok.mpr ⟨v, [], hv, hp⟩

theorem Family.parse_asStr (f : Family) : Family.parse f.asStr = some f := by
  cases f <;> decide

theorem Family.small (f : Family) : Small f.asStr := by
  cases f <;> decide

theorem Request.decode_of_encode (h : r.Fits) : Request.decode T (r.encode T) = .ok r := by
  cases r with
  | resolve name rtype noCache =>
    refine Request.decode_of_reads (written_reads requestSchema_lawful 4
      [("query", writeStr "resolve", .query "resolve"), ("name", writeStr name, .name name),
        ("type", writeUint rtype.toUInt64, .rtype rtype),
          ("no_cache", writeBool noCache, .noCache noCache)]
      rfl (by simp) (by simp; decide) rfl ?_) ?_
    · simp only [forall_mem_cons]
      exact ⟨⟨_, rfl, (str_reads (by decide)).map _⟩, ⟨_, rfl, (str_reads h).map _⟩,
        ⟨_, rfl, (type_reads rtype).map _⟩, ⟨_, rfl, (bool_reads noCache).map _⟩, by simp⟩
    · rfl
  | lookup name family =>
    have hfamily := (str_reads family.small).map fun s => RequestField.family (Family.parse s)
    rw [Family.parse_asStr] at hfamily
    refine Request.decode_of_reads (written_reads requestSchema_lawful 3
      [("query", writeStr "lookup", .query "lookup"), ("name", writeStr name, .name name),
        ("family", writeStr family.asStr, .family (some family))] rfl (by simp)
          (by simp; decide) rfl ?_) ?_
    · simp only [forall_mem_cons]
      exact ⟨⟨_, rfl, (str_reads (by decide)).map _⟩, ⟨_, rfl, (str_reads h).map _⟩,
        ⟨_, rfl, hfamily⟩, by simp⟩
    · rfl
  | reverse address =>
    have hshort : Small (T.display address) := lt_of_le_of_lt (T.short _) (by decide)
    refine Request.decode_of_reads (written_reads requestSchema_lawful 2
      [("query", writeStr "reverse", .query "reverse"),
        ("address", writeStr (T.display address), .address (T.display address))] rfl (by simp)
          (by simp; decide) rfl ?_) ?_
    · simp only [forall_mem_cons]
      exact ⟨⟨_, rfl, (str_reads (by decide)).map _⟩, ⟨_, rfl, (str_reads hshort).map _⟩, by simp⟩
    · simp [RequestVars.request, requestSchema, required, T.parse_display, bind, Except.bind, pure,
        Except.pure]
  | status =>
    refine Request.decode_of_reads (written_reads requestSchema_lawful 1
      [("query", writeStr "status", .query "status")] rfl (by simp) (by simp; decide) rfl ?_) rfl
    simp only [forall_mem_cons]
    exact ⟨⟨_, rfl, (str_reads (by decide)).map _⟩, by simp⟩
  | flush =>
    refine Request.decode_of_reads (written_reads requestSchema_lawful 1
      [("query", writeStr "flush", .query "flush")] rfl (by simp) (by simp; decide) rfl ?_) rfl
    simp only [forall_mem_cons]
    exact ⟨⟨_, rfl, (str_reads (by decide)).map _⟩, by simp⟩

theorem parse_outcomeStr (o : Outcome) : parseOutcome (outcomeStr o) = some o := by
  cases o <;> decide

theorem outcome_reads (o : Outcome) :
    Reads ((fun s => ReplyField.outcome ((parseOutcome s).getD .unavailable)) <$> wire readStr)
      (writeStr (outcomeStr o)) (.outcome o) := by
  have hsmall : Small (outcomeStr o) := by cases o <;> decide
  have := (str_reads hsmall).map fun s => ReplyField.outcome ((parseOutcome s).getD .unavailable)
  rwa [parse_outcomeStr] at this

theorem Validation.parse_asStr (x : Validation) : Validation.parse x.asStr = some x := by
  cases x <;> decide

theorem validation_reads (x : Validation) :
    Reads ((fun s => ReplyField.validation ((Validation.parse s).getD .unvalidated)) <$> wire
      readStr)
      (writeStr x.asStr) (.validation x) := by
  have hsmall : Small x.asStr := by cases x <;> decide
  have := (str_reads hsmall).map fun s =>
    ReplyField.validation ((Validation.parse s).getD .unvalidated)
  rwa [Validation.parse_asStr] at this

theorem filterMap_out (l : List AddressOut) :
    (l.map fun x => (⟨some x.address, x.ttl⟩ : AddressVars)).filterMap AddressVars.out = l := by
  rw [filterMap_map]
  exact filterMap_some

theorem Reply.decode_of_encode (h : p.Fits) : Reply.decode T (p.encode T) = .ok p := by
  cases p with
  | ok =>
    refine Reply.decode_of_reads (v := { ok := some true }) (written_reads (replySchema_lawful T) 1
      [("ok", writeBool true, .ok true)] rfl (by simp) (by simp; decide) rfl ?_) rfl
    simp only [forall_mem_cons]
    exact ⟨⟨_, rfl, (bool_reads true).map _⟩, by simp⟩
  | error message =>
    refine Reply.decode_of_reads (v := { ok := some false, error := some message })
      (written_reads (replySchema_lawful T) 2
        [("ok", writeBool false, .ok false), ("error", writeStr message, .error message)] rfl
          (by simp) (by simp; decide)
        rfl ?_) rfl
    simp only [forall_mem_cons]
    exact ⟨⟨_, rfl, (bool_reads false).map _⟩, ⟨_, rfl, (str_reads h).map _⟩, by simp⟩
  | answer a =>
    let v : ReplyVars := { ok := some true, kind := some "answer", answer := a,
                           addresses :=
                             { outcome := a.outcome, source := a.source, validation := a.validation } }
    refine Reply.decode_of_reads (v := v) (written_reads (replySchema_lawful T) 9
      [("ok", writeBool true, .ok true), ("kind", writeStr "answer", .kind "answer"),
        ("outcome", writeStr (outcomeStr a.outcome), .outcome a.outcome),
        ("records", writeList RecordOut.encode a.records, .records (a.records.map id)),
        ("source", writeStr a.source, .source a.source),
        ("server", writeOptStr a.server, .server a.server),
        ("interface", writeOptStr a.interface, .interface a.interface),
        ("validation", writeStr a.validation.asStr, .validation a.validation),
        ("rcode", writeUint a.rcode.toUInt64, .rcode a.rcode)] rfl (by simp) (by simp; decide)
          (by simp [replySchema, v]) ?_)
      rfl
    simp only [forall_mem_cons]
    exact ⟨⟨_, rfl, (bool_reads true).map _⟩, ⟨_, rfl, (str_reads (by decide)).map _⟩,
      ⟨_, rfl, outcome_reads _⟩,
      ⟨_, rfl, (list_reads record_one h.length fun r hr => record_reads (h.records r hr)).map _⟩,
      ⟨_, rfl, (str_reads h.source).map _⟩, ⟨_, rfl, (optStr_reads h.server).map _⟩,
      ⟨_, rfl, (optStr_reads h.interface).map _⟩, ⟨_, rfl, validation_reads _⟩,
        ⟨_, rfl, u16_reads _ _⟩, by simp⟩
  | addresses a =>
    let v : ReplyVars := { ok := some true, kind := some "addresses", addresses := a,
                           answer := { outcome := a.outcome, source := a.source, validation := a.validation } }
    refine Reply.decode_of_reads (v := v) (written_reads (replySchema_lawful T) 7
      [("ok", writeBool true, .ok true), ("kind", writeStr "addresses", .kind "addresses"),
        ("outcome", writeStr (outcomeStr a.outcome), .outcome a.outcome),
        ("canonical", writeStr a.canonical, .canonical a.canonical),
        ("addresses", writeList (AddressOut.encode T) a.addresses,
          .addresses (a.addresses.map fun x => ⟨some x.address, x.ttl⟩)),
        ("source", writeStr a.source, .source a.source),
        ("validation", writeStr a.validation.asStr, .validation a.validation)] rfl (by simp)
          (by simp; decide)
        (by simp only [foldl_cons, foldl_nil, replySchema, filterMap_out, nil_append]; rfl) ?_)
      (by simp [ReplyVars.reply, v])
    simp only [forall_mem_cons]
    exact ⟨⟨_, rfl, (bool_reads true).map _⟩, ⟨_, rfl, (str_reads (by decide)).map _⟩,
      ⟨_, rfl, outcome_reads _⟩, ⟨_, rfl, (str_reads h.canonical).map _⟩,
      ⟨_, rfl, (list_reads (address_one T) h.length fun x _ => address_reads T x).map _⟩,
      ⟨_, rfl, (str_reads h.source).map _⟩, ⟨_, rfl, validation_reads _⟩, by simp⟩
  | status r =>
    refine Reply.decode_of_reads (v := { ok := some true, kind := some "status", status := r })
      (written_reads (replySchema_lawful T) 8
      [("ok", writeBool true, .ok true), ("kind", writeStr "status", .kind "status"),
        ("hostname", writeStr r.hostname, .hostname r.hostname),
        ("netd", writeBool r.netd, .netd r.netd),
        ("scopes", writeList ScopeStatus.encode r.scopes, .scopes (r.scopes.map id)),
        ("fallback_servers", writeStrList r.fallbackServers, .fallbackServers r.fallbackServers),
        ("cache_entries", writeUint r.cacheEntries, .cacheEntries r.cacheEntries),
        ("counters", r.counters.encode, .counters r.counters)] rfl (by simp) (by simp; decide)
        (by simp [replySchema]) ?_) (by simp [ReplyVars.reply])
    simp only [forall_mem_cons]
    exact ⟨⟨_, rfl, (bool_reads true).map _⟩, ⟨_, rfl, (str_reads (by decide)).map _⟩,
      ⟨_, rfl, (str_reads h.hostname).map _⟩, ⟨_, rfl, (bool_reads r.netd).map _⟩,
      ⟨_, rfl, (list_reads scope_one h.length fun sc hsc => scope_reads (h.scopes sc hsc)).map _⟩,
      ⟨_, rfl, (strList_reads h.fallbackServers).map _⟩,
      ⟨_, rfl, (counter_reads h.cacheEntries).map _⟩,
      ⟨_, rfl, (counters_reads h.counters).map _⟩, by simp⟩

/-- **The native protocol's round trip.**  A request is read back from what is written of it exactly
when its name is shorter than `2 ^ 32` octets; a reply exactly when its strings, octets and lists
are, and its counters and the number of cache entries are below `2 ^ 63`.  What a decoder returns
always is. -/
theorem native_round_trip (T : AddressText) :
    (∀ r : Request, Request.decode T (r.encode T) = .ok r ↔ r.Fits) ∧
    (∀ p : Reply, Reply.decode T (p.encode T) = .ok p ↔ p.Fits) ∧
    (∀ bytes r, Request.decode T bytes = .ok r → Request.decode T (r.encode T) = .ok r) ∧
    ∀ bytes p, Reply.decode T bytes = .ok p → Reply.decode T (p.encode T) = .ok p :=
  ⟨fun _ => ⟨Request.decode_fits, Request.decode_of_encode⟩, fun _ =>
    ⟨Reply.decode_fits, Reply.decode_of_encode⟩, fun _ _ h =>
    Request.decode_of_encode (Request.decode_fits h), fun _ _ h =>
    Reply.decode_of_encode (Reply.decode_fits h)⟩

/-! ### A text form, and a name that is too long -/

theorem utf8ByteSize_ofList (l : List Char) :
    (String.ofList l).utf8ByteSize = (l.map Char.utf8Size).sum := by
  induction l with
  | nil => rfl
  | cons c l ih =>
    rw [← singleton_append, String.ofList_append, String.utf8ByteSize_append, ih]
    simp

/-- The character whose number is the octet. -/
def octetChar (b : UInt8) : Char := Char.ofNat b.toNat

theorem ofNat_octetChar : ∀ b, UInt8.ofNat (octetChar b).toNat = b :=
  forall_byte (by decide +kernel)

theorem utf8Size_octetChar : ∀ b, (octetChar b).utf8Size ≤ 2 := forall_byte (by decide +kernel)

theorem utf8ByteSize_octetChars (bs : Bytes) :
    (String.ofList (bs.map octetChar)).utf8ByteSize ≤ bs.length * 2 := by
  rw [utf8ByteSize_ofList, map_map]
  induction bs with
  | nil => simp
  | cons b bs ih =>
    have := utf8Size_octetChar b
    simp only [map_cons, sum_cons, length_cons, Function.comp_apply]
    omega

/-- The octets of an address as characters, and back. -/
def octetText : AddressText where
  display
    | .v4 a => String.ofList (a.toList.map octetChar)
    | .v6 a => String.ofList (a.toList.map octetChar)
  parse s :=
    let bs := s.toList.map fun c => UInt8.ofNat c.toNat
    if h : bs.length = 4 then some (.v4 ⟨bs.toArray, by simp [h]⟩)
    else if h : bs.length = 16 then some (.v6 ⟨bs.toArray, by simp [h]⟩)
    else none
  parse_display a := by
    cases a <;> simp [String.toList_ofList, ofNat_octetChar, Function.comp_def, Vector.toList]
  short a := by
    cases a with
    | v4 a => exact (utf8ByteSize_octetChars _).trans (by simp)
    | v6 a => exact (utf8ByteSize_octetChars _).trans (by simp)

/-- A text form that differs in how one address is written. -/
def AddressText.writing (T : AddressText) (a : IpAddr) (text : String)
    (hshort : text.utf8ByteSize ≤ 39) (hnew : T.parse text = none) : AddressText where
  display b := if b = a then text else T.display b
  parse s := if s = text then some a else T.parse s
  parse_display b := by
    split
    · next h => rw [if_pos rfl, h]
    · have hne : T.display b ≠ text := by
        intro h
        rw [← h, T.parse_display] at hnew
        cases hnew
      rw [if_neg hne, T.parse_display]
  short b := by
    split
    · exact hshort
    · exact T.short b

/-- A text form in which this address is written as usual. -/
def lanText : AddressText :=
  octetText.writing (.v4 #v[198, 51, 100, 7]) "198.51.100.7" (by decide) (by decide +kernel)

/-- The answer to a question and the addresses of a name, read back. -/
theorem native_round_trip_found :
    (∃ a : Answer, a.records ≠ [] ∧
      Reply.decode lanText (Reply.encode lanText (.answer a)) = .ok (.answer a)) ∧
    ∃ a : Addresses, a.addresses = [⟨.v4 #v[198, 51, 100, 7], 60⟩] ∧
      Reply.decode lanText (Reply.encode lanText (.addresses a)) = .ok (.addresses a) := by
  have hreply := (native_round_trip lanText).2.1
  refine ⟨⟨⟨.found, [⟨"a.example", 1, 60, [198, 51, 100, 7], "198.51.100.7"⟩], "dns",
    some "192.0.2.1", none, .unvalidated, 0⟩,
      by simp, (hreply _).mpr ⟨by decide, ?_, by decide, by decide, by decide⟩⟩,
    ⟨.found, "a.example", [⟨.v4 #v[198, 51, 100, 7], 60⟩], "dns", .unvalidated⟩, rfl,
    (hreply _).mpr ⟨by decide, by decide, by decide⟩⟩
  simp only [mem_singleton, forall_eq]
  exact ⟨by decide, by decide, by decide⟩

theorem utf8ByteSize_replicate (n : ℕ) :
    (String.ofList (List.replicate n 'a')).utf8ByteSize = n := by
  rw [utf8ByteSize_ofList]
  induction n with
  | zero => rfl
  | succ n ih =>
    rw [replicate_succ, map_cons, sum_cons, ih]
    exact Nat.add_comm 1 n

/-- A name of `n` octets. -/
def longName (n : ℕ) : String := String.ofList (List.replicate n 'a')

/-- The number of octets of a name is written in four octets: that of a longer name loses its high
part. -/
theorem long_name_is_lost :
    Request.decode octetText (Request.encode octetText (.lookup (longName (2 ^ 32)) .any)) ≠
      .ok (.lookup (longName (2 ^ 32)) .any) := by
  intro h
  have hfits : (longName (2 ^ 32)).utf8ByteSize < 2 ^ 32 := Request.decode_fits h
  rw [longName, utf8ByteSize_replicate] at hfits
  exact lt_irrefl _ hfits

end Resolvd.Core
