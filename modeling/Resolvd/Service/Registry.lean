import Resolvd.Core.RoundTrip
import Resolvd.Daemon.Upstream
import Resolvd.Engine.Hosts

/-!
# The configuration in the registry

`config.rs` and `registry_reader.rs`: what `Machine\System\Network\Dns` tells the service.  A key is
read through `Reader`, which the source has as a trait; any of its calls may fail, and then the
whole read fails.  A text that is not UTF-8 fails it too, while an address or a name that cannot be
parsed is left out by itself.

`loadFrom_sound` says what every configuration that comes out of this is like.
-/

namespace Resolvd.Service

open Lib Dns Engine Daemon Resolvd.Core List
open Msgpack (octets)

variable {hosts hosts' : Hosts} {name : Name} {p : Name × List IpAddr} {T : AddressText}

/-! ### Values -/

/-- `peios::registry::ValueType`, as far as the service tells types apart. -/
inductive ValueType where
  | sz
  | expandSz
  | multiSz
  | binary
  | other
  deriving DecidableEq

/-- `peios::registry::RegValue`. -/
structure RegValue where
  ty : ValueType
  data : Bytes

/-- `peios::registry::ValueRecord`. -/
structure ValueRecord where
  name : Bytes
  ty : ValueType
  data : Bytes

/-- `Reader`: how the keys `K` are read.  A value or a key that is not there is no failure. -/
structure Reader (K : Type) where
  value : K → String → Except IoError (Option RegValue)
  values : K → Except IoError (List ValueRecord)
  child : K → String → Except IoError (Option K)

/-- `invalid`. -/
def invalid : IoError := ⟨none⟩

/-- `text`. -/
def text (bytes : Bytes) : Except IoError String :=
  match String.fromUTF8? ⟨bytes.toArray⟩ with
  | some s => .ok s
  | none => .error invalid

/-- `multi`. -/
def multi (value : RegValue) : Except IoError (Option (List String)) :=
  match value.ty with
  | .multiSz => some <$> ((value.data.splitOn 0).filter fun part => !part.isEmpty).mapM text
  | .sz | .expandSz => do
    let s ← text (value.data.takeWhile fun byte => byte != 0)
    return some [s]
  | .binary | .other => .ok none

variable {K : Type}

/-- `strings`. -/
def strings (R : Reader K) (key : K) (name : String) : Except IoError (Option (List String)) := do
  match ← R.value key name with
  | none => return none
  | some value => multi value

/-! ### Texts -/

/-- `char::is_whitespace`: the property `White_Space` of Unicode. -/
def isWhitespace (c : Char) : Bool :=
  (0x09 ≤ c.toNat && c.toNat ≤ 0x0D) || (0x2000 ≤ c.toNat && c.toNat ≤ 0x200A) ||
    [0x20, 0x85, 0xA0, 0x1680, 0x2028, 0x2029, 0x202F, 0x205F, 0x3000].contains c.toNat

/-- `str::trim`. -/
def trim (s : String) : String :=
  String.ofList (((s.toList.dropWhile isWhitespace).reverse.dropWhile isWhitespace).reverse)

/-- `addresses`. -/
def addresses (T : AddressText) (strings : List String) : List IpAddr :=
  strings.filterMap fun s => T.parse (trim s)

/-! ### The configuration -/

/-- `HashMap::insert`, for static names.  Of two spellings of a name the first one stays. -/
def insertHost (hosts : Hosts) (name : Name) (addrs : List IpAddr) : Hosts :=
  if h : hosts.entries.any fun p => p.1.eq name then
    ⟨hosts.entries.map fun p => if p.1.eq name then (p.1, addrs) else p, by
      refine pairwise_map.mpr (hosts.distinct.imp fun {a b} h => ?_)
      split <;> split <;> exact h⟩
  else ⟨hosts.entries ++ [(name, addrs)], by
    refine pairwise_append.mpr ⟨hosts.distinct, pairwise_singleton _ _, fun a ha b hb => ?_⟩
    rw [any_eq_true, not_exists] at h
    rw [mem_singleton.mp hb, ← Bool.not_eq_true]
    exact fun heq => h a ⟨ha, heq⟩⟩

/-- `config::Config`. -/
structure Config where
  servers : List IpAddr := []
  search : List Name := []
  hosts : Hosts := Hosts.empty
  controlSecurity : Option Bytes := none

/-- A search domain: a name that is not the root. -/
def searchDomain (d : String) : Option Name :=
  (Name.parse (octets d)).toOption.filter fun n => !n.isRoot

/-- The body of `load_from`'s loop over the values of `Hosts`: what one value adds. -/
def hostEntry (T : AddressText) (v : ValueRecord) :
    Except IoError (Option (Name × List IpAddr)) := do
  match Name.parse (octets (← text v.name)) with
  | .error _ => return none
  | .ok name =>
    if name.isRoot then return none
    else
      let addrs := addresses T ((← multi ⟨v.ty, v.data⟩).getD [])
      return if addrs.isEmpty then none else some (name, addrs)

/-- That loop. -/
def loadHosts (T : AddressText) : List ValueRecord → Hosts → Except IoError Hosts
  | [], hosts => .ok hosts
  | v :: values, hosts => do
    match ← hostEntry T v with
    | none => loadHosts T values hosts
    | some (name, addrs) => loadHosts T values (insertHost hosts name addrs)

/-- `load_from`. -/
def loadFrom (T : AddressText) (R : Reader K) (root : Option K) : Except IoError Config :=
  match root with
  | none => .ok {}
  | some root => do
    let servers := addresses T ((← strings R root "FallbackServers").getD [])
    let search := ((← strings R root "ExtraSearchDomains").getD []).filterMap searchDomain
    let controlSecurity := ((← R.value root "ControlSecurity").filter fun v =>
      v.ty == .binary && !v.data.isEmpty).map RegValue.data
    match ← R.child root "Hosts" with
    | none => return { servers, search, controlSecurity }
    | some key =>
      let hosts ← loadHosts T (← R.values key) Hosts.empty
      return { servers, search, hosts, controlSecurity }

/-! ### Static names -/

/-- An entry is an old one of another name, or the one of the name. -/
theorem mem_insertHost {addrs : List IpAddr} (h : p ∈ (insertHost hosts name addrs).entries) :
    (p ∈ hosts.entries ∧ p.1.eq name = false) ∨
      (p.1.eq name = true ∧ (p.1 = name ∨ ∃ q ∈ hosts.entries, p.1 = q.1) ∧ p.2 = addrs) := by
  unfold insertHost at h
  split at h
  · obtain ⟨q, hq, rfl⟩ := mem_map.mp h
    split
    · next hname => exact .inr ⟨hname, .inr ⟨q, hq, rfl⟩, rfl⟩
    · next hname => exact .inl ⟨hq, Bool.eq_false_of_not_eq_true hname⟩
  · next hnone =>
    rcases mem_append.mp h with h | h
    · refine .inl ⟨h, Bool.eq_false_of_not_eq_true fun heq => hnone ?_⟩
      exact any_eq_true.mpr ⟨p, h, heq⟩
    · rw [mem_singleton.mp h]
      exact .inr ⟨Name.eq_refl _, .inl rfl, rfl⟩

theorem insertHost_mem (hosts : Hosts) (name : Name) (addrs : List IpAddr) :
    ∃ p ∈ (insertHost hosts name addrs).entries, p.1.eq name = true ∧ p.2 = addrs := by
  unfold insertHost
  split
  · next hany =>
    obtain ⟨q, hq, hname⟩ := any_eq_true.mp hany
    exact ⟨(q.1, addrs), mem_map.mpr ⟨q, hq, by rw [if_pos hname]⟩, hname, rfl⟩
  · exact ⟨(name, addrs), mem_append_right _ (mem_singleton_self _), Name.eq_refl _, rfl⟩

theorem insertHost_keeps (hp : p ∈ hosts.entries) (hne : p.1.eq name = false)
    (addrs : List IpAddr) : p ∈ (insertHost hosts name addrs).entries := by
  unfold insertHost
  split
  · exact mem_map.mpr ⟨p, hp, by rw [hne]; rfl⟩
  · exact mem_append_left _ hp

theorem get_insertHost (hosts : Hosts) (name : Name) (addrs : List IpAddr) (n : Name) :
    (insertHost hosts name addrs).get n = if name.eq n then some addrs else hosts.get n := by
  split
  · next hn =>
    obtain ⟨p, hp, hname, heq⟩ := insertHost_mem hosts name addrs
    exact Hosts.get_eq_some.mpr ⟨p, hp, Name.eq_trans hname hn, heq⟩
  · next hn =>
    ext as
    rw [Hosts.get_eq_some, Hosts.get_eq_some]
    constructor
    · rintro ⟨p, hp, hpn, heq⟩
      rcases mem_insertHost hp with ⟨hold, -⟩ | ⟨hname, -⟩
      · exact ⟨p, hold, hpn, heq⟩
      · exact absurd (Name.eq_trans (Name.eq_symm hname) hpn) hn
    · rintro ⟨p, hp, hpn, heq⟩
      refine ⟨p, insertHost_keeps hp (Bool.eq_false_of_not_eq_true fun hname => hn ?_) addrs,
        hpn, heq⟩
      exact Name.eq_trans (Name.eq_symm hname) hpn

theorem bind_eq_ok {α β : Type} {x : Except IoError α} {f : α → Except IoError β} {b : β} :
    (x >>= f) = .ok b ↔ ∃ a, x = .ok a ∧ f a = .ok b := by
  cases x <;> simp [bind, Except.bind]

theorem hostEntry_spec {v : ValueRecord} {addrs : List IpAddr}
    (h : hostEntry T v = .ok (some (name, addrs))) : name.isRoot = false ∧ addrs ≠ [] := by
  obtain ⟨s, -, h⟩ := bind_eq_ok.mp h
  split at h
  · cases h
  · split at h
    · cases h
    · next hroot =>
      obtain ⟨ss, -, h⟩ := bind_eq_ok.mp h
      have h := Except.ok.inj h
      split at h
      · cases h
      · next hempty =>
        cases h
        exact ⟨Bool.eq_false_of_not_eq_true hroot, by simpa using hempty⟩

/-- The values that add something for the name, by what they add. -/
def entriesFor (T : AddressText) (n : Name) (values : List ValueRecord) : List (List IpAddr) :=
  values.filterMap fun v => match hostEntry T v with
    | .ok (some (name, addrs)) => if name.eq n then some addrs else none
    | _ => none

variable {values : List ValueRecord}

/-- **Of several values for a name the last one counts.** -/
theorem get_loadHosts (h : loadHosts T values hosts = .ok hosts') (n : Name) :
    hosts'.get n = (entriesFor T n values).getLast?.or (hosts.get n) := by
  induction values generalizing hosts with
  | nil =>
    cases h
    rfl
  | cons v values ih =>
    obtain ⟨entry, hentry, h⟩ := bind_eq_ok.mp h
    cases entry with
    | none =>
      rw [ih h]
      simp [entriesFor, hentry]
    | some e =>
      obtain ⟨name, addrs⟩ := e
      rw [ih h, get_insertHost]
      by_cases hn : name.eq n = true
      · have hcons : entriesFor T n (v :: values) = addrs :: entriesFor T n values := by
          simp [entriesFor, hentry, hn]
        rw [hcons, if_pos hn, List.getLast?_cons]
        cases (entriesFor T n values).getLast? <;> rfl
      · have hcons : entriesFor T n (v :: values) = entriesFor T n values := by
          simp [entriesFor, hentry, hn]
        rw [hcons, if_neg hn]

theorem hostEntry_of_loadHosts (h : loadHosts T values hosts = .ok hosts') {v : ValueRecord}
    (hv : v ∈ values) : ∃ entry, hostEntry T v = .ok entry := by
  induction values generalizing hosts with
  | nil => cases hv
  | cons w values ih =>
    obtain ⟨entry, hentry, h⟩ := bind_eq_ok.mp h
    rcases mem_cons.mp hv with rfl | hv
    · exact ⟨entry, hentry⟩
    · cases entry with
      | none => exact ih h hv
      | some e => exact ih h hv

/-- The entries of a table of static names are of use. -/
def HostsUsable (hosts : Hosts) : Prop := ∀ p ∈ hosts.entries, p.1.isRoot = false ∧ p.2 ≠ []

theorem hostsUsable_empty : HostsUsable Hosts.empty := by
  intro p hp
  cases hp

theorem hostsUsable_loadHosts
    (h : loadHosts T values hosts = .ok hosts') (hu : HostsUsable hosts) : HostsUsable hosts' := by
  induction values generalizing hosts with
  | nil =>
    cases h
    exact hu
  | cons v values ih =>
    obtain ⟨entry, hentry, h⟩ := bind_eq_ok.mp h
    cases entry with
    | none => exact ih h hu
    | some e =>
      obtain ⟨name, addrs⟩ := e
      obtain ⟨hroot, hne⟩ := hostEntry_spec hentry
      refine ih h fun p hp => ?_
      rcases mem_insertHost hp with ⟨hold, -⟩ | ⟨-, rfl | ⟨q, hq, heq⟩, hp2⟩
      · exact hu p hold
      · exact ⟨hroot, hp2 ▸ hne⟩
      · exact ⟨heq ▸ (hu q hq).1, hp2 ▸ hne⟩

/-! ### What is loaded -/

theorem searchDomain_isRoot {d : String} {n : Name} (h : searchDomain d = some n) :
    n.isRoot = false := by
  simpa using (Option.filter_eq_some_iff.mp h).2

/-- **A configuration is whole and can be used.**  If the registry can be read, no search domain and
no static name is the root, every static name has an address, and the descriptor is not empty; a
static name has the addresses of the last value that gives it any, whatever its spelling; and no
value was left out because its text could not be read.  Without a root key the configuration is the
default one. -/
theorem loadFrom_sound {T : AddressText} {R : Reader K} {root : Option K} {c : Config}
    (h : loadFrom T R root = .ok c) :
    (∀ d ∈ c.search, d.isRoot = false) ∧ HostsUsable c.hosts ∧
    (∀ sd, c.controlSecurity = some sd → sd ≠ []) ∧
    ((∃ r key values, root = some r ∧ R.child r "Hosts" = .ok (some key) ∧
      R.values key = .ok values ∧
        (∀ v ∈ values, ∃ entry, hostEntry T v = .ok entry) ∧
          ∀ n, c.hosts.get n = (entriesFor T n values).getLast?) ∨
      (∀ r, root = some r → R.child r "Hosts" = .ok none) ∧ c.hosts = Hosts.empty) ∧
    (root = none → c = {}) := by
  cases root with
  | none =>
    cases h
    exact ⟨by simp, hostsUsable_empty, by simp, .inr ⟨by simp, rfl⟩, fun _ => rfl⟩
  | some root =>
    obtain ⟨servers, -, h⟩ := bind_eq_ok.mp h
    obtain ⟨search, -, h⟩ := bind_eq_ok.mp h
    obtain ⟨security, -, h⟩ := bind_eq_ok.mp h
    obtain ⟨child, hchild, h⟩ := bind_eq_ok.mp h
    have hsearch : ∀ d ∈ (search.getD []).filterMap searchDomain, d.isRoot = false := by
      intro d hd
      obtain ⟨s, -, hs⟩ := mem_filterMap.mp hd
      exact searchDomain_isRoot hs
    have hsecurity : ∀ sd, (security.filter fun v => v.ty == .binary && !v.data.isEmpty).map
        RegValue.data = some sd →
        sd ≠ [] := by
      intro sd hsd
      obtain ⟨v, hv, rfl⟩ := Option.map_eq_some_iff.mp hsd
      have hkept := (Option.filter_eq_some_iff.mp hv).2
      rw [Bool.and_eq_true] at hkept
      simpa using hkept.2
    cases child with
    | none =>
      cases h
      exact ⟨hsearch, hostsUsable_empty, hsecurity,
        .inr ⟨fun r hr => Option.some.inj hr ▸ hchild, rfl⟩, by simp⟩
    | some key =>
      obtain ⟨values, hvalues, h⟩ := bind_eq_ok.mp h
      obtain ⟨hosts, hhosts, h⟩ := bind_eq_ok.mp h
      cases h
      refine ⟨hsearch, hostsUsable_loadHosts hhosts hostsUsable_empty, hsecurity,
        .inl ⟨root, key, values, rfl, hchild, hvalues, fun v hv => hostEntry_of_loadHosts hhosts hv,
        fun n => ?_⟩, by simp⟩
      rw [get_loadHosts hhosts]
      exact Option.or_none

/-- A list of texts as a value of type `REG_MULTI_SZ`: a NUL behind each of them, and one more at
the end. -/
def multiSz (ss : List String) : Bytes := ss.flatMap (fun s => octets s ++ [0]) ++ [0]

/-- A registry that has a static name twice, in two spellings. -/
def twoSpellings : Reader ℕ where
  value := fun _ _ => .ok none
  values := fun _ =>
    .ok [⟨octets "Host.example", .multiSz, multiSz ["192.0.2.7"]⟩,
      ⟨octets "host.EXAMPLE", .sz, octets " 192.0.2.8 "⟩]
  child := fun _ _ => .ok (some 1)

/-- A text form in which their addresses are written as usual. -/
def hostText : AddressText :=
  lanText.writing (.v4 #v[192, 0, 2, 8]) "192.0.2.8" (by decide) (by decide +kernel)

/-- The second spelling counts, for a third one. -/
theorem loadFrom_sound_twoSpellings :
    ∃ c, loadFrom hostText twoSpellings (some 0) = .ok c ∧ HostsUsable c.hosts ∧
    c.hosts.get hostExample = some [.v4 #v[192, 0, 2, 8]] := by
  have hok : (loadFrom hostText twoSpellings (some 0)).isOk = true := by decide +kernel
  cases hload : loadFrom hostText twoSpellings (some 0) with
  | error e =>
    rw [hload] at hok
    cases hok
  | ok c =>
    obtain ⟨-, husable, -, ⟨r, key, values, hr, hkey, hvalues, -, hget⟩ | ⟨hnone, -⟩, -⟩ :=
      loadFrom_sound hload
    · cases hr
      cases hvalues
      refine ⟨c, rfl, husable, ?_⟩
      rw [hget]
      decide +kernel
    · cases hnone 0 rfl

end Resolvd.Service
