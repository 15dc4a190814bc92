import Resolvd.Dns.Mnemonics
import Resolvd.Service.Registry

/-!
# The snapshots of the network service

`to_scope` of `main.rs` and `scope_server` of `upstream.rs`: what of a snapshot becomes a scope of
the engine.  An entry that cannot be read is left out by itself.  A server may be written with the
zone it is in, and then the zone has to be the interface the server belongs to: `scopeServer_zone`
follows this to the socket that is opened later, when interfaces may have other indices.
-/

namespace Resolvd.Service

open Lib Dns Engine Daemon Resolvd.Core
open Msgpack (octets)

/-- `str::split_once`. -/
def splitOnce (sep : Char) (s : String) : Option (String × String) :=
  if sep ∈ s.toList then
    some (String.ofList (s.toList.takeWhile (· != sep)),
      String.ofList (s.toList.dropWhile (· != sep)).tail)
  else none

/-- `upstream::scope_server`. -/
def scopeServer (T : AddressText) (os : Os) (text interface : String) : Except IoError IpAddr :=
  let (address, zone) := match splitOnce '%' text with
    | some (a, z) => (a, some z)
    | none => (text, none)
  match T.parse address, zone with
  | none, _ => .error .invalidInput
  | some address, none => .ok address
  | some address, some zone =>
    if !address.isUnicastLinkLocal || zone == "" then .error .invalidInput
    else if zone == interface then .ok address
    else do
      let index ← interfaceIndex os interface
      if (parseUint (2 ^ 32) (octets zone)).filter (· != 0) = some index.toNat then return address
      else throw .invalidInput

/-- `netd_core::DnsScope`. -/
structure DnsScope where
  ifid : String
  name : String
  servers : List String
  domains : List String
  addresses : List String
  defaultRoute : Bool
  exclusive : Bool
  metric : UInt32
  level : Level

/-- `netd_core::Snapshot`. -/
structure Snapshot where
  hostname : String
  scopes : List DnsScope

/-- An address with the length of its prefix. -/
def cidr (T : AddressText) (s : String) : Option (IpAddr × UInt8) := do
  let (a, p) ← splitOnce '/' s
  return (← T.parse a, ← parseU8 (octets p))

/-- `to_scope`. -/
def toScope (T : AddressText) (os : Os) (s : DnsScope) : Scope where
  id := s.ifid
  interface := s.name
  servers := s.servers.filterMap fun a => (scopeServer T os a s.name).toOption
  domains := s.domains.filterMap searchDomain
  addresses := s.addresses.filterMap (cidr T)
  defaultRoute := s.defaultRoute
  exclusive := s.exclusive
  metric := s.metric
  level := s.level

/-- `kernel_hostname`, for the text `gethostname` gives, up to its first NUL. -/
def kernelHostname (text : Option String) : Option String :=
  text.filter fun s => s != "" && s != "(none)"

/-- The host name of `apply_snapshot`: the one the snapshot sets, or else the kernel's. -/
def Snapshot.effectiveHostname (s : Snapshot) (kernel : Option String) : Option String :=
  if s.hostname == "" then kernelHostname kernel else some s.hostname

/-! ### Zones -/

/-- What the test of `scope_server` lets through. -/
theorem zone_ok {a : IpAddr} {zone : String} (h : ¬ (!a.isUnicastLinkLocal || zone == "") = true) :
    a.isUnicastLinkLocal = true ∧ zone ≠ "" := by
  simpa using h

theorem interfaceIndex_ne_zero {os : Os} {interface : String} {index : UInt32}
    (h : interfaceIndex os interface = .ok index) : index ≠ 0 := by
  unfold interfaceIndex at h
  split_ifs at h with hnul hzero
  cases h
  exact hzero

/-- A socket for a link-local server is bound to the interface. -/
theorem serverAddress_of_linkLocal {os : Os} {a : IpAddr} {interface : String} {server : SocketAddr}
    (ha : a.isUnicastLinkLocal = true) (h : serverAddress os a (some interface) = .ok server) :
    server.ip = a ∧ server.scopeId ≠ 0 ∧ interfaceIndex os interface = .ok server.scopeId := by
  rw [serverAddress, if_pos ha] at h
  obtain ⟨index, hindex, h⟩ := bind_eq_ok.mp h
  cases h
  exact ⟨rfl, interfaceIndex_ne_zero hindex, hindex⟩

/-- **A server in a zone stays on its interface.**  A server that is written with a zone is
link-local, and when the snapshot comes the zone is the name or the index of the scope's interface.
Whatever the indices are later, a socket that is opened for the server on that interface carries the
index the interface has then; while that is the one it had, the zone names it or is it. -/
theorem scopeServer_zone {T : AddressText} {os : Os} {text interface address zone : String}
    {a : IpAddr} (h : scopeServer T os text interface = .ok a)
    (hzone : splitOnce '%' text = some (address, zone)) :
    T.parse address = some a ∧ a.isUnicastLinkLocal = true ∧ zone ≠ "" ∧
      (zone = interface ∨ ∃ index, interfaceIndex os interface = .ok index ∧
        parseUint (2 ^ 32) (octets zone) = some index.toNat) ∧
      ∀ os' server, serverAddress os' a (some interface) = .ok server → server.ip = a ∧
        server.scopeId ≠ 0 ∧
        interfaceIndex os' interface = .ok server.scopeId ∧
        (interfaceIndex os' interface = interfaceIndex os interface →
          zone = interface ∨ parseUint (2 ^ 32) (octets zone) = some server.scopeId.toNat) := by
  have hchecked : T.parse address = some a ∧ a.isUnicastLinkLocal = true ∧ zone ≠ "" ∧
      (zone = interface ∨
      ∃ index, interfaceIndex os interface = .ok index ∧
        parseUint (2 ^ 32) (octets zone) = some index.toNat) := by
    simp only [scopeServer, hzone] at h
    cases haddr : T.parse address with
    | none => simp [haddr] at h
    | some b =>
      simp only [haddr] at h
      split_ifs at h with hbad hsame
      · obtain ⟨hlocal, hne⟩ := zone_ok hbad
        cases h
        exact ⟨rfl, hlocal, hne, .inl (eq_of_beq hsame)⟩
      · obtain ⟨hlocal, hne⟩ := zone_ok hbad
        obtain ⟨index, hindex, h⟩ := bind_eq_ok.mp h
        split_ifs at h with hnumber
        cases h
        exact ⟨rfl, hlocal, hne, .inr ⟨index, hindex, (Option.filter_eq_some_iff.mp hnumber).1⟩⟩
  obtain ⟨hparse, hlocal, hne, hindex⟩ := hchecked
  refine ⟨hparse, hlocal, hne, hindex, fun os' server hserver => ?_⟩
  obtain ⟨hip, hid, hthen⟩ := serverAddress_of_linkLocal hlocal hserver
  refine ⟨hip, hid, hthen, fun hkept => hindex.imp_right ?_⟩
  rintro ⟨index, hold, hnumber⟩
  rw [hthen, hold] at hkept
  exact Except.ok.inj hkept ▸ hnumber

/-- `fe80::7`. -/
def linkLocal : IpAddr :=
  .v6 (Vector.ofFn fun k => if k = 0 then 0xFE else if k = 1 then 0x80 else if k = 15 then 7 else 0)

/-- A text form in which it is written so. -/
def linkText : AddressText := octetText.writing linkLocal "fe80::7" (by decide) (by decide +kernel)

/-- An operating system with one interface, which has this index. -/
def eth0 (index : UInt32) : Os := ⟨fun name => if name = "eth0" then index else 0, fun _ => none⟩

/-- The server in the zone 2, which is the interface, and the socket that is opened when the
interface has the index 5. -/
theorem scopeServer_zone_eth0 :
    scopeServer linkText (eth0 2) "fe80::7%2" "eth0" = .ok linkLocal ∧
      ∃ server, serverAddress (eth0 5) linkLocal (some "eth0") = .ok server ∧
        server.ip = linkLocal ∧
        interfaceIndex (eth0 5) "eth0" = .ok server.scopeId := by
  have hzone : splitOnce '%' "fe80::7%2" = some ("fe80::7", "2") := by decide +kernel
  have hserver : scopeServer linkText (eth0 2) "fe80::7%2" "eth0" = .ok linkLocal := by rfl
  obtain ⟨-, -, -, -, hsocket⟩ := scopeServer_zone hserver hzone
  obtain ⟨hip, -, hindex, -⟩ := hsocket (eth0 5) ⟨linkLocal, 53, 5⟩ rfl
  exact ⟨hserver, _, rfl, hip, hindex⟩

end Resolvd.Service
