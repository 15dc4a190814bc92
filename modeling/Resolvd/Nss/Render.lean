import Resolvd.Nss.Packer
import Resolvd.Nss.Localhost

/-!
# The entry points of the NSS module

`libnss_peios_net`: the functions that glibc calls for `getaddrinfo`, `gethostbyname` and
`gethostbyaddr`.  Each asks for the addresses of a name or the names of an address, and renders the
answer into the caller's buffer.  The question to the daemon is a parameter (`lookup`, `reverse`:
what the functions of these names return); the answers for `localhost` and for loopback addresses
are the module's own.

What the caller's other pointers lead to is `Outs`, where a pointer that is null has nothing behind
it.  A rendering is a run of the packer: where it ends with `None`, the function returns
`out_of_room`, and what follows it is done only where it does not.
-/

namespace Resolvd.Nss

open Lib Msgpack
open Resolvd.Core (Addresses AddressOut Answer RecordOut Family)
open Engine (Outcome)

/-! ### What a function returns -/

/-- `NssStatus`. -/
inductive NssStatus where
  | tryAgain
  | unavail
  | notFound
  | success
  deriving DecidableEq, Repr

/-! The values of `h_errno`, of `errno` and of an address family. -/

abbrev HErrno.netdbInternal : Int32 := -1
abbrev HErrno.hostNotFound : Int32 := 1
abbrev HErrno.tryAgain : Int32 := 2
abbrev HErrno.noRecovery : Int32 := 3
abbrev HErrno.noData : Int32 := 4

abbrev Errno.enoent : Int32 := 2
abbrev Errno.eagain : Int32 := 11
abbrev Errno.erange : Int32 := 34
abbrev Errno.eafnosupport : Int32 := 97

abbrev afInet : Int32 := 2
abbrev afInet6 : Int32 := 10

/-- `libc::hostent`; its pointers are addresses. -/
structure Hostent where
  hName : ℕ
  hAliases : ℕ
  hAddrtype : Int32
  hLength : Int32
  hAddrList : ℕ
  deriving DecidableEq, Repr

/-- What the caller's pointers lead to, the buffer apart. -/
structure Outs where
  result : Hostent
  errno : Option Int32
  hErrno : Option Int32
  ttl : Option Int32
  canon : Option ℕ
  pat : Option ℕ
  deriving DecidableEq, Repr

/-- What a function leaves behind: its status, the caller's variables and the memory. -/
structure Returned where
  status : NssStatus
  outs : Outs
  memory : Memory

/-- A function of the module, on the caller's buffer (its address and `buflen`), the memory and the
caller's variables. -/
def Entry := ℕ → UInt64 → Memory → Outs → Returned

/-- `fail`. -/
def fail (status : NssStatus) (errno hErrno : Int32) : Entry := fun _ _ memory o =>
  ⟨status, { o with errno := o.errno.map fun _ => errno, hErrno := o.hErrno.map fun _ => hErrno },
    memory⟩

/-- `out_of_room`. -/
def outOfRoom : Entry := fail .tryAgain Errno.erange HErrno.netdbInternal

/-! ### Questions -/

/-- `Got`. -/
inductive Got (α : Type) where
  | value (a : α)
  | notFound
  | noData
  | tryAgain
  | unavailable

/-- `status_of`, and what follows it for a value. -/
def Got.render {α : Type} (got : Got α) (value : α → Entry) : Entry :=
  match got with
  | .value a => value a
  | .notFound => fail .notFound Errno.enoent HErrno.hostNotFound
  | .noData => fail .notFound Errno.enoent HErrno.noData
  | .tryAgain => fail .tryAgain Errno.eagain HErrno.tryAgain
  | .unavailable => fail .unavail Errno.enoent HErrno.noRecovery

/-- `family_of(af).filter(|f| *f != Family::Any)`. -/
def familyOf (af : Int32) : Option Family :=
  if af = afInet then some .v4 else if af = afInet6 then some .v6 else none

/-- `classify_addresses`: what `lookup` makes of the daemon's reply. -/
def classifyAddresses (a : Addresses) (family : Family) : Got Addresses :=
  match a.outcome with
  | .notFound => .notFound
  | .unavailable => .tryAgain
  | .found =>
    let addresses := a.addresses.filter fun x => match family, x.address with
      | .any, _ => true
      | .v4, .v4 _ => true
      | .v6, .v6 _ => true
      | _, _ => false
    if addresses = [] then .noData else .value { a with addresses }

/-- `rtype::PTR`. -/
abbrev ptr : UInt16 := 12

/-- `classify_reverse`: what `reverse` makes of the daemon's reply. -/
def classifyReverse (a : Answer) : Got Answer :=
  match a.outcome with
  | .notFound => .notFound
  | .unavailable => .tryAgain
  | .found => if a.records.any fun r => r.rtype == ptr then .value a else .noData

/-- `resolve_addresses`. -/
def resolveAddresses (lookup : Bytes → Family → Got Addresses) (name : Bytes) (family : Family) :
    Got Addresses :=
  if isLocalhost name then .value (localAddresses family) else lookup name family

/-! ### Rendering -/

/-- A run of the packer on the caller's buffer, and what is written when it has succeeded. -/
def render {α : Type} (packing : Packing α) (write : α → Outs → Outs) :
    Entry := fun buffer buflen memory o =>
  match packing (Space.new buffer buflen memory) with
  | (none, s) => outOfRoom buffer buflen s.memory o
  | (some a, s) => ⟨.success, write a o, s.memory⟩

/-- `iter().map(|x| x.ttl).min().unwrap_or(0) as i32`. -/
def leastTtl (ttls : List UInt32) : Int32 := (ttls.min?.getD 0).toInt32

/-- The loops that pack items and write their pointers into an array, from slot `i` on. -/
def fillSlots {α : Type} (pack : α → Packing ℕ) (array : ℕ) : ℕ → List α → Packing Unit
  | _, [] => return ()
  | i, x :: xs => do
    let slot ← pack x
    Packing.write (array + 8 * i) (Packing.pointer slot)
    fillSlots pack array (i + 1) xs

/-- The packing of `render_hostent`: the name, no aliases, and the addresses with their array. -/
def packHostent (a : Addresses) : Packing (ℕ × ℕ × ℕ) := do
  let name ← Packing.str (octets a.canonical)
  let aliases ← Packing.pointers 1
  let addrList ← Packing.pointers (a.addresses.length + 1)
  fillSlots (fun x : AddressOut => Packing.bytes x.address.bytes 4) addrList 0 a.addresses
  return (name, aliases, addrList)

/-- `render_hostent`. -/
def renderHostent (a : Addresses) (af : Int32) : Entry :=
  render (packHostent a) fun (name, aliases, addrList) o =>
    { o with
      result :=
        { hName := name, hAliases := aliases, hAddrtype := af, hLength := if af = afInet6 then 16 else 4,
          hAddrList := addrList }
      ttl := o.ttl.map fun _ => leastTtl (a.addresses.map AddressOut.ttl)
      canon := o.canon.map fun _ => name }

/-- `GaihAddrtuple` in memory: 40 octets, the pointers first. -/
def tuple (next name : ℕ) (address : IpAddr) : Bytes :=
  Packing.pointer next ++ Packing.pointer name ++
    match address with
    | .v4 a => toLe 4 2 ++ (a.toList ++ List.replicate 12 0) ++ toLe 4 0
    | .v6 a => toLe 4 10 ++ a.toList ++ toLe 4 0

/-- The loop of `gethostbyname4_r`: each tuple is written with no next one, and then made the next
one of the tuple before it, or the first. -/
def packTuples (canonical : ℕ) (previous first : ℕ) : List AddressOut → Packing ℕ
  | [] => return first
  | x :: xs => do
    let slot ← Packing.reserve 40 8
    Packing.write slot (tuple 0 canonical x.address)
    if previous = 0 then packTuples canonical slot slot xs
    else do
      Packing.write previous (Packing.pointer slot)
      packTuples canonical slot first xs

/-- The packing of `gethostbyname4_r`. -/
def packAddrtuples (a : Addresses) : Packing ℕ := do
  let canonical ← Packing.str (octets a.canonical)
  packTuples canonical 0 0 a.addresses

/-- The rendering of `gethostbyname4_r`. -/
def renderAddrtuples (a : Addresses) : Entry :=
  render (packAddrtuples a) fun first o =>
    { o with
      pat := o.pat.map fun _ => first
      ttl := o.ttl.map fun _ => leastTtl (a.addresses.map AddressOut.ttl) }

/-- The names of a reverse answer, without trailing dots. -/
def ptrNames (a : Answer) : List Bytes :=
  (a.records.filter fun r => r.rtype == ptr).map fun r => trimEndDots (octets r.text)

/-- The packing of `gethostbyaddr2_r`: the first name, the others as aliases with their array, and
the address with its array. -/
def packNames (first : Bytes) (others : List Bytes) (address : IpAddr) : Packing (ℕ × ℕ × ℕ) := do
  let name ← Packing.str first
  let aliases ← Packing.pointers (others.length + 1)
  fillSlots Packing.str aliases 0 others
  let addrList ← Packing.pointers 2
  let slot ← Packing.bytes address.bytes 4
  Packing.write addrList (Packing.pointer slot)
  return (name, aliases, addrList)

/-- The rendering of `gethostbyaddr2_r`. -/
def renderNames (a : Answer) (address : IpAddr) (af : Int32) (len : UInt32) : Entry :=
  match ptrNames a with
  | [] => fail .notFound Errno.enoent HErrno.noData
  | first :: others =>
    render (packNames first others address) fun (name, aliases, addrList) o =>
      { o with
        result :=
          { hName := name, hAliases := aliases, hAddrtype := af, hLength := len.toInt32, hAddrList := addrList }
        ttl := o.ttl.map fun _ => leastTtl (a.records.map RecordOut.ttl) }

/-! ### The entry points -/

/-- `_nss_peios_net_gethostbyname4_r`; `name` is what `borrow` returns. -/
def gethostbyname4 (lookup : Bytes → Family → Got Addresses) (name : Option Bytes) : Entry :=
  match name with
  | none => fail .notFound Errno.enoent HErrno.hostNotFound
  | some name => (resolveAddresses lookup name .any).render renderAddrtuples

/-- `_nss_peios_net_gethostbyname3_r`. -/
def gethostbyname3 (lookup : Bytes → Family → Got Addresses) (name : Option Bytes) (af : Int32) :
    Entry :=
  match name, familyOf af with
  | none, _ => fail .notFound Errno.enoent HErrno.hostNotFound
  | some _, none => fail .unavail Errno.eafnosupport HErrno.noData
  | some name, some family =>
    (resolveAddresses lookup name family).render fun a => renderHostent a af

/-- The address of `gethostbyaddr2_r`, from the `len` octets at `addr`. -/
def addressOf (addr : Bytes) (af : Int32) (len : UInt32) : Option IpAddr :=
  if af = afInet ∧ len = 4 then some (.v4 (Vector.ofFn fun i => addr.getD i 0))
  else if af = afInet6 ∧ len = 16 then some (.v6 (Vector.ofFn fun i => addr.getD i 0))
  else none

/-- The answer for a loopback address. -/
def loopbackAnswer :
    Answer := { outcome := .found, records := [{ rtype := ptr, text := "localhost" }] }

/-- `_nss_peios_net_gethostbyaddr2_r`; `addr` is what its pointer leads to. -/
def gethostbyaddr2 (reverse : IpAddr → Got Answer) (addr : Option Bytes) (len : UInt32)
    (af : Int32) : Entry :=
  match addr with
  | none => fail .notFound Errno.enoent HErrno.hostNotFound
  | some addr =>
    match addressOf addr af len with
    | none => fail .unavail Errno.eafnosupport HErrno.noRecovery
    | some address =>
      (if address.isLoopback then .value loopbackAnswer else reverse address).render fun a =>
        renderNames a address af len

end Resolvd.Nss
