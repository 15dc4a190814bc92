import Resolvd.Api.Views
import Resolvd.Core.Framing

/-!
# libresolvd and resolvd-client

`resolvd-client` calls `libresolvd`, which connects to the daemon, sends one request, waits for one
reply, and checks that it is of the kind the request wants (`expected`).  What a method returns then
goes through the C interface (`Views`, `Decode`).

The clock, the kernel and the daemon are a `Session`: how each turn of the two loops goes, and what
the daemon sends.  An `Operation` without a result is one that waits.  `Client.call` calls any of
the five methods (`Method`), so that they can be spoken of at once.
-/

namespace Resolvd.Api

open Lib Lib.Arena Resolvd.Core
open Abi (Cell)
open Msgpack (octets fromUTF8?_eq_some)

/-! ### Errors -/

/-- `ETIMEDOUT`. -/
abbrev ETIMEDOUT : Int := 110

/-- `EIO`. -/
abbrev EIO : Int := 5

theorem EIO_ne_zero : EIO ≠ 0 := by decide

/-- The code of a system call that has failed.  It is not zero. -/
abbrev Errno := { code : Int // code ≠ 0 }

/-- `io::Error`, as `libresolvd` returns it: one of the operating system, or one of its own with a
text. -/
inductive Failure where
  | os (code : Errno)
  | invalidInput (text : String)
  | invalidData (text : String)
  | timedOut (text : String)
  | unexpectedEof (text : String)
  | writeZero (text : String)
  | other (text : String)
  deriving DecidableEq

namespace Failure

/-- The code in `ResultHandle::error`. -/
def code : Failure → Int
  | os code => code.val
  | invalidInput _ | invalidData _ => EINVAL
  | timedOut _ => ETIMEDOUT
  | unexpectedEof _ | writeZero _ | other _ => EIO

/-- `io::Error::to_string`, with the texts of the operating system. -/
def text (osText : Errno → String) : Failure → String
  | os code => osText code
  | invalidInput text | invalidData text | timedOut text | unexpectedEof text | writeZero text | other text => text

/-- The failure, as a caller of `resolvd-client` sees it. -/
def seen (osText : Errno → String) (e : Failure) : Error := ⟨e.code, e.text osText⟩

/-- The error of an operation whose deadline has passed. -/
def late : Failure := timedOut "resolvd operation timed out"

theorem code_ne_zero (e : Failure) : e.code ≠ 0 := by
  cases e with
  | os code => exact code.property
  | _ => simp [code]

end Failure

/-- An operation of the library: `none` while it waits. -/
abbrev Operation := ExceptT Failure Option

/-! ### Inputs -/

/-- An `abi::Bytes` of the caller: a null pointer with a length, or octets that can be read. -/
inductive Span where
  | null (len : ℕ)
  | live (octets : Bytes)

/-- The length that is given. -/
def Span.len : Span → ℕ
  | null len => len
  | live octets => octets.length

namespace Inputs

/-- `MAX_TEXT_BYTES`. -/
abbrev maxTextBytes : ℕ := 4 * 1024 * 1024

/-- `inputs::array`, for octets. -/
def array : Span → Except Failure Bytes
  | .null len => if len = 0 then .ok [] else .error (.invalidInput "invalid array span")
  | .live octets => .ok octets

/-- `inputs::bytes`. -/
def bytes (value : Span) : Except Failure Bytes :=
  if value.len > maxTextBytes then .error (.invalidInput "input span exceeds 4 MiB")
  else array value

/-- `inputs::text`. -/
def text (value : Span) : Except Failure String := do
  match String.fromUTF8? ⟨(← bytes value).toArray⟩ with
  | some s => return s
  | none => throw (.invalidInput "text is not UTF-8")

/-- `inputs::boolean`. -/
def boolean (value : UInt32) : Except Failure Bool :=
  if value = 0 then .ok false
  else if value = 1 then .ok true
  else .error (.invalidInput "boolean must be 0 or 1")

/-- The family with the number, in `peios_resolvd_lookup`. -/
def family (value : UInt32) : Except Failure Family :=
  if value = 0 then .ok .any
  else if value = 1 then .ok .v4
  else if value = 2 then .ok .v6
  else .error (.invalidInput "invalid address family")

end Inputs

/-! ### Results -/

/-- `Payload`. -/
inductive Payload where
  | empty
  | answer (view : Abi.Answer)
  | addresses (view : Abi.Addresses)
  | statusReport (view : Abi.StatusReport)

/-- `ResultHandle`. -/
structure ResultHandle where
  error : Int := 0
  message : Abi.Bytes := Views.absent
  arena : List Cell := []
  payload : Payload := .empty

namespace ResultHandle

/-- `ResultHandle::error`. -/
def ofFailure (osText : Errno → String) (e : Failure) : ResultHandle :=
  let (message, arena) := Views.text (e.text osText) []
  { error := e.code, message, arena }

/-- `peios_resolvd_result_answer`. -/
def answer (result : ResultHandle) : Option Abi.Answer :=
  match result.payload with
  | .answer view => some view
  | _ => none

/-- `peios_resolvd_result_addresses`. -/
def addresses (result : ResultHandle) : Option Abi.Addresses :=
  match result.payload with
  | .addresses view => some view
  | _ => none

/-- `peios_resolvd_result_status_report`. -/
def statusReport (result : ResultHandle) : Option Abi.StatusReport :=
  match result.payload with
  | .statusReport view => some view
  | _ => none

end ResultHandle

/-- `reply_result`. -/
def replyResult (T : AddressText) : Reply → Except Failure ResultHandle
  | .ok => .ok {}
  | .error message => .error (.other message)
  | .answer value =>
    let (view, arena) := Views.answer value []
    .ok { arena, payload := .answer view }
  | .addresses value =>
    let (view, arena) := Views.addresses T value []
    .ok { arena, payload := .addresses view }
  | .status value =>
    let (view, arena) := Views.statusReport value []
    .ok { arena, payload := .statusReport view }

/-- `expected`. -/
def expected : Request → Reply → Bool
  | _, .error _ => true
  | .status, .status _ => true
  | .flush, .ok => true
  | .lookup .., .addresses _ => true
  | .resolve .., .answer _ => true
  | .reverse .., .answer _ => true
  | _, _ => false

/-- `finish`. -/
def finish (osText : Errno → String) (result : Operation ResultHandle) : Option ResultHandle :=
  result.run.map fun
    | .ok result => result
    | .error e => .ofFailure osText e

/-! ### The exchange -/

/-- One turn of the loop of `Channel::send`, as the clock and the kernel have it. -/
structure SendTurn where
  /-- `remaining(end)` is not an error -/
  inTime : Bool
  write : Io ℕ
  /-- how a `wait` for the stream to be writable ends -/
  wait : Except Failure Unit

/-- What is outside the library in an exchange. -/
structure Session where
  /-- the deadline can be represented -/
  fits : Bool := true
  /-- what connecting to the path gives -/
  connected : Except Failure Unit := .ok ()
  sending : List SendTurn
  receiving : List Turn
  /-- what the daemon sends -/
  answer : Bytes
  /-- the code of a read or a write that fails -/
  errno : Errno

/-- `deadline`. -/
def deadline (timeoutMs : UInt64) (s : Session) : Except Failure Unit :=
  if timeoutMs = 0 then .error (.invalidInput "timeout_ms must be positive")
  else if s.fits then .ok ()
  else .error (.invalidInput "timeout is too large")

/-- `Channel::connect`. -/
def connect (path : Bytes) (s : Session) : Except Failure Unit :=
  if path.isEmpty || path.contains 0 || path.length ≥ 108 then
    .error (.invalidInput "expected a nonempty filesystem socket path shorter than 108 bytes")
  else s.connected

/-- The loop of `Channel::send`: its result, `none` while it waits, and the octets that were
written. -/
def sendLoop (errno : Errno) (pending : Bytes) :
    List SendTurn → Option (Except Failure Unit) × Bytes
  | [] => (if pending.isEmpty then some (.ok ()) else none, [])
  | turn :: turns =>
    if pending.isEmpty then (some (.ok ()), [])
    else if !turn.inTime then (some (.error .late), [])
    else match turn.write with
      | .ok 0 => (some (.error (.writeZero "resolvd closed while writing")), [])
      | .ok count =>
        let (result, written) := sendLoop errno (pending.drop count) turns
        (result, pending.take count ++ written)
      | .interrupted => sendLoop errno pending turns
      | .wouldBlock =>
        match turn.wait with
        | .ok () => sendLoop errno pending turns
        | .error e => (some (.error e), [])
      | .error => (some (.error (.os errno)), [])

/-- The error of `Channel::receive`. -/
def ofReceive (errno : Errno) : ReceiveError → Failure
  | .timedOut => .late
  | .invalidInput text => .invalidInput text
  | .invalidData text => .invalidData text
  | .unexpectedEof text => .unexpectedEof text
  | .read => .os errno

section Exchange

variable (T : AddressText) (debug : String → String) (osText : Errno → String)

/-- The frame of a request. -/
def requestFrame (request : Request) : Bytes := toLe 4 (request.encode T).length ++ request.encode T

/-- `Channel::send`, with the octets that were written. -/
def send (request : Request) (s : Session) : Option (Except Failure Unit) × Bytes :=
  if (request.encode T).length > maxMessageBytes then
    (some (.error (.invalidInput "request exceeds the protocol message limit")), [])
  else sendLoop s.errno (requestFrame T request) s.sending

/-- `Channel::receive`. -/
def receive (s : Session) : Operation Reply :=
  (Channel.receive T debug ⟨⟨s.answer, []⟩, []⟩ s.receiving).1.map
    (Except.mapError (ofReceive s.errno))

/-- `receive_complete`. -/
def receiveComplete (request : Request) (s : Session) : Operation Reply := do
  let reply ← receive T debug s
  if !expected request reply then throw (.invalidInput "unexpected reply type")
  return reply

/-- `exchange`. -/
def exchange (path : Bytes) (timeoutMs : UInt64) (request : Request) (s : Session) :
    Operation ResultHandle := do
  MonadExcept.ofExcept (deadline timeoutMs s)
  MonadExcept.ofExcept (connect path s)
  ExceptT.mk (send T request s).1
  let reply ← receiveComplete T debug request s
  MonadExcept.ofExcept (replyResult T reply)

/-! ### The functions of `libresolvd` -/

/-- `peios_resolvd_get_status`. -/
def peiosResolvdGetStatus (path : Span) (timeoutMs : UInt64) (s : Session) : Option ResultHandle :=
  finish osText do exchange T debug (← MonadExcept.ofExcept (Inputs.bytes path)) timeoutMs .status s

/-- `peios_resolvd_lookup`. -/
def peiosResolvdLookup (path : Span) (timeoutMs : UInt64) (name : Span) (family : UInt32)
    (s : Session) : Option ResultHandle :=
  finish osText do
    let path ← MonadExcept.ofExcept (Inputs.bytes path)
    let name ← MonadExcept.ofExcept (Inputs.text name)
    let family ← MonadExcept.ofExcept (Inputs.family family)
    exchange T debug path timeoutMs (.lookup name family) s

/-- `peios_resolvd_resolve`. -/
def peiosResolvdResolve (path : Span) (timeoutMs : UInt64) (name : Span) (recordType : UInt16)
    (noCache : UInt32) (s : Session) : Option ResultHandle :=
  finish osText do
    let path ← MonadExcept.ofExcept (Inputs.bytes path)
    let name ← MonadExcept.ofExcept (Inputs.text name)
    let noCache ← MonadExcept.ofExcept (Inputs.boolean noCache)
    exchange T debug path timeoutMs (.resolve name recordType noCache) s

/-- `peios_resolvd_reverse`. -/
def peiosResolvdReverse (path : Span) (timeoutMs : UInt64) (address : Span) (s : Session) :
    Option ResultHandle :=
  finish osText do
    let path ← MonadExcept.ofExcept (Inputs.bytes path)
    match T.parse (← MonadExcept.ofExcept (Inputs.text address)) with
    | some address => exchange T debug path timeoutMs (.reverse address) s
    | none => throw (.invalidInput "invalid IP address")

/-- `peios_resolvd_flush`. -/
def peiosResolvdFlush (path : Span) (timeoutMs : UInt64) (s : Session) : Option ResultHandle :=
  finish osText do exchange T debug (← MonadExcept.ofExcept (Inputs.bytes path)) timeoutMs .flush s

end Exchange

/-! ### `resolvd-client` -/

/-- `resolvd_client::timeout_ms`, of a duration in nanoseconds. -/
def timeoutMs (timeout : ℕ) : Except Error UInt64 :=
  if timeout = 0 then .error (invalid "timeout must be positive")
  else
    let milliseconds := (timeout + 999999) / 1000000
    if milliseconds < 2 ^ 64 then .ok (UInt64.ofNat milliseconds)
    else .error (invalid "timeout is too large")

theorem timeoutMs_ne_zero {timeout : ℕ} {ms : UInt64} (h : timeoutMs timeout = .ok ms) :
    ms ≠ 0 := by
  unfold timeoutMs at h
  dsimp only at h
  split_ifs at h with hzero hfits
  cases h
  intro hms
  have hnat := congrArg UInt64.toNat hms
  rw [UInt64.toNat_ofNat_of_lt' hfits] at hnat
  simp at hnat
  omega

/-- A path that `Client::new` takes. -/
def PathOk (path : Bytes) : Prop := ¬ (path.isEmpty || path.length ≥ 108 || path.contains 0) = true

instance (path : Bytes) : Decidable (PathOk path) := inferInstanceAs (Decidable (¬ _))

/-- `resolvd_client::Client`. -/
structure Client where
  path : Bytes
  timeoutMs : UInt64
  path_ok : PathOk path
  timeoutMs_ne_zero : timeoutMs ≠ 0

/-- `Client::new`. -/
def Client.new (path : Bytes) (timeout : ℕ) : Except Error Client :=
  if hpath : PathOk path then
    match htimeout : Api.timeoutMs timeout with
    | .ok ms => .ok ⟨path, ms, hpath, Api.timeoutMs_ne_zero htimeout⟩
    | .error e => .error e
  else .error (invalid "invalid Unix socket path")

/-- `OwnedResult::take`. -/
def take (result : ResultHandle) : Reader Error ResultHandle := do
  if result.error ≠ 0 then
    let message ← Decode.text result.arena result.message
    throw ⟨result.error, message⟩
  return result

/-- The view a method asks for, copied. -/
def copied {V α : Type} (view : ResultHandle → Option V) (copy : List Cell → V → Reader Error α)
    (result : ResultHandle) : Reader Error α := do
  let result ← take result
  match view result with
  | some view => copy result.arena view
  | none => throw (invalid "missing library result")

/-- The number of a family, in `Client::lookup`. -/
def familyNumber : Family → UInt32
  | .any => 0
  | .v4 => 1
  | .v6 => 2

/-- The methods of `Client`, with their arguments. -/
inductive Method where
  | status
  | lookup (name : String) (family : Family)
  | resolve (name : String) (recordType : UInt16) (noCache : Bool)
  | reverse (address : String)
  | flush

/-- The request that a method sends; `reverse` has to be given an address. -/
def Method.request (T : AddressText) : Method → Option Request
  | .status => some .status
  | .lookup name family => some (.lookup name family)
  | .resolve name recordType noCache => some (.resolve name recordType noCache)
  | .reverse address => (T.parse address).map .reverse
  | .flush => some .flush

namespace Client

variable (T : AddressText) (debug : String → String) (osText : Errno → String) (c : Client)
  (s : Session)

/-- `Client::status`. -/
def status : Option (Reader Error StatusReport) :=
  (peiosResolvdGetStatus T debug osText (.live c.path) c.timeoutMs s).map
    (copied ResultHandle.statusReport Decode.statusReport)

/-- `Client::lookup`. -/
def lookup (name : String) (family : Family) : Option (Reader Error Addresses) :=
  (peiosResolvdLookup T debug osText (.live c.path) c.timeoutMs (.live (octets name))
    (familyNumber family) s).map
    (copied ResultHandle.addresses (Decode.addresses T))

/-- `Client::resolve`. -/
def resolve (name : String) (recordType : UInt16) (noCache : Bool) : Option (Reader Error Answer) :=
  (peiosResolvdResolve T debug osText (.live c.path) c.timeoutMs (.live (octets name)) recordType
    (Views.flag noCache)
    s).map (copied ResultHandle.answer Decode.answer)

/-- `Client::reverse`. -/
def reverse (address : String) : Option (Reader Error Answer) :=
  (peiosResolvdReverse T debug osText (.live c.path) c.timeoutMs (.live (octets address)) s).map
    (copied ResultHandle.answer Decode.answer)

/-- `Client::flush`. -/
def flush : Option (Reader Error Unit) :=
  (peiosResolvdFlush T debug osText (.live c.path) c.timeoutMs s).map fun result => do
    let _ ← take result
    return ()

/-- A call of a method, its value as a reply. -/
def call : Method → Option (Reader Error Reply)
  | .status => (c.status T debug osText s).map fun r => Reply.status <$> r
  | .lookup name family =>
    (c.lookup T debug osText s name family).map fun r => Reply.addresses <$> r
  | .resolve name rtype noCache =>
    (c.resolve T debug osText s name rtype noCache).map fun r => Reply.answer <$> r
  | .reverse address => (c.reverse T debug osText s address).map fun r => Reply.answer <$> r
  | .flush => (c.flush T debug osText s).map fun r => (fun _ => Reply.ok) <$> r

end Client

end Resolvd.Api
