import Resolvd.Daemon.Upstream
import Resolvd.Lib.Frames

/-!
# Replies on a stream

A DNS message on a TCP connection stands behind its length in two octets.  `Upstream::service` takes
the messages off a connection one after the other, whatever pieces they come in, and reports the
first one the engine accepts: what it keeps in its buffer is the rest, in the sense of
`Framing.rest`, of all it has read.
-/

namespace Resolvd.Daemon

open Lib Dns Engine List

/-- The frames of DNS over TCP. -/
def dnsFraming : Framing UInt8 := .bigEndian 2 (by decide)

namespace Upstream

variable {buf stream : Bytes} {u : Upstream} {tx : Txid}

/-! ### A buffer -/

theorem splitFrame_eq (buf : Bytes) : splitFrame buf = dnsFraming.split buf := by
  rcases buf with _ | ⟨hi, _ | ⟨lo, rest⟩⟩
  · rfl
  · rfl
  · unfold splitFrame Framing.split
    simp only [dnsFraming, Framing.bigEndian, length_cons, take_succ_cons, take_zero,
      drop_succ_cons, drop_zero]
    have hheader : ¬ rest.length + 1 + 1 < 2 := by omega
    rw [if_neg hheader]
    by_cases h : rest.length < ofBe [hi, lo]
    · rw [if_pos h, if_neg (Nat.not_le.mpr h)]
    · rw [if_neg h, if_pos (Nat.not_lt.mp h)]

/-- The message that is found is the first one of the buffer that is accepted. -/
theorem drainFrames_fst (accepts : Bytes → Bool) {n : ℕ} (hn : buf.length ≤ n) :
    (drainFrames accepts n buf).1 = (dnsFraming.frames buf).find? accepts := by
  induction n generalizing buf with
  | zero =>
    rw [length_eq_zero_iff.mp (Nat.le_zero.mp hn), Framing.frames_of_none rfl]
    rfl
  | succ n ih =>
    rw [drainFrames, splitFrame_eq]
    cases h : dnsFraming.split buf with
    | none => rw [Framing.frames_of_none h]; rfl
    | some pr =>
      obtain ⟨message, rest⟩ := pr
      have hlen := Framing.length_of_split h
      rw [Framing.frames_of_some h, List.find?_cons]
      cases hacc : accepts message with
      | true => simp [hacc]
      | false => simpa [hacc] using ih (by omega)

/-- When none is accepted, the complete frames are gone. -/
theorem drainFrames_snd {accepts : Bytes → Bool} {n : ℕ} (hn : buf.length ≤ n)
    (hnone : (drainFrames accepts n buf).1 = none) :
    (drainFrames accepts n buf).2 = dnsFraming.rest buf := by
  induction n generalizing buf with
  | zero =>
    rw [length_eq_zero_iff.mp (Nat.le_zero.mp hn), Framing.rest_of_none rfl]
    rfl
  | succ n ih =>
    rw [drainFrames, splitFrame_eq] at hnone ⊢
    cases h : dnsFraming.split buf with
    | none => rw [Framing.rest_of_none h]
    | some pr =>
      obtain ⟨message, rest⟩ := pr
      have hlen := Framing.length_of_split h
      simp only [h] at hnone ⊢
      rw [Framing.rest_of_some h]
      split at hnone
      · cases hnone
      · next hacc =>
        rw [if_neg hacc]
        exact ih (by omega) hnone

/-! ### A read -/

variable (accepts : Bytes → Bool)

/-- None of the complete frames is accepted. -/
def Clean (stream : Bytes) : Prop := ∀ message ∈ dnsFraming.frames stream, accepts message = false

variable {accepts}

theorem clean_nil : Clean accepts [] := by
  intro message h
  rw [Framing.frames_of_none rfl] at h
  cases h

theorem clean_iff : Clean accepts stream ↔ (dnsFraming.frames stream).find? accepts = none := by
  simp [Clean, List.find?_eq_none]

/-- What comes behind a stream none of whose frames is accepted is found by looking at the rest. -/
theorem Clean.find?_append (h : Clean accepts stream) (chunk : Bytes) :
    (dnsFraming.frames (stream ++ chunk)).find? accepts =
      (dnsFraming.frames (dnsFraming.rest stream ++ chunk)).find? accepts := by
  rw [Framing.frames_append, List.find?_append, clean_iff.mp h, Option.none_or]

/-- A read from a connection, when none of the frames so far was accepted. -/
theorem Clean.receive (h : Clean accepts stream) (read : Io Bytes) :
    (read.Ends → (receive (dnsFraming.rest stream) read accepts).1 = some .failed) ∧
    (¬ read.Ends → (receive (dnsFraming.rest stream) read accepts).1 =
        ((dnsFraming.frames (stream ++ read.chunk)).find? accepts).map .received ∧
      ((receive (dnsFraming.rest stream) read accepts).1 = none →
        (receive (dnsFraming.rest stream) read accepts).2 = dnsFraming.rest
          (stream ++ read.chunk))) := by
  have hrest := Framing.split_rest (f := dnsFraming) stream
  -- there is no complete frame in the buffer
  have hdrain : drainFrames accepts (dnsFraming.rest stream).length (dnsFraming.rest stream) =
      (none, dnsFraming.rest stream) := by
    have hfst := drainFrames_fst accepts (le_refl (dnsFraming.rest stream).length)
    rw [Framing.frames_of_none hrest] at hfst
    have hsnd := drainFrames_snd le_rfl hfst
    rw [Framing.rest_of_none hrest] at hsnd
    exact Prod.ext hfst hsnd
  have hempty : ((dnsFraming.frames (stream ++ [])).find? accepts).map Event.received = none := by
    rw [append_nil, clean_iff.mp h, Option.map_none]
  unfold Upstream.receive
  rw [hdrain]
  cases read with
  | wouldBlock =>
    refine ⟨fun hends => hends.elim, fun _ => ⟨hempty.symm, fun _ => ?_⟩⟩
    rw [Io.chunk, append_nil]
    simp
  | interrupted =>
    refine ⟨fun hends => hends.elim, fun _ => ⟨hempty.symm, fun _ => ?_⟩⟩
    rw [Io.chunk, append_nil]
    simp
  | error => exact ⟨fun _ => rfl, fun hends => absurd trivial hends⟩
  | ok chunk =>
    cases chunk with
    | nil => exact ⟨fun _ => rfl, fun hends => absurd rfl hends⟩
    | cons b chunk =>
      refine ⟨fun hends => (by cases hends), fun _ => ?_⟩
      have hfst := drainFrames_fst accepts (le_refl (dnsFraming.rest stream ++ b :: chunk).length)
      rw [← h.find?_append] at hfst
      refine ⟨congrArg (Option.map Event.received) hfst, fun hnone => ?_⟩
      rw [Io.chunk, Framing.rest_append]
      exact drainFrames_snd le_rfl (Option.map_eq_none_iff.mp hnone)

/-! ### A connection -/

/-- The events of a connection, up to the one that ends it. -/
def serviceAll (u : Upstream) (tx : Txid) (accepts : Bytes → Bool) :
    List Ready → Upstream × Option Event
  | [] => (u, none)
  | ready :: readies =>
    match u.service tx ready accepts with
    | (u, some event) => (u, some event)
    | (u, none) => u.serviceAll tx accepts readies

/-- The connection waits for a reply, and has these octets in its buffer. -/
def Waits (u : Upstream) (tx : Txid) (buf : Bytes) : Prop :=
  u.udp.get tx = none ∧ ∃ stream, u.tcp.get tx = some ⟨stream, .receiving buf⟩

theorem service_of_waits (accepts : Bytes → Bool) (h : u.Waits tx buf) (ready : Ready) :
    (u.service tx ready accepts).2 = (receive buf ready.read accepts).1 ∧
      ((receive buf ready.read accepts).1 = none →
        (u.service tx ready accepts).1.Waits tx (receive buf ready.read accepts).2) := by
  obtain ⟨hudp, stream, htcp⟩ := h
  unfold service
  simp only [hudp, htcp, TcpState.isReceiving, Bool.not_true, Bool.and_false, Bool.false_eq_true,
    if_false]
  generalize receive buf ready.read accepts = r
  obtain ⟨_ | event, buf'⟩ := r
  · refine ⟨rfl, fun _ => ⟨hudp, stream, ?_⟩⟩
    rw [Table.get_insert, if_pos rfl]
  · exact ⟨rfl, fun h => (by cases h)⟩

/-- What the reads of these events were answered. -/
abbrev reads (readies : List Ready) : List (Io Bytes) := readies.map Ready.read

/-- Behind a stream, the connection has not ended yet after these events and nothing was accepted.
-/
def Quiet (accepts : Bytes → Bool) (stream : Bytes) (readies : List Ready) : Prop :=
  (∀ read ∈ reads readies, ¬ read.Ends) ∧ Clean accepts (stream ++ delivered (reads readies))

/-- The frames of a shorter stream are among those of a longer one. -/
theorem Clean.of_append {chunk : Bytes} (h : Clean accepts (stream ++ chunk)) :
    Clean accepts stream := by
  intro message hm
  apply h
  rw [Framing.frames_append]
  exact mem_append_left _ hm

/-- Events that leave the connection quiet are passed over, and the rest of what was read is in the
buffer. -/
theorem serviceAll_append (hu : u.Waits tx (dnsFraming.rest stream))
    {quiet : List Ready} (h : Quiet accepts stream quiet) (readies : List Ready) :
    ∃ u' : Upstream, u'.Waits tx (dnsFraming.rest (stream ++ delivered (reads quiet))) ∧
      u.serviceAll tx accepts (quiet ++ readies) = u'.serviceAll tx accepts readies := by
  induction quiet generalizing u stream with
  | nil => exact ⟨u, by simpa using hu, rfl⟩
  | cons ready quiet ih =>
    obtain ⟨hends, hclean⟩ := h
    simp only [reads, map_cons, forall_mem_cons] at hends
    simp only [reads, map_cons, delivered_cons, ← append_assoc] at hclean ⊢
    obtain ⟨hevent, hwaits⟩ := service_of_waits accepts hu ready
    obtain ⟨hreceive, hbuf⟩ := (hclean.of_append.of_append.receive ready.read).2 hends.1
    rw [clean_iff.mp hclean.of_append, Option.map_none] at hreceive
    have hu' := hwaits hreceive
    rw [hbuf hreceive] at hu'
    obtain ⟨u', hu', hall⟩ := ih hu' ⟨hends.2, hclean⟩
    refine ⟨u', hu', ?_⟩
    rw [cons_append, serviceAll, ← hall]
    rw [hreceive] at hevent
    generalize u.service tx ready accepts = r at hevent ⊢
    obtain ⟨u₁, event⟩ := r
    cases hevent
    rfl

/-- Either the connection is quiet all the time, or there is a first event that ends it. -/
theorem quiet_or (accepts : Bytes → Bool) (readies : List Ready) :
    Quiet accepts [] readies ∨ ∃ quiet ready later, readies = quiet ++ ready :: later ∧
      Quiet accepts [] quiet ∧
      (ready.read.Ends ∨ ¬ ready.read.Ends ∧ ∃ message,
        (dnsFraming.frames (delivered (reads (quiet ++ [ready])))).find? accepts =
          some message) := by
  induction readies using List.reverseRecOn with
  | nil => exact .inl ⟨by simp, clean_nil⟩
  | append_singleton readies ready ih =>
    rcases ih with hquiet | ⟨quiet, first, later, rfl, hquiet, hfirst⟩
    · by_cases hends : ready.read.Ends
      · exact .inr ⟨readies, ready, [], rfl, hquiet, .inl hends⟩
      · cases hfind : (dnsFraming.frames (delivered (reads (readies ++ [ready])))).find?
          accepts with
        | some message => exact .inr ⟨readies, ready, [], rfl, hquiet, .inr ⟨hends, message, hfind⟩⟩
        | none =>
          refine .inl ⟨?_, clean_iff.mpr hfind⟩
          simp only [reads, map_append, map_cons, map_nil, forall_mem_append,
            forall_mem_singleton]
          exact ⟨hquiet.1, hends⟩
    · exact .inr ⟨quiet, first, later ++ [ready], by simp, hquiet, hfirst⟩

theorem serviceAll_quiet_cons (hu : u.Waits tx []) {quiet : List Ready}
    (h : Quiet accepts [] quiet) (ready : Ready) (later : List Ready) :
    (ready.read.Ends → (u.serviceAll tx accepts (quiet ++ ready :: later)).2 = some .failed) ∧
    ∀ message, ¬ ready.read.Ends →
      (dnsFraming.frames (delivered (reads (quiet ++ [ready])))).find? accepts = some message →
      (u.serviceAll tx accepts (quiet ++ ready :: later)).2 = some (.received message) := by
  have hstart : u.Waits tx (dnsFraming.rest []) := by rwa [Framing.rest_of_none rfl]
  obtain ⟨u', hu', hall⟩ := serviceAll_append hstart h (ready :: later)
  rw [nil_append] at hu'
  have hclean := h.2
  rw [nil_append] at hclean
  obtain ⟨hevent, -⟩ := service_of_waits accepts hu' ready
  obtain ⟨hfailed, hreceived⟩ := hclean.receive ready.read
  rw [hall, serviceAll]
  generalize u'.service tx ready accepts = r at hevent ⊢
  obtain ⟨u₁, event⟩ := r
  refine ⟨fun hends => ?_, fun message hends hfind => ?_⟩
  · rw [hfailed hends] at hevent
    cases hevent
    rfl
  · rw [(hreceived hends).1] at hevent
    simp only [reads, map_append, map_cons, map_nil, delivered_append, delivered_cons,
      delivered_nil, append_nil] at hfind
    rw [hfind] at hevent
    cases hevent
    rfl

theorem serviceAll_quiet (hu : u.Waits tx []) {readies : List Ready}
    (h : Quiet accepts [] readies) : (u.serviceAll tx accepts readies).2 = none ∧
      (u.serviceAll tx accepts readies).1.Waits tx
        (dnsFraming.rest (delivered (reads readies))) := by
  have hstart : u.Waits tx (dnsFraming.rest []) := by rwa [Framing.rest_of_none rfl]
  obtain ⟨u', hu', hall⟩ := serviceAll_append hstart h []
  rw [append_nil] at hall
  rw [hall]
  exact ⟨rfl, hu'⟩

/-- What is reported says which of the three it was. -/
theorem serviceAll_cases (accepts : Bytes → Bool) (hu : u.Waits tx []) (readies : List Ready) :
    ((u.serviceAll tx accepts readies).2 = none → Quiet accepts [] readies) ∧
    ((u.serviceAll tx accepts readies).2 = some .failed →
      ∃ earlier ready later, readies = earlier ++ ready :: later ∧ Quiet accepts [] earlier ∧
        ready.read.Ends) ∧
    ∀ message, (u.serviceAll tx accepts readies).2 = some (.received message) →
      ∃ earlier ready later, readies = earlier ++ ready :: later ∧ Quiet accepts [] earlier ∧
        ¬ ready.read.Ends ∧
        (dnsFraming.frames (delivered (reads (earlier ++ [ready])))).find? accepts =
          some message := by
  rcases quiet_or accepts readies with hquiet | ⟨earlier, ready, later, rfl, hquiet,
    hends | ⟨hends, message, hfind⟩⟩
  · have hnone := (serviceAll_quiet hu hquiet).1
    exact ⟨fun _ => hquiet, by simp [hnone], by simp [hnone]⟩
  · have hfailed := (serviceAll_quiet_cons hu hquiet ready later).1 hends
    exact ⟨by simp [hfailed], fun _ => ⟨earlier, ready, later, rfl, hquiet, hends⟩, by simp [hfailed]⟩
  · have hreceived := (serviceAll_quiet_cons hu hquiet ready later).2 message hends hfind
    refine ⟨by simp [hreceived], by simp [hreceived], fun message' h => ?_⟩
    rw [hreceived] at h
    cases h
    exact ⟨earlier, ready, later, rfl, hquiet, hends, hfind⟩

/-- **Replies do not depend on the pieces they come in.**  A connection waits for a reply and is
serviced any number of times, whatever the reads are answered.  Nothing is reported as long as the
stream neither ends nor fails and has no complete frame that is accepted; then the buffer has the
rest of what was read, and that is shorter than a frame.  A reply is reported by the event that
completes an accepted frame, and it is the first one of the stream.  A failure is reported by the
event that ends the stream before that. -/
theorem reply_independent_of_chunking {u : Upstream} {tx : Txid} (hu : u.Waits tx [])
    (accepts : Bytes → Bool) (readies : List Ready) :
    ((u.serviceAll tx accepts readies).2 = none ↔ (∀ read ∈ reads readies, ¬ read.Ends) ∧
      ∀ message ∈ dnsFraming.frames (delivered (reads readies)), accepts message = false) ∧
    ((u.serviceAll tx accepts readies).2 = none →
      ∃ buf, (u.serviceAll tx accepts readies).1.Waits tx buf ∧
      buf = dnsFraming.rest (delivered (reads readies)) ∧ buf <:+ delivered (reads readies) ∧
      (buf.length < 2 ∨ buf.length < 2 + ofBe (buf.take 2))) ∧
    (∀ message, (u.serviceAll tx accepts readies).2 = some (.received message) ↔
      ∃ earlier ready later, readies = earlier ++ ready :: later ∧ Quiet accepts [] earlier ∧
        ¬ ready.read.Ends ∧
        (dnsFraming.frames (delivered (reads (earlier ++ [ready])))).find? accepts = some message) ∧
    ((u.serviceAll tx accepts readies).2 = some .failed ↔
      ∃ earlier ready later, readies = earlier ++ ready :: later ∧ Quiet accepts [] earlier ∧
        ready.read.Ends) := by
  obtain ⟨hnone, hfailed, hreceived⟩ := serviceAll_cases accepts hu readies
  refine ⟨⟨hnone, fun hquiet => (serviceAll_quiet hu hquiet).1⟩, fun h => ?_, fun message =>
    ⟨hreceived message, ?_⟩, ⟨hfailed, ?_⟩⟩
  · refine ⟨_, (serviceAll_quiet hu (hnone h)).2, rfl, Framing.rest_suffix _, ?_⟩
    -- every header is that of a message, so that only octets can be missing
    rcases Framing.split_eq_none.mp
      (Framing.split_rest (f := dnsFraming) (delivered (reads readies))) with
      hshort | hbad | ⟨n, hn, hshort⟩
    · exact .inl hshort
    · cases hbad
    · cases hn
      exact .inr hshort
  · rintro ⟨earlier, ready, later, rfl, hquiet, hends, hfind⟩
    exact (serviceAll_quiet_cons hu hquiet ready later).2 message hends hfind
  · rintro ⟨earlier, ready, later, rfl, hquiet, hends⟩
    exact (serviceAll_quiet_cons hu hquiet ready later).1 hends

/-- A connection that has sent its query. -/
def waiting :
    Upstream := { tcp := Table.empty.insert 1 ⟨⟨.v4 IpAddr.localhost4, dnsPort, 0⟩, .receiving []⟩ }

/-- An event with this read. -/
def readyWith (read : Io Bytes) : Ready := ⟨true, .wouldBlock, false, .wouldBlock, read⟩

/-- An empty frame, a frame in three pieces, and the end of the stream. -/
theorem reply_independent_of_chunking_pieces :
    ∃ earlier ready later,
      [.ok [0, 0, 0], .interrupted, .ok [2, 7], .ok [8, 0], .ok []].map readyWith = earlier ++
        ready :: later ∧
      Quiet (· ≠ []) [] earlier ∧ ¬ ready.read.Ends ∧
        (dnsFraming.frames (delivered (reads (earlier ++ [ready])))).find?
          (· ≠ []) = some [7, 8] := by
  have hu : waiting.Waits 1 [] := ⟨rfl, _, rfl⟩
  have hevent : (waiting.serviceAll 1 (· ≠ [])
      ([.ok [0, 0, 0], .interrupted, .ok [2, 7], .ok [8, 0], .ok []].map
      readyWith)).2 = some (.received [7, 8]) := by
    decide
  exact ((reply_independent_of_chunking hu _ _).2.2.1 _).mp hevent

end Upstream

end Resolvd.Daemon
