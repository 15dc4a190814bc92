import Resolvd.Core.Protocol
import Resolvd.Engine.Effects
import Resolvd.Dns.Folding
import Mathlib.Data.List.DropRight

/-!
# `localhost` without a daemon

The NSS module answers `localhost` and the names under it itself.  It goes by the text: trailing
dots off, lower case, and then the text or its end.  The engine goes by the labels of the parsed
name.  On a text that `Name::parse` accepts both come to the same (`isLocalhost_iff`), and the
module then gives the addresses that the engine would have given (`localhost_agrees`).
-/

namespace Resolvd.Nss

open Lib Dns Engine Dns.Name

/-! ### The texts -/

/-- `str::trim_end_matches('.')`. -/
def trimEndDots (s : Bytes) : Bytes := s.rdropWhile (· == dot)

/-- `is_localhost`. -/
def isLocalhost (name : Bytes) : Bool :=
  let n := trimEndDots name
  eqIgnoreAsciiCase n (ascii "localhost") || (ascii ".localhost").isSuffixOf (n.map toAsciiLower)

section Text

variable {s : Bytes} {n : Name}

theorem dot_notMem_splitOn {l : Bytes} (h : l ∈ s.splitOn dot) : dot ∉ l := by
  induction s generalizing l with
  | nil =>
    obtain rfl : l = [] := by simpa using h
    simp
  | cons b s ih =>
    rw [List.splitOn_cons_eq_if_modifyHead] at h
    split at h
    · rcases List.mem_cons.mp h with rfl | h
      · simp
      · exact ih h
    · next hb =>
      have hb' : b ≠ dot := by simpa using hb
      obtain ⟨first, more, hs⟩ := List.exists_cons_of_ne_nil (List.splitOn_ne_nil dot s)
      have hfirst : dot ∉ first := ih (by rw [hs]; simp)
      rw [hs, List.modifyHead_cons] at h
      rcases List.mem_cons.mp h with rfl | h
      · simp [hfirst, Ne.symm hb']
      · exact ih (by rw [hs]; exact List.mem_cons_of_mem _ h)

/-- What `parse` accepts, but for the final dot, are the labels of the name with dots between them.
-/
theorem labels_of_parse (h : parse s = .ok n) :
    stripDot s = [] ∧ n = root ∨ stripDot s ≠ [] ∧ n.labels = (stripDot s).splitOn dot := by
  unfold parse at h
  by_cases hs : stripDot s = []
  · rw [if_pos hs] at h
    exact .inl ⟨hs, (Except.ok.inj h).symm⟩
  · rw [if_neg hs, fromLabels] at h
    split at h
    · split at h
      · exact .inr ⟨hs, by rw [← Except.ok.inj h]⟩
      · cases h
    · cases h

/-- A text that `parse` accepts has no dot to trim but the one that `parse` drops. -/
theorem trimEndDots_of_parse (h : parse s = .ok n) : trimEndDots s = stripDot s := by
  have hself : trimEndDots (stripDot s) = stripDot s := by
    rcases labels_of_parse h with ⟨hs, -⟩ | ⟨hs, hlab⟩
    · rw [hs]
      rfl
    · -- Another dot at the end would leave an empty label.
      have hjoin : stripDot (stripDot s) = stripDot s := by
        have hplain : ∀ l ∈ n.labels, l ≠ [] ∧ dot ∉ l := fun l hl =>
          ⟨fun h0 => by simpa [h0] using (n.fits.1 l hl).1, dot_notMem_splitOn (hlab ▸ hl)⟩
        have hdots := stripDot_join hplain
        rwa [hlab, List.intercalate_splitOn] at hdots
      rw [trimEndDots, List.rdropWhile_eq_self_iff]
      intro hne hdot
      have hlast : (stripDot s).getLast? = some dot := by
        rw [List.getLast?_eq_some_getLast hne]
        simpa using hdot
      rw [stripDot, if_pos hlast] at hjoin
      have hlen := congrArg List.length hjoin
      have hpos := List.length_pos_iff.mpr hne
      rw [List.length_dropLast] at hlen
      omega
  by_cases hdot : s.getLast? = some dot
  · have hs : s = stripDot s ++ [dot] := by
      rw [stripDot, if_pos hdot, List.dropLast_append_getLast? dot hdot]
    rw [trimEndDots, hs, List.rdropWhile_concat_pos _ _ _ (by simp), ← hs]
    exact hself
  · rw [stripDot, if_neg hdot] at hself ⊢
    exact hself

theorem map_splitOn (s : Bytes) :
    (s.map toAsciiLower).splitOn dot = (s.splitOn dot).map (List.map toAsciiLower) := by
  induction s with
  | nil => simp
  | cons b s ih =>
    rw [List.map_cons, List.splitOn_cons_eq_if_modifyHead, List.splitOn_cons_eq_if_modifyHead, ih]
    by_cases hb : b = dot
    · simp [hb, toAsciiLower_eq_stop.mpr rfl]
    · have hb' : toAsciiLower b ≠ dot := fun h => hb (toAsciiLower_eq_stop.mp h)
      obtain ⟨first, more, hs⟩ := List.exists_cons_of_ne_nil (List.splitOn_ne_nil dot s)
      simp [hb, hb', hs]

theorem intercalate_concat (front : List Bytes) (l : Bytes) (h : front ≠ []) :
    [dot].intercalate (front ++ [l]) = [dot].intercalate front ++ dot :: l := by
  induction front with
  | nil => exact absurd rfl h
  | cons first more ih =>
    cases more with
    | nil => simp
    | cons second more =>
      have := ih (by simp)
      simp only [List.cons_append, List.intercalate_cons_cons, List.append_assoc] at this ⊢
      rw [this]

/-- A text is a label or ends with a dot and the label exactly when the label is the last of its
labels. -/
theorem suffix_splitOn {l : Bytes} (hl : dot ∉ l) :
    (s = l ∨ dot :: l <:+ s) ↔ [l] <:+ s.splitOn dot := by
  constructor
  · rintro (rfl | ⟨front, rfl⟩)
    · simp [List.splitOn_eq_singleton hl]
    · rw [List.splitOn_append_cons_self, List.splitOn_eq_singleton hl]
      exact List.suffix_append _ _
  · rintro ⟨front, hfront⟩
    have hs : s = [dot].intercalate (front ++ [l]) := by rw [hfront, List.intercalate_splitOn]
    by_cases hnil : front = []
    · exact .inl (by simpa [hnil] using hs)
    · rw [hs, intercalate_concat _ _ hnil]
      exact .inr (List.suffix_append _ _)

/-- **The texts the module takes for `localhost` are those whose name is `localhost` or under it.**
-/
theorem isLocalhost_iff (h : parse s = .ok n) :
    isLocalhost s = true ↔ n.endsWith localhost = true := by
  have hlabel : dot ∉ ascii "localhost" := by decide
  have hlower : localhost.toLowercase.labels = [ascii "localhost"] := by decide
  have hfold : (ascii "localhost").map toAsciiLower = ascii "localhost" := by decide
  have htext : isLocalhost s = true ↔
      [ascii "localhost"] <:+ ((stripDot s).map toAsciiLower).splitOn dot := by
    rw [← suffix_splitOn hlabel, isLocalhost, trimEndDots_of_parse h]
    simp only [Bool.or_eq_true, eqIgnoreAsciiCase_iff, List.isSuffixOf_iff_suffix, hfold]
    rfl
  rw [htext, endsWith_iff_suffix, hlower, toLowercase_labels, map_splitOn]
  rcases labels_of_parse h with ⟨hs, rfl⟩ | ⟨-, hlab⟩
  · rw [hs]
    decide
  · rw [hlab]

end Text

/-! ### The addresses -/

open Resolvd.Core (AddressOut)

/-- `local_addresses`. -/
def localAddresses (family : Core.Family) : Core.Addresses where
  outcome := .found
  canonical := "localhost"
  addresses :=
    (if family ≠ .v6 then [⟨.v4 IpAddr.localhost4, 0⟩] else []) ++
      if family ≠ .v4 then [⟨.v6 IpAddr.localhost6, 0⟩] else []
  source := "local"

/-- The family that the daemon hands to the engine for that of a request. -/
def engineFamily : Core.Family → Engine.Family
  | .any => .any
  | .v4 => .v4
  | .v6 => .v6

section Lookup

variable {e : Engine} {n : Name} {qid : Qid} {now : Instant}

/-- The engine's answer for a name under `localhost`, whatever else it is configured with. -/
def localhostAnswer (n : Name) (rtype : UInt16) : Answer :=
  addressAnswer n rtype loopbackAddresses .synthetic

theorem synthetic_localhost (hn : n.endsWith localhost = true) (rtype : UInt16) :
    e.synthetic n rtype = some (localhostAnswer n rtype) := by
  rw [synthetic, if_pos (by simp [hn])]
  rfl

/-- A fresh task for such a name is settled at once. -/
theorem advance_localhost (now : Instant) (hn : n.endsWith localhost = true) {id : TaskId}
    {rtype : UInt16} (ht : e.tasks.get id = some (lookupTask qid n rtype)) :
    (e.advance id now).1.lookups =
      (e.settled id (lookupTask qid n rtype) (localhostAnswer n rtype)).1 ∧
      (e.advance id now).2 = (e.settled id (lookupTask qid n rtype)
        (localhostAnswer n rtype)).2 := by
  have hadvance : e.advance id now =
      (e.count fun c => { c with synthetic := c.synthetic + 1 }).settle id
        (localhostAnswer n rtype) := by
    simp [advance, ht, lookupTask, synthetic_localhost hn]
  rw [hadvance, settle_eq (e := e.count _) ht rfl]
  exact ⟨rfl, rfl⟩

/-- The tasks of a lookup for such a name are settled one after the other, and the last one
completes it. -/
theorem each_localhost (now : Instant) (hn : n.endsWith localhost = true) {ids : List TaskId}
    {rtypes : List UInt16} {results : List (UInt16 × Answer)}
    (htasks : List.Forall₂ (fun id rtype => e.tasks.get id = some (lookupTask qid n rtype)) ids
      rtypes)
    (hnodup : ids.Nodup) (hne : ids ≠ []) (hl : e.lookups.get qid = some ⟨n, ids, results⟩) :
    (each (fun e id => e.advance id now) ids e).2 =
      [.done qid (.addresses (combine ⟨n, [], results ++ rtypes.map fun t =>
        (t, localhostAnswer n t)⟩))] := by
  induction rtypes generalizing e ids results with
  | nil => exact absurd (List.forall₂_nil_right_iff.mp htasks) hne
  | cons rtype rtypes ih =>
    obtain ⟨id, ids, ht, hids, rfl⟩ := List.forall₂_cons_right_iff.mp htasks
    obtain ⟨hid, hnodup⟩ := List.nodup_cons.mp hnodup
    -- What is waited for after this task.
    have hpush : Lookup.push ⟨n, id :: ids, results⟩ id rtype (localhostAnswer n rtype) =
        ⟨n, ids, results ++ [(rtype, localhostAnswer n rtype)]⟩ := by
      simp only [Lookup.push, Lookup.mk.injEq, true_and, and_true]
      rw [List.filter_cons_of_neg (by simp), List.filter_eq_self]
      intro i hi
      simpa using fun h : i = id => hid (h ▸ hi)
    have hsettled : e.settled id (lookupTask qid n rtype) (localhostAnswer n rtype) =
        if ids ≠ [] then (e.lookups.insert qid
          ⟨n, ids, results ++ [(rtype, localhostAnswer n rtype)]⟩, [])
        else (e.lookups.remove qid,
          [.done qid (.addresses
            (combine ⟨n, ids, results ++ [(rtype, localhostAnswer n rtype)]⟩))]) := by
      simp only [settled, lookupTask, hl, hpush]
    obtain ⟨hlookups, hacts⟩ := advance_localhost now hn ht
    rw [hsettled] at hlookups hacts
    by_cases hlast : ids = []
    · obtain rfl : rtypes = [] := List.forall₂_nil_left_iff.mp (hlast ▸ hids)
      rw [if_neg (not_not.mpr hlast)] at hacts
      simp [each, hacts, hlast]
    · rw [if_pos hlast] at hlookups hacts
      have hothers : ∀ i ∈ ids, i ≠ id := fun i hi h => hid (h ▸ hi)
      have htasks' : List.Forall₂ (fun i t =>
          (e.advance id now).1.tasks.get i = some (lookupTask qid n t)) ids rtypes :=
        ((List.forall₂_and_left _ _).mpr ⟨hothers, hids⟩).imp fun i t h =>
          (advance_tasks_ne h.1 now).trans h.2
      have hrest := ih htasks' hnodup hlast (by rw [hlookups, Table.get_insert, if_pos rfl])
      simpa [each, hacts] using hrest

theorem lookup_localhost (e : Engine) (hn : n.endsWith localhost = true) {s : Bytes}
    (hs : parse s = .ok n) (family : Engine.Family) (qid : Qid) (now : Instant) :
    (e.lookup qid s family now).2 =
      [.done qid (.addresses (combine ⟨n, [], family.types.map fun t =>
        (t, localhostAnswer n t)⟩))] := by
  have hids := (startTasks_spec e.countQuery qid n family.types).1
  have htasks := openLookup_tasks e.countQuery qid n family
  rw [← hids] at htasks
  have hne : (e.countQuery.startTasks qid n family.types).2 ≠ [] := by
    rw [hids]
    cases family <;> simp [Family.types]
  have hopen : (e.countQuery.openLookup qid n family).lookups.get qid =
      some ⟨n, (e.countQuery.startTasks qid n family.types).2, []⟩ := by
    simp [openLookup, Table.get_insert]
  have heach := each_localhost now hn htasks (hids ▸ List.nodup_range') hne hopen
  simpa [lookup, hs, openLookup] using heach

theorem combine_localhost (n : Name) (family : Core.Family) :
    combine ⟨n, [], (engineFamily family).types.map fun t => (t, localhostAnswer n t)⟩ =
      { outcome := .found, canonical := n, source := .synthetic,
        addresses := (localAddresses family).addresses.map fun a => (a.address, a.ttl) } := by
  cases family <;>
    simp [combine, combineOne, chase, chaseName, localhostAnswer, addressAnswer, foundLocally,
      loopbackAddresses, engineFamily, Family.types, localAddresses, Record.new, Name.eq_refl,
      Rtype.a, Rtype.aaaa, Rtype.any, rankLt]

/-- **The module's `localhost` is the engine's.**  A text that `parse` accepts is taken for
`localhost` exactly when the name is `localhost` or ends with it, which is when the engine answers
by its own rule; a lookup in any engine is then complete at once, found in both, with the addresses
the module gives, their TTLs and their order. -/
theorem localhost_agrees (s : Bytes) (n : Name) (hs : parse s = .ok n) :
    (isLocalhost s = true ↔ (n.eq localhost || n.endsWith localhost) = true) ∧
    (isLocalhost s = true → ∀ (e : Engine) (family : Core.Family) (qid : Qid) (now : Instant),
      ∃ a : Engine.Addresses, (e.lookup qid s (engineFamily family) now).2 =
        [.done qid (.addresses a)] ∧
        a.addresses = (localAddresses family).addresses.map (fun a => (a.address, a.ttl)) ∧
        a.outcome = .found ∧ (localAddresses family).outcome = .found) := by
  have hiff := isLocalhost_iff hs
  have hrule : (n.eq localhost || n.endsWith localhost) = true ↔ n.endsWith localhost = true := by
    refine ⟨fun h => ?_, fun h => by simp [h]⟩
    rcases Bool.or_eq_true _ _ |>.mp h with heq | h
    · rw [Name.endsWith_congr heq (Name.eq_refl localhost), Name.endsWith_refl]
    · exact h
  refine ⟨hiff.trans hrule.symm, fun h e family qid now =>
    ⟨_, lookup_localhost e (hiff.mp h) hs _ qid now, ?_⟩⟩
  rw [combine_localhost]
  exact ⟨rfl, rfl, rfl⟩

/-- A name under `localhost`, in capitals and with a final dot. -/
theorem localhost_agrees_printer :
    isLocalhost (ascii "Printer.LOCALHOST.") = true ∧
      ∃ a : Engine.Addresses, ((withEntropy fun _ => none).lookup 7
        (ascii "Printer.LOCALHOST.") .any 0).2 =
        [.done 7 (.addresses a)] ∧
          a.addresses = [(.v4 IpAddr.localhost4, 0), (.v6 IpAddr.localhost6, 0)] := by
  obtain ⟨n, hn⟩ : ∃ n, parse (ascii "Printer.LOCALHOST.") = .ok n := ⟨_, rfl⟩
  have hlocal : isLocalhost (ascii "Printer.LOCALHOST.") = true := by decide
  obtain ⟨a, ha, haddrs, -⟩ :=
    (localhost_agrees _ n hn).2 hlocal (withEntropy fun _ => none) .any 7 0
  exact ⟨hlocal, a, ha, haddrs⟩

end Lookup

end Resolvd.Nss
