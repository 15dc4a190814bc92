import Mathlib.Data.List.Perm.Basic
import Mathlib.Logic.Relation
import Mathlib.Tactic.Common

/-!
# Runs of a machine

A machine reads one input after the other; an input changes its state and makes it emit a list of
outputs.  Between two inputs the state may change in ways nobody asked for (`idle`).  A run is
recorded in a log, newest step first, which holds for every step the state before it and its input;
the rest is a function of these (`Step.after`, `Step.out`).

* `Run.invariant`: what holds at the start, survives idling and is kept by a step, holds of every run;
* `Run.invariant_of_path`: the same, for steps that are made of smaller changes;
* `Run.of_suffix`, `Run.of_cons`: the earlier states of a run are those of shorter runs;
* `Run.exec`: reading inputs one after the other is a run;
* `Run.balance`: what every step keeps or gives out of what it held and what came to it, every run does.
-/

namespace Resolvd.Lib

open List

/-- A machine with states `σ`, inputs `ι` and outputs `α`. -/
structure Machine (σ ι α : Type) where
  start : σ → Prop
  step : σ → ι → σ × List α
  idle : σ → σ → Prop

/-- One entry of a log. -/
structure Step (σ ι : Type) where
  before : σ
  input : ι

variable {σ ι α : Type}

abbrev Log (σ ι : Type) := List (Step σ ι)

/-- Of two elements with the same label in a list without repeated labels, there is only one. -/
theorem eq_of_nodup_filterMap {β κ : Type} {f : β → Option κ} {l : List β}
    (hd : (l.filterMap f).Nodup) {a b : β} (ha : a ∈ l) (hb : b ∈ l) {k : κ} (hka : f a = some k)
    (hkb : f b = some k) : a = b := by
  induction l with
  | nil => cases ha
  | cons c l ih =>
    have hc : ∀ {a' : β}, a' ∈ l → f a' = some k → f c ≠ some k := by
      intro a' ha' hka' hkc
      rw [filterMap_cons_some hkc] at hd
      exact (nodup_cons.mp hd).1 (mem_filterMap.mpr ⟨a', ha', hka'⟩)
    rcases mem_cons.mp ha with rfl | ha'
    · rcases mem_cons.mp hb with rfl | hb'
      · rfl
      · exact absurd hka (hc hb' hkb)
    · rcases mem_cons.mp hb with rfl | hb'
      · exact absurd hkb (hc ha' hka)
      · exact ih (hd.sublist (List.Sublist.filterMap f (sublist_cons_self c l))) ha' hb'

namespace Machine

variable (M : Machine σ ι α)

/-- The state after a step. -/
def after (st : Step σ ι) : σ := (M.step st.before st.input).1

/-- What a step emitted. -/
def out (st : Step σ ι) : List α := (M.step st.before st.input).2

/-- What all steps of a log emitted. -/
def outs (log : Log σ ι) : List α := log.flatMap M.out

/-- The log and the last state of the steps that read the inputs, without idling. -/
def exec (s : σ) : List ι → Log σ ι × σ
  | [] => ([], s)
  | i :: is =>
    let (log, s') := exec (M.step s i).1 is
    (log ++ [⟨s, i⟩], s')

/-- The log is that of a run which ends in the state. -/
inductive Run : Log σ ι → σ → Prop
  | start {s : σ} (h : M.start s) : Run [] s
  | step {log : Log σ ι} {s s' : σ} (h : Run log s) (hidle : M.idle s s') (i : ι) :
      Run (⟨s', i⟩ :: log) (M.step s' i).1

variable {M}

/-- **What holds at the start and is kept by every step holds of every run.** -/
theorem Run.invariant {I : Log σ ι → σ → Prop} (hstart : ∀ s, M.start s → I [] s)
    (hidle : ∀ log s s', I log s → M.idle s s' → I log s')
    (hstep : ∀ log s i, I log s → I (⟨s, i⟩ :: log) (M.step s i).1) {log : Log σ ι} {s : σ}
    (h : M.Run log s) : I log s := by
  induction h with
  | start h => exact hstart _ h
  | step _ hi i ih => exact hstep _ _ i (hidle _ _ _ ih hi)

/-- **An invariant along the parts of a step.**  When every step is a sequence of changes (`hpath`),
a property of the moments in the middle of a step that holds at its first moment and is kept by
every change holds at its last one.  The logs may be restricted to good ones, as long as a good log
stays good when its newest step is taken away. -/
theorem Run.invariant_of_path {μ : Type} (change : Step σ ι → μ → μ → Prop)
    (first last : Step σ ι → μ)
    (hpath : ∀ st, Relation.ReflTransGen (change st) (first st) (last st)) {Good : Log σ ι → Prop}
    (hgood : ∀ st log, Good (st :: log) → Good log) {I : Log σ ι → σ → Prop}
    {J : Log σ ι → Step σ ι → μ → Prop} (hstart : ∀ s, M.start s → I [] s)
    (hidle : ∀ log s s', I log s → M.idle s s' → I log s')
    (hfirst : ∀ log st, Good (st :: log) → I log st.before → J log st (first st))
    (hchange : ∀ log st m m', Good (st :: log) → J log st m → change st m m' → J log st m')
    (hlast : ∀ log st, Good (st :: log) → J log st (last st) → I (st :: log) (M.after st))
    {log : Log σ ι} {s : σ} (h : M.Run log s) (hg : Good log) : I log s := by
  refine Run.invariant (I := fun log s => Good log → I log s) (fun s hs _ => hstart s hs)
    (fun log s s' hI hi hg => hidle log s s' (hI hg) hi) (fun log s i hI hg => ?_) h hg
  have hJ : ∀ m, Relation.ReflTransGen (change ⟨s, i⟩) (first ⟨s, i⟩) m → J log ⟨s, i⟩ m := by
    intro m hm
    induction hm with
    | refl => exact hfirst log ⟨s, i⟩ hg (hI (hgood _ _ hg))
    | tail _ hc ih => exact hchange log ⟨s, i⟩ _ _ hg ih hc
  exact hlast log ⟨s, i⟩ hg (hJ _ (hpath ⟨s, i⟩))

/-- Executions do not depend on how a machine may idle. -/
theorem exec_congr {N : Machine σ ι α} (h : M.step = N.step) (s : σ) (is : List ι) :
    M.exec s is = N.exec s is := by
  induction is generalizing s with
  | nil => rfl
  | cons i is ih => simp only [Machine.exec, h, ih]

theorem exec_input {s : σ} {is : List ι} {st : Step σ ι} (h : st ∈ (M.exec s is).1) :
    st.input ∈ is := by
  induction is generalizing s with
  | nil => cases h
  | cons i is ih =>
    simp only [Machine.exec, mem_append, mem_singleton] at h
    rcases h with h | rfl
    · exact mem_cons_of_mem _ (ih h)
    · exact mem_cons_self

theorem exec_inputs (s : σ) (is : List ι) : (M.exec s is).1.map Step.input = is.reverse := by
  induction is generalizing s with
  | nil => rfl
  | cons i is ih => simp only [Machine.exec, map_append, ih, reverse_cons, map_cons, map_nil]

theorem exec_append (s : σ) (is js : List ι) : M.exec s (is ++ js) =
    ((M.exec (M.exec s is).2 js).1 ++ (M.exec s is).1, (M.exec (M.exec s is).2 js).2) := by
  induction is generalizing s with
  | nil => simp [Machine.exec]
  | cons i is ih => simp only [cons_append, Machine.exec, ih, append_assoc]

theorem Run.exec (hrefl : ∀ s, M.idle s s) {log : Log σ ι} {s : σ} (h : M.Run log s) (is : List ι) :
    M.Run ((M.exec s is).1 ++ log) (M.exec s is).2 := by
  induction is generalizing log s with
  | nil => exact h
  | cons i is ih =>
    have hnext := ih (h.step (hrefl s) i)
    simpa only [Machine.exec, append_assoc, cons_append, nil_append] using hnext

/-- A run goes on after idling, with inputs or without. -/
theorem Run.exec_of_idle (hrefl : ∀ s, M.idle s s) {log : Log σ ι} {s s' : σ} (h : M.Run log s)
    (hidle : M.idle s s') (is : List ι) :
    ∃ s₁, M.Run ((M.exec s' is).1 ++ log) s₁ ∧ M.idle s₁ (M.exec s' is).2 := by
  cases is with
  | nil => exact ⟨s, h, hidle⟩
  | cons i is =>
    have hnext := (h.step hidle i).exec hrefl is
    refine ⟨_, ?_, hrefl _⟩
    simpa only [Machine.exec, append_assoc, cons_append, nil_append] using hnext

theorem Run.of_cons {st : Step σ ι} {log : Log σ ι} {s : σ} (h : M.Run (st :: log) s) :
    ∃ s₀, M.Run log s₀ ∧ M.idle s₀ st.before ∧ s = M.after st := by
  cases h with
  | step h hidle i => exact ⟨_, h, hidle, rfl⟩

theorem Run.unique (hstart : ∀ s s', M.start s → M.start s' → s = s') {log : Log σ ι} {s s' : σ}
    (h : M.Run log s) (h' : M.Run log s') : s = s' := by
  cases h with
  | start hs =>
    cases h' with
    | start hs' => exact hstart _ _ hs hs'
  | step h hidle i =>
    cases h' with
    | step h' hidle' i => rfl

/-- **A law of conservation.**  When nothing is held at the start, idling changes at most the order
of what is held, and every step keeps or gives out what was held and what came with it, then what
came in the course of a run was given out or is held. -/
theorem Run.balance {β : Type} {I : σ → Prop} (held : σ → List β) (came gone : Step σ ι → List β)
    (hI : ∀ {log s s'}, M.Run log s → M.idle s s' → I s') (hstart : ∀ s, M.start s → held s = [])
    (hidle : ∀ s s', M.idle s s' → (held s').Perm (held s))
    (hstep : ∀ st, I st.before → (held st.before ++ came st).Perm (gone st ++ held (M.after st)))
    {log : Log σ ι} {s : σ} (h : M.Run log s) :
    (log.flatMap came).Perm (log.flatMap gone ++ held s) := by
  induction h with
  | start h => rw [hstart _ h]; exact .refl _
  | @step log s s' h hi i ih =>
    have hst := hstep ⟨s', i⟩ (hI h hi)
    calc
      List.Perm (came ⟨s', i⟩ ++ log.flatMap came) (log.flatMap came ++ came ⟨s', i⟩) :=
        perm_append_comm
      List.Perm _ (log.flatMap gone ++ held s' ++ came ⟨s', i⟩) :=
        (ih.trans ((hidle s s' hi).symm.append_left _)).append_right _
      List.Perm _ (log.flatMap gone ++ (gone ⟨s', i⟩ ++ held (M.after ⟨s', i⟩))) := by
        rw [append_assoc]
        exact hst.append_left _
      List.Perm _ (gone ⟨s', i⟩ ++ log.flatMap gone ++ held (M.after ⟨s', i⟩)) := by
        rw [← append_assoc]
        exact perm_append_comm.append_right _

/-- The log of a run without its newest steps is the log of a run. -/
theorem Run.of_suffix {new log : Log σ ι} {s : σ} (h : M.Run (new ++ log) s) :
    ∃ s₀, M.Run log s₀ := by
  induction new generalizing s with
  | nil => exact ⟨s, h⟩
  | cons st new ih =>
    obtain ⟨s₀, h₀, -, -⟩ := Run.of_cons h
    exact ih h₀

end Machine

/-! ### Loops that return -/

section Loops

variable {σ ρ : Type} {turn : σ → σ ⊕ ρ}

/-- So many turns of a loop, or what it has returned by then. -/
def turns (turn : σ → σ ⊕ ρ) : ℕ → σ → σ ⊕ ρ
  | 0, s => .inl s
  | n + 1, s =>
    match turn s with
    | .inl s' => turns turn n s'
    | .inr r => .inr r

theorem turns_inl {s s' : σ} (h : turn s = .inl s') (n : ℕ) :
    turns turn (n + 1) s = turns turn n s' := by
  rw [turns, h]

theorem turns_inr {s : σ} {r : ρ} (h : turn s = .inr r) : turns turn 1 s = .inr r := by
  rw [turns, h]

/-- **A loop whose turns go down in a well-founded order returns.** -/
theorem exists_turns_eq_inr {lt : σ → σ → Prop} (hwf : WellFounded lt)
    (hdown : ∀ s s', turn s = .inl s' → lt s' s) (s : σ) : ∃ n r, turns turn n s = .inr r := by
  induction s using hwf.induction with
  | _ s ih =>
    cases h : turn s with
    | inl s' =>
      obtain ⟨n, r, hn⟩ := ih s' (hdown s s' h)
      exact ⟨n + 1, r, (turns_inl h n).trans hn⟩
    | inr r => exact ⟨1, r, turns_inr h⟩

end Loops

end Resolvd.Lib
