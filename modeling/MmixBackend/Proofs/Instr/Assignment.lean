import MmixBackend.Proofs.Instr.LivePaths
import Mathlib.Data.List.Nodup
import Mathlib.Data.Set.Insert

/-!
# Definite assignment

Code assigns its temps before it reads them if the temps that have a value can be written beside it:
a set of temps in front of every line, which holds what the line reads and grows by what the line
writes. Control comes to a label from several sides, so every label has one promised set, and each
jump to it keeps the promise. `Assigns known A fs B` says that code is annotated in this way under
the promises `known`, that it starts with the temps of `A` and that those of `B` have a value behind
it.

Statements and instructions are both read as lines that mark a label, or that read and write temps and may
jump. A temp that is live somewhere has a value there, since the annotation solves the dataflow equations.

## Main statements

- `Assigns.append`, `Assigns.weaken`: one annotated list behind another, and the rule of consequence.
- `Assigns.respects`: an annotation is a solution of the dataflow equations.
- `live_of_assigns`: liveness exists, and what is live at the start has a value there.
-/

namespace MmixBackend

/-- What a line of code does to temps and to control. Nothing falls through a line that stops. -/
inductive Footprint where
  | label (l : Label)
  | op (reads writes : List Temp) (targets : List Label) (stops : Bool)

/-- The temps that have a value wherever control comes to a label. -/
abbrev Promise := Label × Set Temp

/-- The temps of `A` have a value in front of the lines, each line reads temps that have one, each
jump keeps a promise, and behind the lines the temps of `B` have a value. -/
def Assigns (known : List Promise) : (A : Set Temp) → List Footprint → (B : Set Temp) → Prop
  | A, [], B => B ⊆ A
  | A, .label l :: fs, B => ∃ S, (l, S) ∈ known ∧ S ⊆ A ∧ Assigns known S fs B
  | A, .op reads writes targets stops :: fs, B =>
    (∀ t ∈ reads, t ∈ A) ∧ (∀ l ∈ targets, ∃ S, (l, S) ∈ known ∧ S ⊆ A ∪ {t | t ∈ writes}) ∧
      Assigns known (if stops then Set.univ else A ∪ {t | t ∈ writes}) fs B

/-- The footprint of an instruction. A call comes back, and its label is not a place in the code. -/
def Instr.footprint : Instr → Footprint
  | .label l => .label l
  | .move src dst => .op [src] [dst] [] false
  | .oper _ uses defs jumps flow => .op uses defs (if flow = .call then [] else jumps) (flow = .jump)

namespace Assigns

variable {known known' : List Promise} {A A' B B' C : Set Temp} {fs fs' : List Footprint}

/-! ## §1 Rules -/

theorem nil (known : List Promise) (A : Set Temp) : Assigns known A [] A := Set.Subset.refl A

/-- **Consequence**: more promises may be made, more temps may have a value before, and fewer behind. -/
theorem weaken (h : Assigns known A fs B) (hknown : known ⊆ known') (hA : A ⊆ A') (hB : B' ⊆ B) :
    Assigns known' A' fs B' := by
  induction fs generalizing A A' with
  | nil => exact hB.trans (Set.Subset.trans h hA)
  | cons f fs ih =>
    cases f with
    | label l =>
      obtain ⟨S, hS, hSA, hrest⟩ := h
      exact ⟨S, hknown hS, hSA.trans hA, ih hrest Set.Subset.rfl⟩
    | op reads writes targets stops =>
      obtain ⟨hreads, htargets, hrest⟩ := h
      have hgrow : A ∪ {t | t ∈ writes} ⊆ A' ∪ {t | t ∈ writes} := Set.union_subset_union_left _ hA
      refine ⟨fun t ht => hA (hreads t ht), fun l hl => ?_, ih hrest ?_⟩
      · obtain ⟨S, hS, hSA⟩ := htargets l hl
        exact ⟨S, hknown hS, hSA.trans hgrow⟩
      · cases stops with
        | true => exact Set.Subset.rfl
        | false => simpa using hgrow

theorem of_subset (h : Assigns known A fs B) (hA : A ⊆ A') : Assigns known A' fs B :=
  h.weaken (List.Subset.refl _) hA Set.Subset.rfl

theorem forget (h : Assigns known A fs B) (hB : B' ⊆ B) : Assigns known A fs B' :=
  h.weaken (List.Subset.refl _) Set.Subset.rfl hB

/-- **One list behind another.** -/
theorem append (h : Assigns known A fs B) (h' : Assigns known B fs' C) :
    Assigns known A (fs ++ fs') C := by
  induction fs generalizing A with
  | nil => exact h'.of_subset h
  | cons f fs ih =>
    cases f with
    | label l =>
      obtain ⟨S, hS, hSA, hrest⟩ := h
      exact ⟨S, hS, hSA, ih hrest⟩
    | op reads writes targets stops => exact ⟨h.1, h.2.1, ih h.2.2⟩

theorem append_map {α : Type} {footprint : α → Footprint} {xs ys : List α}
    (h : Assigns known A (xs.map footprint) B) (h' : Assigns known B (ys.map footprint) C) :
    Assigns known A ((xs ++ ys).map footprint) C := by
  rw [List.map_append]
  exact h.append h'

/-- The first line and the others. -/
theorem of_cons {f : Footprint} (h : Assigns known A (f :: fs) C) :
    ∃ B, Assigns known A [f] B ∧ Assigns known B fs C := by
  cases f with
  | label l =>
    obtain ⟨S, hS, hSA, hrest⟩ := h
    exact ⟨S, ⟨S, hS, hSA, .nil known S⟩, hrest⟩
  | op reads writes targets stops => exact ⟨_, ⟨h.1, h.2.1, .nil known _⟩, h.2.2⟩

/-- A line that falls through and jumps nowhere. -/
theorem plain {reads writes : List Temp} (hreads : ∀ t ∈ reads, t ∈ A) :
    Assigns known A [.op reads writes [] false] (A ∪ {t | t ∈ writes}) := by
  refine ⟨hreads, by simp, ?_⟩
  simp [Assigns]

/-- A line that writes one temp. -/
theorem write {reads : List Temp} (hreads : ∀ t ∈ reads, t ∈ A) (t : Temp) :
    Assigns known A [.op reads [t] [] false] (insert t A) := by
  refine (plain hreads).forget ?_
  intro u hu
  simpa [or_comm] using hu

/-- A line that writes no temp. -/
theorem read {reads : List Temp} (hreads : ∀ t ∈ reads, t ∈ A) :
    Assigns known A [.op reads [] [] false] A :=
  (plain hreads).forget Set.subset_union_left

end Assigns

/-! ## §2 Annotations by position -/

/-- What a line asks of the temps in front of it, and what it leaves for the next line. -/
def Footprint.Allows (known : List Promise) (here next : Set Temp) : Footprint → Prop
  | .label l => (l, here) ∈ known ∧ next ⊆ here
  | .op reads writes targets stops =>
    (∀ t ∈ reads, t ∈ here) ∧ (∀ l ∈ targets, ∃ S, (l, S) ∈ known ∧ S ⊆ here ∪ {t | t ∈ writes}) ∧
      (stops = false → next ⊆ here ∪ {t | t ∈ writes})

namespace Assigns

variable {known : List Promise} {A B : Set Temp} {instrs : List Instr}

/-- An annotated list has a set of temps for every position. In front of a label stands what is
promised for it, which may be less than what the line before leaves. -/
theorem exists_before {fs : List Footprint} (h : Assigns known A fs B) :
    ∃ before : Nat → Set Temp, before 0 ⊆ A ∧
      ∀ (i : Nat) (f : Footprint), fs[i]? = some f → f.Allows known (before i) (before (i + 1)) := by
  induction fs generalizing A with
  | nil => exact ⟨fun _ => ∅, Set.empty_subset A, by simp⟩
  | cons f fs ih =>
    cases f with
    | label l =>
      obtain ⟨S, hS, hSA, hrest⟩ := h
      obtain ⟨before, hstart, hbefore⟩ := ih hrest
      refine ⟨fun | 0 => S | i + 1 => before i, hSA, fun i f hf => ?_⟩
      cases i with
      | zero =>
        cases hf
        exact ⟨hS, hstart⟩
      | succ i => exact hbefore i f hf
    | op reads writes targets stops =>
      obtain ⟨hreads, htargets, hrest⟩ := h
      obtain ⟨before, hstart, hbefore⟩ := ih hrest
      refine ⟨fun | 0 => A | i + 1 => before i, Set.Subset.rfl, fun i f hf => ?_⟩
      cases i with
      | zero =>
        cases hf
        refine ⟨hreads, htargets, fun hstops => ?_⟩
        subst hstops
        exact hstart
      | succ i => exact hbefore i f hf

end Assigns

namespace Instr

variable {known : List Promise} {here next : Set Temp} {i : Instr}

theorem use_mem (h : i.footprint.Allows known here next) {t : Temp} (ht : t ∈ i.uses) : t ∈ here := by
  cases i with
  | label l => cases ht
  | move src dst => exact h.1 t ht
  | oper op uses defs jumps flow => exact h.1 t ht

theorem promise_of_jump (h : i.footprint.Allows known here next) (hflow : i.flow ≠ .call) {l : Label}
    (hl : l ∈ i.jumps) : ∃ S, (l, S) ∈ known ∧ S ⊆ here ∪ {t | t ∈ i.defs} := by
  cases i with
  | label l => cases hl
  | move src dst => cases hl
  | oper op uses defs jumps flow =>
    refine h.2.1 l ?_
    rw [if_neg (show flow ≠ .call from hflow)]
    exact hl

theorem next_subset (h : i.footprint.Allows known here next) (hflow : i.flow ≠ .jump) :
    next ⊆ here ∪ {t | t ∈ i.defs} := by
  cases i with
  | label l => exact h.2.trans Set.subset_union_left
  | move src dst => exact h.2.2 rfl
  | oper op uses defs jumps flow => exact h.2.2 (decide_eq_false hflow)

end Instr

/-! ## §3 Annotations and liveness -/

section Liveness

open Liveness

variable {known : List Promise} {A B : Set Temp} {instrs : List Instr} {exits : Std.TreeMap Label TempSet}

/-- One label, one promise. -/
theorem promise_unique (hkeys : (known.map Prod.fst).Nodup) {l : Label} {S S' : Set Temp}
    (h : (l, S) ∈ known) (h' : (l, S') ∈ known) : S = S' :=
  congrArg Prod.snd (List.inj_on_of_nodup_map hkeys h h' rfl)

/-- **An annotation solves the dataflow equations**: the temps that have a value in front of each
instruction, together with those that it defines behind it. -/
theorem Assigns.respects (h : Assigns known A (instrs.map Instr.footprint) B)
    (hkeys : (known.map Prod.fst).Nodup)
    (hexits : ∀ l live, exits[l]? = some live → ∀ S, (l, S) ∈ known → ∀ t ∈ live, t ∈ S) :
    ∃ before : Nat → Set Temp, before 0 ⊆ A ∧
      Respects instrs exits (fun i t => t ∈ before i) fun i t => t ∈ before i ∨ DefinesAt instrs i t := by
  obtain ⟨before, hstart, hbefore⟩ := h.exists_before
  have hallows : ∀ {i : Nat} {instr : Instr}, instrs[i]? = some instr →
      instr.footprint.Allows known (before i) (before (i + 1)) := by
    intro i instr hi
    apply hbefore
    rw [List.getElem?_map, hi]
    rfl
  -- What an instruction leaves is what stood in front of it and what it defines.
  have hleft : ∀ {i : Nat} {instr : Instr} {S : Set Temp} {t : Temp}, instrs[i]? = some instr →
      S ⊆ before i ∪ {t | t ∈ instr.defs} → t ∈ S → t ∈ before i ∨ DefinesAt instrs i t := by
    intro i instr S t hi hS ht
    exact (hS ht).imp_right fun hdef => ⟨instr, hi, hdef⟩
  refine ⟨before, hstart, ?_, ?_, ?_, ?_⟩
  · intro i instr t hi ht
    exact Instr.use_mem (hallows hi) ht
  · rintro i instr t hi (hbefore | ⟨instr', hi', hdef⟩) hnot
    · exact hbefore
    · rw [hi] at hi'
      cases hi'
      exact absurd hdef hnot
  · rintro i j t ⟨instr, hi, ⟨hflow, rfl, -⟩ | ⟨hflow, l, hl, hj⟩⟩ ht
    · exact hleft hi (Instr.next_subset (hallows hi) hflow) ht
    · -- The promise for the label is the set that stands in front of it.
      obtain ⟨S, hS, hkept⟩ := Instr.promise_of_jump (hallows hi) hflow hl
      have hhere : (l, before j) ∈ known := (hallows (labelIndex_eq_some_iff.mp hj).1).1
      rw [promise_unique hkeys hS hhere] at hkept
      exact hleft hi hkept ht
  · rintro i l live t ⟨instr, hi, hflow, hl, -⟩ hlive ht
    obtain ⟨S, hS, hkept⟩ := Instr.promise_of_jump (hallows hi) hflow hl
    exact hleft hi hkept (hexits l live hlive S hS t ht)

/-- **What is live has a value.** If code is annotated, with one promise for each of its labels and
exits and none for other labels, then the analysis finds its liveness, and every temp that is live
at the start has a value there. -/
theorem live_of_assigns (h : Assigns known A (instrs.map Instr.footprint) B)
    (hkeys : (known.map Prod.fst).Nodup) (hknown : ∀ p ∈ known, .label p.1 ∈ instrs ∨ p.1 ∈ exits)
    (hexits : ∀ l live, exits[l]? = some live → ∀ S, (l, S) ∈ known → ∀ t ∈ live, t ∈ S) :
    ∃ s, solve instrs exits = .ok s ∧ ∀ t, s.Before 0 t → t ∈ A := by
  obtain ⟨before, hstart, hrespects⟩ := h.respects hkeys hexits
  have hclosed : ClosedJumps instrs exits := by
    intro instr hi hflow l hl
    obtain ⟨i, hi⟩ := List.mem_iff_getElem?.mp hi
    obtain ⟨before, -, hbefore⟩ := h.exists_before
    obtain ⟨S, hS, -⟩ := Instr.promise_of_jump (hbefore i instr.footprint (by simp [hi])) hflow hl
    exact hknown (l, S) hS
  obtain ⟨s, hs⟩ := solve_eq_ok_iff.mpr hclosed
  exact ⟨s, hs, fun t ht => hstart ((Solution.least hs hrespects).1 0 t ht)⟩

end Liveness

end MmixBackend
