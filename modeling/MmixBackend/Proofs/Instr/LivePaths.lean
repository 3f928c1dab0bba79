import MmixBackend.Proofs.Instr.Liveness
import Mathlib.Data.List.Chain

/-!
# Live temps and paths

A temp is live after an instruction exactly if control can go from there along a path on which the temp
is used before it is defined. A use is one by an instruction, or the need of an exit that the path
leaves to.

Soundness of the analysis follows a path from its end to its start, by the dataflow equations. For the
other direction the temps that paths lead to satisfy the equations themselves, so the least solution is
contained in them.

## Main statements

- `UsedBehind.of_respects`: a solution of the equations holds every temp that a path uses.
- `respects_usedBehind`: the temps that paths use are a solution.
- `Solution.after_iff`: the analysis finds exactly these temps.
- `liveness_exact`: the analysis ends, and its sets are the least solution of the equations.
-/

namespace MmixBackend.Liveness

variable {instrs : List Instr} {exits : Std.TreeMap Label TempSet} {i j : Nat} {t : Temp}

/-! ## §1 Paths -/

/-- The last place of a label in a list, which is where a jump to the label leads. -/
def LastPlace (instrs : List Instr) (l : Label) (j : Nat) : Prop :=
  instrs[j]? = some (.label l) ∧ ∀ j' > j, instrs[j']? ≠ some (.label l)

/-- Control can go from `i` to `j`: to the next instruction, unless the one at `i` only jumps, or to a
jump target, unless the one at `i` is a call. -/
def Flows (instrs : List Instr) (i j : Nat) : Prop :=
  ∃ instr, instrs[i]? = some instr ∧
    ((instr.flow ≠ .jump ∧ j = i + 1 ∧ j < instrs.length) ∨
      (instr.flow ≠ .call ∧ ∃ l ∈ instr.jumps, LastPlace instrs l j))

/-- The instruction at `i` uses the temp. -/
def UsesAt (instrs : List Instr) (i : Nat) (t : Temp) : Prop :=
  ∃ instr, instrs[i]? = some instr ∧ t ∈ instr.uses

/-- The instruction at `i` defines the temp. -/
def DefinesAt (instrs : List Instr) (i : Nat) (t : Temp) : Prop :=
  ∃ instr, instrs[i]? = some instr ∧ t ∈ instr.defs

/-- The instruction at `i` jumps to a label outside of the list where the temp is needed. -/
def NeededOutside (instrs : List Instr) (exits : Std.TreeMap Label TempSet) (i : Nat) (t : Temp) :
    Prop :=
  ∃ l live, Leaves instrs i l ∧ exits[l]? = some live ∧ t ∈ live

/-- A path leaves the instruction at `i` on which the temp is used before it is defined: it ends at an
instruction that uses the temp, or at one that jumps to where the temp is needed. -/
def UsedBehind (instrs : List Instr) (exits : Std.TreeMap Label TempSet) (i : Nat) (t : Temp) : Prop :=
  (∃ path j, List.IsChain (Flows instrs) (i :: (path ++ [j])) ∧
      (∀ p ∈ path, ¬DefinesAt instrs p t) ∧ UsesAt instrs j t) ∨
    ∃ path, List.IsChain (Flows instrs) (i :: path) ∧
      (∀ p ∈ path, ¬DefinesAt instrs p t) ∧
      NeededOutside instrs exits ((i :: path).getLast (List.cons_ne_nil _ _)) t

theorem successor_iff_flows : Successor instrs i j ↔ Flows instrs i j := by
  simp only [Successor, Flows, LastPlace, labelIndex_eq_some_iff]

theorem Flows.lt (h : Flows instrs i j) : j < instrs.length := by
  obtain ⟨instr, -, ⟨-, -, hlt⟩ | ⟨-, l, -, hj, -⟩⟩ := h
  · exact hlt
  · exact (List.getElem?_eq_some_iff.mp hj).1

/-! ## §2 Paths and the equations -/

/-- A path to a use is one step longer than the path from the next instruction. -/
theorem UsedBehind.step (hflow : Flows instrs i j) (hdef : ¬DefinesAt instrs j t)
    (h : UsedBehind instrs exits j t) : UsedBehind instrs exits i t := by
  rcases h with ⟨path, k, hchain, hpath, huse⟩ | ⟨path, hchain, hpath, hneed⟩
  · refine .inl ⟨j :: path, k, List.isChain_cons_cons.mpr ⟨hflow, hchain⟩, ?_, huse⟩
    exact List.forall_mem_cons.mpr ⟨hdef, hpath⟩
  · refine .inr ⟨j :: path, List.isChain_cons_cons.mpr ⟨hflow, hchain⟩, ?_, ?_⟩
    · exact List.forall_mem_cons.mpr ⟨hdef, hpath⟩
    · rwa [List.getLast_cons (List.cons_ne_nil _ _)]

/-- A use by the next instruction is a path of one step. -/
theorem UsedBehind.use (hflow : Flows instrs i j) (huse : UsesAt instrs j t) :
    UsedBehind instrs exits i t :=
  .inl ⟨[], j, List.isChain_cons_cons.mpr ⟨hflow, List.isChain_singleton j⟩,
    fun _ hp => (List.not_mem_nil hp).elim, huse⟩

/-- A path starts with a step to another instruction, or it leaves the list at once. -/
theorem UsedBehind.cases (h : UsedBehind instrs exits i t) :
    (∃ j, Flows instrs i j ∧
      (UsesAt instrs j t ∨ (UsedBehind instrs exits j t ∧ ¬DefinesAt instrs j t))) ∨
      NeededOutside instrs exits i t := by
  rcases h with ⟨path, k, hchain, hpath, huse⟩ | ⟨path, hchain, hpath, hneed⟩
  · cases path with
    | nil => exact .inl ⟨k, (List.isChain_cons_cons.mp hchain).1, .inl huse⟩
    | cons j path =>
      obtain ⟨hflow, hrest⟩ := List.isChain_cons_cons.mp hchain
      obtain ⟨hdef, hdefs⟩ := List.forall_mem_cons.mp hpath
      exact .inl ⟨j, hflow, .inr ⟨.inl ⟨path, k, hrest, hdefs, huse⟩, hdef⟩⟩
  · cases path with
    | nil => exact .inr hneed
    | cons j path =>
      obtain ⟨hflow, hrest⟩ := List.isChain_cons_cons.mp hchain
      obtain ⟨hdef, hdefs⟩ := List.forall_mem_cons.mp hpath
      rw [List.getLast_cons (List.cons_ne_nil _ _)] at hneed
      exact .inl ⟨j, hflow, .inr ⟨.inr ⟨path, hrest, hdefs, hneed⟩, hdef⟩⟩

/-- **The temps that paths use solve the equations.** -/
theorem respects_usedBehind : Respects instrs exits
    (fun i t => UsesAt instrs i t ∨ (UsedBehind instrs exits i t ∧ ¬DefinesAt instrs i t))
    (UsedBehind instrs exits) where
  uses hi ht := .inl ⟨_, hi, ht⟩
  through hi hafter hdef := by
    refine .inr ⟨hafter, ?_⟩
    rintro ⟨instr', hi', hmem⟩
    rw [hi] at hi'
    cases hi'
    exact hdef hmem
  flows hsucc hbefore := by
    have hflow := successor_iff_flows.mp hsucc
    rcases hbefore with huse | ⟨hafter, hdef⟩
    · exact .use hflow huse
    · exact hafter.step hflow hdef
  leaves hleaves hlive ht :=
    .inr ⟨[], List.isChain_singleton _, fun _ hp => (List.not_mem_nil hp).elim, _, _, hleaves, hlive, ht⟩

section Respects

variable {before after : Nat → Temp → Prop}

/-- What the equations say of a temp that an instruction does not define. -/
theorem Respects.pass (h : Respects instrs exits before after) (hflow : Flows instrs i j)
    (hdef : ¬DefinesAt instrs j t) (hafter : after j t) : after i t := by
  have hlt := hflow.lt
  have hj : instrs[j]? = some instrs[j] := List.getElem?_eq_getElem hlt
  exact h.flows (successor_iff_flows.mpr hflow)
    (h.through hj hafter fun hmem => hdef ⟨_, hj, hmem⟩)

/-- A solution is carried backwards along a path that does not define the temp. -/
theorem Respects.along (h : Respects instrs exits before after) {path : List Nat}
    (hchain : List.IsChain (Flows instrs) (i :: path)) (hpath : ∀ p ∈ path, ¬DefinesAt instrs p t)
    (hlast : after ((i :: path).getLast (List.cons_ne_nil _ _)) t) : after i t := by
  induction path generalizing i with
  | nil => exact hlast
  | cons j path ih =>
    obtain ⟨hflow, hrest⟩ := List.isChain_cons_cons.mp hchain
    obtain ⟨hdef, hdefs⟩ := List.forall_mem_cons.mp hpath
    rw [List.getLast_cons (List.cons_ne_nil _ _)] at hlast
    exact h.pass hflow hdef (ih hrest hdefs hlast)

/-- **Every solution holds the temps that paths use.** -/
theorem UsedBehind.of_respects (h : Respects instrs exits before after)
    (hused : UsedBehind instrs exits i t) : after i t := by
  rcases hused with ⟨path, j, hchain, hpath, instr, hj, hmem⟩ | ⟨path, hchain, hpath, hneed⟩
  · -- The last step of the path leads to the use.
    rw [← List.cons_append] at hchain
    obtain ⟨hfront, -, hjoin⟩ := List.isChain_append.mp hchain
    have hflow := hjoin _ (List.getLast?_eq_some_getLast (List.cons_ne_nil i path)) j rfl
    exact h.along hfront hpath (h.flows (successor_iff_flows.mpr hflow) (h.uses hj hmem))
  · obtain ⟨l, live, hleaves, hlive, ht⟩ := hneed
    exact h.along hchain hpath (h.leaves hleaves hlive ht)

end Respects

/-! ## §3 The analysis -/

/-- Sweeping again over sets that satisfy the equations changes none of them. -/
theorem sweep_of_stable {ns : List Node} {points : Array LivePoint} (h : Stable ns points) :
    sweep ns points = (points, false) := by
  induction ns with
  | nil => rfl
  | cons n ns ih =>
    obtain ⟨hn, hns⟩ := List.forall_mem_cons.mp h
    have hrest : ns.foldr visit (points, false) = (points, false) := ih hns
    simp only [sweep, List.foldr_cons, hrest, visit, hn, if_true]

theorem iterate_of_stable {ns : List Node} {points : Array LivePoint} (h : Stable ns points)
    (fuel passes : Nat) : iterate ns (fuel + 1) passes points = (points, passes + 1) := by
  simp only [iterate, sweep_of_stable h]

/-- The dataflow equations: what is live before an instruction, and what is live after it. -/
structure Solves (instrs : List Instr) (exits : Std.TreeMap Label TempSet)
    (before after : Nat → Temp → Prop) : Prop where
  before_iff : ∀ {i t}, i < instrs.length →
    (before i t ↔ UsesAt instrs i t ∨ (after i t ∧ ¬DefinesAt instrs i t))
  after_iff : ∀ {i t}, i < instrs.length →
    (after i t ↔ (∃ j, Flows instrs i j ∧ before j t) ∨ NeededOutside instrs exits i t)

theorem Solves.respects {before after : Nat → Temp → Prop} (h : Solves instrs exits before after) :
    Respects instrs exits before after where
  uses hi ht := (h.before_iff (List.getElem?_eq_some_iff.mp hi).1).mpr (.inl ⟨_, hi, ht⟩)
  through hi hafter hdef := by
    refine (h.before_iff (List.getElem?_eq_some_iff.mp hi).1).mpr (.inr ⟨hafter, ?_⟩)
    rintro ⟨instr', hi', hmem⟩
    rw [hi] at hi'
    cases hi'
    exact hdef hmem
  flows hsucc hbefore := by
    obtain ⟨instr, hi, -⟩ := id hsucc
    exact (h.after_iff (List.getElem?_eq_some_iff.mp hi).1).mpr
      (.inl ⟨_, successor_iff_flows.mp hsucc, hbefore⟩)
  leaves hleaves hlive ht := by
    obtain ⟨instr, hi, -⟩ := id hleaves
    exact (h.after_iff (List.getElem?_eq_some_iff.mp hi).1).mpr (.inr ⟨_, _, hleaves, hlive, ht⟩)

namespace Solution

variable {s : Solution}

/-- **A temp is live after an instruction exactly if a path uses it.** -/
theorem after_iff (h : solve instrs exits = .ok s) : s.After i t ↔ UsedBehind instrs exits i t :=
  ⟨(least h respects_usedBehind).2 i t, UsedBehind.of_respects (respects h)⟩

theorem before_iff (h : solve instrs exits = .ok s) (hi : i < instrs.length) :
    s.Before i t ↔ UsesAt instrs i t ∨ (s.After i t ∧ ¬DefinesAt instrs i t) := by
  rw [after_iff h]
  refine ⟨(least h respects_usedBehind).1 i t, ?_⟩
  have hget : instrs[i]? = some instrs[i] := List.getElem?_eq_getElem hi
  rintro (⟨instr, hinstr, hmem⟩ | ⟨hlive, hdef⟩)
  · exact (respects h).uses hinstr hmem
  · exact (respects h).through hget ((after_iff h).mpr hlive) fun hmem => hdef ⟨_, hget, hmem⟩

/-- The sets that the analysis finds satisfy the equations. -/
theorem solves (h : solve instrs exits = .ok s) : Solves instrs exits s.Before s.After where
  before_iff hi := before_iff h hi
  after_iff {i t} _ := by
    constructor
    · intro hlive
      rcases ((after_iff h).mp hlive).cases with ⟨j, hflow, hj⟩ | hneed
      · exact .inl ⟨j, hflow, (before_iff h hflow.lt).mpr (by rwa [after_iff h])⟩
      · exact .inr hneed
    · rintro (⟨j, hflow, hlive⟩ | ⟨l, live, hleaves, hlive, ht⟩)
      · exact (respects h).flows (successor_iff_flows.mpr hflow) hlive
      · exact (respects h).leaves hleaves hlive ht

end Solution

/-- **Liveness is exact.** If all jumps lead to labels of the list or to exits, the analysis comes to an
end without a fault. A temp is live after an instruction exactly if it is used, before it is defined, on
a path that leaves the instruction, and live before it exactly if the instruction uses it, or it is live
after the instruction and not defined by it. The sets are the least solution of the dataflow equations,
and sweeping over them again changes nothing. -/
theorem liveness_exact (instrs : List Instr) (exits : Std.TreeMap Label TempSet)
    (hclosed : ClosedJumps instrs exits) :
    ∃ s, solve instrs exits = .ok s ∧ s.points.length = instrs.length ∧
      (∀ i < instrs.length, ∀ t,
        (s.After i t ↔ UsedBehind instrs exits i t) ∧
        (s.Before i t ↔ UsesAt instrs i t ∨ (s.After i t ∧ ¬DefinesAt instrs i t))) ∧
      Solves instrs exits s.Before s.After ∧
      (∀ before after, Solves instrs exits before after →
        (∀ i t, s.Before i t → before i t) ∧ ∀ i t, s.After i t → after i t) ∧
      ∃ es, edges instrs exits = .ok es ∧ ∀ fuel passes,
        iterate (nodes instrs es) (fuel + 1) passes s.points.toArray
          = (s.points.toArray, passes + 1) := by
  obtain ⟨s, hs⟩ := solve_eq_ok_iff.mpr hclosed
  obtain ⟨es, hes, hlen, hstable, -⟩ := solve_spec hs
  refine ⟨s, hs, hlen, fun i hi t => ?_, Solution.solves hs, fun before after h => ?_, es, hes, ?_⟩
  · exact ⟨Solution.after_iff hs, Solution.before_iff hs hi⟩
  · exact Solution.least hs h.respects
  · exact iterate_of_stable hstable

/-- A loop whose second label of one name is the jump target, with unreachable code behind a jump. -/
def twiceLabelled : List Instr :=
  [.label "again", .plain (.loadWyde .low 1) [] [⟨1⟩], .label "again", .move ⟨1⟩ ⟨2⟩,
    .oper (.branch "again") [⟨3⟩] [] ["again", "out"] .next, .oper (.goto "out") [] [] ["out"]
      .jump, .move ⟨4⟩ ⟨1⟩]

theorem liveness_exact_twiceLabelled : ∃ s,
    solve twiceLabelled ((∅ : Std.TreeMap Label TempSet).insert "out" (.ofList [⟨2⟩])) = .ok s ∧
      s.After 4 ⟨1⟩ ∧ ¬s.After 0 ⟨1⟩ := by
  have hclosed : ClosedJumps twiceLabelled
      ((∅ : Std.TreeMap Label TempSet).insert "out" (.ofList [⟨2⟩])) := by
    simp [ClosedJumps, twiceLabelled, Instr.plain, Instr.jumps]
  obtain ⟨s, hs, -, hpaths, -⟩ := liveness_exact _ _ hclosed
  refine ⟨s, hs, (hpaths 4 (by decide) ⟨1⟩).1.mpr ?_, fun hlive => ?_⟩
  · have hlast : LastPlace twiceLabelled "again" 2 :=
      labelIndex_eq_some_iff.mp (by decide +kernel)
    refine .inl ⟨[2], 3, ?_, ?_, _, rfl, List.mem_singleton_self _⟩
    · have hback : Flows twiceLabelled 4 2 := ⟨_, rfl, .inr ⟨by decide, "again", by decide, hlast⟩⟩
      have hnext : Flows twiceLabelled 2 3 := ⟨_, rfl, .inl ⟨by decide, rfl, by decide⟩⟩
      exact .cons_cons hback (.cons_cons hnext (.singleton 3))
    · simp [DefinesAt, twiceLabelled, Instr.defs]
  · rcases ((hpaths 0 (by decide) ⟨1⟩).1.mp hlive).cases with ⟨j, hflow, hj⟩ | ⟨l, live, hleaves, -⟩
    · -- Behind the first label comes the definition.
      obtain rfl : j = 1 := by
        obtain ⟨instr, hi, ⟨-, hj, -⟩ | ⟨-, l, hl, -⟩⟩ := hflow
        · exact hj
        · cases hi
          cases hl
      rcases hj with ⟨instr, hi, hmem⟩ | ⟨-, hdef⟩
      · cases hi
        cases hmem
      · exact hdef ⟨_, rfl, List.mem_singleton_self _⟩
    · obtain ⟨instr, hi, -, hl, -⟩ := hleaves
      cases hi
      cases hl

end MmixBackend.Liveness
