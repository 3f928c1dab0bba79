import MmixBackend.Fault
import MmixBackend.Instr.Basic

/-!
# Liveness

The temps that are live before and after every instruction of a list: the least solution of the
dataflow equations

* live after `i` is the union of what is live before its successors and of what the exits it jumps
  to need,
* live before `i` is what `i` uses and what is live after it and not defined by it.

The sets start from the uses and grow in backward sweeps over the list until a sweep changes
nothing. Every sweep that changes something adds a temp to one of the sets, which bounds their
number.
-/

namespace MmixBackend

/-- What is live around one instruction. -/
structure LivePoint where
  /-- Live before the instruction. -/
  before : TempSet := ∅
  /-- Live after the instruction. -/
  after : TempSet := ∅
  deriving DecidableEq, Inhabited

namespace Liveness

/-- The index of the last occurrence of every label. -/
def labelIndex (instrs : List Instr) : Std.TreeMap Label Nat :=
  instrs.zipIdx.foldl (fun labels (instr, i) =>
    match instr with
    | .label l => labels.insert l i
    | _ => labels) ∅

/-- The part of the dataflow equations that the control flow gives for one instruction. -/
structure Edges where
  /-- The successors inside the list. -/
  succs : List Nat := []
  /-- What the exits need that the instruction jumps to. -/
  exits : TempSet := ∅
  deriving DecidableEq, Inhabited

/-- Adds the jump targets of an instruction to its edges. -/
def addTargets (labels : Std.TreeMap Label Nat) (exits : Std.TreeMap Label TempSet) :
    Edges → List Label → Except Fault Edges
  | edges, [] => .ok edges
  | edges, l :: ls =>
    match labels[l]? with
    | some j => addTargets labels exits { edges with succs := edges.succs ++ [j] } ls
    | none =>
      match exits[l]? with
      | some live => addTargets labels exits { edges with exits := edges.exits ∪ live } ls
      | none => .error (.unknownJump l)

/-- The edges of the instruction at index `i` in a list of `n`. -/
def edgesOf (labels : Std.TreeMap Label Nat) (exits : Std.TreeMap Label TempSet) (n i : Nat)
    (instr : Instr) : Except Fault Edges :=
  let falls : Edges := { succs := if instr.flow ≠ .jump ∧ i + 1 < n then [i + 1] else [] }
  if instr.flow = .call then .ok falls else addTargets labels exits falls instr.jumps

/-- The edges of all instructions of a list. -/
def edges (instrs : List Instr) (exits : Std.TreeMap Label TempSet) : Except Fault (List Edges) :=
  let labels := labelIndex instrs
  instrs.zipIdx.mapM fun (instr, i) => edgesOf labels exits instrs.length i instr

/-- One instruction as the sweeps see it. -/
structure Node where
  index : Nat
  uses : TempSet
  defs : TempSet
  edges : Edges

/-- The nodes of a list with the given edges. -/
def nodes (instrs : List Instr) (edges : List Edges) : List Node :=
  (instrs.zip edges).zipIdx.map fun ((instr, e), i) =>
    { index := i, uses := .ofList instr.uses, defs := .ofList instr.defs, edges := e }

/-- The sets before the first sweep. -/
def start (nodes : List Node) : Array LivePoint :=
  (nodes.map fun n => { before := n.uses : LivePoint }).toArray

/-- Applies the equations to one instruction. -/
def update (points : Array LivePoint) (n : Node) (p : LivePoint) : LivePoint :=
  let after := n.edges.succs.foldl (fun s j => s ∪ (points.getD j default).before)
    (p.after ∪ n.edges.exits)
  { before := p.before ∪ (after \ n.defs), after }

/-- Visits one instruction, remembering whether a set has grown. -/
def visit (n : Node) (state : Array LivePoint × Bool) : Array LivePoint × Bool :=
  let (points, changed) := state
  let old := points.getD n.index default
  let new := update points n old
  if new = old then (points, changed) else (points.setIfInBounds n.index new, true)

/-- A sweep over the instructions from the last to the first. -/
def sweep (nodes : List Node) (points : Array LivePoint) : Array LivePoint × Bool :=
  nodes.foldr visit (points, false)

/-- Sweeps until nothing changes and counts the sweeps. -/
def iterate (nodes : List Node) : (fuel passes : Nat) → Array LivePoint → Array LivePoint × Nat
  | 0, passes, points => (points, passes)
  | fuel + 1, passes, points =>
    match sweep nodes points with
    | (points', true) => iterate nodes fuel (passes + 1) points'
    | (points', false) => (points', passes + 1)

/-- All temps that can become live. -/
def candidates (nodes : List Node) : TempSet :=
  nodes.foldl (fun s n => (s ∪ n.uses) ∪ n.edges.exits) ∅

/-- Enough sweeps: each but the last adds a temp to one of the two sets of an instruction. -/
def enoughSweeps (nodes : List Node) : Nat := 2 * nodes.length * (candidates nodes).size + 1

/-- The result of an analysis. -/
structure Solution where
  /-- What is live around each instruction, in order. -/
  points : List LivePoint
  /-- The number of sweeps, the last one without a change. -/
  passes : Nat
  deriving DecidableEq, Inhabited

/-- Solves the equations for an instruction list; `exits` gives what is live at labels outside of
it. -/
def solve (instrs : List Instr) (exits : Std.TreeMap Label TempSet) : Except Fault Solution := do
  let es ← edges instrs exits
  let ns := nodes instrs es
  let (points, passes) := iterate ns (enoughSweeps ns) 0 (start ns)
  return { points := points.toList, passes }

end Liveness

namespace Code

/-- What is live at the exit of a function: its return value, unless that has been spilled. -/
def liveAtExit (c : Code) : TempSet :=
  if c.spills.contains c.frame.rv then ∅ else (∅ : TempSet).insert c.frame.rv

/-- The liveness of a function. -/
def liveness (c : Code) : Except Fault Liveness.Solution :=
  Liveness.solve c.instrs ((∅ : Std.TreeMap Label TempSet).insert c.exit c.liveAtExit)

/-- A text padded with blanks on the right to a width. -/
def padRight (width : Nat) (s : String) : String := s.pushn ' ' (width - s.length)

/-- The listing of a function with the live sets of every instruction. -/
def livenessListing (c : Code) (live : List LivePoint) (window : Int) : String :=
  let regs : Registers := { colors := c.regs, window }
  c.heading ++ "\n" ++ String.join ((c.instrs.zip live).map fun (i, p) =>
    padRight 32 (i.line regs) ++ " in=" ++ p.before.text ++ " out=" ++ p.after.text ++ "\n") ++ "\n"

end Code

end MmixBackend
