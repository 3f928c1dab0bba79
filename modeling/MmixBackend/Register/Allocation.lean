import MmixBackend.Instr.Selection
import MmixBackend.Register.Coloring

/-!
# Register allocation

Allocation works in rounds: it computes liveness, builds the interference graph and colours it with
the registers `$0` to `$(k-1)`. If some temps get no colour, each of them moves to a slot of the
frame, every instruction that uses it loads it into a fresh temp first and every instruction that
defines it stores a fresh temp afterwards, and the next round begins. Temps made for loads and stores
are avoided as further spills. The frame pointer takes no part; it lives in `$253`.

Allocation fails if the number of registers is out of range, if one instruction alone needs more
registers, or if it has not finished after one round for each temp of the code and one more. What has
been spilled before a failure stays spilled.
-/

namespace MmixBackend

/-- The register of the heap pointer. -/
def heapRegister : Int := 252

/-- The register of the frame pointer. -/
def frameRegister : Int := 253

/-- The largest number of registers: the call window comes next and stays below the heap pointer. -/
def maxRegisters : Int := heapRegister - 1

/-- The smallest number of registers: spill code holds a value and an offset at the same time. -/
def minRegisters : Int := 2

namespace Instr

/-- Renames a temp in a list. -/
def renameIn (old new : Temp) (ts : List Temp) : List Temp :=
  ts.map fun t => if t = old then new else t

/-- Renames a temp in an instruction. -/
def rename (old new : Temp) : Instr → Instr
  | oper op uses defs jumps flow => oper op (renameIn old new uses) (renameIn old new defs) jumps flow
  | move src dst => move (if src = old then new else src) (if dst = old then new else dst)
  | label l => label l

/-- Rewrites an instruction for a temp that lives in the slot at `offset` from `fp`. Returns the new
instructions and the temps made for them. -/
def spill (fp t : Temp) (offset : Word) (instr : Instr) : StateM Supply (List Instr × List Temp) := do
  let used := t ∈ instr.uses
  let defined := t ∈ instr.defs
  if ¬used ∧ ¬defined then
    return ([instr], [])
  -- One temp takes the place of the spilled one, for the load and for the store.
  let value ← freshTemp
  let (loads, made₁) ← if used then do
      let (const, off) ← constant offset
      pure (const ++ [plain .loadIndexed [fp, off] [value]], [off])
    else pure ([], [])
  let (stores, made₂) ← if defined then do
      let (const, off) ← constant offset
      pure (const ++ [plain .storeIndexed [value, fp, off] []], [off])
    else pure ([], [])
  return (loads ++ instr.rename t value :: stores, value :: made₁ ++ made₂)

/-- The distinct temps of a list other than `fp`. -/
def distinctTemps (fp : Temp) (ts : List Temp) : Nat := ((TempSet.ofList ts).erase fp).size

/-- The number of registers an instruction needs by itself; a definition may share the register of a
use. -/
def pressure (fp : Temp) (instr : Instr) : Nat :=
  max (distinctTemps fp instr.uses) (distinctTemps fp instr.defs)

end Instr

/-- A finished allocation. -/
structure Allocation where
  /-- The number of rounds, the last one without spills. -/
  rounds : Nat
  /-- The temps moved to memory, in order. -/
  spilled : List Temp
  deriving DecidableEq, Inhabited, Repr

namespace Code

/-- The slot that the next spilled temp gets. -/
def nextSlot (c : Code) : Word :=
  -c.frame.locsSize - savedRegsSize - (c.tempSize + Word.byteSize)

/-- Rewrites an instruction list for a spilled temp. -/
def spillInstrs (fp t : Temp) (offset : Word) : List Instr → StateM Supply (List Instr × TempSet)
  | [] => return ([], ∅)
  | instr :: rest => do
    let (first, made) ← instr.spill fp t offset
    let (others, madeLater) ← spillInstrs fp t offset rest
    return (first ++ others, TempSet.ofList made ∪ madeLater)

/-- Moves a temp into a new slot of the frame; also returns the temps made on the way. -/
def spill (c : Code) (t : Temp) : StateM Supply (Code × TempSet) := do
  let offset := c.nextSlot
  let (instrs, made) ← spillInstrs c.frame.fp t offset c.instrs
  return ({ c with instrs, tempSize := c.tempSize + Word.byteSize, spills := c.spills.insert t offset },
    made)

/-- Moves several temps into slots one after the other. -/
def spillAll (c : Code) (made : TempSet) : List Temp → StateM Supply (Code × TempSet)
  | [] => return (c, made)
  | t :: ts => do
    let (c', made') ← c.spill t
    spillAll c' (made ∪ made') ts

/-- The first instruction that needs more than `k` registers by itself. -/
def checkPressure (c : Code) (k : Int) : Except Fault Unit :=
  match c.instrs.find? fun i => k < i.pressure c.frame.fp with
  | some i => .error (.registerPressure (i.text {}) (i.pressure c.frame.fp) k)
  | none => .ok ()

/-- The outcome of one attempt to colour the code: its graph and the colouring. -/
def tryColor (c : Code) (k : Int) (avoid : TempSet) : Except Fault (InterferenceGraph × Coloring) := do
  c.checkPressure k
  let live ← c.liveness
  let graph := InterferenceGraph.build c.frame.fp c.instrs live.points
  return (graph, graph.color k.toNat avoid)

/-- The code with the registers of a complete colouring. -/
def withColors (c : Code) (graph : InterferenceGraph) (colors : Array (Option Nat)) : Code :=
  let assigned := (graph.vertices.toList.zip colors.toList).foldl (fun regs (v, color) =>
    match color with
    | some n => regs.insert v.temp (n : Int)
    | none => regs) (∅ : Std.TreeMap Temp Int)
  { c with regs := assigned.insert c.frame.fp frameRegister }

/-- The rounds of an allocation, at most `fuel` more of them. -/
def allocateRounds (k : Int) (maxRounds : Nat) :
    (fuel rounds : Nat) → (avoid : TempSet) → (spilled : List Temp) → Code →
      StateM Supply (Code × Except Fault Allocation)
  | 0, _, _, _, c => return (c, .error (.noColoring c.frame.label k maxRounds))
  | fuel + 1, rounds, avoid, spilled, c => do
    match c.tryColor k avoid with
    | .error fault => return (c, .error fault)
    | .ok (graph, coloring) =>
      if coloring.spilled.isEmpty then
        return (c.withColors graph coloring.colors, .ok { rounds := rounds + 1, spilled })
      else do
        let (c', avoid') ← c.spillAll avoid coloring.spilled
        allocateRounds k maxRounds fuel (rounds + 1) avoid' (spilled ++ coloring.spilled) c'

/-- Assigns registers `$0` to `$(k-1)` to the temps of a function. The code is returned also when the
allocation fails, with everything that has been spilled by then. -/
def allocate (c : Code) (k : Int) : StateM Supply (Code × Except Fault Allocation) :=
  if k < minRegisters ∨ maxRegisters < k then
    return (c, .error (.registerCount k minRegisters maxRegisters))
  else
    let maxRounds := (c.temps.erase c.frame.fp).size + 1
    c.allocateRounds k maxRounds maxRounds 0 ∅ []

end Code

end MmixBackend
