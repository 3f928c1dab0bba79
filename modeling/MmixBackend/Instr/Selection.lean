import MmixBackend.Instr.Basic
import MmixBackend.IR.Chunk

/-!
# Instruction selection

Every expression becomes instructions that leave its value in a temp; statements become instructions
directly. A conditional branch falls through to its negative label if that label comes next, and
otherwise jumps to it.

Constants are loaded sixteen bits at a time from the low end. The low group is always set, the
higher ones only if they are not zero. Arguments of a call are stored relative to the stack pointer,
either with an immediate offset, where it fits in eight bits, or through an address register.
-/

namespace MmixBackend

/-- How call arguments are stored into the outgoing argument area. -/
inductive ArgPassing where
  /-- With an immediate offset from the stack pointer wherever it fits. -/
  | immediate
  /-- Always through an address register. -/
  | register
  deriving DecidableEq, Inhabited, Repr

/-- The largest unsigned immediate operand. -/
def maxImmediate : Word := 255

namespace Instr

/-- The groups of a word that a load has to mention: the low one and every other one that is not
zero. -/
def loadedWydes (v : Word) : List (WydePlace × Nat) :=
  [WydePlace.low, .mediumLow, .mediumHigh, .high].filterMap fun place =>
    let value := v.wyde place.position
    if place = .low ∨ value ≠ 0 then some (place, value) else none

/-- The instructions that load a word into a temp. All but the first read what they change. -/
def loadConstant (dst : Temp) (v : Word) : List Instr :=
  (loadedWydes v).map fun (place, value) =>
    plain (.loadWyde place value) (if place = .low then [] else [dst]) [dst]

/-- Loads a word into a fresh temp. -/
def constant (v : Word) : StateM Supply (List Instr × Temp) := do
  let dst ← freshTemp
  return (loadConstant dst v, dst)

/-- A jump. -/
def jumpTo (l : Label) : Instr := oper (.goto l) [] [] [l] .jump

/-- The instruction of an operator that is one instruction on two registers. -/
def arithOf : IR.BinOp → Option Arith
  | .or => some .or
  | .and => some .and
  | .add => some .add
  | .sub => some .sub
  | .mul => some .mul
  | .div => some .div
  | _ => none

/-- The test that a comparison result has to pass for a relational operator. -/
def testOf : IR.BinOp → Option SignTest
  | .equ => some .zero
  | .neq => some .nonzero
  | .lth => some .negative
  | .gth => some .positive
  | .leq => some .nonpositive
  | .geq => some .nonnegative
  | _ => none

/-- The instructions that combine two temps into a third. -/
def binary (op : IR.BinOp) (fst snd dst : Temp) : Except Fault (List Instr) :=
  match arithOf op, testOf op, op with
  | some a, _, _ => .ok [plain (.arith a) [fst, snd] [dst]]
  | _, some test, _ =>
    .ok [plain .compare [fst, snd] [dst], plain (.setIf test) [dst] [dst]]
  | _, _, .mod => .ok [plain (.arith .div) [fst, snd] [dst], plain .remainder [] [dst]]
  | _, _, _ => .error (.binaryOperator op.text)

/-- The instructions that store an argument at an offset from the stack pointer. -/
def storeArgument (mode : ArgPassing) (off : Word) (arg : Temp) : StateM Supply (List Instr) := do
  if mode = .immediate ∧ 0 ≤ off ∧ off ≤ maxImmediate then
    return [plain (.storeArg off) [arg] []]
  else
    let (load, offset) ← constant off
    let addr ← freshTemp
    return load ++ [plain .argAddress [offset] [addr], plain .storeAt [arg, addr] []]

/-- The instructions that store the arguments of a call one after the other. -/
def storeArguments (mode : ArgPassing) : List Word → List Temp → StateM Supply (List Instr)
  | off :: offs, arg :: args => do
    let first ← storeArgument mode off arg
    let rest ← storeArguments mode offs args
    return first ++ rest
  | _, _ => return []

end Instr

namespace IR

/-- Whether the statement after a branch is the branch's negative label. -/
def isLabelNext (neg : Label) : List Stmt → Bool
  | .label l :: _ => l = neg
  | _ => false

mutual

/-- The instructions of an expression and the temp that holds its value afterwards. -/
def Expr.select (mode : ArgPassing) : Expr → Fresh (List Instr × Temp)
  | .absent => throw .absentExpression
  | .sexpr _ _ => throw .statementExpression
  | .temp t => return ([], t)
  | .const v => Instr.constant v
  | .name label => do
    let dst ← freshTemp
    return ([.plain (.loadAddress label) [] [dst]], dst)
  | .mem addr => do
    let (before, a) ← addr.select mode
    let dst ← freshTemp
    return (before ++ [.plain .loadAt [a] [dst]], dst)
  | .binop op fst snd => do
    let (before₁, a) ← fst.select mode
    let (before₂, b) ← snd.select mode
    let dst ← freshTemp
    let instrs ← (Instr.binary op a b dst : Except Fault _)
    return (before₁ ++ before₂ ++ instrs, dst)
  | .unop op arg => do
    let (before, a) ← arg.select mode
    let fresh ← freshTemp
    -- The temp of a constant is not used elsewhere and can be overwritten.
    let dst := match arg with
      | .const _ => a
      | _ => fresh
    match op with
    | .neg => return (before ++ [.plain .negate [a] [dst]], dst)
    -- Truth values are zero and one, so negating and adding one complements them.
    | .not => do
      let neg ← freshTemp
      return (before ++ [.plain .negate [a] [neg], .plain .increment [neg] [dst]], dst)
    | .unknown _ => throw (.unaryOperator op.text)
  | .call label offs args => do
    if offs.length ≠ args.length then
      throw (.callShape label offs.length args.length)
    let (before, temps) ← Expr.selectArgs mode args
    let stores ← Instr.storeArguments mode offs temps
    let result ← freshTemp
    return (before ++ stores
      ++ [.oper (.call label) [] [] [label] .call, .plain .loadResult [] [result]], result)

/-- The instructions of arguments from left to right and the temps that hold them. -/
def Expr.selectArgs (mode : ArgPassing) : List Expr → Fresh (List Instr × List Temp)
  | [] => return ([], [])
  | arg :: args => do
    let (first, t) ← arg.select mode
    let (rest, ts) ← Expr.selectArgs mode args
    return (first ++ rest, t :: ts)

end

mutual

/-- The instructions of a statement that is followed by the statements `next` of the same list. -/
def Stmt.select (mode : ArgPassing) (next : List Stmt) : Stmt → Fresh (List Instr)
  | .absent => throw .absentStatement
  | .eval e => do
    let (instrs, _) ← e.select mode
    return instrs
  | .jump l => return [.jumpTo l]
  | .label l => return [.label l]
  | .cjump cond pos neg => do
    let (before, c) ← cond.select mode
    let branch := Instr.oper (.branch pos) [c] [] [pos, neg] .next
    return before ++ branch :: (if isLabelNext neg next then [] else [.jumpTo neg])
  | .move (.mem addr) src => do
    let (before₁, a) ← addr.select mode
    let (before₂, v) ← src.select mode
    return before₁ ++ before₂ ++ [.plain .storeAt [v, a] []]
  | .move (.temp t) src => do
    let (before, v) ← src.select mode
    return before ++ [.move v t]
  | .move dst _ => throw dst.moveFault
  | .seq stmts => Stmt.selectAll mode stmts

/-- The instructions of a statement list. -/
def Stmt.selectAll (mode : ArgPassing) : List Stmt → Fresh (List Instr)
  | [] => return []
  | s :: ss => do
    let first ← s.select mode ss
    let rest ← Stmt.selectAll mode ss
    return first ++ rest

end

/-- The code of a chunk. -/
def CodeChunk.select (mode : ArgPassing) (chunk : CodeChunk) : Fresh Code := do
  let instrs ← Stmt.selectAll mode chunk.stmts
  return { frame := chunk.frame, entry := chunk.entry, exit := chunk.exit, instrs }

/-- The code of every chunk of a program. -/
def LinearProgram.select (mode : ArgPassing) (p : LinearProgram) : Fresh (List Code) :=
  p.code.mapM (CodeChunk.select mode)

end IR

end MmixBackend
