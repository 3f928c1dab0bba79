import MmixBackend.Fault
import MmixBackend.IR.Printer

/-!
# Canonical code

Canonicalization turns a statement tree into a flat list in which no expression contains a
statement, every operator and every call works on temps computed beforehand from left to right, and
every move writes a temp or a memory location whose address is a temp.
-/

namespace MmixBackend.IR

/-- Moves an expression into a fresh temp. -/
def materialize (e : Expr) : StateM Supply (Stmt × Expr) := do
  let t ← freshTemp
  return (.move (.temp t) e, .temp t)

/-- Why nothing can be moved to an expression that is neither a temp nor a memory location. The message
shows the expression; if this cannot be printed then the pass crashes. -/
def Expr.moveFault (dst : Expr) : Fault :=
  match dst.text? with
  | some text => .moveTo text
  | none => .crash

mutual

/-- Canonicalizes an expression: the statements must run before the expression is evaluated. -/
def Expr.canonical : Expr → Fresh (List Stmt × Expr)
  | .absent => throw .absentExpression
  | .const value => return ([], .const value)
  | .name label => return ([], .name label)
  | .temp t => return ([], .temp t)
  | .mem addr => do
    let (before, addr') ← addr.canonical
    return (before, .mem addr')
  | .unop op arg => do
    let (before, arg') ← arg.canonical
    return (before, .unop op arg')
  | .binop op fst snd => do
    let (before₁, fst') ← fst.canonical
    let (move₁, t₁) ← materialize fst'
    let (before₂, snd') ← snd.canonical
    let (move₂, t₂) ← materialize snd'
    let (move, t) ← materialize (.binop op t₁ t₂)
    return (before₁ ++ move₁ :: before₂ ++ [move₂, move], t)
  | .call label offs args => do
    let (before, args') ← Expr.canonicalArgs args
    let (move, t) ← materialize (.call label offs args')
    return (before ++ [move], t)
  | .sexpr stmt value => do
    let before ← stmt.canonical
    let (after, value') ← value.canonical
    return (before ++ after, value')

/-- Canonicalizes arguments from left to right, each into a temp of its own. -/
def Expr.canonicalArgs : List Expr → Fresh (List Stmt × List Expr)
  | [] => return ([], [])
  | arg :: args => do
    let (before, arg') ← arg.canonical
    let (move, t) ← materialize arg'
    let (after, ts) ← Expr.canonicalArgs args
    return (before ++ move :: after, t :: ts)

/-- Canonicalizes a statement into a flat list. -/
def Stmt.canonical : Stmt → Fresh (List Stmt)
  | .absent => throw .absentStatement
  | .jump label => return [.jump label]
  | .label label => return [.label label]
  | .eval e => do
    let (before, e') ← e.canonical
    return before ++ [.eval e']
  | .cjump cond pos neg => do
    let (before, cond') ← cond.canonical
    return before ++ [.cjump cond' pos neg]
  -- The address of a store is computed before the value.
  | .move (.mem addr) src => do
    let (before₁, addr') ← addr.canonical
    let (move, t) ← materialize addr'
    let (before₂, src') ← src.canonical
    return before₁ ++ move :: before₂ ++ [.move (.mem t) src']
  | .move (.temp t) src => do
    let (before, src') ← src.canonical
    return before ++ [.move (.temp t) src']
  | .move dst _ => throw dst.moveFault
  | .seq stmts => Stmt.canonicalAll stmts

/-- Canonicalizes the statements of a list in order. -/
def Stmt.canonicalAll : List Stmt → Fresh (List Stmt)
  | [] => return []
  | s :: ss => do
    let first ← s.canonical
    let rest ← Stmt.canonicalAll ss
    return first ++ rest

end

end MmixBackend.IR
