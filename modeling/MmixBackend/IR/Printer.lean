import MmixBackend.IR.Basic

/-!
# Listings of intermediate code

`Expr.text?` and `Stmt.text?` render a tree on one line. A call is printed with an offset in front
of every argument, so a tree in which some call has fewer offsets than arguments cannot be printed.

`Stmt.listing` gives every statement of a sequence a line of its own, indented by the depth of
nesting. Listings are made of trees that can be printed.
-/

namespace MmixBackend.IR

mutual

/-- An expression on one line, if it can be printed. -/
def Expr.text? : Expr → Option String
  | .absent => some "<nil>"
  | .const value => some ("CONST(" ++ value.text ++ ")")
  | .mem addr => return "MEM(" ++ (← addr.text?) ++ ")"
  | .temp t => some ("TEMP(" ++ t.text ++ ")")
  | .name label => some ("NAME(" ++ label ++ ")")
  | .binop op fst snd => return "BINOP(" ++ op.text ++ "," ++ (← fst.text?) ++ "," ++ (← snd.text?) ++ ")"
  | .unop op arg => return "UNOP(" ++ op.text ++ "," ++ (← arg.text?) ++ ")"
  | .call label offs args => return "CALL(" ++ label ++ (← Expr.argsText? offs args) ++ ")"
  | .sexpr stmt value => return "SEXPR(" ++ (← stmt.text?) ++ "," ++ (← value.text?) ++ ")"

/-- The arguments of a call, each behind its offset. There has to be one. -/
def Expr.argsText? : (offs : List Word) → List Expr → Option String
  | _, [] => some ""
  | [], _ :: _ => none
  | off :: offs, arg :: args =>
    return "," ++ off.text ++ ":" ++ (← arg.text?) ++ (← Expr.argsText? offs args)

/-- A statement on one line, if it can be printed. -/
def Stmt.text? : Stmt → Option String
  | .absent => some "<nil>"
  | .eval e => return "ESTMT(" ++ (← e.text?) ++ ")"
  | .move dst src => return "MOVE(" ++ (← dst.text?) ++ "," ++ (← src.text?) ++ ")"
  | .cjump cond pos neg => return "CJUMP(" ++ (← cond.text?) ++ "," ++ pos ++ "," ++ neg ++ ")"
  | .jump label => some ("JUMP(" ++ label ++ ")")
  | .label label => some ("LABEL(" ++ label ++ ")")
  | .seq stmts => return "STMTS(" ++ String.intercalate "," (← Stmt.texts? stmts) ++ ")"

/-- The statements of a list, each on one line. -/
def Stmt.texts? : List Stmt → Option (List String)
  | [] => some []
  | s :: ss => return (← s.text?) :: (← Stmt.texts? ss)

end

/-- The text of an expression that can be printed. -/
def Expr.text (e : Expr) : String := e.text?.getD ""

/-- The text of a statement that can be printed. -/
def Stmt.text (s : Stmt) : String := s.text?.getD ""

/-- Two blanks for each level of nesting. -/
def indentation (depth : Nat) : String := "".pushn ' ' (2 * depth)

mutual

/-- The lines of a statement at a depth of nesting. -/
def Stmt.lines (depth : Nat) : Stmt → List String
  | .seq stmts => (indentation depth ++ "STMTS") :: Stmt.linesAll (depth + 1) stmts
  | .absent => [indentation depth ++ Stmt.absent.text]
  | .eval e => [indentation depth ++ (Stmt.eval e).text]
  | .move dst src => [indentation depth ++ (Stmt.move dst src).text]
  | .cjump cond pos neg => [indentation depth ++ (Stmt.cjump cond pos neg).text]
  | .jump l => [indentation depth ++ (Stmt.jump l).text]
  | .label l => [indentation depth ++ (Stmt.label l).text]

/-- The lines of the statements of a list. -/
def Stmt.linesAll (depth : Nat) : List Stmt → List String
  | [] => []
  | s :: ss => Stmt.lines depth s ++ Stmt.linesAll depth ss

end

/-- A statement list with one line for each statement. -/
def Stmt.listing (stmts : List Stmt) : String :=
  (Stmt.linesAll 0 stmts).foldl (fun acc line => acc ++ line ++ "\n") ""

end MmixBackend.IR
