import MmixBackend.Source.Tree

/-!
# Walks over a program

`Program.walk` lists the nodes of a program, each before what it consists of and from left to right.
Missing nodes and type expressions are not listed; the name of a selected component is. A test
decides for every node whether the walk goes on below it.
-/

namespace MmixBackend.Source

/-- The nodes of a program. -/
inductive Node where
  | program (p : Program)
  | decl (d : Decl)
  | expr (e : Expr)
  | compName (c : CompName)
  | stmt (s : Stmt)

/-- The kinds of nodes. The name of a selected component counts as a name. -/
inductive NodeKind where
  | program
  | fn | var | typ | par | comp
  | atom | unary | deref | binary | name | index | select | call | block | cast | scope
  | eval | assign | cond | loop
  deriving DecidableEq, Repr

namespace Node

/-- The kind of a node that is there. -/
def kind? : Node → Option NodeKind
  | program _ => some .program
  | decl (.fn ..) => some .fn
  | decl (.var ..) => some .var
  | decl (.typ ..) => some .typ
  | decl (.par ..) => some .par
  | decl (.comp ..) => some .comp
  | expr .absent => none
  | expr (.atom ..) => some .atom
  | expr (.unary ..) => some .unary
  | expr (.deref ..) => some .deref
  | expr (.binary ..) => some .binary
  | expr (.name ..) => some .name
  | expr (.index ..) => some .index
  | expr (.select ..) => some .select
  | expr (.call ..) => some .call
  | expr (.block ..) => some .block
  | expr (.cast ..) => some .cast
  | expr (.scope ..) => some .scope
  | compName _ => some .name
  | stmt .absent => none
  | stmt (.eval ..) => some .eval
  | stmt (.assign ..) => some .assign
  | stmt (.cond ..) => some .cond
  | stmt (.loop ..) => some .loop

/-- The mark of a node that is there. -/
def mark? : Node → Option Mark
  | program p => some p.mark
  | decl d => some d.mark
  | expr e => e.mark?
  | compName c => some c.mark
  | stmt s => s.mark?

end Node

/-- A node and, if the walk enters it, the nodes below it. -/
def Node.below (enter : Node → Bool) (n : Node) (rest : List Node) : List Node :=
  n :: (if enter n then rest else [])

mutual

/-- The nodes of an expression. -/
def Expr.walk (enter : Node → Bool) : Expr → List Node
  | .absent => []
  | .atom m kind value => Node.below enter (.expr (.atom m kind value)) []
  | .unary m op arg => Node.below enter (.expr (.unary m op arg)) (arg.walk enter)
  | .deref m arg => Node.below enter (.expr (.deref m arg)) (arg.walk enter)
  | .binary m op fst snd =>
    Node.below enter (.expr (.binary m op fst snd)) (fst.walk enter ++ snd.walk enter)
  | .name m ident => Node.below enter (.expr (.name m ident)) []
  | .index m array idx =>
    Node.below enter (.expr (.index m array idx)) (array.walk enter ++ idx.walk enter)
  | .select m record comp =>
    Node.below enter (.expr (.select m record comp)) (record.walk enter ++ [.compName comp])
  | .call m ident args => Node.below enter (.expr (.call m ident args)) (Expr.walkAll enter args)
  | .block m stmts => Node.below enter (.expr (.block m stmts)) (Stmt.walkAll enter stmts)
  | .cast m arg type => Node.below enter (.expr (.cast m arg type)) (arg.walk enter)
  | .scope m decls body =>
    Node.below enter (.expr (.scope m decls body)) (Decl.walkAll enter decls ++ body.walk enter)

/-- The nodes of expressions from left to right. -/
def Expr.walkAll (enter : Node → Bool) : List Expr → List Node
  | [] => []
  | e :: es => e.walk enter ++ Expr.walkAll enter es

/-- The nodes of a statement. -/
def Stmt.walk (enter : Node → Bool) : Stmt → List Node
  | .absent => []
  | .eval m e => Node.below enter (.stmt (.eval m e)) (e.walk enter)
  | .assign m dst src =>
    Node.below enter (.stmt (.assign m dst src)) (dst.walk enter ++ src.walk enter)
  | .cond m test yes no =>
    Node.below enter (.stmt (.cond m test yes no))
      (test.walk enter ++ yes.walk enter ++ no.walk enter)
  | .loop m test body =>
    Node.below enter (.stmt (.loop m test body)) (test.walk enter ++ body.walk enter)

/-- The nodes of statements in order. -/
def Stmt.walkAll (enter : Node → Bool) : List Stmt → List Node
  | [] => []
  | s :: ss => s.walk enter ++ Stmt.walkAll enter ss

/-- The nodes of a declaration. -/
def Decl.walk (enter : Node → Bool) : Decl → List Node
  | .fn m name params type body =>
    Node.below enter (.decl (.fn m name params type body))
      ((params.map fun p => Node.decl p.decl) ++ body.walk enter)
  | .var m name type => Node.below enter (.decl (.var m name type)) []
  | .typ m name type => Node.below enter (.decl (.typ m name type)) []
  | .par m name type => Node.below enter (.decl (.par m name type)) []
  | .comp m name type => Node.below enter (.decl (.comp m name type)) []

/-- The nodes of declarations in order. -/
def Decl.walkAll (enter : Node → Bool) : List Decl → List Node
  | [] => []
  | d :: ds => d.walk enter ++ Decl.walkAll enter ds

end

namespace Program

/-- The nodes of a program as far as the walk enters them. -/
def walk (p : Program) (enter : Node → Bool) : List Node :=
  Node.below enter (.program p) (Decl.walkAll enter p.decls)

/-- All nodes of a program. -/
def nodes (p : Program) : List Node := p.walk fun _ => true

/-- The function declarations of a program, enclosing functions before nested ones. -/
def functions (p : Program) : List Decl :=
  p.nodes.filterMap fun
    | .decl (.fn m name params type body) => some (.fn m name params type body)
    | _ => none

end Program

end MmixBackend.Source
