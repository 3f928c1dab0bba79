/-!
# Source programs

The syntax tree of a program: declarations of functions, variables and types, expressions, and
statements. Nodes carry a mark, their position in the text and a number that is unique in the
program; what later passes find out about a node is kept in tables under this number.

Trees may have holes. `Expr.absent` stands for a missing expression, in particular for the body of an
external function, and `Stmt.absent` for a missing statement, in particular for a missing `else`.
-/

namespace MmixBackend.Source

/-- A place in the text: line and column, both counted from one. -/
structure Pos where
  line : Int
  col : Int
  deriving DecidableEq, Inhabited, Repr

/-- The number of a node. -/
abbrev NodeId := Nat

/-- What tells a node apart and where it stands. -/
structure Mark where
  id : NodeId := 0
  pos : Pos
  deriving DecidableEq, Inhabited, Repr

/-- A type as written in the program. -/
structure TypeExpr where
  mark : Mark
  text : String
  deriving DecidableEq, Inhabited, Repr

/-- The name of a record component where it is selected. -/
structure CompName where
  mark : Mark
  ident : String
  deriving DecidableEq, Inhabited, Repr

/-- A parameter of a function. -/
structure Param where
  mark : Mark
  name : String
  type : TypeExpr
  deriving DecidableEq, Inhabited, Repr

/-- The kinds of atoms. A kind outside the known ones is kept by its number. -/
inductive AtomKind where
  | void | ptr | bool | char | int | str
  | unknown (code : Int)
  deriving DecidableEq, Inhabited, Repr

/-- Operators with one operand in front of it. -/
inductive UnaryOp where
  | pos | neg | not | addr | new | del
  | unknown (code : Int)
  deriving DecidableEq, Inhabited, Repr

/-- Operators with two operands. -/
inductive BinaryOp where
  | or | and | eq | ne | lt | gt | le | ge | add | sub | mul | div | mod
  | unknown (code : Int)
  deriving DecidableEq, Inhabited, Repr

mutual

/-- Expressions. -/
inductive Expr where
  /-- A missing expression. -/
  | absent
  /-- A literal, by its text: the digits of an integer, `true` or `false`, a character between
  apostrophes, the contents of a string. -/
  | atom (mark : Mark) (kind : AtomKind) (value : String)
  | unary (mark : Mark) (op : UnaryOp) (arg : Expr)
  /-- What a pointer points to. -/
  | deref (mark : Mark) (arg : Expr)
  | binary (mark : Mark) (op : BinaryOp) (fst snd : Expr)
  /-- A variable, a parameter or a call of a function without parameters. -/
  | name (mark : Mark) (ident : String)
  /-- An array element. -/
  | index (mark : Mark) (array idx : Expr)
  /-- A record component. -/
  | select (mark : Mark) (record : Expr) (comp : CompName)
  | call (mark : Mark) (ident : String) (args : List Expr)
  /-- Statements; the value is that of the last one if it is an expression. -/
  | block (mark : Mark) (stmts : List Stmt)
  | cast (mark : Mark) (arg : Expr) (type : TypeExpr)
  /-- An expression with declarations of its own. -/
  | scope (mark : Mark) (decls : List Decl) (body : Expr)

/-- Statements. -/
inductive Stmt where
  /-- A missing statement. -/
  | absent
  | eval (mark : Mark) (e : Expr)
  | assign (mark : Mark) (dst src : Expr)
  | cond (mark : Mark) (test : Expr) (yes no : Stmt)
  | loop (mark : Mark) (test : Expr) (body : Stmt)

/-- Declarations. Parameters and record components can be referred to like other declarations. -/
inductive Decl where
  | fn (mark : Mark) (name : String) (params : List Param) (type : TypeExpr) (body : Expr)
  | var (mark : Mark) (name : String) (type : TypeExpr)
  | typ (mark : Mark) (name : String) (type : TypeExpr)
  | par (mark : Mark) (name : String) (type : TypeExpr)
  | comp (mark : Mark) (name : String) (type : TypeExpr)

end

instance : Inhabited Expr := ⟨.absent⟩

instance : Inhabited Stmt := ⟨.absent⟩

/-- A program. -/
structure Program where
  mark : Mark
  decls : List Decl

namespace Expr

/-- The mark of an expression that is there. -/
def mark? : Expr → Option Mark
  | absent => none
  | atom m _ _ | unary m _ _ | deref m _ | binary m _ _ _ | name m _ | index m _ _ | select m _ _
  | call m _ _ | block m _ | cast m _ _ | scope m _ _ => some m

/-- The position of an expression. -/
def pos (e : Expr) : Pos := (e.mark?.map Mark.pos).getD default

/-- Whether the expression is missing. -/
def isAbsent : Expr → Bool
  | absent => true
  | _ => false

end Expr

namespace Stmt

/-- The mark of a statement that is there. -/
def mark? : Stmt → Option Mark
  | absent => none
  | eval m _ | assign m _ _ | cond m _ _ _ | loop m _ _ => some m

/-- The position of a statement. -/
def pos (s : Stmt) : Pos := (s.mark?.map Mark.pos).getD default

end Stmt

namespace Decl

/-- The mark of a declaration. -/
def mark : Decl → Mark
  | fn m _ _ _ _ | var m _ _ | typ m _ _ | par m _ _ | comp m _ _ => m

/-- The number of a declaration. -/
def id (d : Decl) : NodeId := d.mark.id

/-- The name that a declaration declares. -/
def name : Decl → String
  | fn _ n _ _ _ | var _ n _ | typ _ n _ | par _ n _ | comp _ n _ => n

/-- The type of a declaration as written. -/
def type : Decl → TypeExpr
  | fn _ _ _ t _ | var _ _ t | typ _ _ t | par _ _ t | comp _ _ t => t

end Decl

/-- A parameter as a declaration. -/
def Param.decl (p : Param) : Decl := .par p.mark p.name p.type

/-- Whether a text is an identifier: letters, digits and underscores, not starting with a digit. -/
def isIdent (s : String) : Bool :=
  match s.toList with
  | [] => false
  | c :: cs => (c.isAlpha || c = '_') && cs.all fun c => c.isAlphanum || c = '_'

/-! ### Numbering -/

/-- The next free number, taken. -/
def freshMark (m : Mark) : StateM NodeId Mark := modifyGet fun n => ({ m with id := n }, n + 1)

/-- Numbers a type expression. -/
def TypeExpr.number (t : TypeExpr) : StateM NodeId TypeExpr := do
  return { t with mark := ← freshMark t.mark }

/-- Numbers a parameter and its type. -/
def Param.number (p : Param) : StateM NodeId Param := do
  let mark ← freshMark p.mark
  return { p with mark, type := ← p.type.number }

mutual

/-- Numbers the nodes of an expression, each before what it consists of. -/
def Expr.number : Expr → StateM NodeId Expr
  | .absent => return .absent
  | .atom m kind value => return .atom (← freshMark m) kind value
  | .unary m op arg => return .unary (← freshMark m) op (← arg.number)
  | .deref m arg => return .deref (← freshMark m) (← arg.number)
  | .binary m op fst snd => return .binary (← freshMark m) op (← fst.number) (← snd.number)
  | .name m ident => return .name (← freshMark m) ident
  | .index m array idx => return .index (← freshMark m) (← array.number) (← idx.number)
  | .select m record comp =>
    return .select (← freshMark m) (← record.number) { comp with mark := ← freshMark comp.mark }
  | .call m ident args => return .call (← freshMark m) ident (← Expr.numberAll args)
  | .block m stmts => return .block (← freshMark m) (← Stmt.numberAll stmts)
  | .cast m arg type => return .cast (← freshMark m) (← arg.number) (← type.number)
  | .scope m decls body => return .scope (← freshMark m) (← Decl.numberAll decls) (← body.number)

/-- Numbers the nodes of expressions from left to right. -/
def Expr.numberAll : List Expr → StateM NodeId (List Expr)
  | [] => return []
  | e :: es => return (← e.number) :: (← Expr.numberAll es)

/-- Numbers the nodes of a statement. -/
def Stmt.number : Stmt → StateM NodeId Stmt
  | .absent => return .absent
  | .eval m e => return .eval (← freshMark m) (← e.number)
  | .assign m dst src => return .assign (← freshMark m) (← dst.number) (← src.number)
  | .cond m test yes no =>
    return .cond (← freshMark m) (← test.number) (← yes.number) (← no.number)
  | .loop m test body => return .loop (← freshMark m) (← test.number) (← body.number)

/-- Numbers the nodes of statements in order. -/
def Stmt.numberAll : List Stmt → StateM NodeId (List Stmt)
  | [] => return []
  | s :: ss => return (← s.number) :: (← Stmt.numberAll ss)

/-- Numbers the nodes of a declaration. -/
def Decl.number : Decl → StateM NodeId Decl
  | .fn m name params type body =>
    return .fn (← freshMark m) name (← params.mapM Param.number) (← type.number) (← body.number)
  | .var m name type => return .var (← freshMark m) name (← type.number)
  | .typ m name type => return .typ (← freshMark m) name (← type.number)
  | .par m name type => return .par (← freshMark m) name (← type.number)
  | .comp m name type => return .comp (← freshMark m) name (← type.number)

/-- Numbers the nodes of declarations in order. -/
def Decl.numberAll : List Decl → StateM NodeId (List Decl)
  | [] => return []
  | d :: ds => return (← d.number) :: (← Decl.numberAll ds)

end

/-- Gives every node of a program a number of its own, counted from zero. -/
def Program.number (p : Program) : Program :=
  let (decls, _) := (Decl.numberAll p.decls).run 1
  { mark := { p.mark with id := 0 }, decls }

/-- The least number greater than those of all nodes of a program as it is numbered. -/
def Program.nextId (p : Program) : NodeId := ((Decl.numberAll p.decls).run 1).2

end MmixBackend.Source
