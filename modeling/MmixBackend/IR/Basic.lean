import MmixBackend.Supply

/-!
# Intermediate code

Tree-shaped expressions and statements between the source tree and the target instructions. An
expression denotes a word; a statement changes the state or transfers control to a label. Trees may
have holes: `absent` marks a missing expression or statement, which every pass refuses.
-/

namespace MmixBackend.IR

/-- Binary operators. An operator outside the thirteen known ones is kept by its number. -/
inductive BinOp where
  | or | and | equ | neq | lth | gth | leq | geq | add | sub | mul | div | mod
  | unknown (code : Int)
  deriving DecidableEq, Inhabited, Repr

namespace BinOp

/-- The name of an operator in listings. -/
def text : BinOp → String
  | or => "OR" | and => "AND" | equ => "EQU" | neq => "NEQ" | lth => "LTH" | gth => "GTH"
  | leq => "LEQ" | geq => "GEQ" | add => "ADD" | sub => "SUB" | mul => "MUL" | div => "DIV"
  | mod => "MOD" | unknown _ => "BINOP?"

/-- Whether the operator compares its operands. -/
def isRelational : BinOp → Bool
  | equ | neq | lth | gth | leq | geq => true
  | _ => false

end BinOp

/-- Unary operators. -/
inductive UnOp where
  | neg | not
  | unknown (code : Int)
  deriving DecidableEq, Inhabited, Repr

namespace UnOp

/-- The name of an operator in listings. -/
def text : UnOp → String
  | neg => "NEG" | not => "NOT" | unknown _ => "UNOP?"

end UnOp

mutual

/-- Expressions. -/
inductive Expr where
  /-- A missing expression. -/
  | absent
  /-- An integer constant. -/
  | const (value : Word)
  /-- The word at an address. -/
  | mem (addr : Expr)
  /-- The value of a temp. -/
  | temp (t : Temp)
  /-- The address of a label. -/
  | name (label : Label)
  | binop (op : BinOp) (fst snd : Expr)
  | unop (op : UnOp) (arg : Expr)
  /-- A call: argument `i` is stored at offset `i` of the callee's frame. -/
  | call (label : Label) (offs : List Word) (args : List Expr)
  /-- A statement to execute before the expression is evaluated. -/
  | sexpr (stmt : Stmt) (value : Expr)

/-- Statements. -/
inductive Stmt where
  /-- A missing statement. -/
  | absent
  /-- Evaluates an expression for its effects. -/
  | eval (e : Expr)
  /-- Stores the value of `src` into `dst`, a temp or a memory location. -/
  | move (dst src : Expr)
  /-- Goes to `pos` if the condition is not zero and to `neg` otherwise. -/
  | cjump (cond : Expr) (pos neg : Label)
  | jump (label : Label)
  | label (label : Label)
  /-- A sequence of statements. -/
  | seq (stmts : List Stmt)

end

instance : Inhabited Expr := ⟨.absent⟩

instance : Inhabited Stmt := ⟨.absent⟩

mutual

/-- The number of nodes of an expression. -/
def Expr.weight : Expr → Nat
  | .absent | .const _ | .temp _ | .name _ => 1
  | .mem addr => addr.weight + 1
  | .binop _ fst snd => fst.weight + snd.weight + 1
  | .unop _ arg => arg.weight + 1
  | .call _ _ args => Expr.weightAll args + 1
  | .sexpr stmt value => stmt.weight + value.weight + 1

/-- The number of nodes of a list of expressions. -/
def Expr.weightAll : List Expr → Nat
  | [] => 0
  | e :: es => e.weight + Expr.weightAll es

/-- The number of nodes of a statement. -/
def Stmt.weight : Stmt → Nat
  | .absent | .jump _ | .label _ => 1
  | .eval e => e.weight + 1
  | .move dst src => dst.weight + src.weight + 1
  | .cjump cond _ _ => cond.weight + 1
  | .seq stmts => Stmt.weightAll stmts + 1

/-- The number of nodes of a list of statements. -/
def Stmt.weightAll : List Stmt → Nat
  | [] => 0
  | s :: ss => s.weight + Stmt.weightAll ss

end

mutual

/-- A statement as a list without nested sequences. -/
def Stmt.flatten : Stmt → List Stmt
  | .seq stmts => Stmt.flattenAll stmts
  | .absent => [.absent]
  | .eval e => [.eval e]
  | .move dst src => [.move dst src]
  | .cjump cond pos neg => [.cjump cond pos neg]
  | .jump l => [.jump l]
  | .label l => [.label l]

/-- A list of statements without nested sequences. -/
def Stmt.flattenAll : List Stmt → List Stmt
  | [] => []
  | s :: ss => s.flatten ++ Stmt.flattenAll ss

end

end MmixBackend.IR
