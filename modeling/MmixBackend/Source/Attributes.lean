import MmixBackend.Frame
import MmixBackend.IR.Basic
import MmixBackend.Source.Walk
import MmixBackend.Types.Reader

/-!
# Attributes of a program

What the passes find out about the nodes of a program, in tables under the numbers of the nodes. A
table may lack an entry; a pass that needs one stops with a fault.
-/

namespace MmixBackend.Source

/-- The tables of one compilation. -/
structure Attributes where
  /-- The declarations that names, calls, type expressions and component names refer to. -/
  declaredAt : Std.TreeMap NodeId Decl := ∅
  /-- The types of expressions. -/
  ofType : Std.TreeMap NodeId Ty := ∅
  /-- The types that type expressions denote. -/
  isType : Std.TreeMap NodeId Ty := ∅
  /-- The types of declarations. -/
  declType : Std.TreeMap NodeId Ty := ∅
  /-- What the declared types stand for. -/
  typeDefs : TypeDefs := ∅
  /-- The records with their component declarations. -/
  records : Std.TreeMap NodeId RecordInfo := ∅
  /-- The frames of functions. -/
  frames : Std.TreeMap NodeId Frame := ∅
  /-- The locations of variables, parameters and components. -/
  accesses : Std.TreeMap NodeId Access := ∅
  /-- The static data of string constants. -/
  strings : Std.TreeMap NodeId StaticData := ∅
  /-- The intermediate code of expressions. -/
  exprCode : Std.TreeMap NodeId IR.Expr := ∅
  /-- The intermediate code of statements. -/
  stmtCode : Std.TreeMap NodeId IR.Stmt := ∅

namespace Attributes

/-- The type of an expression. -/
def typeOf? (t : Attributes) (e : Expr) : Option Ty := e.mark?.bind fun m => t.ofType[m.id]?

/-- The intermediate code of an expression. -/
def codeOf? (t : Attributes) (e : Expr) : Option IR.Expr := e.mark?.bind fun m => t.exprCode[m.id]?

/-- The bytes of a type. -/
def sizeOf (t : Attributes) (ty : Ty) : Word := ty.size t.typeDefs

end Attributes

end MmixBackend.Source
