import MmixBackend.Fault
import MmixBackend.Source.Attributes

/-!
# Memory layout

Gives every function a frame, every variable and parameter a location, every record component an
offset and every string constant a block of static data. Global variables and functions get labels
with their names, nested functions and strings fresh ones. Locals of all blocks of a function,
nested functions apart, lie side by side below the frame pointer, parameters above it. The outgoing
argument area is as large as the largest call needs.

The temps of a frame are taken after the body of its function has been laid out.
-/

namespace MmixBackend.Source

/-- A compilation in progress: the tables and the supply of temps and labels. -/
structure Workspace where
  attrs : Attributes := {}
  supply : Supply := {}

/-- A pass over a program. What it has done stays done when it stops with a fault. -/
abbrev Pass := ExceptT Fault (StateM Workspace)

namespace Pass

/-- Changes the tables. -/
def update (f : Attributes → Attributes) : Pass Unit :=
  modify fun w => { w with attrs := f w.attrs }

/-- The tables. -/
def attrs : Pass Attributes := return (← get).attrs

/-- Runs an action on the supply. -/
def withSupply {α : Type} (act : StateM Supply α) : Pass α :=
  modifyGet fun w =>
    let (a, supply) := act.run w.supply
    (a, { w with supply })

/-- Runs a pass that only takes temps and labels. -/
def ofFresh {α : Type} (act : Fresh α) : Pass α := do
  match ← withSupply act.run with
  | .ok a => return a
  | .error fault => throw fault

end Pass

namespace Layout

/-- What a function needs, as found so far. -/
structure Needs where
  /-- The depth of its declarations: one for a global function, zero for the program itself. -/
  depth : Word
  /-- Whether these are the needs of the program itself. -/
  isGlobal : Bool := false
  locsSize : Word := 0
  argsSize : Word := 0

/-- Makes room for a call with the given bytes of arguments. -/
def Needs.forCall (n : Needs) (size : Word) : Needs :=
  if n.argsSize < size then { n with argsSize := size } else n

/-- Records the location of a declaration. -/
def setAccess (id : NodeId) (a : Access) : Pass Unit :=
  Pass.update fun t => { t with accesses := t.accesses.insert id a }

/-- The bytes of a declared entity. -/
def declSize (id : NodeId) (name : String) : Pass Word := do
  let t ← Pass.attrs
  match t.declType[id]? with
  | some ty => return t.sizeOf ty
  | none => throw (.untypedDeclaration name)

/-- The components of a record with the offsets and sizes that they get from a start offset on. -/
def compOffsets (t : Attributes) : (offset : Word) → List (Decl × String × Ty) →
    List (Decl × Word × Word)
  | _, [] => []
  | offset, (d, _, ty) :: rest =>
    let size := t.sizeOf ty
    (d, offset, size) :: compOffsets t (offset + size) rest

/-- Gives the components of a record their offsets. -/
def record (info : RecordInfo) : Pass Unit := do
  let t ← Pass.attrs
  (compOffsets t 0 (info.comps.zip info.fields.toList)).forM fun (d, offset, size) =>
    setAccess d.id (.relative size offset 0)

/-- Gives the parameters of a function their locations. -/
def params (depth : Word) : (size : Word) → List Param → Pass Unit
  | _, [] => return ()
  | before, p :: ps => do
    let size ← declSize p.mark.id p.name
    setAccess p.mark.id (.relative size (before + size) depth)
    params depth (before + size) ps

/-- Gives a variable its location: at its label if it is global, and otherwise below the other locals
of its function. -/
def placeVariable (m : Mark) (name : String) (n : Needs) : Pass Needs := do
  let size ← declSize m.id name
  if n.isGlobal then
    setAccess m.id (.static { label := .global name, size, init := none })
    return n
  else
    let locsSize := n.locsSize + size
    setAccess m.id (.relative size (-locsSize) n.depth)
    return { n with locsSize }

/-- The label of a function: its name if it is global, and otherwise a fresh one. -/
def functionLabel (isGlobal : Bool) (name : String) : StateM Supply Label :=
  if isGlobal then return .global name else freshLabel

/-- The bytes that an argument takes. -/
def argSize (callee : String) (arg : Expr) : Pass Word := do
  let t ← Pass.attrs
  match t.typeOf? arg with
  | some ty => return t.sizeOf ty
  | none => throw (.untypedArgument callee)

mutual

/-- Lays out an expression of a function and returns what the function needs. -/
def expr (n : Needs) : Expr → Pass Needs
  | .absent => throw .absentExpression
  | .atom m kind value => do
    if kind = .str then
      let label ← Pass.withSupply freshLabel
      let data : StaticData := { label, size := stringSize value, init := some value }
      Pass.update fun t => { t with strings := t.strings.insert m.id data }
    return n
  | .unary _ op arg => do
    let n ← expr n arg
    -- These operators are calls of runtime routines with a static link and one argument.
    return if op = .new ∨ op = .del then n.forCall (2 * Word.byteSize) else n
  | .deref _ arg => expr n arg
  | .binary _ _ fst snd => do expr (← expr n fst) snd
  | .name m _ => do
    match (← Pass.attrs).declaredAt[m.id]? with
    -- The name of a function is a call that passes nothing but the static link.
    | some (.fn ..) => return n.forCall Word.byteSize
    | _ => return n
  | .index _ array idx => do expr (← expr n array) idx
  | .select _ record _ => expr n record
  | .call _ ident args => do
    let (n, size) ← exprs ident n Word.byteSize args
    return n.forCall size
  | .block _ ss => stmts n ss
  | .cast _ arg _ => expr n arg
  | .scope _ ds body => do expr (← decls n ds) body

/-- Lays out the arguments of a call and adds up their bytes. -/
def exprs (callee : String) (n : Needs) (size : Word) : List Expr → Pass (Needs × Word)
  | [] => return (n, size)
  | arg :: args => do
    let n ← expr n arg
    exprs callee n (size + (← argSize callee arg)) args

/-- Lays out a statement. -/
def stmt (n : Needs) : Stmt → Pass Needs
  | .absent => throw .absentStatement
  | .eval _ e => expr n e
  | .assign _ dst src => do expr (← expr n dst) src
  | .cond _ test yes .absent => do stmt (← expr n test) yes
  | .cond _ test yes no => do stmt (← stmt (← expr n test) yes) no
  | .loop _ test body => do stmt (← expr n test) body

/-- Lays out statements in order. -/
def stmts (n : Needs) : List Stmt → Pass Needs
  | [] => return n
  | s :: ss => do stmts (← stmt n s) ss

/-- Lays out the declarations of a block. -/
def decls (n : Needs) : List Decl → Pass Needs
  | [] => return n
  | .fn m name ps _ body :: rest => do
    let depth := n.depth + 1
    let label ← Pass.withSupply (functionLabel n.isGlobal name)
    params depth 0 ps
    let own ← match body with
      | .absent => pure { depth }
      | body => expr { depth } body
    -- The temps of the frame come after those of the functions nested in the body.
    let frame ← Pass.withSupply (Frame.fresh label n.depth own.locsSize own.argsSize)
    Pass.update fun t => { t with frames := t.frames.insert m.id frame }
    decls n rest
  | .var m name _ :: rest => do decls (← placeVariable m name n) rest
  | .typ .. :: rest => decls n rest
  | .par .. :: _ => throw (.misplacedDeclaration "*ast.ParDecl")
  | .comp .. :: _ => throw (.misplacedDeclaration "*ast.CompDecl")

end

/-- Lays out a program. -/
def program (p : Program) : Pass Unit := do
  (← Pass.attrs).records.toList.forM fun (_, info) => record info
  let _ ← decls { depth := 0, isGlobal := true } p.decls

/-- The text of a record with the offsets and sizes that its components have got. -/
def recordText (t : Attributes) (info : RecordInfo) : String :=
  let part (d : Decl) : String :=
    match t.accesses[d.id]? with
    | some (.relative size offset _) => d.name ++ "@" ++ offset.text ++ "+" ++ size.text
    | _ => d.name ++ "@?"
  String.intercalate " " ((Ty.record 0 info.fields).text :: info.comps.map part)

end Layout

end MmixBackend.Source
