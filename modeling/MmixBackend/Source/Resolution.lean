import MmixBackend.Source.Attributes
import MmixBackend.Source.Diagnostic
import MmixBackend.Types.Equality

/-!
# Resolution

Binds names to declarations and finds the type of every declaration and expression. Scoping is
lexical: a block of declarations makes all its names visible in the whole block, a function adds its
parameters, and inner declarations hide outer ones. All errors of a program are collected. An
expression without a type has an error that has been reported already, and causes no further ones.
-/

namespace MmixBackend.Source

/-- The visible declarations, one list for every enclosing block, the innermost first. -/
abbrev Scope := List (List (String × Decl))

/-- The declaration that a name refers to. -/
def Scope.find? (scope : Scope) (name : String) : Option Decl :=
  scope.findSome? fun block => block.lookup name

/-- The state of resolution. -/
structure Resolving where
  attrs : Attributes := {}
  /-- The errors found so far, the last one first. -/
  errors : List Diagnostic := []
  /-- The next free node number. -/
  nextId : NodeId

/-- Resolution as a computation over its state. -/
abbrev Resolve := StateM Resolving

namespace Resolve

/-- Reports an error. -/
def report (pos : Pos) (cause : Cause) : Resolve Unit :=
  modify fun s => { s with errors := ⟨pos, cause⟩ :: s.errors }

/-- Changes the tables. -/
def update (f : Attributes → Attributes) : Resolve Unit :=
  modify fun s => { s with attrs := f s.attrs }

/-- What the declared types stand for. -/
def defs : Resolve TypeDefs := return (← get).attrs.typeDefs

/-- Binds a node to a declaration. -/
def bind (id : NodeId) (d : Decl) : Resolve Unit :=
  update fun t => { t with declaredAt := t.declaredAt.insert id d }

/-- Records the type of a declaration, if it has one. -/
def setDeclType (id : NodeId) (ty : Option Ty) : Resolve Unit :=
  match ty with
  | some ty => update fun t => { t with declType := t.declType.insert id ty }
  | none => pure ()

/-- The type of a declaration. -/
def declType (id : NodeId) : Resolve (Option Ty) := return (← get).attrs.declType[id]?

/-- Records a record type and the types of its components. -/
def addRecord (id : NodeId) (info : RecordInfo) : Resolve Unit := do
  update fun t => { t with records := t.records.insert id info }
  (info.comps.zip info.fields.toList).forM fun (d, _, ty) => setDeclType d.id (some ty)

/-- Records what has been read of a type expression: its records, and the declaration of the last
type name in it. -/
def keepParts (te : TypeExpr) (parts : TypeParts) : Resolve Unit := do
  modify fun s => { s with nextId := parts.nextId }
  parts.records.forM fun (id, info) => addRecord id info
  if let some d := parts.lastNamed then bind te.mark.id d

/-- The type that a type expression denotes. What has been read of the text is recorded even if the
text turns out not to be a type. -/
def typeExpr (scope : Scope) (te : TypeExpr) : Resolve (Option Ty) := do
  match readTypeExpr scope.find? (← get).nextId te with
  | .error failure => do
    report te.mark.pos (.badType te.text failure.fault)
    keepParts te failure.toTypeParts
    return none
  | .ok r => do
    keepParts te r.toTypeParts
    update fun t => { t with isType := t.isType.insert te.mark.id r.type }
    return some r.type

/-! ### Declarations -/

/-- The names of the runtime routines. -/
def runtimeNames : List String := ["new", "del", "putChar", "getChar", "exit"]

/-- Reports a global declaration that takes the name of a runtime routine. -/
def checkReserved (d : Decl) : Resolve Unit := do
  if runtimeNames.contains d.name then
    match d with
    | .fn m name _ _ body => if !body.isAbsent then report m.pos (.runtimeBody name)
    | .var m name _ => report m.pos (.runtimeName name)
    | _ => pure ()

/-- The names that a block declares; of two declarations of a name the first one counts. -/
def blockNames (decls : List Decl) : Resolve (List (String × Decl)) :=
  decls.foldlM (fun names d => do
    if (names.lookup d.name).isSome then
      report d.mark.pos (.redeclared d.name)
      return names
    else return names ++ [(d.name, d)]) []

/-- Gives every declared type of a block its name. -/
def nameTypes (decls : List Decl) : Resolve Unit :=
  decls.forM fun
    | .typ m name _ => setDeclType m.id (some (.named m.id name))
    | _ => pure ()

/-- Reads the definitions of the declared types of a block. -/
def defineTypes (scope : Scope) (decls : List Decl) : Resolve Unit :=
  decls.forM fun
    | .typ m _ type => do
      if let some ty ← typeExpr scope type then
        update fun t => { t with typeDefs := t.typeDefs.insert m.id ty }
    | _ => pure ()

/-- Where a type name is declared first in a block. -/
def typePos (decls : List Decl) (name : String) : Pos :=
  (decls.findSome? fun
    | .typ m n _ => if n = name then some m.pos else none
    | _ => none).getD default

/-- Replaces definitions that are erroneous or of infinite size by `void`, one after the other. -/
def checkTypes (decls : List Decl) : Resolve Unit :=
  decls.forM fun
    | .typ m name _ => do
      let defs ← defs
      let void := update fun t => { t with typeDefs := t.typeDefs.insert m.id .void }
      if !defs.contains m.id then void
      else if !defs.isFinite m.id then do
        report (typePos decls name) (.infiniteType name)
        void
    | _ => pure ()

/-- The types of parameters. -/
def paramTypes (scope : Scope) (params : List Param) : Resolve Unit :=
  params.forM fun p => do
    let ty ← typeExpr scope p.type
    if let some ty := ty then
      if !ty.isScalar (← defs) then report p.mark.pos (.parameterType p.name ty)
    setDeclType p.mark.id ty

/-- The types of the variables and functions of a block. -/
def signatures (scope : Scope) (decls : List Decl) : Resolve Unit :=
  decls.forM fun
    | .var m name type => do
      let ty ← typeExpr scope type
      if let some ty := ty then
        if ty.isVoid (← defs) then report m.pos (.voidVariable name)
      setDeclType m.id ty
    | .fn m name params type _ => do
      paramTypes scope params
      let ty ← typeExpr scope type
      if let some ty := ty then
        if !ty.isScalar (← defs) && !ty.isVoid (← defs) then report m.pos (.resultType name ty)
      setDeclType m.id ty
    | _ => pure ()

/-- Everything about a block but the bodies of its functions. Returns the scope inside the block. -/
def declare (outer : Scope) (decls : List Decl) : Resolve Scope := do
  let names ← blockNames decls
  let scope := names :: outer
  -- The names of types come first, so that definitions can refer to each other.
  nameTypes decls
  defineTypes scope decls
  checkTypes decls
  signatures scope decls
  return scope

/-- The names that parameters declare; of two parameters with one name the first one counts. -/
def paramNames (params : List Param) : Resolve (List (String × Decl)) :=
  params.foldlM (fun names p => do
    if (names.lookup p.name).isSome then
      report p.mark.pos (.duplicateParameter p.name)
      return names
    else return names ++ [(p.name, p.decl)]) []

/-- Reports a body whose type does not fit the result type of its function. -/
def checkBody (m : Mark) (name : String) (body : Expr) (got : Option Ty) : Resolve Unit := do
  match got, ← declType m.id with
  | some got, some want =>
    let defs ← defs
    if !want.isVoid defs && !want.assignable defs got then
      report body.pos (.bodyType name want got)
  | _, _ => pure ()

/-! ### Types of expressions from the types of their parts -/

/-- Whether an expression denotes a memory location. -/
def isLocation (e : Expr) : Resolve Bool := do
  match e with
  | .name m _ =>
    match (← get).attrs.declaredAt[m.id]? with
    | some (.var ..) | some (.par ..) => return true
    | _ => return false
  | .deref .. | .index .. | .select .. => return true
  | _ => return false

/-- The type of an atom. -/
def atomType (m : Mark) (kind : AtomKind) : Resolve (Option Ty) := do
  match kind with
  | .int => return some .int
  | .char => return some .char
  | .bool => return some .bool
  | .void => return some .void
  | .ptr => return some (.ptr .void)
  | .str => return some (.ptr .char)
  | .unknown _ => do
    report m.pos .unknownAtom
    return none

/-- The type of a name, which gets bound. -/
def nameType (scope : Scope) (m : Mark) (ident : String) : Resolve (Option Ty) := do
  match scope.find? ident with
  | none => do
    report m.pos (.undefinedName ident)
    return none
  | some d => do
    bind m.id d
    match d with
    | .var .. | .par .. => declType d.id
    | .fn _ name params _ _ =>
      if params.isEmpty then declType d.id
      else do
        report m.pos (.needsArguments name params.length)
        return none
    | _ => do
      report m.pos (.notAValue ident)
      return none

/-- Returns a type, or reports an error if a condition fails. -/
def typeIf (ok : Bool) (ty : Ty) (pos : Pos) (cause : Cause) : Resolve (Option Ty) := do
  if ok then return some ty
  else do
    report pos cause
    return none

/-- The type of a unary operator applied to an operand. -/
def unaryType (m : Mark) (op : UnaryOp) (arg : Expr) (ty : Ty) : Resolve (Option Ty) := do
  let defs ← defs
  match op with
  | .pos | .neg => typeIf (ty.isInt defs) .int m.pos (.signOperand ty)
  | .not => typeIf (ty.isBool defs) .bool m.pos (.notOperand ty)
  | .addr => typeIf (← isLocation arg) (.ptr ty) m.pos .notAddressable
  | .new => typeIf (ty.isInt defs) (.ptr .void) m.pos (.newOperand ty)
  | .del => typeIf (ty.isPtr defs) .void m.pos (.delOperand ty)
  | .unknown code => typeIf false .void m.pos (.unknownPrefix code)

/-- The type of what a pointer points to. -/
def derefType (m : Mark) (ty : Ty) : Resolve (Option Ty) := do
  let defs ← defs
  match ty.pointee? defs with
  | none => typeIf false .void m.pos (.derefOperand ty)
  | some base => typeIf (!base.isVoid defs) base m.pos .derefVoid

/-- The type of a binary operator applied to operands. -/
def binaryType (m : Mark) (op : BinaryOp) (fst snd : Ty) : Resolve (Option Ty) := do
  let defs ← defs
  let cause := Cause.operands fst snd
  match op with
  | .or | .and => typeIf (fst.isBool defs && snd.isBool defs) .bool m.pos cause
  | .eq | .ne =>
    typeIf (fst.isScalar defs && (fst.assignable defs snd || snd.assignable defs fst)) .bool m.pos
      cause
  | .lt | .gt | .le | .ge =>
    typeIf (fst.isInt defs && snd.isInt defs || fst.isChar defs && snd.isChar defs) .bool m.pos cause
  | _ => typeIf (fst.isInt defs && snd.isInt defs) .int m.pos cause

/-- The type of an array element. -/
def indexType (m : Mark) (array idx : Expr) (arrayTy : Ty) (idxTy : Option Ty) :
    Resolve (Option Ty) := do
  let defs ← defs
  match arrayTy.actual defs with
  | .arr _ elem => do
    -- Neither of these errors leaves the element without a type.
    if !(← isLocation array) then report m.pos .arrayNotAddressable
    if let some ty := idxTy then
      if !ty.isInt defs then report idx.pos (.indexType ty)
    return some elem
  | _ => typeIf false .void m.pos (.indexOperand arrayTy)

/-- The type of a record component, whose name gets bound. -/
def selectType (m : Mark) (record : Expr) (comp : CompName) (ty : Ty) : Resolve (Option Ty) := do
  match ty.actual (← defs) with
  | .record id fields => do
    if !(← isLocation record) then report m.pos .recordNotAddressable
    let comps := ((← get).attrs.records[id]?.map RecordInfo.comps).getD []
    match (comps.zip fields.toList).find? fun (d, _) => d.name = comp.ident with
    | some (d, _, compTy) => do
      bind comp.mark.id d
      return some compTy
    | none => typeIf false .void comp.mark.pos (.noComponent ty comp.ident)
  | _ => typeIf false .void m.pos (.selectOperand ty)

/-- Reports the arguments whose types do not fit the parameters. -/
def checkArgs (ident : String) : (position : Nat) → List Expr → List (Option Ty) → List Param →
    Resolve Unit
  | n, arg :: args, ty :: tys, p :: ps => do
    match ty, ← declType p.mark.id with
    | some got, some want =>
      if !want.assignable (← defs) got then report arg.pos (.argumentType n ident got want)
    | _, _ => pure ()
    checkArgs ident (n + 1) args tys ps
  | _, _, _, _ => pure ()

/-- The type of a call, whose callee gets bound. -/
def callType (scope : Scope) (m : Mark) (ident : String) (args : List Expr)
    (tys : List (Option Ty)) : Resolve (Option Ty) := do
  match scope.find? ident with
  | some (.fn fm name params type body) => do
    bind m.id (.fn fm name params type body)
    if tys.length ≠ params.length then
      typeIf false .void m.pos (.argumentCount ident tys.length params.length)
    else do
      checkArgs ident 1 args tys params
      declType fm.id
  | _ => typeIf false .void m.pos (.notAFunction ident)

/-- The type of a cast. -/
def castType (m : Mark) (src dst : Option Ty) : Resolve (Option Ty) := do
  match src, dst with
  | some src, some dst =>
    let defs ← defs
    typeIf (src.isCastable defs && dst.isCastable defs) dst m.pos (.castTypes src dst)
  | _, _ => return none

/-- Reports an assignment that is not possible. -/
def checkAssign (m : Mark) (target : Expr) (dst src : Option Ty) : Resolve Unit := do
  if !(← isLocation target) then report m.pos .assignTarget
  match dst, src with
  | some dst, some src =>
    let defs ← defs
    if !dst.isScalar defs then report m.pos (.assignType dst)
    else if !dst.assignable defs src then report m.pos (.assignMismatch src dst)
  | _, _ => pure ()

/-- Reports a condition that is not a truth value. -/
def checkCondition (test : Expr) (ty : Option Ty) : Resolve Unit := do
  if let some ty := ty then
    if !ty.isBool (← defs) then report test.pos (.conditionType ty)

/-- Records the type of an expression, if it has one. -/
def setType (m : Mark) (ty : Option Ty) : Resolve (Option Ty) := do
  if let some ty := ty then update fun t => { t with ofType := t.ofType.insert m.id ty }
  return ty

/-! ### Expressions, statements and bodies -/

mutual

/-- Resolves an expression and returns its type. -/
def expr (scope : Scope) : Expr → Resolve (Option Ty)
  | .absent => return none
  | .atom m kind _ => do setType m (← atomType m kind)
  | .name m ident => do setType m (← nameType scope m ident)
  | .unary m op arg => do
    match ← expr scope arg with
    | none => return none
    | some ty => setType m (← unaryType m op arg ty)
  | .deref m arg => do
    match ← expr scope arg with
    | none => return none
    | some ty => setType m (← derefType m ty)
  | .binary m op fst snd => do
    let fstTy ← expr scope fst
    let sndTy ← expr scope snd
    match fstTy, sndTy with
    | some fstTy, some sndTy => setType m (← binaryType m op fstTy sndTy)
    | _, _ => return none
  | .index m array idx => do
    let arrayTy ← expr scope array
    let idxTy ← expr scope idx
    match arrayTy with
    | none => return none
    | some arrayTy => setType m (← indexType m array idx arrayTy idxTy)
  | .select m record comp => do
    match ← expr scope record with
    | none => return none
    | some ty => setType m (← selectType m record comp ty)
  | .call m ident args => do
    let tys ← exprs scope args
    setType m (← callType scope m ident args tys)
  | .block m stmts => do setType m (← stmtList scope stmts)
  | .cast m arg type => do
    let src ← expr scope arg
    let dst ← typeExpr scope type
    setType m (← castType m src dst)
  | .scope m decls body => do
    let inner ← declare scope decls
    bodies inner decls
    setType m (← expr inner body)

/-- Resolves expressions from left to right and returns their types. -/
def exprs (scope : Scope) : List Expr → Resolve (List (Option Ty))
  | [] => return []
  | e :: es => do
    let ty ← expr scope e
    return ty :: (← exprs scope es)

/-- Resolves a statement and returns the type of its value: that of an expression statement, and
`void` for the others. -/
def stmt (scope : Scope) : Stmt → Resolve (Option Ty)
  | .absent => return some .void
  | .eval _ e => expr scope e
  | .assign m dst src => do
    let dstTy ← expr scope dst
    let srcTy ← expr scope src
    checkAssign m dst dstTy srcTy
    return some .void
  | .cond _ test yes no => do
    checkCondition test (← expr scope test)
    let _ ← stmt scope yes
    let _ ← stmt scope no
    return some .void
  | .loop _ test body => do
    checkCondition test (← expr scope test)
    let _ ← stmt scope body
    return some .void

/-- Resolves statements in order and returns the type of the last one's value, or `void`. -/
def stmtList (scope : Scope) : List Stmt → Resolve (Option Ty)
  | [] => return some .void
  | [s] => stmt scope s
  | s :: ss => do
    let _ ← stmt scope s
    stmtList scope ss

/-- Resolves the bodies of the functions of a block. -/
def bodies (scope : Scope) : List Decl → Resolve Unit
  | [] => return ()
  | .fn m name params _ body :: rest => do
    if !body.isAbsent then
      let names ← paramNames params
      let ty ← expr (names :: scope) body
      checkBody m name body ty
    bodies scope rest
  | _ :: rest => bodies scope rest

end

/-- Resolves a whole program. -/
def program (p : Program) : Resolve Unit := do
  p.decls.forM checkReserved
  let scope ← declare [] p.decls
  bodies scope p.decls

end Resolve

/-- The attributes of a program without errors, or the errors in the order in which they were
found. -/
def Program.resolve (p : Program) : Except (List Diagnostic) Attributes :=
  let ((), s) := (Resolve.program p).run { nextId := p.nextId }
  if s.errors.isEmpty then .ok s.attrs else .error s.errors.reverse

end MmixBackend.Source
