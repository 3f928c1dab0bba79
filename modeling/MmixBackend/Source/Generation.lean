import MmixBackend.IR.Chunk
import MmixBackend.Source.Layout
import MmixBackend.Text.Numeral

/-!
# Generation of intermediate code

Turns typed function bodies into intermediate code and records the code of every expression and
statement. A variable of an enclosing function is reached by following static links, as many as the
function is nested deeper than the variable; a callee gets as its static link the frame of the
function in which it is declared. `if` and `while` become branches between fresh labels, which are
taken after the code of their parts.
-/

namespace MmixBackend.Source

namespace Generation

/-- The offset of the argument of a runtime routine. -/
def routineArgOffset : Word := Word.byteSize

/-- The call of a runtime routine with one argument. -/
def routineCall (name : String) (arg : IR.Expr) : IR.Expr :=
  .call (.global name) [routineArgOffset] [arg]

/-- The frame pointer of the function that lies `hops` static links away. -/
def frameAddr (frame : Frame) : (hops : Nat) → IR.Expr
  | 0 => .temp frame.fp
  | hops + 1 => .mem (frameAddr frame hops)

/-- The static link that a function passes to a callee. -/
def staticLink (frame callee : Frame) : IR.Expr :=
  frameAddr frame (frame.depth - callee.depth).toInt.toNat

/-- The location at an offset from an address. -/
def location (base : IR.Expr) (offset : Word) : IR.Expr :=
  .mem (.binop .add base (.const offset))

/-- The address of a memory operand. -/
def addressOf : IR.Expr → Except Fault IR.Expr
  | .mem addr => .ok addr
  | e => .error (.memoryOperand e.text)

/-- The operator of the intermediate code. -/
def binaryOp : BinaryOp → Except Fault IR.BinOp
  | .or => .ok .or
  | .and => .ok .and
  | .eq => .ok .equ
  | .ne => .ok .neq
  | .lt => .ok .lth
  | .gt => .ok .gth
  | .le => .ok .leq
  | .ge => .ok .geq
  | .add => .ok .add
  | .sub => .ok .sub
  | .mul => .ok .mul
  | .div => .ok .div
  | .mod => .ok .mod
  | .unknown code => .error (.unknownBinary code)

/-- The code of a unary operator. -/
def unary (op : UnaryOp) (arg : IR.Expr) : Except Fault IR.Expr :=
  match op with
  | .pos => .ok arg
  | .neg => .ok (.unop .neg arg)
  | .not => .ok (.unop .not arg)
  | .addr => addressOf arg
  | .new => .ok (routineCall "new" arg)
  | .del => .ok (routineCall "del" arg)
  | .unknown code => .error (.unknownPrefix code)

/-- The frame of a function. -/
def frameOf (id : NodeId) (name : String) : Pass Frame := do
  match (← Pass.attrs).frames[id]? with
  | some frame => return frame
  | none => throw (.noFrame name)

/-- The offset of a parameter or a component. -/
def offsetOf (id : NodeId) (name : String) : Pass Word := do
  match (← Pass.attrs).accesses[id]? with
  | some (.relative _ offset _) => return offset
  | _ => throw (.noRelativeAccess name)

/-- The code of a character constant: the byte before the closing apostrophe. -/
def charConstant (value : String) : Except Fault IR.Expr :=
  let bytes := value.toUTF8.toList
  -- The text has its apostrophes around it; three bytes are the least it can have.
  match bytes.reverse with
  | _ :: b :: _ :: _ => .ok (.const (Int64.ofNat b.toNat))
  | _ => .error (.malformedChar value)

/-- The code of an atom. -/
def atom (m : Mark) (kind : AtomKind) (value : String) : Pass IR.Expr := do
  match kind with
  | .void | .ptr => return .const 0
  | .bool => return .const (.ofBool (value = "true"))
  | .char => charConstant value
  | .int =>
    match Text.readWord (.fixed 10) value with
    | .ok n => return .const n
    | .error _ => throw (.malformedInt value)
  | .str =>
    match (← Pass.attrs).strings[m.id]? with
    | some data => return .name data.label
    | none => throw (.noStringData value)
  | .unknown code => throw (.unknownAtom code)

/-- The code of a name: a location, or the call of a function without parameters. -/
def name (frame : Frame) (m : Mark) (ident : String) : Pass IR.Expr := do
  let t ← Pass.attrs
  match t.declaredAt[m.id]? with
  | none => throw (.unresolvedName ident)
  | some (.fn fm fname _ _ _) => do
    let callee ← frameOf fm.id fname
    return .call callee.label [0] [staticLink frame callee]
  | some (.var dm _ _) | some (.par dm _ _) =>
    match t.accesses[dm.id]? with
    | some (.static data) => return .mem (.name data.label)
    -- A declaration at depth `d + 1` belongs to a function whose frame has depth `d`.
    | some (.relative _ offset depth) =>
      return location (frameAddr frame (frame.depth - depth + 1).toInt.toNat) offset
    | none => throw (.noAccess ident)
  | some _ => throw (.notAValue ident)

/-- The code of an array element. -/
def element (m : Mark) (base idx : IR.Expr) : Pass IR.Expr := do
  let t ← Pass.attrs
  match t.ofType[m.id]? with
  | some ty => return .mem (.binop .add base (.binop .mul idx (.const (t.sizeOf ty))))
  | none => throw (.untypedArrayAccess m.pos.line m.pos.col)

/-- The code of a record component. -/
def component (base : IR.Expr) (comp : CompName) : Pass IR.Expr := do
  match (← Pass.attrs).declaredAt[comp.mark.id]? with
  | some (.comp dm dname _) => return location base (← offsetOf dm.id dname)
  | _ => throw (.unresolvedComponent comp.ident)

/-- The code of a cast: characters are taken modulo 256. -/
def cast (type : TypeExpr) (arg : IR.Expr) : Pass IR.Expr := do
  let t ← Pass.attrs
  match t.isType[type.mark.id]? with
  | some ty => return if ty.isChar t.typeDefs then .binop .mod arg (.const 256) else arg
  -- Without a type nothing is known about the cast, and the value stays as it is.
  | none => return arg

/-- The function that a call refers to, if it takes as many arguments. -/
def callee (m : Mark) (ident : String) (args : Nat) : Pass (Mark × String × List Param) := do
  match (← Pass.attrs).declaredAt[m.id]? with
  | some (.fn fm fname params _ _) =>
    if params.length = args then return (fm, fname, params)
    else throw (.callArguments ident args params.length)
  | _ => throw (.unresolvedCall ident)

/-- The code of a block from the code of its statements: the value of the last one if it is an
expression statement, and zero otherwise. -/
def blockValue (stmts : List IR.Stmt) : IR.Expr :=
  match stmts.getLast? with
  | some (.eval e) => .sexpr (.seq stmts.dropLast) e
  | _ => .sexpr (.seq stmts) (.const 0)

/-- The code of a conditional statement. -/
def conditional (test : IR.Expr) (yes no : IR.Stmt) : StateM Supply IR.Stmt := do
  let pos ← freshLabel
  let neg ← freshLabel
  let done ← freshLabel
  return .seq [.cjump test pos neg, .label pos, yes, .jump done, .label neg, no, .label done]

/-- The code of a loop. -/
def whileLoop (test : IR.Expr) (body : IR.Stmt) : StateM Supply IR.Stmt := do
  let check ← freshLabel
  let enter ← freshLabel
  let done ← freshLabel
  return .seq [.label check, .cjump test enter done, .label enter, body, .jump check, .label done]

/-- Records the code of an expression. -/
def setCode (m : Mark) (code : IR.Expr) : Pass IR.Expr := do
  Pass.update fun t => { t with exprCode := t.exprCode.insert m.id code }
  return code

/-- Records the code of a statement. -/
def setStmtCode (m : Mark) (code : IR.Stmt) : Pass IR.Stmt := do
  Pass.update fun t => { t with stmtCode := t.stmtCode.insert m.id code }
  return code

mutual

/-- The code of an expression inside the function with the given frame. -/
def expr (frame : Frame) : Expr → Pass IR.Expr
  | .absent => throw .absentExpression
  | .atom m kind value => do setCode m (← atom m kind value)
  | .unary m op arg => do
    let code ← expr frame arg
    setCode m (← (unary op code : Except Fault _))
  | .deref m arg => do setCode m (.mem (← expr frame arg))
  | .binary m op fst snd => do
    let fst ← expr frame fst
    let snd ← expr frame snd
    let op ← (binaryOp op : Except Fault _)
    setCode m (.binop op fst snd)
  | .name m ident => do setCode m (← name frame m ident)
  | .index m array idx => do
    let base ← (addressOf (← expr frame array) : Except Fault _)
    let idx ← expr frame idx
    setCode m (← element m base idx)
  | .select m record comp => do
    let base ← (addressOf (← expr frame record) : Except Fault _)
    setCode m (← component base comp)
  | .call m ident args => do
    let (fm, fname, params) ← callee m ident args.length
    let called ← frameOf fm.id fname
    let (offs, args) ← arguments frame params args
    -- The static link goes before the arguments, at offset zero.
    setCode m (.call called.label (0 :: offs) (staticLink frame called :: args))
  | .block m ss => do
    let codes ← stmts frame ss
    setCode m (blockValue codes)
  | .cast m arg type => do
    let code ← expr frame arg
    setCode m (← cast type code)
  | .scope m ds body => do
    decls ds
    setCode m (← expr frame body)

/-- The offsets and the code of the arguments of a call. -/
def arguments (frame : Frame) (params : List Param) :
    List Expr → Pass (List Word × List IR.Expr)
  | [] => return ([], [])
  | arg :: args =>
    match params with
    | [] => return ([], [])
    | p :: ps => do
      let off ← offsetOf p.mark.id p.name
      let code ← expr frame arg
      let (offs, codes) ← arguments frame ps args
      return (off :: offs, code :: codes)

/-- The code of a statement. -/
def stmt (frame : Frame) : Stmt → Pass IR.Stmt
  | .absent => throw .absentStatement
  | .eval m e => do setStmtCode m (.eval (← expr frame e))
  | .assign m dst src => do
    let dst ← expr frame dst
    let src ← expr frame src
    setStmtCode m (.move dst src)
  | .cond m test yes .absent => do
    let test ← expr frame test
    let yes ← stmt frame yes
    setStmtCode m (← Pass.withSupply (conditional test yes (.seq [])))
  | .cond m test yes no => do
    let test ← expr frame test
    let yes ← stmt frame yes
    let no ← stmt frame no
    setStmtCode m (← Pass.withSupply (conditional test yes no))
  | .loop m test body => do
    let test ← expr frame test
    let body ← stmt frame body
    setStmtCode m (← Pass.withSupply (whileLoop test body))

/-- The code of statements in order. -/
def stmts (frame : Frame) : List Stmt → Pass (List IR.Stmt)
  | [] => return []
  | s :: ss => do
    let first ← stmt frame s
    return first :: (← stmts frame ss)

/-- Generates the functions of a block. -/
def decls : List Decl → Pass Unit
  | [] => return ()
  | .fn m name _ _ body :: rest => do
    let frame ← frameOf m.id name
    match body with
    | .absent => pure ()
    | body => do
      let _ ← expr frame body
    decls rest
  | _ :: rest => decls rest

end

/-- Generates the code of every function of a program. -/
def program (p : Program) : Pass Unit := decls p.decls

/-- Generates the code of one function and returns that of its body, if it has one. -/
def function (d : Decl) : Pass (Option IR.Expr) := do
  decls [d]
  match d with
  | .fn _ _ _ _ body => return (← Pass.attrs).codeOf? body
  | _ => return none

end Generation

/-! ### Linear programs -/

namespace Linear

/-- The static data of the global variables of a program. -/
def globals (t : Attributes) : List Decl → Except Fault (List StaticData)
  | [] => .ok []
  | .var m name _ :: rest =>
    match t.accesses[m.id]? with
    | some (.static data) => (globals t rest).map (data :: ·)
    | _ => .error (.noStaticAccess name)
  | _ :: rest => globals t rest

/-- The static data of the string constants of a program. -/
def strings (t : Attributes) (p : Program) : List StaticData :=
  p.nodes.filterMap fun
    | .expr (.atom m _ _) => t.strings[m.id]?
    | _ => none

/-- The chunk of one function. -/
def chunk (d : Decl) : Pass IR.CodeChunk := do
  let t ← Pass.attrs
  match d with
  | .fn m name _ _ body =>
    match t.frames[m.id]? with
    | none => throw (.noFrame name)
    | some frame =>
      match t.codeOf? body with
      | none => throw (.noCode name)
      | some code => Pass.ofFresh (IR.CodeChunk.ofBody frame code)
  | _ => throw (.noFrame d.name)

/-- Whether a declaration is a function with a body. -/
def hasBody : Decl → Bool
  | .fn _ _ _ _ body => !body.isAbsent
  | _ => false

/-- The linear form of a program: the data of global variables and strings, and a chunk for every
function with a body. -/
def program (p : Program) : Pass IR.LinearProgram := do
  let t ← Pass.attrs
  let data ← (globals t p.decls : Except Fault _)
  let code ← (p.functions.filter hasBody).mapM chunk
  return { data := data ++ strings t p, code }

end Linear

end MmixBackend.Source
