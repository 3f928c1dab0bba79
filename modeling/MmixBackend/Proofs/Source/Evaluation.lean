import MmixBackend.Machine.Basic
import MmixBackend.Proofs.Source.FrameLayout

/-!
# Evaluation of flat scalar programs

A program is flat and scalar if all its functions are global and all its variables hold one word.
What such a program computes is defined here on its syntax tree, with names as resolution has bound
them. There is no memory and there are no frames: every call has an environment of its own for its
parameters and the variables of its blocks, which have no value until they are assigned one, and the
global variables are shared. Operands, arguments and statements are evaluated from left to right,
and both operands of a connective always are.

An evaluation takes fuel, one unit for each node on the way down, so what takes too long has no value. The
only thing that it knows about the target is how much room the stack has. It stops when the record of a
function would overlap with the data.

## Main definitions

- `Program.FlatScalar`: the programs.
- `Program.evaluate`: what they compute.
-/

namespace MmixBackend

/-! ## §1 Flat scalar programs -/

/-- Values of the type are integers, characters or truth values. -/
def Ty.IsBasic (defs : TypeDefs) (ty : Ty) : Prop :=
  ty.isInt defs = true ∨ ty.isChar defs = true ∨ ty.isBool defs = true

instance (defs : TypeDefs) (ty : Ty) : Decidable (ty.IsBasic defs) := inferInstanceAs (Decidable (_ ∨ _))

namespace Source

/-- What a flat scalar program consists of: there are no strings, pointer operations, arrays and
records, and variables and parameters are integers, characters or truth values. -/
def Node.FlatScalar (t : Attributes) : Node → Prop
  | .expr (.atom _ kind _) => kind ≠ .str
  | .expr (.unary _ op _) => op ≠ .addr ∧ op ≠ .new ∧ op ≠ .del
  | .expr (.deref ..) | .expr (.index ..) | .expr (.select ..) => False
  | .decl (.var m _ _) | .decl (.par m _ _) => ∃ ty, t.declType[m.id]? = some ty ∧ ty.IsBasic t.typeDefs
  | _ => True

instance (t : Attributes) (m : Mark) :
    Decidable (∃ ty, t.declType[m.id]? = some ty ∧ ty.IsBasic t.typeDefs) :=
  decidable_of_iff (t.declType[m.id]?.any fun ty => decide (ty.IsBasic t.typeDefs)) <| by
    simp [Option.any_eq_true]

instance (t : Attributes) : ∀ n : Node, Decidable (n.FlatScalar t)
  | .expr (.atom _ kind _) => inferInstanceAs (Decidable (kind ≠ .str))
  | .expr (.unary _ op _) => inferInstanceAs (Decidable (op ≠ .addr ∧ op ≠ .new ∧ op ≠ .del))
  | .expr (.deref ..) | .expr (.index ..) | .expr (.select ..) => .isFalse id
  | .decl (.var m _ _) | .decl (.par m _ _) =>
    inferInstanceAs (Decidable (∃ ty, t.declType[m.id]? = some ty ∧ ty.IsBasic t.typeDefs))
  | .expr .absent | .expr (.name ..) | .expr (.binary ..) | .expr (.call ..) | .expr (.block ..)
  | .expr (.cast ..) | .expr (.scope ..) => .isTrue trivial
  | .program _ | .compName _ | .stmt _ | .decl (.fn ..) | .decl (.typ ..) | .decl (.comp ..) =>
    .isTrue trivial

/-- The routines that a flat scalar program can declare, with the numbers of their parameters. -/
def flatRoutines : List (String × Nat) := [("putChar", 1), ("exit", 1), ("getChar", 0)]

/-- All functions of the program are global, all nodes are those of flat scalar programs, and functions
without a body are routines for input, output or the end of the program. -/
structure Program.FlatScalar (t : Attributes) (p : Program) : Prop where
  /-- No function is declared in another one. -/
  functions : ∀ m name params type body, .fn m name params type body ∈ p.decls →
    ∀ n ∈ body.walk everywhere, n.kind? ≠ some .fn
  nodes : ∀ n ∈ Decl.walkAll everywhere p.decls, n.FlatScalar t
  routines : ∀ m name params type, .fn m name params type .absent ∈ p.decls →
    (name, params.length) ∈ flatRoutines

/-- Whether a declaration is one of a flat scalar program, its nodes apart. -/
def Decl.isFlat : Decl → Bool
  | .fn _ name params _ body =>
    (body.walk everywhere).all (fun n => n.kind? ≠ some .fn) &&
      (!body.isAbsent || decide ((name, params.length) ∈ flatRoutines))
  | _ => true

instance (t : Attributes) (p : Program) : Decidable (p.FlatScalar t) :=
  decidable_of_iff ((∀ d ∈ p.decls, d.isFlat = true) ∧
      ∀ n ∈ Decl.walkAll everywhere p.decls, n.FlatScalar t) <| by
    constructor
    · rintro ⟨hdecls, hnodes⟩
      refine ⟨fun m name params type body hfn n hn => ?_, hnodes, fun m name params type hfn => ?_⟩
      · have hall := hdecls _ hfn
        simp only [Decl.isFlat, Bool.and_eq_true, List.all_eq_true, decide_eq_true_eq] at hall
        exact hall.1 n hn
      · have hall := hdecls _ hfn
        simpa [Decl.isFlat, Expr.walk, Expr.isAbsent] using hall
    · refine fun h => ⟨fun d hd => ?_, h.nodes⟩
      cases d with
      | fn m name params type body =>
        simp only [Decl.isFlat, Bool.and_eq_true, List.all_eq_true, decide_eq_true_eq, Bool.or_eq_true,
          Bool.not_eq_true']
        refine ⟨h.functions m name params type body hd, ?_⟩
        by_cases habsent : body = .absent
        · subst habsent
          exact .inr (h.routines m name params type hd)
        · exact .inl (by cases body <;> first | rfl | exact absurd rfl habsent)
      | _ => rfl

/-! ## §2 Room on the stack -/

/-- The words that a call passes, static link included; none if the node is not a call. -/
def Node.callWords (t : Attributes) : Node → Nat
  | .expr (.name m _) =>
    match t.declaredAt[m.id]? with
    | some (.fn ..) => 1
    | _ => 0
  | .expr (.call _ _ args) => args.length + 1
  | _ => 0

/-- The words of the largest call in a function body. -/
def Expr.outgoing (t : Attributes) (body : Expr) : Nat :=
  ((body.walk Node.inFunction).map (Node.callWords t)).foldr max 0

/-- The bytes of the record of a function: its local variables, the saved registers and the arguments that
it passes. -/
def Expr.frameBytes (t : Attributes) (body : Expr) : Nat :=
  8 * body.locals.length + 16 + 8 * body.outgoing t

/-- The global variables of a program. -/
def Program.globals (p : Program) : List NodeId := Node.variables (p.decls.map .decl)

/-- Where the data of a program end. -/
def Program.dataEnd (p : Program) : Int := dataStart.toInt + 8 * p.globals.length

/-- With the stack pointer `sp` there is room for a function. Its record lies above the data, and as
addresses wrap around, its parameters must end below the start of the data. -/
def Program.HasRoom (p : Program) (t : Attributes) (sp : Int) (params : List Param) (body : Expr) :
    Prop :=
  p.dataEnd ≤ sp - body.frameBytes t ∧ sp + 8 * (params.length + 1) ≤ dataStart.toInt + 2 ^ 64

instance (p : Program) (t : Attributes) (sp : Int) (params : List Param) (body : Expr) :
    Decidable (p.HasRoom t sp params body) := inferInstanceAs (Decidable (_ ∧ _))

/-! ## §3 Values -/

/-- Why an evaluation has no value. -/
inductive Stop where
  /-- The program has called the exit routine. -/
  | exit (code : Word)
  | divisionByZero
  /-- The reader of the input has reported an error. -/
  | reader (fault : String)
  /-- A local variable without a value has been read. -/
  | unassigned
  /-- The record of a function does not fit between the data and the stack. -/
  | stackFull
  /-- Something that is not part of a flat scalar program. -/
  | undefined
  | outOfFuel
  deriving DecidableEq, Repr

/-- The variables that are in use, what is still to be read and the bytes written. -/
structure Store where
  locals : NodeId → Option Word := fun _ => none
  globals : NodeId → Word := fun _ => 0
  input : Option ByteReader := none
  output : ByteArray := ByteArray.empty

/-- Evaluation as a computation over the store. -/
abbrev Eval := ExceptT Stop (StateM Store)

namespace Eval

/-- The value of a literal. -/
def literal (kind : AtomKind) (value : String) : Eval Word :=
  match kind with
  | .void | .ptr => return 0
  | .bool => return .ofBool (value = "true")
  | .char =>
    -- The byte before the closing apostrophe.
    match value.toUTF8.toList.reverse with
    | _ :: b :: _ => return .ofNat b.toNat
    | _ => throw .undefined
  | .int =>
    match Text.readWord (.fixed 10) value with
    | .ok n => return n
    | .error _ => throw .undefined
  | .str | .unknown _ => throw .undefined

/-- The value of an operator with one operand. -/
def unary (op : UnaryOp) (x : Word) : Eval Word :=
  match op with
  | .pos => return x
  | .neg => return -x
  | .not => return 1 - x
  | _ => throw .undefined

/-- The value of an operator with two operands. Arithmetic wraps around, and divisions round towards
negative infinity. -/
def binary (op : BinaryOp) (x y : Word) : Eval Word :=
  match op with
  | .or => return x ||| y
  | .and => return x &&& y
  | .eq => return .ofBool (x = y)
  | .ne => return .ofBool (x ≠ y)
  | .lt => return .ofBool (x.toInt < y.toInt)
  | .gt => return .ofBool (y.toInt < x.toInt)
  | .le => return .ofBool (x.toInt ≤ y.toInt)
  | .ge => return .ofBool (y.toInt ≤ x.toInt)
  | .add => return .ofInt (x.toInt + y.toInt)
  | .sub => return .ofInt (x.toInt - y.toInt)
  | .mul => return .ofInt (x.toInt * y.toInt)
  | .div => if y = 0 then throw .divisionByZero else return .ofInt (x.toInt.fdiv y.toInt)
  | .mod => if y = 0 then throw .divisionByZero else return .ofInt (x.toInt.fmod y.toInt)
  | .unknown _ => throw .undefined

/-- The value of a cast: characters are taken modulo 256. -/
def cast (t : Attributes) (type : TypeExpr) (x : Word) : Word :=
  if t.isType[type.mark.id]?.any fun ty => ty.isChar t.typeDefs then .ofInt (x.toInt.fmod 256) else x

/-- Reads a variable. Global ones are zero at first. -/
def read (p : Program) (id : NodeId) : Eval Word := do
  let st ← get
  if id ∈ p.globals then return st.globals id
  else match st.locals id with
    | some v => return v
    | none => throw .unassigned

/-- Assigns a variable. -/
def assign (p : Program) (id : NodeId) (v : Word) : Eval Unit :=
  modify fun st =>
    if id ∈ p.globals then { st with globals := Function.update st.globals id v }
    else { st with locals := Function.update st.locals id (some v) }

/-- Calls a routine. -/
def routine (name : String) (args : List Word) : Eval Word :=
  match name, args with
  | "putChar", [c] => do
    modify fun st => { st with output := st.output.push c.toUInt64.toUInt8 }
    return 0
  | "exit", [code] => throw (.exit code)
  | "getChar", [] => do
    let st ← get
    match st.input with
    | some ⟨b :: bs, fault⟩ => do
      set { st with input := some ⟨bs, fault⟩ }
      return .ofNat b.toNat
    | some ⟨[], some fault⟩ => throw (.reader fault)
    | some ⟨[], none⟩ | none => return -1
  | _, _ => throw .undefined

/-- The environment of a call: parameters have the values of the arguments, and nothing else has a
value. -/
def bindings (params : List Param) (args : List Word) (id : NodeId) : Option Word :=
  ((params.map fun p => p.mark.id).zip args).lookup id

/-- Calls a function with the stack pointer `sp`, where `run` evaluates its body with the stack
pointer below its record. -/
def call (p : Program) (t : Attributes) (sp : Int) (name : String) (params : List Param) (body : Expr)
    (args : List Word) (run : Int → Eval Word) : Eval Word := do
  if body.isAbsent then routine name args
  else if p.HasRoom t sp params body then
    let caller ← get
    set { caller with locals := bindings params args }
    let v ← run (sp - body.frameBytes t)
    modify fun st => { st with locals := caller.locals }
    return v
  else throw .stackFull

variable (p : Program) (t : Attributes)

mutual

/-- Evaluates an expression with the stack pointer `sp`. -/
def expr : (fuel : Nat) → (sp : Int) → Expr → Eval Word
  | 0, _, _ => throw .outOfFuel
  | n + 1, sp, e =>
    match e with
    | .atom _ kind value => literal kind value
    | .unary _ op arg => do unary op (← expr n sp arg)
    | .binary _ op fst snd => do
      let x ← expr n sp fst
      let y ← expr n sp snd
      binary op x y
    | .name m _ =>
      match t.declaredAt[m.id]? with
      | some (.fn _ name params _ body) =>
        call p t sp name params body [] fun sp => expr n sp body
      | some (.var dm _ _) | some (.par dm _ _) => read p dm.id
      | _ => throw .undefined
    | .call m _ args => do
      let vs ← exprs n sp args
      match t.declaredAt[m.id]? with
      | some (.fn _ name params _ body) =>
        call p t sp name params body vs fun sp => expr n sp body
      | _ => throw .undefined
    | .block _ ss => stmts n sp ss
    | .cast _ arg type => do return cast t type (← expr n sp arg)
    | .scope _ _ body => expr n sp body
    | _ => throw .undefined

/-- Evaluates arguments from left to right. -/
def exprs : (fuel : Nat) → (sp : Int) → List Expr → Eval (List Word)
  | 0, _, _ => throw .outOfFuel
  | _ + 1, _, [] => return []
  | n + 1, sp, e :: es => do
    let v ← expr n sp e
    let vs ← exprs n sp es
    return v :: vs

/-- Executes a statement; nothing happens if it is missing. -/
def stmt : (fuel : Nat) → (sp : Int) → Stmt → Eval Unit
  | 0, _, _ => throw .outOfFuel
  | n + 1, sp, s =>
    match s with
    | .absent => return ()
    | .eval _ e => do let _ ← expr n sp e
    | .assign _ (.name m _) src =>
      match t.declaredAt[m.id]? with
      | some (.var dm _ _) | some (.par dm _ _) => do assign p dm.id (← expr n sp src)
      | _ => throw .undefined
    | .assign .. => throw .undefined
    | .cond _ test yes no => do
      let v ← expr n sp test
      if v ≠ 0 then stmt n sp yes else stmt n sp no
    | .loop m test body => do
      let v ← expr n sp test
      if v ≠ 0 then
        stmt n sp body
        stmt n sp (.loop m test body)

/-- Executes statements in order. The value is that of the last one if it is an expression statement, and
zero otherwise. -/
def stmts : (fuel : Nat) → (sp : Int) → List Stmt → Eval Word
  | 0, _, _ => throw .outOfFuel
  | _ + 1, _, [] => return 0
  | n + 1, sp, [.eval _ e] => expr n sp e
  | n + 1, sp, s :: ss => do
    stmt n sp s
    stmts n sp ss

end

end Eval

/-- What a program computes: the value of its function `main`, and the store in the end. Parameters
of `main` have no value. -/
def Program.evaluate (p : Program) (t : Attributes) (fuel : Nat) (input : Option ByteReader) :
    Except Stop Word × Store :=
  let main := p.decls.findSome? fun
    | .fn _ "main" params _ body => some (params, body)
    | _ => none
  match main with
  | some (params, body) =>
    (Eval.call p t stackTop.toInt "main" params body [] fun sp =>
      Eval.expr p t fuel sp body).run.run { input }
  | none => (.error .undefined, { input })

end Source

end MmixBackend
