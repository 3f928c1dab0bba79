import MmixBackend.Source.Diagnostic
import MmixBackend.Yaml.Document

/-!
# Reading programs

Programs are written as YAML documents. A program is a sequence of declarations, each a mapping:

    - typ: list
      type: "^node"
    - fun: main
      type: int
      pars: [n: int]
      body: {add: [n, 1]}

Scalars are integers, booleans, nil, the void atom `none`, or names. Every other expression is a
mapping with one entry, named for its operator; a sequence is a block of statements.

Reading goes on after an error: the tree then has a hole, and the diagnostics say why. So reading an
expression gives a tree and the diagnostics of this part of the document, and the parts are put
together in a fixed order.
-/

namespace MmixBackend.Source

open Yaml (Entry)

/-- What has been read and the errors found on the way. -/
structure Reading (α : Type) where
  value : α
  diagnostics : List Diagnostic := []

instance : Monad Reading where
  pure a := ⟨a, []⟩
  bind r f :=
    let s := f r.value
    ⟨s.value, r.diagnostics ++ s.diagnostics⟩

namespace Reader

/-- The position of a node. -/
def position (n : Yaml.Node) : Pos := ⟨n.mark.line + 1, n.mark.column + 1⟩

/-- A mark at the start of a node. -/
def markOf (n : Yaml.Node) : Mark := { pos := position n }

/-- An error at a node. -/
def complain (n : Yaml.Node) (cause : Cause) : Reading Unit := ⟨(), [⟨position n, cause⟩]⟩

/-- An error at a node and what stands in for its content. -/
def failed {α : Type} (n : Yaml.Node) (cause : Cause) (substitute : α) : Reading α :=
  ⟨substitute, [⟨position n, cause⟩]⟩

/-! ### Names, types and parameters -/

/-- Reads an identifier. -/
def ident : Yaml.Node → Reading String
  | .scalar m t style s =>
    if isIdent s then pure s else failed (.scalar m t style s) .notAnIdentifier ""
  | n => failed n .notAnIdentifier ""

/-- Reads a type, which is kept as text. -/
def typeExpr : Yaml.Node → Reading TypeExpr
  | .scalar m t style s => pure ⟨markOf (.scalar m t style s), s⟩
  | n => failed n .typeNotScalar ⟨markOf n, ""⟩

/-- Reads the type of the node `parent`, if it has one. -/
def fieldType (parent : Yaml.Node) : Option Yaml.Node → Reading TypeExpr
  | some n => typeExpr n
  | none => failed parent .missingType ⟨markOf parent, ""⟩

/-- Reads a parameter. -/
def parameter : Yaml.Node → Reading (Option Param)
  | .mapping m t [.mk k v] => do
    let name ← ident k
    let type ← typeExpr v
    return some { mark := markOf (.mapping m t [.mk k v]), name, type }
  | n => failed n .notAParameter none

/-- Reads the parameters of a function. -/
def parameters : Yaml.Node → Reading (List Param)
  | .sequence _ _ items => do return (← items.mapM parameter).filterMap id
  | n => failed n .notParameters []

/-- Reports the entries of a mapping whose key is not among the known ones. -/
def unknownFields (known : List String) : List Entry → Reading Unit
  | [] => pure ()
  | .mk k _ :: rest => do
    if !known.contains k.text then complain k (.unknownField k.text)
    unknownFields known rest

/-- Reports the fields of a declaration that only other kinds of declarations have. -/
def onlyFields (n : Yaml.Node) (entries : List Entry) (kind : String) : List String → Reading Unit
  | [] => pure ()
  | f :: fs => do
    if f ≠ kind && (Yaml.lastField? f entries).isSome then complain n (.fieldNotAllowed f kind)
    onlyFields n entries kind fs

/-- The fields of a declaration that not all kinds of declarations have. -/
def specialFields : List String := ["fun", "var", "typ", "pars", "body"]

/-! ### Atoms -/

/-- Reads a boolean. -/
def boolean? (s : String) : Option Bool :=
  if s ∈ ["true", "True", "TRUE"] then some true
  else if s ∈ ["false", "False", "FALSE"] then some false
  else none

/-- Reads a scalar: an atom or a name. -/
def scalar (n : Yaml.Node) (tag : Yaml.Tag) (text : String) : Reading Expr :=
  let mark := markOf n
  match tag with
  | .int =>
    match Text.readWord .named text with
    | .ok v => pure (.atom mark .int v.text)
    | .error _ => failed n (.integerRange text) .absent
  | .bool =>
    match boolean? text with
    | some b => pure (.atom mark .bool (if b then "true" else "false"))
    | none => failed n (.malformedBool text) .absent
  | .null => pure (.atom mark .ptr "nil")
  | _ =>
    if text = "none" then pure (.atom mark .void "none")
    else do return .name mark (← ident n)

/-- Reads a character. -/
def character (mark : Mark) : Yaml.Node → Reading Expr
  | .scalar m t style s =>
    if s.utf8ByteSize = 1 then pure (.atom mark .char ("'" ++ s ++ "'"))
    else failed (.scalar m t style s) .charLength .absent
  | n => failed n .charLength .absent

/-- Reads a string. -/
def string (mark : Mark) : Yaml.Node → Reading Expr
  | .scalar _ _ _ s => pure (.atom mark .str s)
  | n => failed n .stringNotScalar .absent

/-! ### Expressions, statements and declarations -/

/-- The operators with two operands, by their names in documents. -/
def binaryOp? : String → Option BinaryOp
  | "or" => some .or
  | "and" => some .and
  | "eq" => some .eq
  | "ne" => some .ne
  | "lt" => some .lt
  | "gt" => some .gt
  | "le" => some .le
  | "ge" => some .ge
  | "add" => some .add
  | "sub" => some .sub
  | "mul" => some .mul
  | "div" => some .div
  | "mod" => some .mod
  | _ => none

/-- The operators in front of their operand, by their names in documents. -/
def unaryOp? : String → Option UnaryOp
  | "pos" => some .pos
  | "neg" => some .neg
  | "not" => some .not
  | "addr" => some .addr
  | "new" => some .new
  | "del" => some .del
  | _ => none

/-- The operators whose value is not an expression itself but has to be taken apart. -/
inductive PartsOperator where
  | binary (op : BinaryOp)
  | char
  | str
  | index
  | field
  | call
  | cast
  | scope
  deriving DecidableEq

/-- What the key of an expression with one entry selects. -/
inductive Operator where
  | unary (op : UnaryOp)
  | deref
  | parts (op : PartsOperator)
  deriving DecidableEq

/-- The operator with a name. -/
def Operator.ofName? (name : String) : Option Operator :=
  match binaryOp? name, unaryOp? name with
  | some op, _ => some (.parts (.binary op))
  | none, some op => some (.unary op)
  | none, none =>
    match name with
    | "deref" => some .deref
    | "char" => some (.parts .char)
    | "str" => some (.parts .str)
    | "index" => some (.parts .index)
    | "field" => some (.parts .field)
    | "call" => some (.parts .call)
    | "cast" => some (.parts .cast)
    | "where" => some (.parts .scope)
    | _ => none

mutual

/-- Reads an expression. -/
def expr : Yaml.Node → Reading Expr
  | .scalar m t style s => scalar (.scalar m t style s) t s
  | .sequence m t items => do
    return .block (markOf (.sequence m t [])) (← stmts items)
  | .mapping m t [.mk k v] =>
    let mark := markOf (.mapping m t [])
    match Operator.ofName? k.text with
    | some (.unary op) => .unary mark op <$> expr v
    | some .deref => .deref mark <$> expr v
    | some (.parts op) => operation mark k.text op v
    | none => failed (.mapping m t []) (.unknownOperator k.text) .absent
  | .mapping m t _ => failed (.mapping m t []) .oneOperator .absent
  | .reference m a _ => failed (.reference m a none) .aliasUsed .absent

/-- Reads what an operator, written with a name, is applied to. -/
def operation (mark : Mark) (name : String) : PartsOperator → Yaml.Node → Reading Expr
  | .binary op, .sequence _ _ [a, b] => do return .binary mark op (← expr a) (← expr b)
  | .binary _, n => failed n (.twoOperands name) .absent
  | .char, n => character mark n
  | .str, n => string mark n
  | .index, .sequence _ _ [a, b] => do return .index mark (← expr a) (← expr b)
  | .index, n => failed n (.twoOperands name) .absent
  | .field, .sequence _ _ [a, b] => do
    return .select mark (← expr a) { mark := markOf b, ident := ← ident b }
  | .field, n => failed n (.twoOperands name) .absent
  | .call, .sequence _ _ (f :: args) => do return .call mark (← ident f) (← exprs args)
  | .call, n => failed n .callShape .absent
  | .cast, .sequence _ _ [a, b] => do return .cast mark (← expr a) (← typeExpr b)
  | .cast, n => failed n (.twoOperands name) .absent
  | .scope, .mapping m t entries => do
    unknownFields ["decls", "expr"] entries
    match exprField "expr" entries with
    | none => failed (.mapping m t entries) .whereShape .absent
    | some body =>
      let body ← body
      return .scope mark (← (declsField "decls" entries).getD (pure [])) body
  | .scope, n => failed n .notAMapping .absent

/-- Reads expressions from left to right. -/
def exprs : List Yaml.Node → Reading (List Expr)
  | [] => pure []
  | n :: ns => do return (← expr n) :: (← exprs ns)

/-- Reads a statement. -/
def stmt : Yaml.Node → Reading Stmt
  | .mapping m t [.mk k v] =>
    let mark := markOf (.mapping m t [])
    match k.text with
    | "assign" => assignment mark v
    | "if" => conditional mark v
    | "while" => loop mark v
    | name => .eval mark <$> match Operator.ofName? name with
      | some (.unary op) => .unary mark op <$> expr v
      | some .deref => .deref mark <$> expr v
      | some (.parts op) => operation mark name op v
      | none => failed (.mapping m t []) (.unknownOperator name) .absent
  | .scalar m t style s => do
    return .eval (markOf (.scalar m t style s)) (← scalar (.scalar m t style s) t s)
  | .sequence m t items => do
    let mark := markOf (.sequence m t [])
    return .eval mark (.block mark (← stmts items))
  | .mapping m t _ => do
    return .eval (markOf (.mapping m t [])) (← failed (.mapping m t []) .oneOperator .absent)
  | .reference m a _ => do
    return .eval (markOf (.reference m a none)) (← failed (.reference m a none) .aliasUsed .absent)

/-- Reads what an assignment is made of. -/
def assignment (mark : Mark) : Yaml.Node → Reading Stmt
  | .sequence _ _ [a, b] => do return .assign mark (← expr a) (← expr b)
  | n => failed n (.twoOperands "assign") .absent

/-- Reads what a conditional is made of. -/
def conditional (mark : Mark) : Yaml.Node → Reading Stmt
  | .mapping m t entries => do
    unknownFields ["cond", "then", "else"] entries
    match exprField "cond" entries, stmtField "then" entries with
    | some test, some yes =>
      let test ← test
      let yes ← yes
      return .cond mark test yes (← (stmtField "else" entries).getD (pure .absent))
    | _, _ => failed (.mapping m t entries) .ifShape .absent
  | n => do
    complain n .notAMapping
    failed n .ifShape .absent

/-- Reads what a loop is made of. -/
def loop (mark : Mark) : Yaml.Node → Reading Stmt
  | .mapping m t entries => do
    unknownFields ["cond", "do"] entries
    match exprField "cond" entries, stmtField "do" entries with
    | some test, some body =>
      let test ← test
      return .loop mark test (← body)
    | _, _ => failed (.mapping m t entries) .whileShape .absent
  | n => do
    complain n .notAMapping
    failed n .whileShape .absent

/-- Reads statements in order; those that cannot be read are left out. -/
def stmts : List Yaml.Node → Reading (List Stmt)
  | [] => pure []
  | n :: ns => do
    let s ← stmt n
    let rest ← stmts ns
    return match s with
      | .absent => rest
      | s => s :: rest

/-- Reads a declaration, if it is one. -/
def decl : Yaml.Node → Reading (Option Decl)
  | .mapping m t entries => do
    let n := .mapping m t []
    unknownFields ["fun", "var", "typ", "type", "pars", "body"] entries
    let type := fieldType n (Yaml.lastField? "type" entries)
    match Yaml.lastField? "fun" entries, Yaml.lastField? "var" entries,
        Yaml.lastField? "typ" entries with
    | some name, _, _ =>
      let name ← ident name
      let type ← type
      let params ← ((Yaml.lastField? "pars" entries).map parameters).getD (pure [])
      let body ← (exprField "body" entries).getD (pure .absent)
      return some (.fn (markOf n) name params type body)
    | none, some name, _ =>
      onlyFields n entries "var" specialFields
      return some (.var (markOf n) (← ident name) (← type))
    | none, none, some name =>
      onlyFields n entries "typ" specialFields
      return some (.typ (markOf n) (← ident name) (← type))
    | none, none, none => failed n .noDeclaration none
  | n => failed n .notAMapping none

/-- Reads declarations in order; those that cannot be read are left out. -/
def decls : List Yaml.Node → Reading (List Decl)
  | [] => pure []
  | n :: ns => do
    let d ← decl n
    let rest ← decls ns
    return d.toList ++ rest

/-- Reads a sequence of declarations. -/
def declarations : Yaml.Node → Reading (List Decl)
  | .sequence _ _ items => decls items
  | n => failed n .notDeclarations []

/-- Reads the last field with a key as an expression. -/
def exprField (key : String) : List Entry → Option (Reading Expr)
  | [] => none
  | .mk k v :: rest =>
    match exprField key rest with
    | some r => some r
    | none => if k.text = key then some (expr v) else none

/-- Reads the last field with a key as a statement. -/
def stmtField (key : String) : List Entry → Option (Reading Stmt)
  | [] => none
  | .mk k v :: rest =>
    match stmtField key rest with
    | some r => some r
    | none => if k.text = key then some (stmt v) else none

/-- Reads the last field with a key as declarations. -/
def declsField (key : String) : List Entry → Option (Reading (List Decl))
  | [] => none
  | .mk k v :: rest =>
    match declsField key rest with
    | some r => some r
    | none => if k.text = key then some (declarations v) else none

end

/-- Reads the root of a document. -/
def program : Yaml.Node → Reading Program
  | .sequence m t items => do
    return { mark := markOf (.sequence m t []), decls := ← decls items }
  | n => failed n .notAProgram { mark := markOf n, decls := [] }

end Reader

/-- Why a text is not a program. -/
inductive ReadError where
  /-- It is not a document. -/
  | malformed (fault : Yaml.Fault)
  /-- It has no content. -/
  | empty
  /-- The document is not a program. -/
  | diagnosed (diagnostics : List Diagnostic)

/-- The wording of an error. -/
def ReadError.message : ReadError → String
  | malformed fault => "decode program: yaml: " ++ fault.message
  | empty => "empty program"
  | diagnosed ds => diagnosticsText ds

/-- Reads a program whose nodes are not numbered yet from a document. -/
def Program.ofNode (n : Yaml.Node) : Except (List Diagnostic) Program :=
  let r := Reader.program n
  if r.diagnostics.isEmpty then .ok r.value else .error r.diagnostics

/-- Reads a program from a text. -/
def Program.read (s : String) : Except ReadError Program := do
  match Yaml.readDocument? s with
  | .error fault => throw (.malformed fault)
  | .ok none => throw .empty
  | .ok (some root) =>
    match Program.ofNode root with
    | .error ds => throw (.diagnosed ds)
    | .ok p => return p.number

end MmixBackend.Source
