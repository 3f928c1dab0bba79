import MmixBackend.Text.Numeral
import MmixBackend.Text.Quoted
import MmixBackend.Types.Basic

/-!
# Reading types

A type is written as

    type   ::= "^" type | "[" digits "]" type | "{" field ("," field)* "}" | ident
    field  ::= ident ":" type

with blanks and tabs allowed before every token. Identifiers other than `int`, `char`, `bool` and
`void` must name a declared type. Each record that is read gets a number and a declaration for every
component. Nothing may follow a type, not even blanks. A NUL character counts as the end of the text.

A text may turn out not to be a type after parts of it have been read. `TypeParts` is what is known of
these parts, behind a success and behind a failure alike.
-/

namespace MmixBackend

open Source (NodeId Decl TypeExpr Mark)

/-- Why a text is not a type. -/
inductive TypeFault where
  /-- The text ends where a type should start. -/
  | missingType
  | arrayLength
  /-- A certain character should follow. -/
  | expected (c : Char)
  | expectedTypeName
  /-- The name is not that of a declared type. -/
  | notAType (name : String)
  | expectedComponent
  | duplicateComponent (name : String)
  /-- Something follows the type. -/
  | unexpected (rest : String)
  deriving DecidableEq, Repr

/-- The wording of a fault. -/
def TypeFault.message : TypeFault → String
  | missingType => "missing type"
  | arrayLength => "array length must be a positive integer"
  | expected c => "expected " ++ Text.quoted c.toString
  | expectedTypeName => "expected a type name"
  | notAType name => name ++ " is not a type"
  | expectedComponent => "expected a component name"
  | duplicateComponent name => "duplicate component " ++ name
  | unexpected rest => "unexpected " ++ Text.quoted rest

/-- A record that has been read: its components and their declarations. -/
structure RecordInfo where
  fields : Fields
  comps : List Decl

/-- What has been read of a type expression, whether or not the whole of it is a type. -/
structure TypeParts where
  /-- The next free node number. -/
  nextId : NodeId
  /-- The records read so far, by their numbers. -/
  records : List (NodeId × RecordInfo) := []
  /-- The declaration of the type name looked up last. -/
  lastNamed : Option Decl := none

/-- The state of the reader. -/
structure TypeReading extends TypeParts where
  /-- The text still to be read. -/
  rest : List Char

/-- A fault, and what had been read before it was found. -/
structure TypeFailure extends TypeParts where
  fault : TypeFault

/-- A reader of types. -/
abbrev TypeReader := StateT TypeReading (Except TypeFailure)

namespace TypeReader

/-- Stops with a fault. What has been read stays known. -/
def fail {α : Type} (fault : TypeFault) : TypeReader α := do
  throw { (← get).toTypeParts with fault }

/-- Skips blanks and tabs. -/
def skipBlanks : TypeReader Unit :=
  modify fun s => { s with rest := s.rest.dropWhile fun c => c = ' ' ∨ c = '\t' }

/-- The next character behind blanks, if the text has not ended. -/
def peek : TypeReader (Option Char) := do
  skipBlanks
  match (← get).rest with
  | [] => return none
  | c :: _ => return if c.toNat = 0 then none else some c

/-- Skips one character. -/
def advance : TypeReader Unit := modify fun s => { s with rest := s.rest.tail }

/-- Skips a certain character. -/
def expect (c : Char) : TypeReader Unit := do
  if (← peek) = some c then advance else fail (.expected c)

/-- Reads a maximal run of characters behind blanks. -/
def word (belongs : Char → Bool) : TypeReader String := do
  skipBlanks
  modifyGet fun s =>
    (String.ofList (s.rest.takeWhile belongs), { s with rest := s.rest.dropWhile belongs })

/-- The characters of identifiers. -/
def isNameChar (c : Char) : Bool := c.isAlphanum || c = '_'

/-- The next free node number. -/
def freshId : TypeReader NodeId := modifyGet fun s => (s.nextId, { s with nextId := s.nextId + 1 })

/-- The type that a name denotes; `lookup` finds declarations. -/
def namedType (lookup : String → Option Decl) (name : String) : TypeReader Ty := do
  match name with
  | "int" => return .int
  | "char" => return .char
  | "bool" => return .bool
  | "void" => return .void
  | _ =>
    match lookup name with
    | some (.typ m ident type) => do
      modify fun s => { s with lastNamed := some (.typ m ident type) }
      return .named m.id ident
    | _ => fail (.notAType name)

/-- Reads the length of an array. -/
def arrayLength : TypeReader Word := do
  let digits ← word Char.isDigit
  match Text.readWord (.fixed 10) digits with
  | .ok n => if 0 < n then return n else fail .arrayLength
  | .error _ => fail .arrayLength

/-- A component that has been read: its name, its type and the text of the type. -/
structure Component where
  name : String
  type : Ty
  text : String

/-- The declarations of the components of a record whose type was written at `mark`. -/
def declareAll (mark : Mark) : List Component → TypeReader (List Decl)
  | [] => return []
  | c :: cs => do
    let id ← freshId
    let typeId ← freshId
    let decl := Decl.comp { mark with id } c.name ⟨{ mark with id := typeId }, c.text⟩
    return decl :: (← declareAll mark cs)

/-- Finishes a record with the given components. -/
def finishRecord (mark : Mark) (comps : List Component) : TypeReader Ty := do
  let id ← freshId
  let fields := Fields.ofList (comps.map fun c => (c.name, c.type))
  let decls ← declareAll mark comps
  modify fun s => { s with records := s.records ++ [(id, { fields, comps := decls })] }
  return .record id fields

mutual

/-- Reads a type. The fuel bounds the depth of nesting and the number of components; the length of
the text is enough, since every level and every component takes a character. -/
def type (lookup : String → Option Decl) (mark : Mark) : (fuel : Nat) → TypeReader Ty
  | 0 => fail .missingType
  | fuel + 1 => do
    match ← peek with
    | none => fail .missingType
    | some '^' => do
      advance
      return .ptr (← type lookup mark fuel)
    | some '[' => do
      advance
      let len ← arrayLength
      expect ']'
      return .arr len (← type lookup mark fuel)
    | some '{' => do
      advance
      finishRecord mark (← components lookup mark fuel [])
    | some _ => do
      let name ← word isNameChar
      if Source.isIdent name then namedType lookup name else fail .expectedTypeName

/-- Reads the components of a record behind those in `before`, up to the closing brace. -/
def components (lookup : String → Option Decl) (mark : Mark) :
    (fuel : Nat) → (before : List Component) → TypeReader (List Component)
  | 0, _ => fail .expectedComponent
  | fuel + 1, before => do
    let name ← word isNameChar
    if !Source.isIdent name then fail .expectedComponent
    if before.any fun c => c.name = name then fail (.duplicateComponent name)
    expect ':'
    let start := (← get).rest
    let ty ← type lookup mark fuel
    let text := String.ofList (start.take (start.length - (← get).rest.length))
    let comps := before ++ [{ name, type := ty, text }]
    if (← peek) = some '}' then
      advance
      return comps
    else
      expect ','
      components lookup mark fuel comps

end

end TypeReader

/-- The type that a type expression denotes, and what has been read of it. -/
structure TypeResult extends TypeParts where
  type : Ty

/-- Reads a whole type expression; `lookup` finds the declarations of names, and records and their
components are numbered from `nextId` on. -/
def readTypeExpr (lookup : String → Option Decl) (nextId : NodeId) (te : TypeExpr) :
    Except TypeFailure TypeResult := do
  let chars := te.text.toList
  let (type, s) ← (TypeReader.type lookup te.mark (chars.length + 1)).run { rest := chars, nextId }
  if s.rest.isEmpty then return { s.toTypeParts with type }
  else throw { s.toTypeParts with fault := .unexpected (String.ofList s.rest) }

end MmixBackend
