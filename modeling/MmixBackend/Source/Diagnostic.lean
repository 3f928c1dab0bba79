import MmixBackend.Source.Tree
import MmixBackend.Text.Quoted
import MmixBackend.Types.Reader

/-!
# Diagnostics

What can be wrong with a source program, with the position where it was found. Reading and resolving
a program go on after an error, so a program may have several diagnostics, in the order in which they
were found. `Cause.message` is the only place that knows the wording.
-/

namespace MmixBackend.Source

/-- What is wrong with a program. -/
inductive Cause where
  -- Shape of the document
  | notAProgram
  | notDeclarations
  | noDeclaration
  | fieldNotAllowed (name kind : String)
  | notParameters
  | notAParameter
  | missingType
  | typeNotScalar
  | notAnIdentifier
  | notAMapping
  | unknownField (name : String)
  | twoOperands (op : String)
  | oneOperator
  | aliasUsed
  | integerRange (text : String)
  | malformedBool (text : String)
  | charLength
  | stringNotScalar
  | callShape
  | whereShape
  | unknownOperator (name : String)
  | ifShape
  | whileShape
  -- Declarations
  | runtimeBody (name : String)
  | runtimeName (name : String)
  | redeclared (name : String)
  | infiniteType (name : String)
  | voidVariable (name : String)
  | parameterType (name : String) (type : Ty)
  | resultType (name : String) (type : Ty)
  | duplicateParameter (name : String)
  | bodyType (name : String) (want got : Ty)
  | badType (text : String) (fault : TypeFault)
  -- Expressions and statements
  | unknownAtom
  | undefinedName (name : String)
  | needsArguments (name : String) (count : Nat)
  | notAValue (name : String)
  | signOperand (type : Ty)
  | notOperand (type : Ty)
  | notAddressable
  | newOperand (type : Ty)
  | delOperand (type : Ty)
  | unknownPrefix (code : Int)
  | derefOperand (type : Ty)
  | derefVoid
  | operands (fst snd : Ty)
  | indexOperand (type : Ty)
  | arrayNotAddressable
  | indexType (type : Ty)
  | selectOperand (type : Ty)
  | recordNotAddressable
  | noComponent (record : Ty) (name : String)
  | castTypes (src dst : Ty)
  | notAFunction (name : String)
  | argumentCount (name : String) (got want : Nat)
  | argumentType (position : Nat) (name : String) (got want : Ty)
  | assignTarget
  | assignType (type : Ty)
  | assignMismatch (src dst : Ty)
  | conditionType (type : Ty)
  deriving DecidableEq

/-- The wording of a cause. -/
def Cause.message : Cause → String
  | notAProgram => "program must be a sequence of declarations"
  | notDeclarations => "expected a sequence of declarations"
  | noDeclaration => "declaration must be one of fun, var or typ"
  | fieldNotAllowed name kind =>
    "field " ++ Text.quoted name ++ " not allowed in " ++ kind ++ " declaration"
  | notParameters => "parameters must be a sequence"
  | notAParameter => "parameter must be a single name: type pair"
  | missingType => "missing type"
  | typeNotScalar => "type must be a string"
  | notAnIdentifier => "expected an identifier"
  | notAMapping => "expected a mapping"
  | unknownField name => "unknown field " ++ Text.quoted name
  | twoOperands op => op ++ " takes exactly two operands"
  | oneOperator => "expression must name exactly one operator"
  | aliasUsed => "aliases are not supported"
  | integerRange text => "integer constant " ++ text ++ " out of range"
  | malformedBool text => "malformed boolean " ++ text
  | charLength => "char constant must be a single character"
  | stringNotScalar => "string constant must be a scalar"
  | callShape => "call takes a function name followed by arguments"
  | whereShape => "where needs an expr"
  | unknownOperator name => "unknown operator " ++ Text.quoted name
  | ifShape => "if needs cond and then"
  | whileShape => "while needs cond and do"
  | runtimeBody name => "runtime function " ++ name ++ " cannot have a body"
  | runtimeName name => name ++ " is the name of a runtime function"
  | redeclared name => name ++ " redeclared in this block"
  | infiniteType name => "type " ++ name ++ " is infinite"
  | voidVariable name => "variable " ++ name ++ " of type void"
  | parameterType name type => "parameter " ++ name ++ " must have a scalar type, not " ++ type.text
  | resultType name type => "function " ++ name ++ " must return a scalar or void, not " ++ type.text
  | duplicateParameter name => "duplicate parameter " ++ name
  | bodyType name want got =>
    "function " ++ name ++ " returns " ++ want.text ++ ", body has type " ++ got.text
  | badType text fault => "type " ++ Text.quoted text ++ ": " ++ fault.message
  | unknownAtom => "unexpected expression *ast.Atom"
  | undefinedName name => "undefined: " ++ name
  | needsArguments name count =>
    "function " ++ name ++ " used as a value needs " ++ toString count ++ " arguments"
  | notAValue name => name ++ " is not a value"
  | signOperand type => "sign applied to " ++ type.text
  | notOperand type => "negation applied to " ++ type.text
  | notAddressable => "cannot take the address of this expression"
  | newOperand type => "new needs a size in bytes, not " ++ type.text
  | delOperand type => "del needs a pointer, not " ++ type.text
  | unknownPrefix code => "unknown prefix operator " ++ toString code
  | derefOperand type => "dereference of non-pointer type " ++ type.text
  | derefVoid => "dereference of a void pointer"
  | operands fst snd => "invalid operands " ++ fst.text ++ " and " ++ snd.text
  | indexOperand type => "indexing non-array type " ++ type.text
  | arrayNotAddressable => "indexed array is not addressable"
  | indexType type => "array index must be an int, not " ++ type.text
  | selectOperand type => "component access on non-record type " ++ type.text
  | recordNotAddressable => "record is not addressable"
  | noComponent record name => "record " ++ record.text ++ " has no component " ++ name
  | castTypes src dst => "cannot cast " ++ src.text ++ " to " ++ dst.text
  | notAFunction name => name ++ " is not a function"
  | argumentCount name got want =>
    "call of " ++ name ++ " with " ++ toString got ++ " arguments, want " ++ toString want
  | argumentType position name got want =>
    "argument " ++ toString position ++ " of " ++ name ++ " has type " ++ got.text ++ ", want "
      ++ want.text
  | assignTarget => "cannot assign to this expression"
  | assignType type => "cannot assign values of type " ++ type.text
  | assignMismatch src dst => "cannot assign " ++ src.text ++ " to " ++ dst.text
  | conditionType type => "condition must be a bool, not " ++ type.text

/-- An error in a program and where it was found. -/
structure Diagnostic where
  pos : Pos
  cause : Cause
  deriving DecidableEq

/-- The text of a diagnostic. -/
def Diagnostic.text (d : Diagnostic) : String :=
  "line " ++ toString d.pos.line ++ ", col " ++ toString d.pos.col ++ ": " ++ d.cause.message

/-- The text of several diagnostics in order. -/
def diagnosticsText (ds : List Diagnostic) : String :=
  String.intercalate "; " (ds.map Diagnostic.text)

end MmixBackend.Source
