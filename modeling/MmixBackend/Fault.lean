import MmixBackend.Supply
import MmixBackend.Text.Quoted

/-!
# Faults of the compilation passes

A pass reports a fault in two situations: a contract between passes is broken (an internal fault), or
the number of registers cannot work for the code at hand (a configuration fault). Each cause is a
constructor; `Fault.message` is the only place that knows the wording. A third way in which a pass can
stop is that it crashes while it words an internal fault.
-/

namespace MmixBackend

/-- Why a pass stopped. -/
inductive Fault where
  /-- A statement is missing from a tree. -/
  | absentStatement
  /-- An expression is missing from a tree. -/
  | absentExpression
  /-- The destination of a move is neither a temp nor a memory location. -/
  | moveTo (target : String)
  /-- The pass crashes: it needs the text of a tree that cannot be printed, since a call in it has
  fewer offsets than arguments. -/
  | crash
  /-- Canonical code contains a statement inside an expression. -/
  | statementExpression
  /-- The target has no instruction for a binary operator. -/
  | binaryOperator (name : String)
  /-- The target has no instruction for a unary operator. -/
  | unaryOperator (name : String)
  /-- A call has a different number of offsets and arguments. -/
  | callShape (label : String) (offsets args : Nat)
  /-- A jump leads to a label that is neither in the code nor an exit. -/
  | unknownJump (label : String)
  /-- The return value of a function has neither a register nor a slot. -/
  | noReturnLocation (label : String)
  /-- A declaration that cannot stand in a block. -/
  | misplacedDeclaration (kind : String)
  /-- A declaration has no type. -/
  | untypedDeclaration (name : String)
  /-- An argument of a call has no type. -/
  | untypedArgument (callee : String)
  /-- A function has no frame. -/
  | noFrame (name : String)
  /-- A prefix operator outside the known ones. -/
  | unknownPrefix (code : Int)
  /-- A binary operator outside the known ones. -/
  | unknownBinary (code : Int)
  /-- A kind of atom outside the known ones. -/
  | unknownAtom (code : Int)
  /-- An array access has no type. -/
  | untypedArrayAccess (line col : Int)
  /-- A component name is not bound. -/
  | unresolvedComponent (name : String)
  /-- An entity has no offset. -/
  | noRelativeAccess (name : String)
  /-- An operand should be a memory location. -/
  | memoryOperand (got : String)
  /-- A variable has no location. -/
  | noAccess (name : String)
  /-- A name is not bound. -/
  | unresolvedName (name : String)
  /-- A name is bound to something that has no value. -/
  | notAValue (name : String)
  /-- The callee of a call is not bound to a function. -/
  | unresolvedCall (name : String)
  /-- A call has the wrong number of arguments. -/
  | callArguments (name : String) (got want : Nat)
  /-- The text of a character constant is too short. -/
  | malformedChar (text : String)
  /-- The text of an integer constant is no integer. -/
  | malformedInt (text : String)
  /-- A string constant has no static data. -/
  | noStringData (text : String)
  /-- A global variable has no static location. -/
  | noStaticAccess (name : String)
  /-- The body of a function has no intermediate code. -/
  | noCode (name : String)
  /-- The number of registers is out of range. -/
  | registerCount (count least most : Int)
  /-- Allocation does not converge. -/
  | noColoring (label : String) (registers : Int) (rounds : Nat)
  /-- One instruction needs more registers than there are. -/
  | registerPressure (instr : String) (need : Nat) (available : Int)
  deriving DecidableEq, Repr

namespace Fault

/-- Whether the fault lies in the configuration and not in a broken contract. -/
def isConfiguration : Fault → Bool
  | registerCount .. | noColoring .. | registerPressure .. => true
  | _ => false

/-- Whether the pass crashes instead of reporting something. -/
def isCrash : Fault → Bool
  | crash => true
  | _ => false

/-- The cause in words. -/
def cause : Fault → String
  | absentStatement => "unexpected statement <nil>"
  | absentExpression => "unexpected expression <nil>"
  | moveTo target => "move to " ++ target
  | crash => "index out of range"
  | statementExpression => "statement expression in canonical code"
  | binaryOperator name => "unexpected binary operator " ++ name
  | unaryOperator name => "unexpected unary operator " ++ name
  | callShape label offsets args =>
    "call to " ++ label ++ " with " ++ toString offsets ++ " offsets and " ++ toString args
      ++ " arguments"
  | unknownJump label => "jump to unknown label " ++ label
  | noReturnLocation label => label ++ ": return value has no location"
  | misplacedDeclaration kind => "unexpected declaration " ++ kind
  | untypedDeclaration name => "untyped declaration " ++ name
  | untypedArgument callee => "untyped argument of " ++ callee
  | noFrame name => "no frame for function " ++ name
  | unknownPrefix code => "unknown prefix operator " ++ toString code
  | unknownBinary code => "unknown binary operator " ++ toString code
  | unknownAtom code => "unknown atom kind " ++ toString code
  | untypedArrayAccess line col =>
    "untyped array access at " ++ toString line ++ ":" ++ toString col
  | unresolvedComponent name => "unresolved component " ++ name
  | noRelativeAccess name => "no relative access for " ++ name
  | memoryOperand got => "expected a memory operand, got " ++ got
  | noAccess name => "no access for " ++ name
  | unresolvedName name => "unresolved name " ++ name
  | notAValue name => "name " ++ name ++ " does not denote a value"
  | unresolvedCall name => "call of unresolved function " ++ name
  | callArguments name got want =>
    "call of " ++ name ++ " with " ++ toString got ++ " arguments, want " ++ toString want
  | malformedChar text => "malformed char constant " ++ Text.quoted text
  | malformedInt text => "malformed int constant " ++ Text.quoted text
  | noStringData text => "no static data for string " ++ Text.quoted text
  | noStaticAccess name => "global variable " ++ name ++ " has no static access"
  | noCode name => "no code for function " ++ name
  | registerCount count least most =>
    "register count " ++ toString count ++ " out of range [" ++ toString least ++ ","
      ++ toString most ++ "]"
  | noColoring label registers rounds =>
    label ++ ": no coloring with " ++ toString registers ++ " registers after " ++ toString rounds
      ++ " rounds"
  | registerPressure instr need available =>
    "instruction " ++ Text.quoted instr ++ " needs " ++ toString need ++ " registers, only "
      ++ toString available ++ " available"

/-- The message of a fault: its class and its cause. -/
def message (f : Fault) : String :=
  (if f.isCrash then "runtime error: "
    else if f.isConfiguration then "configuration error: " else "internal error: ") ++ f.cause

end Fault

/-- A pass that takes fresh temps and labels and may stop with a fault. What it has taken stays
taken when it stops. -/
abbrev Fresh := ExceptT Fault (StateM Supply)

end MmixBackend
