import MmixBackend.Frame
import MmixBackend.Instr.Template

/-!
# Target instructions over temps

An instruction is an operation, a register move or a label. Operations are described by an opcode
together with the temps they use and define, the labels they may jump to and how control leaves
them. The stack pointer `$254` is a fixed register that never appears as a temp.

`Code` is the instruction list of one function together with what register allocation finds out
about it.
-/

namespace MmixBackend

/-- The places of the four sixteen-bit groups of a word. -/
inductive WydePlace where
  | low | mediumLow | mediumHigh | high
  deriving DecidableEq, Repr

namespace WydePlace

/-- The position of the group, counted from the low end. -/
def position : WydePlace → Nat
  | low => 0 | mediumLow => 1 | mediumHigh => 2 | high => 3

/-- The instruction that sets the low group, or adds to another one. -/
def mnemonic : WydePlace → String
  | low => "SETL" | mediumLow => "INCML" | mediumHigh => "INCMH" | high => "INCH"

end WydePlace

/-- Operations with two register operands. -/
inductive Arith where
  | or | and | add | sub | mul | div
  deriving DecidableEq, Repr

namespace Arith

/-- The name of the operation. -/
def mnemonic : Arith → String
  | or => "OR" | and => "AND" | add => "ADD" | sub => "SUB" | mul => "MUL" | div => "DIV"

end Arith

/-- Tests on the sign of a comparison result. -/
inductive SignTest where
  | zero | nonzero | negative | positive | nonpositive | nonnegative
  deriving DecidableEq, Repr

namespace SignTest

/-- The instruction that sets a register if the test holds and clears it otherwise. -/
def mnemonic : SignTest → String
  | zero => "ZSZ" | nonzero => "ZSNZ" | negative => "ZSN" | positive => "ZSP"
  | nonpositive => "ZSNP" | nonnegative => "ZSNN"

end SignTest

/-- The register that holds the stack pointer. -/
def stackPointer : String := "$254"

/-- Operations. -/
inductive Opcode where
  /-- Sets the low group of a word, or adds to a higher one. -/
  | loadWyde (place : WydePlace) (value : Nat)
  /-- Combines two registers. -/
  | arith (op : Arith)
  /-- Fetches the remainder of the last division. -/
  | remainder
  /-- Compares two registers as signed numbers. -/
  | compare
  /-- Sets a register to one or zero by the sign of another. -/
  | setIf (test : SignTest)
  /-- Negates a register. -/
  | negate
  /-- Adds one to a register. -/
  | increment
  /-- Loads the word at an address. -/
  | loadAt
  /-- Loads the word at the sum of two registers. -/
  | loadIndexed
  /-- Stores a word at an address. -/
  | storeAt
  /-- Stores a word at the sum of two registers. -/
  | storeIndexed
  /-- Stores a word into the outgoing argument area. -/
  | storeArg (offset : Word)
  /-- Computes an address in the outgoing argument area. -/
  | argAddress
  /-- Loads the result of the last call. -/
  | loadResult
  /-- Loads the address of a label. -/
  | loadAddress (label : Label)
  /-- Jumps if a register is not zero. -/
  | branch (label : Label)
  /-- Jumps. -/
  | goto (label : Label)
  /-- Calls a function. -/
  | call (label : Label)
  /-- Any other operation, given by its template. -/
  | other (template : String)
  deriving DecidableEq, Repr

namespace Opcode

/-- The template of an operation. -/
def template : Opcode → String
  | loadWyde place value => place.mnemonic ++ " `d0," ++ toString value
  | arith op => op.mnemonic ++ " `d0,`s0,`s1"
  | remainder => "GET `d0,rR"
  | compare => "CMP `d0,`s0,`s1"
  | setIf test => test.mnemonic ++ " `d0,`s0,1"
  | negate => "NEG `d0,`s0"
  | increment => "ADD `d0,`s0,1"
  | loadAt => "LDO `d0,`s0,0"
  | loadIndexed => "LDO `d0,`s0,`s1"
  | storeAt => "STO `s0,`s1,0"
  | storeIndexed => "STO `s0,`s1,`s2"
  | storeArg offset => "STO `s0," ++ stackPointer ++ "," ++ offset.text
  | argAddress => "ADD `d0," ++ stackPointer ++ ",`s0"
  | loadResult => "LDO `d0," ++ stackPointer ++ ",0"
  | loadAddress label => "LDA `d0," ++ label
  | branch label => "BNZ `s0," ++ label
  | goto label => "JMP " ++ label
  | call label => "PUSHJ `w," ++ label
  | other template => template

end Opcode

/-- How control leaves an instruction. -/
inductive Flow where
  /-- To the next instruction or to one of the jump targets. -/
  | next
  /-- To one of the jump targets only. -/
  | jump
  /-- To the next instruction; the jump target is the callee and not part of the function. -/
  | call
  deriving DecidableEq, Inhabited, Repr

/-- A target instruction. -/
inductive Instr where
  /-- An operation. -/
  | oper (op : Opcode) (uses defs : List Temp) (jumps : List Label) (flow : Flow)
  /-- Copies `src` into `dst`. -/
  | move (src dst : Temp)
  /-- Marks a jump target. -/
  | label (label : Label)
  deriving DecidableEq, Repr

namespace Instr

/-- An operation that falls through and jumps nowhere. -/
def plain (op : Opcode) (uses defs : List Temp) : Instr := oper op uses defs [] .next

/-- The temps an instruction reads. -/
def uses : Instr → List Temp
  | oper _ uses _ _ _ => uses
  | move src _ => [src]
  | label _ => []

/-- The temps an instruction writes. -/
def defs : Instr → List Temp
  | oper _ _ defs _ _ => defs
  | move _ dst => [dst]
  | label _ => []

/-- The labels an instruction may jump to. -/
def jumps : Instr → List Label
  | oper _ _ _ jumps _ => jumps
  | _ => []

/-- How control leaves an instruction. -/
def flow : Instr → Flow
  | oper _ _ _ _ flow => flow
  | _ => .next

/-- The written form of an instruction. -/
def text (regs : Registers) : Instr → String
  | oper op uses defs _ _ => regs.expand op.template uses defs
  | move src dst => "SET " ++ regs.name dst ++ "," ++ regs.name src
  | label l => l

/-- The line of an instruction in a listing. -/
def line (regs : Registers) : Instr → String
  | label l => l ++ ":"
  | i => "\t" ++ i.text regs

end Instr

/-- The instructions of one function. -/
structure Code where
  frame : Frame
  /-- The label of the first instruction. -/
  entry : Label
  /-- The label behind the last instruction. -/
  exit : Label
  instrs : List Instr
  /-- The bytes of the spill area below the saved registers. -/
  tempSize : Word := 0
  /-- The registers of temps, once allocated. -/
  regs : Std.TreeMap Temp Int := ∅
  /-- The slots of spilled temps, as offsets from the frame pointer. -/
  spills : Std.TreeMap Temp Word := ∅

namespace Code

/-- The bytes of the frame, spill slots included. -/
def frameSize (c : Code) : Word := c.frame.size + c.tempSize

/-- Every temp that the code uses or defines. -/
def temps (c : Code) : TempSet :=
  c.instrs.foldl (fun s i => (s ∪ TempSet.ofList i.uses) ∪ TempSet.ofList i.defs) ∅

/-- The first line of a listing. -/
def heading (c : Code) : String :=
  c.frame.label ++ ": " ++ c.frame.text ++ " entry=" ++ c.entry ++ " exit=" ++ c.exit ++ " temps="
    ++ c.tempSize.text

/-- The listing of a function, with registers as far as they are assigned. -/
def listing (c : Code) (window : Int) : String :=
  let regs : Registers := { colors := c.regs, window }
  c.heading ++ "\n" ++ String.join (c.instrs.map fun i => i.line regs ++ "\n") ++ "\n"

end Code

end MmixBackend
