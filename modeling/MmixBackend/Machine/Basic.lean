import MmixBackend.IR.Chunk
import Std.Data.HashMap

/-!
# The machine that runs intermediate code

Memory is a sparse map of words; a word that was never written is zero. Static data and the heap grow
upwards from `dataStart`, the stack grows downwards from `stackTop`. Every activation of a function
owns its temps: its frame pointer is the caller's stack pointer, and its own stack pointer lies a
frame below.

A machine holds the functions and the labels of static data that have been loaded, the memory, and
what a run leaves behind: the heap and stack pointers, the number of statements executed, the unread
input and the output.
-/

namespace MmixBackend

/-- Why a run stopped. -/
inductive RuntimeError where
  /-- A call of a label that names neither a routine nor a loaded function. -/
  | undefinedFunction (label : Label)
  /-- The address of a label without static data. -/
  | unknownLabel (label : Label)
  /-- A missing statement. -/
  | absentStatement
  /-- A missing expression. -/
  | absentExpression
  /-- An operator without meaning. -/
  | unknownOperator (name : String)
  /-- A move to something that is neither a temp nor a memory location. -/
  | moveTo (target : String)
  /-- The machine itself crashes, over a call with more offsets than arguments, or since it needs the
  text of a tree that cannot be printed: a call in it has fewer offsets than arguments. -/
  | crash
  /-- A jump out of a statement inside an expression. -/
  | jumpOut (label : Label)
  | divisionByZero
  /-- The reader of the input has reported an error. -/
  | reader (fault : String)
  /-- More statements than allowed. -/
  | stepLimit (limit : Int)
  deriving DecidableEq, Repr

/-- The wording of a run-time error. -/
def RuntimeError.message : RuntimeError → String
  | undefinedFunction label => "call to undefined function " ++ label
  | unknownLabel label => "unknown label " ++ label
  | absentStatement => "unexpected statement <nil>"
  | absentExpression => "unexpected expression <nil>"
  | unknownOperator name => "unexpected operator " ++ name
  | moveTo target => "move to " ++ target
  | crash => "index out of range"
  | jumpOut label => "jump to " ++ label ++ " leaves a statement expression"
  | divisionByZero => "division by zero"
  | reader fault => "getChar: " ++ fault
  | stepLimit limit => "step limit " ++ toString limit ++ " exceeded"

/-- The error of a move to an expression that is neither a temp nor a memory location. The message shows
the expression; if this cannot be printed then the machine crashes. -/
def RuntimeError.ofMove (dst : IR.Expr) : RuntimeError :=
  match dst.text? with
  | some text => .moveTo text
  | none => .crash

/-- What can be read: the bytes that are left, and the error that is reported behind them. Without
an error they just end. -/
structure ByteReader where
  bytes : List UInt8
  fault : Option String := none

/-- Sparse memory: words by address. -/
structure Memory where
  words : Std.HashMap Word Word := ∅

namespace Memory

/-- The word at an address; zero if it was never written. -/
def read (m : Memory) (addr : Word) : Word := m.words.getD addr 0

/-- Stores a word at an address. -/
def write (m : Memory) (addr value : Word) : Memory := ⟨m.words.insert addr value⟩

/-- Stores words at the given offsets from an address, one after the other. -/
def writeAt (m : Memory) (base : Word) : List Word → List Word → Memory
  | off :: offs, v :: vs => (m.write (base + off) v).writeAt base offs vs
  | _, _ => m

/-- Stores bytes at consecutive words. -/
def writeBytes (m : Memory) (addr : Word) : List UInt8 → Memory
  | [] => m
  | b :: bs => (m.write addr (Int64.ofNat b.toNat)).writeBytes (addr + Word.byteSize) bs

@[simp] theorem read_write_self (m : Memory) (a v : Word) : (m.write a v).read a = v := by
  simp [read, write]

theorem read_write (m : Memory) (a b v : Word) :
    (m.write a v).read b = if a = b then v else m.read b := by
  simp [read, write, Std.HashMap.getD_insert]

end Memory

namespace Machine

/-- A statement list without nested sequences, with the position of every label. If a label occurs
more than once its last occurrence counts. -/
structure Block where
  stmts : Array IR.Stmt
  labels : Std.HashMap Label Nat

namespace Block

/-- The block of a statement list. -/
def ofStmts (stmts : List IR.Stmt) : Block :=
  let flat := IR.Stmt.flattenAll stmts
  { stmts := flat.toArray
    labels := flat.zipIdx.foldl (fun labels (s, i) =>
      match s with
      | .label l => labels.insert l i
      | _ => labels) ∅ }

instance : Inhabited Block := ⟨ofStmts []⟩

end Block

/-- A function that can be called. -/
structure Function where
  frame : Frame
  body : Block

/-- The part of a machine that a run changes. -/
structure State where
  memory : Memory := {}
  /-- The first free address of the heap. -/
  heap : Word := dataStart
  /-- The stack pointer. -/
  sp : Word := stackTop
  /-- The number of statements executed so far. -/
  steps : Nat := 0
  /-- What is still to be read, if there is a reader. -/
  input : Option ByteReader := none
  /-- The bytes written so far. -/
  output : ByteArray := ByteArray.empty
  /-- Whether somebody takes the output. -/
  hasWriter : Bool := true

namespace State

/-- Reserves whole words on the heap. -/
def alloc (s : State) (size : Word) : Word × State :=
  (s.heap, { s with heap := s.heap + (size + Word.byteSize - 1) / Word.byteSize * Word.byteSize })

end State

end Machine

/-- A machine with what has been loaded into it. -/
structure Machine where
  /-- The largest number of statements a run may execute; zero or less means no limit. -/
  limit : Int := 10000000
  /-- The addresses of static data. -/
  labels : Std.HashMap Label Word := ∅
  functions : Std.HashMap Label Machine.Function := ∅
  state : Machine.State := {}

namespace Machine

/-- Reserves a block of static data and stores its initial contents. -/
def loadData (m : Machine) (d : StaticData) : Machine :=
  let (addr, state) := m.state.alloc d.size
  let memory := match d.init with
    | some s => state.memory.writeBytes addr s.toUTF8.toList
    | none => state.memory
  { m with labels := m.labels.insert d.label addr, state := { state with memory } }

/-- Loads a function under the label of its frame. -/
def addFunction (m : Machine) (frame : Frame) (stmts : List IR.Stmt) : Machine :=
  { m with functions := m.functions.insert frame.label { frame, body := .ofStmts stmts } }

/-- Loads a function whose body is an expression tree. -/
def addTree (m : Machine) (frame : Frame) (body : IR.Expr) : Machine :=
  m.addFunction frame [.move (.temp frame.rv) body]

/-- Loads a linear program. -/
def loadProgram (m : Machine) (p : IR.LinearProgram) : Machine :=
  p.code.foldl (fun m c => m.addFunction c.frame c.stmts) (p.data.foldl loadData m)

end Machine

end MmixBackend
