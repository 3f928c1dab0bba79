import MmixBackend.Frame
import MmixBackend.IR.Canonical

/-!
# Chunks of linear code

A code chunk is the canonical body of one function. It starts with its entry label; control leaves
it by a jump to its exit label, which is not part of the chunk. A linear program is its static data
and its code chunks.
-/

namespace MmixBackend.IR

/-- The linear body of one function. -/
structure CodeChunk where
  frame : Frame
  entry : Label
  exit : Label
  stmts : List Stmt
  deriving Inhabited

/-- A whole program in linear form. -/
structure LinearProgram where
  data : List StaticData
  code : List CodeChunk
  deriving Inhabited

/-- Wraps the body expression of a function between a fresh entry label and a jump to a fresh exit
label, moving its value into the return temp, and makes the result canonical. -/
def CodeChunk.ofBody (frame : Frame) (body : Expr) : Fresh CodeChunk := do
  let entry ← freshLabel
  let exit ← freshLabel
  let stmts ← (Stmt.seq [.label entry, .move (.temp frame.rv) body, .jump exit]).canonical
  return { frame, entry, exit, stmts }

/-- The listing of a code chunk. -/
def CodeChunk.listing (c : CodeChunk) : String :=
  c.frame.label ++ ": " ++ c.frame.text ++ " entry=" ++ c.entry ++ " exit=" ++ c.exit ++ "\n"
    ++ Stmt.listing c.stmts ++ "\n"

/-- The line of a block of static data in a listing. -/
def dataLine (d : StaticData) : String :=
  d.label ++ ": size=" ++ d.size.text
    ++ (match d.init with
      | some s => " init=" ++ Text.quoted s
      | none => "")
    ++ "\n"

/-- The listing of a linear program: the static data, a blank line if there is any, the chunks. -/
def LinearProgram.listing (p : LinearProgram) : String :=
  String.join (p.data.map dataLine) ++ (if p.data.isEmpty then "" else "\n")
    ++ String.join (p.code.map CodeChunk.listing)

end MmixBackend.IR
