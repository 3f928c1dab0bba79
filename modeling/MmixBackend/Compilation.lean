import MmixBackend.Assembly
import MmixBackend.Machine.Run
import MmixBackend.Source.Generation

/-!
# Compilation

A resolved program is laid out, turned into intermediate code and made linear; then every function is
selected and allocated on its own. On the way listings of the intermediate forms can be written:
those of whole-program stages as soon as they are reached, those of single functions once all
functions are done.
-/

namespace MmixBackend

open Source

/-- Which listings to write. -/
structure Wanted where
  /-- Intermediate code trees. -/
  trees : Bool := false
  /-- Linear code. -/
  linear : Bool := false
  /-- Selected instructions. -/
  selected : Bool := false
  /-- Selected instructions with liveness. -/
  live : Bool := false
  /-- Instructions after register allocation. -/
  allocated : Bool := false
  deriving DecidableEq, Inhabited

/-- The options of a compilation. -/
structure Options where
  /-- The number of registers. -/
  registers : Int := 8
  /-- The number of functions compiled at the same time. It has no influence on the result. -/
  jobs : Int := 1
  args : ArgPassing := .immediate
  wanted : Wanted := {}

/-- The listings of one function. -/
structure UnitListings where
  selected : String := ""
  live : String := ""
  allocated : String := ""
  deriving Inhabited

/-- The texts of the listings written so far. -/
structure Listings where
  trees : String := ""
  linear : String := ""
  units : List UnitListings := []
  deriving Inhabited

namespace Listings

/-- The selected instructions of all functions. -/
def selected (l : Listings) : String := String.join (l.units.map UnitListings.selected)

/-- The selected instructions of all functions with liveness. -/
def live (l : Listings) : String := String.join (l.units.map UnitListings.live)

/-- The instructions of all functions after register allocation. -/
def allocated (l : Listings) : String := String.join (l.units.map UnitListings.allocated)

/-- All listings one after the other, those of a function together. -/
def text (l : Listings) : String :=
  l.trees ++ l.linear ++ String.join (l.units.map fun u => u.selected ++ u.live ++ u.allocated)

end Listings

/-- A fault with the stages in which it arose, the outermost first. -/
structure CompileError where
  stages : List String
  fault : Fault
  deriving DecidableEq

/-- The text of an error. -/
def CompileError.message (e : CompileError) : String :=
  String.join (e.stages.map (· ++ ": ")) ++ e.fault.message

/-- One compiled function. -/
structure CompiledUnit where
  chunk : IR.CodeChunk
  code : Code
  allocation : Allocation

/-- A compiled program. -/
structure Compiled where
  linear : IR.LinearProgram
  units : List CompiledUnit
  registers : Int

/-- The state of a compilation. -/
structure Compiling where
  work : Workspace
  listings : Listings := {}

/-- A compilation. What it has written stays written when it stops. -/
abbrev Compile := ExceptT CompileError (StateM Compiling)

namespace Compile

/-- Runs a pass as a stage of the compilation. -/
def stage {α : Type} (names : List String) (pass : Pass α) : Compile α := do
  let r ← modifyGet fun c =>
    let (r, work) := pass.run.run c.work
    (r, { c with work })
  match r with
  | .ok a => return a
  | .error fault => throw ⟨names, fault⟩

/-- Writes to the listings. -/
def write (wanted : Bool) (f : Listings → Listings) : Compile Unit :=
  if wanted then modify fun c => { c with listings := f c.listings } else pure ()

/-- The listing of the code trees of a program. -/
def treeListing (t : Attributes) (p : Program) : String :=
  String.join (p.functions.map fun
    | .fn m _ _ _ body =>
      if body.isAbsent then ""
      else
        let frame := t.frames[m.id]?.getD default
        let code := (t.codeOf? body).getD .absent
        frame.label ++ ": " ++ frame.text ++ "\n"
          ++ IR.Stmt.listing [.move (.temp frame.rv) code] ++ "\n"
    | _ => "")

/-- Compiles one function. -/
def unit (o : Options) (chunk : IR.CodeChunk) : Compile (CompiledUnit × UnitListings) := do
  let context := "function " ++ chunk.frame.label
  let code ← stage [context, "select instructions"] (Pass.ofFresh (chunk.select o.args))
  let live ← if o.wanted.live then
      match code.liveness with
      | .ok s => pure (code.livenessListing s.points (-1))
      | .error fault => throw ⟨[context, "analyze liveness"], fault⟩
    else pure ""
  let (allocated, r) ← stage [] (Pass.withSupply (code.allocate o.registers))
  match r with
  | .error fault => throw ⟨[context, "allocate registers"], fault⟩
  | .ok allocation =>
    let listing (wanted : Bool) (text : String) : String := if wanted then text else ""
    return ({ chunk, code := allocated, allocation },
      { selected := listing o.wanted.selected (code.listing (-1)), live
        allocated := listing o.wanted.allocated (allocated.listing o.registers) })

/-- Compiles a resolved program. -/
def program (o : Options) (p : Program) : Compile Compiled := do
  stage ["layout"] (Layout.program p)
  stage ["generate intermediate code"] (Generation.program p)
  let t := (← get).work.attrs
  write o.wanted.trees fun l => { l with trees := treeListing t p }
  let linear ← stage ["linearize"] (Linear.program p)
  write o.wanted.linear fun l => { l with linear := linear.listing }
  -- Listings of functions are written only when every function has been compiled.
  let units ← linear.code.mapM (unit o)
  write true fun l => { l with units := units.map Prod.snd }
  return { linear, units := units.map Prod.fst, registers := o.registers }

end Compile

/-- Compiles a program with the given tables and supply. -/
def compile (o : Options) (p : Program) (work : Workspace) :
    Except CompileError Compiled × Listings :=
  let (r, c) := (Compile.program o p).run.run { work }
  (r, c.listings)

namespace Compiled

/-- The assembly text of a compiled program. -/
def assembly (c : Compiled) : Except CompileError String :=
  match Assembly.write c.registers c.linear.data (c.units.map CompiledUnit.code) with
  | (text, none) => .ok text
  | (_, some fault) => .error ⟨["emit"], fault⟩

/-- A machine with the linear form of the program loaded. -/
def machine (c : Compiled) (input : Option ByteReader) : Machine :=
  ({ state := { input } } : Machine).loadProgram c.linear

/-- A machine with the code trees of the program loaded, under the tables of its compilation. -/
def treeMachine (c : Compiled) (t : Attributes) (p : Program) (input : Option ByteReader) :
    Machine :=
  let start := c.linear.data.foldl Machine.loadData { state := { input } }
  (p.functions.filter Linear.hasBody).foldl (fun m d =>
    match d with
    | .fn mark _ _ _ body =>
      m.addTree (t.frames[mark.id]?.getD default) ((t.codeOf? body).getD .absent)
    | _ => m) start

end Compiled

end MmixBackend
