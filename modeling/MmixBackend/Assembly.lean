import MmixBackend.Register.Allocation

/-!
# Assembly text

The finished program as MMIXAL source: static data, start-up code, every function between its
prologue and its epilogue, and the runtime routines. Registers `$0` to `$(k-1)` hold temps, `$k` is
the call window, `$252` is the heap pointer, `$253` the frame pointer and `$254` the stack pointer.

The text is a list of lines. A function whose return value has no location stops the output in the
middle of its epilogue; what has been written up to there is kept.
-/

namespace MmixBackend

namespace Assembly

/-- The bytes of the buffers for input and output at the start of the data segment. -/
def bufferSize : Word := 24

/-- A line: a label field, and an instruction if there is one. -/
structure Line where
  label : String
  instr : String
  deriving DecidableEq, Repr

/-- The text of a line. -/
def Line.text (l : Line) : String :=
  (if l.instr.isEmpty then l.label else l.label ++ "\t" ++ l.instr) ++ "\n"

/-- A line without label. -/
def plain (instr : String) : Line := ⟨"", instr⟩

/-- An empty line. -/
def blank : Line := ⟨"", ""⟩

/-- The lines that load a word into a register. -/
def loadWord (reg : String) (v : Word) : List Line :=
  (Instr.loadedWydes v).map fun (place, value) =>
    plain (place.mnemonic ++ " " ++ reg ++ "," ++ toString value)

/-! ### Static data -/

/-- The lines of a block of static data. -/
def dataLines (d : StaticData) : List Line :=
  match d.init with
  | some s =>
    let bytes := s.toUTF8.toList.map fun b => toString b.toNat
    [⟨d.label, "OCTA " ++ String.intercalate "," (bytes ++ ["0"])⟩]
  | none =>
    if Word.byteSize < d.size then
      [⟨d.label, "OCTA"⟩, plain ("LOC " ++ d.label ++ "+" ++ d.size.text)]
    else [⟨d.label, "OCTA"⟩]

/-- The lines of the data segment. -/
def dataSegment (data : List StaticData) : List Line :=
  [plain "LOC Data_Segment", ⟨"OutBuf", "BYTE 0,0"⟩, ⟨"InBuf", "BYTE 0"⟩, ⟨"Arg", "OCTA InBuf,1"⟩]
    ++ data.flatMap dataLines

/-- The bytes of the data segment. -/
def dataSize (data : List StaticData) : Word :=
  data.foldl (fun size d => size + d.size) bufferSize

/-! ### Start-up code -/

/-- The lines that set up the fixed registers and call the main function. -/
def startup (k : Int) (size : Word) : List Line :=
  [⟨"Main", "SET $0,252"⟩, plain "PUT rG,$0"] ++ List.replicate 4 (plain "GREG 0")
    ++ loadWord "$0" stackTop ++ [plain "ADD $254,$0,0"]
    ++ loadWord "$0" (dataStart + size) ++ [plain "ADD $252,$0,0"]
    ++ [plain ("PUSHJ $" ++ toString k ++ ",_main"), plain "TRAP 0,Halt,0"]

/-! ### Functions -/

/-- The distance of the saved registers from the frame pointer. -/
def savedDistance (f : Frame) : Word := savedRegsSize + f.locsSize

/-- Saves the frame pointer and the return address below the locals and moves the frame and stack
pointers. -/
def prologue (c : Code) : List Line :=
  [⟨c.frame.label, "SWYM"⟩] ++ loadWord "$0" (savedDistance c.frame)
    ++ [plain "NEG $0,$0", plain "STO $253,$254,$0", plain "ADD $0,$0,8", plain "GET $1,rJ",
      plain "STO $1,$254,$0", plain "ADD $253,$254,0"]
    ++ loadWord "$0" c.frameSize
    ++ [plain "SUB $254,$254,$0", plain ("JMP " ++ c.entry)]

/-- Whether a move has the same register on both sides. -/
def isIdentityMove (regs : Std.TreeMap Temp Int) : Instr → Bool
  | .move src dst =>
    match regs[src]?, regs[dst]? with
    | some r, some s => r = s
    | _, _ => false
  | _ => false

/-- A line with the given labels, of which all but the last stand on a line of their own. -/
def labeled : List Label → String → List Line
  | [], instr => [plain instr]
  | [l], instr => [⟨l, instr⟩]
  | l :: ls, instr => ⟨l, "SWYM"⟩ :: labeled ls instr

/-- The lines of an instruction list behind the labels that are still to be placed. Moves within one
register are left out. -/
def body (regs : Registers) : (pending : List Label) → List Instr → List Line
  | pending, [] => pending.map fun l => ⟨l, "SWYM"⟩
  | pending, .label l :: rest => body regs (pending ++ [l]) rest
  | pending, instr :: rest =>
    if isIdentityMove regs.colors instr then body regs pending rest
    else labeled pending (instr.text regs) ++ body regs [] rest

/-- The lines that store the return value where the caller looks for it. -/
def storeResult (c : Code) : Except Fault (List Line) :=
  match c.regs[c.frame.rv]? with
  | some reg => .ok [plain ("STO $" ++ toString reg ++ ",$253,0")]
  | none =>
    match c.spills[c.frame.rv]? with
    | some off =>
      .ok (loadWord "$1" off ++ [plain "LDO $0,$253,$1", plain "STO $0,$253,0"])
    | none => .error (.noReturnLocation c.frame.label)

/-- Restores the stack pointer, the frame pointer and the return address and returns. -/
def epilogue (c : Code) : List Line :=
  [plain "ADD $254,$253,0"] ++ loadWord "$0" (savedDistance c.frame)
    ++ [plain "NEG $0,$0", plain "LDO $253,$254,$0", plain "ADD $0,$0,8", plain "LDO $0,$254,$0",
      plain "PUT rJ,$0", plain "POP 0,0"]

/-- The lines of a function up to the place where its return value is stored. -/
def functionHead (k : Int) (c : Code) : List Line :=
  prologue c ++ body { colors := c.regs, window := k } [] c.instrs ++ [⟨c.exit, "SWYM"⟩]

/-- The lines of functions, each followed by an empty line, and the fault that stopped them. -/
def functions (k : Int) : List Code → List Line × Option Fault
  | [] => ([], none)
  | c :: cs =>
    match storeResult c with
    | .error fault => (functionHead k c, some fault)
    | .ok store =>
      let (rest, fault) := functions k cs
      (functionHead k c ++ store ++ epilogue c ++ blank :: rest, fault)

/-! ### Runtime routines -/

/-- The runtime routines: each finds its argument at `$254+8` and leaves its result at `$254`. -/
def runtime : List Line :=
  [⟨"_getChar", "LDA $255,Arg"⟩, plain "TRAP 0,Fread,StdIn", plain "LDA $255,InBuf",
    plain "LDB $0,$255,0", plain "STO $0,$254,0", plain "POP 0,0",
    ⟨"_putChar", "LDO $0,$254,8"⟩, plain "LDA $255,OutBuf", plain "STB $0,$255,0",
    plain "TRAP 0,Fputs,StdOut", plain "POP 0,0",
    ⟨"_new", "STO $252,$254,0"⟩, plain "LDO $0,$254,8", plain "ADD $252,$252,$0", plain "POP 0,0",
    ⟨"_del", "POP 0,0"⟩,
    ⟨"_exit", "TRAP 0,Halt,0"⟩]

/-- The lines of a program allocated with `k` registers, and the fault that stopped them. -/
def lines (k : Int) (data : List StaticData) (code : List Code) : List Line × Option Fault :=
  let head := dataSegment data ++ [blank, plain "LOC #100"] ++ startup k (dataSize data) ++ [blank]
  match functions k code with
  | (funs, some fault) => (head ++ funs, some fault)
  | (funs, none) => (head ++ funs ++ runtime, none)

/-- The text of a program, as far as it could be written. -/
def write (k : Int) (data : List StaticData) (code : List Code) : String × Option Fault :=
  let (ls, fault) := lines k data code
  (String.join (ls.map Line.text), fault)

end Assembly

end MmixBackend
