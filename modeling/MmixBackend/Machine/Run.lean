import MmixBackend.Machine.Basic

/-!
# Runs of the machine

A run is a sequence of transitions between configurations. A configuration either evaluates an
expression, returns a value to the context that waits for it, or executes a block from a position.
Contexts are explicit, so a run needs no stack of its own: `ValueContext` waits for a value,
`BlockContext` for the end of a block. A block ends at its last statement or by a jump to a label
that it does not define; the latter is the normal way out of a function body and an error inside an
expression.

Each executed statement counts as one step. `Machine.enoughFuel` bounds the transitions of a run with
a positive step limit: between two counted statements every node of the statement at hand is visited
a bounded number of times.
-/

namespace MmixBackend

namespace Machine

/-- The temps of an activation; a temp that was never set is zero. -/
abbrev Temps := Std.HashMap Temp Word

mutual

/-- What happens to the value of an expression. -/
inductive ValueContext where
  /-- It is the result of the run. -/
  | done
  /-- It is an address to read. -/
  | readMem (k : ValueContext)
  /-- It is the first operand; the second one comes next. -/
  | binSecond (op : IR.BinOp) (snd : IR.Expr) (k : ValueContext)
  /-- It is the second operand. -/
  | binApply (op : IR.BinOp) (fst : Word) (k : ValueContext)
  | unApply (op : IR.UnOp) (k : ValueContext)
  /-- It is an argument of a call; `ready` holds those before it, the last one first. -/
  | argument (label : Label) (offs : List Word) (ready : List Word) (rest : List IR.Expr)
      (k : ValueContext)
  /-- It is dropped, and the block goes on. -/
  | drop (block : Block) (pc : Nat) (k : BlockContext)
  /-- It is stored in a temp, and the block goes on. -/
  | setTemp (t : Temp) (block : Block) (pc : Nat) (k : BlockContext)
  /-- It is the address of a store; the value comes next. -/
  | storeAddress (src : IR.Expr) (block : Block) (pc : Nat) (k : BlockContext)
  /-- It is stored in memory, and the block goes on. -/
  | storeValue (addr : Word) (block : Block) (pc : Nat) (k : BlockContext)
  /-- It decides a branch. -/
  | branch (pos neg : Label) (block : Block) (k : BlockContext)

/-- What happens at the end of a block. -/
inductive BlockContext where
  /-- The block stood inside an expression whose value comes next. -/
  | value (e : IR.Expr) (k : ValueContext)
  /-- The block was the body of a function; the caller's temps come back. -/
  | ret (frame : Frame) (fp : Word) (temps : Temps) (k : ValueContext)

end

/-- What a configuration does next. -/
inductive Control where
  /-- Evaluates an expression. -/
  | eval (e : IR.Expr) (k : ValueContext)
  /-- Passes a value to its context. -/
  | value (v : Word) (k : ValueContext)
  /-- Executes a block from a position. -/
  | exec (block : Block) (pc : Nat) (k : BlockContext)

/-- A moment of a run. -/
structure Config where
  control : Control
  /-- The temps of the current activation. -/
  temps : Temps
  state : State

/-- How a run ends. -/
inductive Ending where
  /-- The called function returned. -/
  | value (v : Word)
  /-- The program called the exit routine. -/
  | exit (code : Word)
  | error (e : RuntimeError)
  deriving DecidableEq, Repr

/-- The outcome of a transition. -/
inductive Transition where
  | next (c : Config)
  | stop (ending : Ending) (state : State)

/-- The value of an operator. -/
def applyBinary (op : IR.BinOp) (x y : Word) : Except RuntimeError Word :=
  match op with
  | .or => .ok (x ||| y)
  | .and => .ok (x &&& y)
  | .equ => .ok (.ofBool (x = y))
  | .neq => .ok (.ofBool (x ≠ y))
  | .lth => .ok (.ofBool (x < y))
  | .gth => .ok (.ofBool (y < x))
  | .leq => .ok (.ofBool (x ≤ y))
  | .geq => .ok (.ofBool (y ≤ x))
  | .add => .ok (x + y)
  | .sub => .ok (x - y)
  | .mul => .ok (x * y)
  | .div => if y = 0 then .error .divisionByZero else .ok (x.floorDiv y)
  | .mod => if y = 0 then .error .divisionByZero else .ok (x.floorMod y)
  | .unknown _ => .error (.unknownOperator op.text)

/-- The value of a unary operator: the complement of a truth value, or the negation. -/
def applyUnary (op : IR.UnOp) (v : Word) : Word :=
  match op with
  | .not => 1 - v
  | _ => -v

/-- The runtime routines. -/
inductive Routine where
  | new | del | putChar | getChar | exit
  deriving DecidableEq, Repr

/-- The routine that a label names. -/
def Routine.ofLabel? (l : Label) : Option Routine :=
  if l = "_new" then some .new
  else if l = "_del" then some .del
  else if l = "_putChar" then some .putChar
  else if l = "_getChar" then some .getChar
  else if l = "_exit" then some .exit
  else none

/-- The single argument of a routine. -/
def State.routineArg (s : State) : Word := s.memory.read (s.sp + Word.byteSize)

/-- What a routine does: its result, the exit code, or the error of the reader. -/
def Routine.run (r : Routine) (s : State) : Ending × State :=
  match r with
  | .new =>
    let (addr, s) := s.alloc s.routineArg
    (.value addr, s)
  | .del => (.value 0, s)
  | .putChar =>
    if s.hasWriter then
      let byte := s.routineArg.toUInt64.toUInt8
      (.value 0, { s with output := s.output.push byte })
    else (.value 0, s)
  | .getChar =>
    match s.input with
    | some ⟨b :: bs, fault⟩ => (.value (Int64.ofNat b.toNat), { s with input := some ⟨bs, fault⟩ })
    | some ⟨[], some fault⟩ => (.error (.reader fault), s)
    | some ⟨[], none⟩ | none => (.value (-1), s)
  | .exit => (.exit s.routineArg, s)

variable (m : Machine)

/-- Runs what a label names when the arguments are in place. -/
def invoke (label : Label) (k : ValueContext) (temps : Temps) (s : State) : Transition :=
  match Routine.ofLabel? label with
  | some r =>
    match r.run s with
    | (.value v, s) => .next ⟨.value v k, temps, s⟩
    | (ending, s) => .stop ending s
  | none =>
    match m.functions[label]? with
    | none => .stop (.error (.undefinedFunction label)) s
    | some f =>
      -- The callee starts with no temps but its frame pointer.
      let fp := s.sp
      .next ⟨.exec f.body 0 (.ret f.frame fp temps k), (∅ : Temps).insert f.frame.fp fp,
        { s with sp := fp - f.frame.size }⟩

/-- Calls a label with evaluated arguments, which are stored at the stack pointer first. The machine
crashes at the first offset without an argument. -/
def call (label : Label) (offs args : List Word) (k : ValueContext) (temps : Temps) (s : State) :
    Transition :=
  let s := { s with memory := s.memory.writeAt s.sp offs args }
  if args.length < offs.length then .stop (.error .crash) s else invoke m label k temps s

section Call

variable {m} {label : Label} {offs args : List Word} {k : ValueContext} {temps : Temps} {s : State}

theorem call_eq_invoke (h : offs.length ≤ args.length) (k : ValueContext) (temps : Temps) (s : State) :
    call m label offs args k temps s
      = invoke m label k temps { s with memory := s.memory.writeAt s.sp offs args } :=
  if_neg (Nat.not_lt.mpr h)

/-- A call after which the run goes on has not crashed. -/
theorem invoke_eq_next {c : Config} (h : call m label offs args k temps s = .next c) :
    invoke m label k temps { s with memory := s.memory.writeAt s.sp offs args } = .next c := by
  rw [call] at h
  split at h
  · cases h
  · exact h

end Call

/-- Goes on behind a block that has come to its end. -/
def endBlock (temps : Temps) (s : State) : BlockContext → Transition
  | .value e k => .next ⟨.eval e k, temps, s⟩
  | .ret frame fp callerTemps k =>
    -- The result is handed back and left at the caller's stack pointer.
    let rv := temps.getD frame.rv 0
    .next ⟨.value rv k, callerTemps, { s with sp := fp, memory := s.memory.write fp rv }⟩

/-- Jumps to a label: behind it in the block, or out of the block. -/
def jump (l : Label) (block : Block) (k : BlockContext) (temps : Temps) (s : State) : Transition :=
  match block.labels[l]? with
  | some i => .next ⟨.exec block (i + 1) k, temps, s⟩
  | none =>
    match k with
    | .value _ _ => .stop (.error (.jumpOut l)) s
    -- A jump out of a function body is the jump to its exit.
    | .ret .. => endBlock temps s k

/-- Evaluates the top of an expression. -/
def evalStep (e : IR.Expr) (k : ValueContext) (temps : Temps) (s : State) : Transition :=
  match e with
  | .absent => .stop (.error .absentExpression) s
  | .const v => .next ⟨.value v k, temps, s⟩
  | .temp t => .next ⟨.value (temps.getD t 0) k, temps, s⟩
  | .mem addr => .next ⟨.eval addr (.readMem k), temps, s⟩
  | .name l =>
    match m.labels[l]? with
    | some addr => .next ⟨.value addr k, temps, s⟩
    | none => .stop (.error (.unknownLabel l)) s
  | .binop op fst snd => .next ⟨.eval fst (.binSecond op snd k), temps, s⟩
  | .unop op arg => .next ⟨.eval arg (.unApply op k), temps, s⟩
  | .call l offs [] => call m l offs [] k temps s
  | .call l offs (arg :: args) => .next ⟨.eval arg (.argument l offs [] args k), temps, s⟩
  | .sexpr stmt value => .next ⟨.exec (.ofStmts [stmt]) 0 (.value value k), temps, s⟩

/-- Passes a value to its context. -/
def valueStep (v : Word) (k : ValueContext) (temps : Temps) (s : State) : Transition :=
  match k with
  | .done => .stop (.value v) s
  | .readMem k => .next ⟨.value (s.memory.read v) k, temps, s⟩
  | .binSecond op snd k => .next ⟨.eval snd (.binApply op v k), temps, s⟩
  | .binApply op fst k =>
    match applyBinary op fst v with
    | .ok r => .next ⟨.value r k, temps, s⟩
    | .error e => .stop (.error e) s
  | .unApply op k => .next ⟨.value (applyUnary op v) k, temps, s⟩
  | .argument l offs ready [] k => call m l offs (v :: ready).reverse k temps s
  | .argument l offs ready (e :: es) k =>
    .next ⟨.eval e (.argument l offs (v :: ready) es k), temps, s⟩
  | .drop block pc k => .next ⟨.exec block pc k, temps, s⟩
  | .setTemp t block pc k => .next ⟨.exec block pc k, temps.insert t v, s⟩
  | .storeAddress src block pc k => .next ⟨.eval src (.storeValue v block pc k), temps, s⟩
  | .storeValue addr block pc k =>
    .next ⟨.exec block pc k, temps, { s with memory := s.memory.write addr v }⟩
  | .branch pos neg block k => jump (if v ≠ 0 then pos else neg) block k temps s

/-- Whether the statement just counted is one too many. -/
def exceeds (steps : Nat) : Bool := 0 < m.limit && m.limit < steps

/-- Executes the statement at a position of a block. -/
def execStep (block : Block) (pc : Nat) (k : BlockContext) (temps : Temps) (s : State) :
    Transition :=
  match block.stmts[pc]? with
  | none => endBlock temps s k
  | some stmt =>
    let s := { s with steps := s.steps + 1 }
    if exceeds m s.steps then .stop (.error (.stepLimit m.limit)) s
    else match stmt with
      | .label _ => .next ⟨.exec block (pc + 1) k, temps, s⟩
      | .eval e => .next ⟨.eval e (.drop block (pc + 1) k), temps, s⟩
      | .move (.temp t) src => .next ⟨.eval src (.setTemp t block (pc + 1) k), temps, s⟩
      | .move (.mem addr) src => .next ⟨.eval addr (.storeAddress src block (pc + 1) k), temps, s⟩
      | .move dst _ => .stop (.error (.ofMove dst)) s
      | .jump l => jump l block k temps s
      | .cjump cond pos neg => .next ⟨.eval cond (.branch pos neg block k), temps, s⟩
      -- Blocks are flat, so a sequence does not occur.
      | .absent | .seq _ => .stop (.error .absentStatement) s

/-- One transition. -/
def step (c : Config) : Transition :=
  match c with
  | ⟨.eval e k, temps, s⟩ => evalStep m e k temps s
  | ⟨.value v k, temps, s⟩ => valueStep m v k temps s
  | ⟨.exec block pc k, temps, s⟩ => execStep m block pc k temps s

/-- At most `fuel` transitions; nothing if the run has not ended by then. -/
def runFor : (fuel : Nat) → Config → Option (Ending × State)
  | 0, _ => none
  | fuel + 1, c =>
    match step m c with
    | .next c' => runFor fuel c'
    | .stop ending s => some (ending, s)

/-- The greatest weight of a loaded function body. -/
def maxWeight : Nat :=
  m.functions.fold (fun w _ f => max w (IR.Stmt.weightAll f.body.stmts.toList)) 0

/-- Enough transitions for a run: with a positive step limit a bound that no run reaches, and
otherwise a number beyond what can be waited for. -/
def enoughFuel : Nat :=
  if 0 < m.limit then (m.limit.toNat + 2) * (4 * maxWeight m + 8) else 1 <<< 62

/-- Calls a label with arguments at the given offsets and runs until the call ends. -/
def callAt (label : Label) (offs args : List Word) : Option (Ending × Machine) :=
  match call m label offs args .done ∅ m.state with
  | .stop ending s => some (ending, { m with state := s })
  | .next c => (runFor m (enoughFuel m) c).map fun (ending, s) => (ending, { m with state := s })

/-- Calls a label with arguments at consecutive words, the static link first. -/
def callWith (label : Label) (args : List Word) : Option (Ending × Machine) :=
  callAt m label (args.zipIdx.map fun (_, i) => Int64.ofNat i * Word.byteSize) args

/-- Calls the main function. -/
def run : Option (Ending × Machine) := callAt m "_main" [0] [0]

end Machine

end MmixBackend
