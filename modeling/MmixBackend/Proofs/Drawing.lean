import MmixBackend.Compilation
import MmixBackend.Proofs.Results

/-!
# Compiling with a stream of temps

The passes over one function are computations over a supply, which hands out consecutive temps. When
functions are compiled at the same time they share the supply, and a function sees gaps between the
temps that it draws. Here the passes are written as `Drawing`s: trees that show where a temp is
drawn and what is done with it, whatever its number. Drawing from a supply gives the passes back.

## Main statements

- `Drawing.sequential_allocate`: allocation, drawing its temps from a supply.
- `Drawing.ofDrawing_unit`: the same for the compilation of a function.
-/

namespace MmixBackend

/-- A computation that draws temps one after the other. -/
inductive Drawing (α : Type) where
  /-- It has a result. -/
  | done (a : α)
  /-- It draws a temp and goes on with it. -/
  | draw (next : Temp → Drawing α)

namespace Drawing

variable {α β ε : Type}

/-- One computation after another. -/
def bind : Drawing α → (α → Drawing β) → Drawing β
  | done a, f => f a
  | draw next, f => draw fun t => (next t).bind f

instance : Monad Drawing where
  pure := done
  bind := Drawing.bind

/-- Draws a temp. -/
def fresh : Drawing Temp := draw done

/-- Draws the temps from a supply. -/
def sequential : Drawing α → StateM Supply α
  | done a => pure a
  | draw next => do
    let t ← freshTemp
    (next t).sequential

theorem sequential_bind (d : Drawing α) (f : α → Drawing β) :
    (d >>= f).sequential = d.sequential >>= fun a => (f a).sequential := by
  induction d with
  | done a => rfl
  | draw next ih =>
    show (freshTemp >>= fun t => (next t >>= f).sequential) = _
    rw [funext ih]
    rfl

/-- The steps of a sequence are compared one by one. -/
theorem sequential_bind_congr {d : Drawing α} {f : α → Drawing β} {x : StateM Supply α}
    {g : α → StateM Supply β} (hd : d.sequential = x) (hf : ∀ a, (f a).sequential = g a) :
    (d >>= f).sequential = x >>= g := by
  rw [sequential_bind, hd, funext hf]

/-- A computation that can fail, drawing the temps from a supply. -/
def toFresh (x : ExceptT ε Drawing α) : ExceptT ε (StateM Supply) α := ExceptT.mk x.run.sequential

theorem toFresh_bind_congr {x : ExceptT ε Drawing α} {f : α → ExceptT ε Drawing β}
    {y : ExceptT ε (StateM Supply) α} {g : α → ExceptT ε (StateM Supply) β} (hx : toFresh x = y)
    (hf : ∀ a, toFresh (f a) = g a) : toFresh (x >>= f) = y >>= g := by
  subst hx
  refine (sequential_bind x.run _).trans ?_
  show _ = (x.run.sequential >>= ExceptT.bindCont g)
  congr 1
  funext r
  cases r with
  | error e => rfl
  | ok a => exact hf a

theorem toFresh_lift_congr {d : Drawing α} {x : StateM Supply α} (h : d.sequential = x) :
    toFresh (liftM d : ExceptT ε Drawing α) = (liftM x : ExceptT ε (StateM Supply) α) := by
  subst h
  exact sequential_bind d _

theorem toFresh_liftExcept (r : Except ε α) :
    toFresh (liftM r : ExceptT ε Drawing α) = (liftM r : ExceptT ε (StateM Supply) α) := by
  cases r <;> rfl

/-! ## §1 Selection -/

/-- Loads a word into a fresh temp. -/
def constant (v : Word) : Drawing (List Instr × Temp) := do
  let dst ← fresh
  return (Instr.loadConstant dst v, dst)

theorem sequential_constant (v : Word) : (constant v).sequential = Instr.constant v := rfl

/-- The instructions that store an argument at an offset from the stack pointer. -/
def storeArgument (mode : ArgPassing) (off : Word) (arg : Temp) : Drawing (List Instr) := do
  if mode = .immediate ∧ 0 ≤ off ∧ off ≤ maxImmediate then
    return [.plain (.storeArg off) [arg] []]
  else
    let (load, offset) ← constant off
    let addr ← fresh
    return load ++ [.plain .argAddress [offset] [addr], .plain .storeAt [arg, addr] []]

theorem sequential_storeArgument (mode : ArgPassing) (off : Word) (arg : Temp) :
    (storeArgument mode off arg).sequential = Instr.storeArgument mode off arg := by
  unfold storeArgument Instr.storeArgument
  split <;> rfl

/-- The instructions that store the arguments of a call one after the other. -/
def storeArguments (mode : ArgPassing) : List Word → List Temp → Drawing (List Instr)
  | off :: offs, arg :: args => do
    let first ← storeArgument mode off arg
    let rest ← storeArguments mode offs args
    return first ++ rest
  | _, _ => return []

theorem sequential_storeArguments (mode : ArgPassing) (offs : List Word) (args : List Temp) :
    (storeArguments mode offs args).sequential = Instr.storeArguments mode offs args := by
  induction offs generalizing args with
  | nil => rfl
  | cons off offs ih =>
    cases args with
    | nil => rfl
    | cons arg args =>
      refine sequential_bind_congr (sequential_storeArgument mode off arg) fun first => ?_
      exact sequential_bind_congr (ih args) fun rest => rfl

mutual

/-- The instructions of an expression and the temp that holds its value afterwards. -/
def selectExpr (mode : ArgPassing) : IR.Expr → ExceptT Fault Drawing (List Instr × Temp)
  | .absent => throw .absentExpression
  | .sexpr _ _ => throw .statementExpression
  | .temp t => return ([], t)
  | .const v => constant v
  | .name label => do
    let dst ← fresh
    return ([.plain (.loadAddress label) [] [dst]], dst)
  | .mem addr => do
    let (before, a) ← selectExpr mode addr
    let dst ← fresh
    return (before ++ [.plain .loadAt [a] [dst]], dst)
  | .binop op fst snd => do
    let (before₁, a) ← selectExpr mode fst
    let (before₂, b) ← selectExpr mode snd
    let dst ← fresh
    let instrs ← (Instr.binary op a b dst : Except Fault _)
    return (before₁ ++ before₂ ++ instrs, dst)
  | .unop op arg => do
    let (before, a) ← selectExpr mode arg
    let fresh ← fresh
    let dst := match arg with
      | .const _ => a
      | _ => fresh
    match op with
    | .neg => return (before ++ [.plain .negate [a] [dst]], dst)
    | .not => do
      let neg ← Drawing.fresh
      return (before ++ [.plain .negate [a] [neg], .plain .increment [neg] [dst]], dst)
    | .unknown _ => throw (.unaryOperator op.text)
  | .call label offs args => do
    if offs.length ≠ args.length then
      throw (.callShape label offs.length args.length)
    let (before, temps) ← selectArgs mode args
    let stores ← storeArguments mode offs temps
    let result ← fresh
    return (before ++ stores
      ++ [.oper (.call label) [] [] [label] .call, .plain .loadResult [] [result]], result)

/-- The instructions of arguments from left to right and the temps that hold them. -/
def selectArgs (mode : ArgPassing) : List IR.Expr → ExceptT Fault Drawing (List Instr × List Temp)
  | [] => return ([], [])
  | arg :: args => do
    let (first, t) ← selectExpr mode arg
    let (rest, ts) ← selectArgs mode args
    return (first ++ rest, t :: ts)

end

mutual

/-- The instructions of a statement that is followed by the statements `next` of the same list. -/
def selectStmt (mode : ArgPassing) (next : List IR.Stmt) : IR.Stmt → ExceptT Fault Drawing (List Instr)
  | .absent => throw .absentStatement
  | .eval e => do
    let (instrs, _) ← selectExpr mode e
    return instrs
  | .jump l => return [.jumpTo l]
  | .label l => return [.label l]
  | .cjump cond pos neg => do
    let (before, c) ← selectExpr mode cond
    let branch := Instr.oper (.branch pos) [c] [] [pos, neg] .next
    return before ++ branch :: (if IR.isLabelNext neg next then [] else [.jumpTo neg])
  | .move (.mem addr) src => do
    let (before₁, a) ← selectExpr mode addr
    let (before₂, v) ← selectExpr mode src
    return before₁ ++ before₂ ++ [.plain .storeAt [v, a] []]
  | .move (.temp t) src => do
    let (before, v) ← selectExpr mode src
    return before ++ [.move v t]
  | .move dst _ => throw dst.moveFault
  | .seq stmts => selectStmts mode stmts

/-- The instructions of a statement list. -/
def selectStmts (mode : ArgPassing) : List IR.Stmt → ExceptT Fault Drawing (List Instr)
  | [] => return []
  | s :: ss => do
    let first ← selectStmt mode ss s
    let rest ← selectStmts mode ss
    return first ++ rest

end

/-- The code of a chunk. -/
def select (mode : ArgPassing) (chunk : IR.CodeChunk) : ExceptT Fault Drawing Code := do
  let instrs ← selectStmts mode chunk.stmts
  return { frame := chunk.frame, entry := chunk.entry, exit := chunk.exit, instrs }

mutual

theorem toFresh_selectExpr (mode : ArgPassing) : ∀ e : IR.Expr,
    toFresh (selectExpr mode e) = e.select mode
  | .absent | .sexpr _ _ | .temp _ => by
    rw [selectExpr, IR.Expr.select]
    rfl
  | .const v => by
    rw [selectExpr, IR.Expr.select]
    exact toFresh_lift_congr (sequential_constant v)
  | .name label => by
    rw [selectExpr, IR.Expr.select]
    exact toFresh_bind_congr (toFresh_lift_congr rfl) fun dst => rfl
  | .mem addr => by
    rw [selectExpr, IR.Expr.select]
    refine toFresh_bind_congr (toFresh_selectExpr mode addr) fun (before, a) => ?_
    exact toFresh_bind_congr (toFresh_lift_congr rfl) fun dst => rfl
  | .binop op fst snd => by
    rw [selectExpr, IR.Expr.select]
    refine toFresh_bind_congr (toFresh_selectExpr mode fst) fun (before₁, a) => ?_
    refine toFresh_bind_congr (toFresh_selectExpr mode snd) fun (before₂, b) => ?_
    refine toFresh_bind_congr (toFresh_lift_congr rfl) fun dst => ?_
    exact toFresh_bind_congr (toFresh_liftExcept _) fun instrs => rfl
  | .unop op arg => by
    rw [selectExpr, IR.Expr.select]
    refine toFresh_bind_congr (toFresh_selectExpr mode arg) fun (before, a) => ?_
    refine toFresh_bind_congr (toFresh_lift_congr rfl) fun fresh => ?_
    cases op with
    | not => exact toFresh_bind_congr (toFresh_lift_congr rfl) fun neg => rfl
    | neg | unknown _ => rfl
  | .call label offs args => by
    rw [selectExpr, IR.Expr.select]
    -- Both reject a call without a fitting number of offsets before they draw any temp.
    split
    · rfl
    · refine toFresh_bind_congr (toFresh_selectArgs mode args) fun (before, temps) => ?_
      refine toFresh_bind_congr (toFresh_lift_congr (sequential_storeArguments mode offs temps))
        fun stores => ?_
      exact toFresh_bind_congr (toFresh_lift_congr rfl) fun result => rfl

theorem toFresh_selectArgs (mode : ArgPassing) : ∀ es : List IR.Expr,
    toFresh (selectArgs mode es) = IR.Expr.selectArgs mode es
  | [] => by
    rw [selectArgs, IR.Expr.selectArgs]
    rfl
  | e :: es => by
    rw [selectArgs, IR.Expr.selectArgs]
    refine toFresh_bind_congr (toFresh_selectExpr mode e) fun (first, t) => ?_
    exact toFresh_bind_congr (toFresh_selectArgs mode es) fun (rest, ts) => rfl

end

mutual

theorem toFresh_selectStmt (mode : ArgPassing) (next : List IR.Stmt) : ∀ s : IR.Stmt,
    toFresh (selectStmt mode next s) = s.select mode next
  | .absent | .jump _ | .label _ => by
    rw [selectStmt, IR.Stmt.select]
    rfl
  | .eval e => by
    rw [selectStmt, IR.Stmt.select]
    exact toFresh_bind_congr (toFresh_selectExpr mode e) fun (instrs, _) => rfl
  | .cjump cond pos neg => by
    rw [selectStmt, IR.Stmt.select]
    exact toFresh_bind_congr (toFresh_selectExpr mode cond) fun (before, c) => rfl
  | .move (.mem addr) src => by
    rw [selectStmt, IR.Stmt.select]
    refine toFresh_bind_congr (toFresh_selectExpr mode addr) fun (before₁, a) => ?_
    exact toFresh_bind_congr (toFresh_selectExpr mode src) fun (before₂, v) => rfl
  | .move (.temp t) src => by
    rw [selectStmt, IR.Stmt.select]
    exact toFresh_bind_congr (toFresh_selectExpr mode src) fun (before, v) => rfl
  | .move .absent _ | .move (.const _) _ | .move (.name _) _ | .move (.binop _ _ _) _
  | .move (.unop _ _) _ | .move (.call _ _ _) _ | .move (.sexpr _ _) _ => by
    rw [selectStmt, IR.Stmt.select] <;> first | rfl | simp
  | .seq ss => by
    rw [selectStmt, IR.Stmt.select]
    exact toFresh_selectStmts mode ss

theorem toFresh_selectStmts (mode : ArgPassing) : ∀ ss : List IR.Stmt,
    toFresh (selectStmts mode ss) = IR.Stmt.selectAll mode ss
  | [] => by
    rw [selectStmts, IR.Stmt.selectAll]
    rfl
  | s :: ss => by
    rw [selectStmts, IR.Stmt.selectAll]
    refine toFresh_bind_congr (toFresh_selectStmt mode ss s) fun first => ?_
    exact toFresh_bind_congr (toFresh_selectStmts mode ss) fun rest => rfl

end

theorem toFresh_select (mode : ArgPassing) (chunk : IR.CodeChunk) :
    toFresh (select mode chunk) = chunk.select mode :=
  toFresh_bind_congr (toFresh_selectStmts mode chunk.stmts) fun _ => rfl

/-! ## §2 Allocation -/

/-- Rewrites an instruction for a temp that lives in the slot at `offset` from `fp`. -/
def spillInstr (fp t : Temp) (offset : Word) (instr : Instr) : Drawing (List Instr × List Temp) := do
  let used := t ∈ instr.uses
  let defined := t ∈ instr.defs
  if ¬used ∧ ¬defined then
    return ([instr], [])
  let value ← fresh
  let (loads, made₁) ← if used then do
      let (const, off) ← constant offset
      pure (const ++ [.plain .loadIndexed [fp, off] [value]], [off])
    else pure ([], [])
  let (stores, made₂) ← if defined then do
      let (const, off) ← constant offset
      pure (const ++ [.plain .storeIndexed [value, fp, off] []], [off])
    else pure ([], [])
  return (loads ++ instr.rename t value :: stores, value :: made₁ ++ made₂)

theorem sequential_spillInstr (fp t : Temp) (offset : Word) (instr : Instr) :
    (spillInstr fp t offset instr).sequential = instr.spill fp t offset := by
  unfold spillInstr Instr.spill
  by_cases hused : t ∈ instr.uses <;> by_cases hdefined : t ∈ instr.defs <;>
    simp only [hused, hdefined, not_true, not_false_eq_true, and_true, and_false, if_true, if_false] <;>
    rfl

/-- Rewrites an instruction list for a spilled temp. -/
def spillInstrs (fp t : Temp) (offset : Word) : List Instr → Drawing (List Instr × TempSet)
  | [] => return ([], ∅)
  | instr :: rest => do
    let (first, made) ← spillInstr fp t offset instr
    let (others, madeLater) ← spillInstrs fp t offset rest
    return (first ++ others, TempSet.ofList made ∪ madeLater)

theorem sequential_spillInstrs (fp t : Temp) (offset : Word) (is : List Instr) :
    (spillInstrs fp t offset is).sequential = Code.spillInstrs fp t offset is := by
  induction is with
  | nil => rfl
  | cons i is ih =>
    refine sequential_bind_congr (sequential_spillInstr fp t offset i) fun (first, made) => ?_
    exact sequential_bind_congr ih fun (others, madeLater) => rfl

/-- Moves a temp into a new slot of the frame. -/
def spill (c : Code) (t : Temp) : Drawing (Code × TempSet) := do
  let offset := c.nextSlot
  let (instrs, made) ← spillInstrs c.frame.fp t offset c.instrs
  return ({ c with instrs, tempSize := c.tempSize + Word.byteSize, spills := c.spills.insert t offset },
    made)

theorem sequential_spill (c : Code) (t : Temp) : (spill c t).sequential = c.spill t :=
  sequential_bind_congr (sequential_spillInstrs _ _ _ _) fun (_, _) => rfl

/-- Moves several temps into slots one after the other. -/
def spillAll (c : Code) (made : TempSet) : List Temp → Drawing (Code × TempSet)
  | [] => return (c, made)
  | t :: ts => do
    let (c', made') ← spill c t
    spillAll c' (made ∪ made') ts

theorem sequential_spillAll (c : Code) (made : TempSet) (ts : List Temp) :
    (spillAll c made ts).sequential = c.spillAll made ts := by
  induction ts generalizing c made with
  | nil => rfl
  | cons t ts ih =>
    exact sequential_bind_congr (sequential_spill c t) fun (c', made') => ih c' (made ∪ made')

/-- The rounds of an allocation, at most `fuel` more of them. -/
def allocateRounds (k : Int) (maxRounds : Nat) :
    (fuel rounds : Nat) → (avoid : TempSet) → (spilled : List Temp) → Code →
      Drawing (Code × Except Fault Allocation)
  | 0, _, _, _, c => return (c, .error (.noColoring c.frame.label k maxRounds))
  | fuel + 1, rounds, avoid, spilled, c => do
    match c.tryColor k avoid with
    | .error fault => return (c, .error fault)
    | .ok (graph, coloring) =>
      if coloring.spilled.isEmpty then
        return (c.withColors graph coloring.colors, .ok { rounds := rounds + 1, spilled })
      else do
        let (c', avoid') ← spillAll c avoid coloring.spilled
        allocateRounds k maxRounds fuel (rounds + 1) avoid' (spilled ++ coloring.spilled) c'

theorem sequential_allocateRounds (k : Int) (maxRounds fuel rounds : Nat) (avoid : TempSet)
    (spilled : List Temp) (c : Code) : (allocateRounds k maxRounds fuel rounds avoid spilled c).sequential
      = c.allocateRounds k maxRounds fuel rounds avoid spilled := by
  induction fuel generalizing rounds avoid spilled c with
  | zero => rfl
  | succ fuel ih =>
    rw [allocateRounds, Code.allocateRounds]
    rcases c.tryColor k avoid with fault | ⟨graph, coloring⟩
    · rfl
    · dsimp only
      split
      · rfl
      · exact sequential_bind_congr (sequential_spillAll c avoid _) fun (c', avoid') => ih _ avoid' _ c'

/-- Assigns registers `$0` to `$(k-1)` to the temps of a function. -/
def allocate (c : Code) (k : Int) : Drawing (Code × Except Fault Allocation) :=
  if k < minRegisters ∨ maxRegisters < k then
    return (c, .error (.registerCount k minRegisters maxRegisters))
  else
    let maxRounds := (c.temps.erase c.frame.fp).size + 1
    allocateRounds k maxRounds maxRounds 0 ∅ [] c

theorem sequential_allocate (c : Code) (k : Int) : (allocate c k).sequential = c.allocate k := by
  unfold allocate Code.allocate
  split
  · rfl
  · exact sequential_allocateRounds ..

/-! ## §3 Functions -/

/-- Names the stage of the compilation in which a fault arises. -/
def stage (names : List String) (x : ExceptT Fault Drawing α) : ExceptT CompileError Drawing α := do
  match ← (liftM x.run : ExceptT CompileError Drawing _) with
  | .ok a => return a
  | .error fault => throw ⟨names, fault⟩

/-- Compiles one function. -/
def unit (o : Options) (chunk : IR.CodeChunk) :
    ExceptT CompileError Drawing (CompiledUnit × UnitListings) := do
  let context := "function " ++ chunk.frame.label
  let code ← stage [context, "select instructions"] (select o.args chunk)
  let live ← if o.wanted.live then
      match code.liveness with
      | .ok s => pure (code.livenessListing s.points (-1))
      | .error fault => throw ⟨[context, "analyze liveness"], fault⟩
    else pure ""
  let (allocated, r) ← allocate code o.registers
  match r with
  | .error fault => throw ⟨[context, "allocate registers"], fault⟩
  | .ok allocation =>
    let listing (wanted : Bool) (text : String) : String := if wanted then text else ""
    return ({ chunk, code := allocated, allocation },
      { selected := listing o.wanted.selected (code.listing (-1)), live
        allocated := listing o.wanted.allocated (allocated.listing o.registers) })

/-- Draws the temps from the supply of a compilation in progress. -/
def onSupply (x : StateM Supply α) : StateM Compiling α := fun c =>
  ((x.run c.work.supply).1, { c with work := { c.work with supply := (x.run c.work.supply).2 } })

/-- A compilation that draws its temps from the supply of the compilation in progress. -/
def ofDrawing (x : ExceptT CompileError Drawing α) : Compile α := ExceptT.mk (onSupply x.run.sequential)

theorem ofDrawing_bind_congr {x : ExceptT CompileError Drawing α} {f : α → ExceptT CompileError Drawing β}
    {y : Compile α} {g : α → Compile β} (hx : ofDrawing x = y) (hf : ∀ a, ofDrawing (f a) = g a) :
    ofDrawing (x >>= f) = y >>= g := by
  subst hx
  have hbind : onSupply (x >>= f).run.sequential
      = onSupply x.run.sequential >>= fun r => onSupply (ExceptT.bindCont f r).sequential :=
    congrArg onSupply (sequential_bind x.run (ExceptT.bindCont f))
  refine hbind.trans ?_
  show _ = (onSupply x.run.sequential >>= ExceptT.bindCont g)
  congr 1
  funext r
  cases r with
  | error e => rfl
  | ok a => exact hf a

theorem ofDrawing_stage (names : List String) {x : ExceptT Fault Drawing α} {y : Fresh α}
    (h : toFresh x = y) : ofDrawing (stage names x) = Compile.stage names (Source.Pass.ofFresh y) := by
  refine ofDrawing_bind_congr ?_ fun r => ?_
  · subst h
    funext c
    have hlift : (liftM x.run : ExceptT CompileError Drawing _).run.sequential
        = x.run.sequential >>= fun r => pure (.ok r) := sequential_bind x.run _
    show onSupply _ c = (Except.ok _, _)
    rw [hlift]
    show (Except.ok (x.run.sequential c.work.supply).1,
      ({ c with work := { c.work with supply := (x.run.sequential c.work.supply).2 } } : Compiling)) = _
    rcases x.run.sequential c.work.supply with ⟨_ | a, σ⟩ <;> rfl
  · cases r <;> rfl

theorem ofDrawing_allocate (code : Code) (k : Int) :
    ofDrawing (liftM (allocate code k)) = Compile.stage []
      (Source.Pass.withSupply (code.allocate k)) := by
  have hlift : (liftM (allocate code k) : ExceptT CompileError Drawing _).run.sequential
      = (allocate code k).sequential >>= fun r => pure (.ok r) := sequential_bind _ _
  rw [sequential_allocate] at hlift
  exact congrArg onSupply hlift

/-- **The compilation of a function is a drawing** that takes its temps from the supply. -/
theorem ofDrawing_unit (o : Options) (chunk : IR.CodeChunk) :
    ofDrawing (unit o chunk) = Compile.unit o chunk := by
  refine ofDrawing_bind_congr (ofDrawing_stage _ (toFresh_select o.args chunk)) fun code => ?_
  -- What is listed about liveness is handed on; it draws nothing.
  extract_lets listing rest rest'
  have hrest : ∀ live, ofDrawing (rest live) = rest' live := by
    intro live
    refine ofDrawing_bind_congr (ofDrawing_allocate code o.registers) fun (allocated, r) => ?_
    cases r <;> rfl
  split
  · cases code.liveness <;> exact ofDrawing_bind_congr rfl hrest
  · exact ofDrawing_bind_congr rfl hrest

end Drawing

end MmixBackend
