import MmixBackend.Proofs.Drawing
import MmixBackend.Proofs.IR.Lowering
import MmixBackend.Proofs.Register.Allocation
import MmixBackend.Proofs.Register.Renaming

/-!
# Compiling a function under new names

Two runs of the passes over a function that draw different temps go on in step: they draw at the same
places, and what they compute differs by the names of temps only, as long as the names keep their order.
Nothing of this is left in the finished function, because every temp has a register in the end.

## Main statements

- `Drawing.Alike`: two computations in step.
- `Drawing.alike_unit`: compiling a function and compiling it under new names.
- `Code.Renames.functions_eq`: functions that differ in names are written as the same text.
-/

namespace MmixBackend

/-! ## §1 Intermediate code -/

namespace Renaming

variable (ρ : Renaming)

mutual

/-- An expression under its new names. -/
def expr : IR.Expr → IR.Expr
  | .absent => .absent
  | .const v => .const v
  | .mem addr => .mem (expr addr)
  | .temp t => .temp (ρ t)
  | .name l => .name l
  | .binop op fst snd => .binop op (expr fst) (expr snd)
  | .unop op arg => .unop op (expr arg)
  | .call l offs args => .call l offs (exprs args)
  | .sexpr s value => .sexpr (stmt s) (expr value)

/-- A list of expressions under its new names. -/
def exprs : List IR.Expr → List IR.Expr
  | [] => []
  | e :: es => expr e :: exprs es

/-- A statement under its new names. -/
def stmt : IR.Stmt → IR.Stmt
  | .absent => .absent
  | .eval e => .eval (expr e)
  | .move dst src => .move (expr dst) (expr src)
  | .cjump cond pos neg => .cjump (expr cond) pos neg
  | .jump l => .jump l
  | .label l => .label l
  | .seq ss => .seq (stmts ss)

/-- A list of statements under its new names. -/
def stmts : List IR.Stmt → List IR.Stmt
  | [] => []
  | s :: ss => stmt s :: stmts ss

end

/-- A frame under its new names. -/
def frame (f : Frame) : Frame := { f with fp := ρ f.fp, rv := ρ f.rv }

/-- A chunk under its new names. -/
def chunk (c : IR.CodeChunk) : IR.CodeChunk :=
    { c with frame := ρ.frame c.frame, stmts := ρ.stmts c.stmts }

theorem length_exprs (es : List IR.Expr) : (ρ.exprs es).length = es.length := by
  induction es with
  | nil => rw [exprs]
  | cons e es ih => rw [exprs, List.length_cons, List.length_cons, ih]

theorem isLabelNext_stmts (l : Label) (ss : List IR.Stmt) :
    IR.isLabelNext l (ρ.stmts ss) = IR.isLabelNext l ss := by
  cases ss with
  | nil => rw [stmts]
  | cons s ss => cases s <;> simp [stmts, stmt, IR.isLabelNext]

mutual

theorem expr_eq_self : ∀ {e : IR.Expr}, (∀ t ∈ e.temps, ρ t = t) → ρ.expr e = e
  | .absent, _ | .const _, _ | .name _, _ => by rw [expr]
  | .mem addr, h => by simp only [expr, expr_eq_self (e := addr) h]
  | .temp t, h => by rw [expr, h t (List.mem_singleton_self t)]
  | .binop op fst snd, h => by
    rw [IR.Expr.temps, List.forall_mem_append] at h
    rw [expr, expr_eq_self h.1, expr_eq_self h.2]
  | .unop op arg, h => by simp only [expr, expr_eq_self (e := arg) h]
  | .call l offs args, h => by rw [expr, exprs_eq_self h]
  | .sexpr s value, h => by
    rw [IR.Expr.temps, List.forall_mem_append] at h
    rw [expr, stmt_eq_self h.1, expr_eq_self h.2]

theorem exprs_eq_self : ∀ {es : List IR.Expr}, (∀ t ∈ IR.Expr.tempsAll es, ρ t = t) → ρ.exprs es = es
  | [], _ => by rw [exprs]
  | e :: es, h => by
    rw [IR.Expr.tempsAll, List.forall_mem_append] at h
    rw [exprs, expr_eq_self h.1, exprs_eq_self h.2]

theorem stmt_eq_self : ∀ {s : IR.Stmt}, (∀ t ∈ s.temps, ρ t = t) → ρ.stmt s = s
  | .absent, _ | .jump _, _ | .label _, _ => by rw [stmt]
  | .eval e, h => by rw [stmt, expr_eq_self h]
  | .move dst src, h => by
    rw [IR.Stmt.temps, List.forall_mem_append] at h
    rw [stmt, expr_eq_self h.1, expr_eq_self h.2]
  | .cjump cond _ _, h => by rw [stmt, expr_eq_self h]
  | .seq ss, h => by rw [stmt, stmts_eq_self h]

theorem stmts_eq_self : ∀ {ss : List IR.Stmt}, (∀ t ∈ IR.Stmt.tempsAll ss, ρ t = t) → ρ.stmts ss = ss
  | [], _ => by rw [stmts]
  | s :: ss, h => by
    rw [IR.Stmt.tempsAll, List.forall_mem_append] at h
    rw [stmts, stmt_eq_self h.1, stmts_eq_self h.2]

end

end Renaming

/-- The temps of a chunk, those of its frame included. -/
def IR.CodeChunk.temps (c : IR.CodeChunk) :
    List Temp := c.frame.fp :: c.frame.rv :: IR.Stmt.tempsAll c.stmts

theorem Renaming.chunk_eq_self (ρ : Renaming) {c : IR.CodeChunk} (h : ∀ t ∈ c.temps, ρ t = t) :
    ρ.chunk c = c := by
  obtain ⟨hfp, hrv, hstmts⟩ : ρ c.frame.fp = c.frame.fp ∧ ρ c.frame.rv = c.frame.rv ∧
      ∀ t ∈ IR.Stmt.tempsAll c.stmts, ρ t = t := by simpa [IR.CodeChunk.temps] using h
  rw [chunk, frame, hfp, hrv, ρ.stmts_eq_self hstmts]

/-! ## §2 Computations in step -/

/-- Two outcomes are both faults, or results in a relation. -/
inductive Outcomes {ε α β : Type} (R : α → β → Prop) : Except ε α → Except ε β → Prop
  | ok {a b} : R a b → Outcomes R (.ok a) (.ok b)
  | error {e e'} : Outcomes R (.error e) (.error e')

namespace Drawing

variable {α β γ δ ε : Type} {ρ : Renaming}

/-- Two computations draw at the same places. If one draws the temps of the other under new names, their
results are in a relation. -/
inductive Alike (ρ : Renaming) (R : α → β → Prop) : Drawing α → Drawing β → Prop
  | done {a b} : R a b → Alike ρ R (done a) (done b)
  | draw {f g} : (∀ t, Alike ρ R (f t) (g (ρ t))) → Alike ρ R (draw f) (draw g)

/-- The result of the second computation is a function of that of the first. -/
abbrev Maps (ρ : Renaming) (r : α → β) : Drawing α → Drawing β → Prop := Alike ρ fun a b => b = r a

namespace Alike

variable {R : α → β → Prop} {S : γ → δ → Prop}

theorem bind {d : Drawing α} {d' : Drawing β} {f : α → Drawing γ} {f' : β → Drawing δ}
    (h : Alike ρ R d d') (hf : ∀ a b, R a b → Alike ρ S (f a) (f' b)) :
    Alike ρ S (d >>= f) (d' >>= f') := by
  induction h with
  | done h => exact hf _ _ h
  | draw _ ih => exact .draw ih

theorem maps_bind {r : α → β} {d : Drawing α} {d' : Drawing β} {f : α → Drawing γ} {f' : β → Drawing δ}
    (h : Maps ρ r d d') (hf : ∀ a, Alike ρ S (f a) (f' (r a))) : Alike ρ S (d >>= f) (d' >>= f') :=
  h.bind fun a _ hb => hb ▸ hf a

theorem fresh : Maps ρ ρ fresh fresh := .draw fun _ => .done rfl

/-- Computations that can fail are composed in the same way. -/
theorem bind_except {x : ExceptT ε Drawing α} {x' : ExceptT ε Drawing β} {f : α → ExceptT ε Drawing γ}
    {f' : β → ExceptT ε Drawing δ} (h : Alike ρ (Outcomes R) x.run x'.run)
    (hf : ∀ a b, R a b → Alike ρ (Outcomes S) (f a).run (f' b).run) :
    Alike ρ (Outcomes S) (x >>= f).run (x' >>= f').run := by
  show Alike ρ (Outcomes S) (x.run >>= ExceptT.bindCont f) (x'.run >>= ExceptT.bindCont f')
  refine h.bind fun a b hab => ?_
  cases hab with
  | ok hab => exact hf _ _ hab
  | error => exact .done .error

theorem lift {d : Drawing α} {d' : Drawing β} (h : Alike ρ R d d') :
    Alike ρ (Outcomes R) (liftM d : ExceptT ε Drawing α).run (liftM d' : ExceptT ε Drawing β).run :=
  h.bind fun _ _ hab => .done (.ok hab)

end Alike

/-- The same for computations that can fail. -/
abbrev MapsExcept (ρ : Renaming) (r : α → β) (x : ExceptT ε Drawing α) (x' : ExceptT ε Drawing β) :
    Prop :=
  Alike ρ (Outcomes fun a b => b = r a) x.run x'.run

theorem MapsExcept.bind {r : α → β} {S : γ → δ → Prop} {x : ExceptT ε Drawing α}
    {x' : ExceptT ε Drawing β} {f : α → ExceptT ε Drawing γ} {f' : β → ExceptT ε Drawing δ}
    (h : MapsExcept ρ r x x') (hf : ∀ a, Alike ρ (Outcomes S) (f a).run (f' (r a)).run) :
    Alike ρ (Outcomes S) (x >>= f).run (x' >>= f').run :=
  h.bind_except fun a _ hb => hb ▸ hf a

/-! ## §3 Selection -/

/-- Instructions and a temp under their new names. -/
def valueMap (ρ : Renaming) (p : List Instr × Temp) : List Instr × Temp := (p.1.map ρ.instr, ρ p.2)

/-- Instructions and temps under their new names. -/
def valuesMap (ρ : Renaming) (p : List Instr × List Temp) : List Instr × List Temp :=
  (p.1.map ρ.instr, p.2.map ρ)

theorem loadConstant_map (ρ : Renaming) (dst : Temp) (v : Word) :
    Instr.loadConstant (ρ dst) v = (Instr.loadConstant dst v).map ρ.instr := by
  unfold Instr.loadConstant
  rw [List.map_map]
  refine List.map_congr_left fun ⟨place, value⟩ _ => ?_
  by_cases h : place = .low <;> simp [h, Instr.plain, Renaming.instr]

theorem binary_map (ρ : Renaming) (op : IR.BinOp) (a b dst : Temp) :
    Instr.binary op (ρ a) (ρ b) (ρ dst) = (Instr.binary op a b dst).map (List.map ρ.instr) := by
  cases op <;> rfl

variable (ρ)

theorem maps_constant (v : Word) : Maps ρ (valueMap ρ) (constant v) (constant v) := by
  refine Alike.fresh.maps_bind fun dst => .done ?_
  simp [valueMap, loadConstant_map]

theorem maps_storeArgument (mode : ArgPassing) (off : Word) (arg : Temp) :
    Maps ρ (List.map ρ.instr) (storeArgument mode off arg) (storeArgument mode off (ρ arg)) := by
  unfold storeArgument
  split
  · exact .done rfl
  · refine (maps_constant ρ off).maps_bind ?_
    rintro ⟨load, offset⟩
    refine Alike.fresh.maps_bind fun addr => .done ?_
    simp [Renaming.instr, Instr.plain]

theorem maps_storeArguments (mode : ArgPassing) (offs : List Word) (args : List Temp) :
    Maps ρ (List.map ρ.instr) (storeArguments mode offs args)
      (storeArguments mode offs (args.map ρ)) := by
  induction offs generalizing args with
  | nil => exact .done rfl
  | cons off offs ih =>
    cases args with
    | nil => exact .done rfl
    | cons arg args =>
      refine (maps_storeArgument ρ mode off arg).maps_bind fun first => ?_
      refine (ih args).maps_bind fun rest => .done ?_
      simp

mutual

theorem maps_selectExpr (mode : ArgPassing) : ∀ e : IR.Expr,
    MapsExcept ρ (valueMap ρ) (selectExpr mode e) (selectExpr mode (ρ.expr e))
  | .absent => by
    rw [Renaming.expr, selectExpr]
    exact .done .error
  | .sexpr _ _ => by
    rw [Renaming.expr, selectExpr, selectExpr]
    exact .done .error
  | .temp t => by
    rw [Renaming.expr, selectExpr, selectExpr]
    exact .done (.ok rfl)
  | .const v => by
    rw [Renaming.expr, selectExpr]
    exact (maps_constant ρ v).lift
  | .name label => by
    rw [Renaming.expr, selectExpr]
    -- A temp that is handed out is new on both sides, and the renaming takes one to the other.
    exact MapsExcept.bind Alike.fresh.lift fun dst => .done (.ok rfl)
  | .mem addr => by
    rw [Renaming.expr, selectExpr, selectExpr]
    refine (maps_selectExpr mode addr).bind ?_
    rintro ⟨before, a⟩
    refine MapsExcept.bind Alike.fresh.lift fun dst => .done (.ok ?_)
    simp [valueMap, Renaming.instr, Instr.plain]
  | .binop op fst snd => by
    rw [Renaming.expr, selectExpr, selectExpr]
    refine (maps_selectExpr mode fst).bind ?_
    rintro ⟨before₁, a⟩
    refine (maps_selectExpr mode snd).bind ?_
    rintro ⟨before₂, b⟩
    refine MapsExcept.bind Alike.fresh.lift fun dst => ?_
    -- Whether the operator has instructions does not depend on the temps.
    simp only [valueMap, binary_map]
    cases Instr.binary op a b dst with
    | error fault => exact .done .error
    | ok instrs => exact .done (.ok (by simp))
  | .unop op arg => by
    rw [Renaming.expr, selectExpr, selectExpr]
    refine (maps_selectExpr mode arg).bind ?_
    rintro ⟨before, a⟩
    refine MapsExcept.bind Alike.fresh.lift fun fresh => ?_
    -- Renaming keeps constants, so the destination is the operand's temp in both or in neither.
    cases op with
    | neg =>
      refine .done (.ok ?_)
      cases arg <;> simp [valueMap, Renaming.expr, Renaming.instr, Instr.plain]
    | not =>
      refine MapsExcept.bind Alike.fresh.lift fun neg => .done (.ok ?_)
      cases arg <;> simp [valueMap, Renaming.expr, Renaming.instr, Instr.plain]
    | unknown _ => exact .done .error
  | .call label offs args => by
    rw [Renaming.expr, selectExpr, selectExpr, ρ.length_exprs]
    -- The number of arguments is the same, so both sides fail or neither does.
    split
    · exact .done .error
    · refine (maps_selectArgs mode args).bind ?_
      rintro ⟨before, temps⟩
      refine MapsExcept.bind (maps_storeArguments ρ mode offs temps).lift fun stores => ?_
      refine MapsExcept.bind Alike.fresh.lift fun result => .done (.ok ?_)
      simp [valueMap, Renaming.instr, Instr.plain]

theorem maps_selectArgs (mode : ArgPassing) : ∀ es : List IR.Expr,
    MapsExcept ρ (valuesMap ρ) (selectArgs mode es) (selectArgs mode (ρ.exprs es))
  | [] => by
    rw [Renaming.exprs, selectArgs]
    exact .done (.ok rfl)
  | e :: es => by
    rw [Renaming.exprs, selectArgs, selectArgs]
    refine (maps_selectExpr mode e).bind ?_
    rintro ⟨first, t⟩
    refine (maps_selectArgs mode es).bind ?_
    rintro ⟨rest, ts⟩
    refine .done (.ok ?_)
    simp [valuesMap]

end

mutual

theorem maps_selectStmt (mode : ArgPassing) (next : List IR.Stmt) : ∀ s : IR.Stmt,
    MapsExcept ρ (List.map ρ.instr) (selectStmt mode next s) (selectStmt mode (ρ.stmts next) (ρ.stmt s))
  | .absent => by
    rw [Renaming.stmt, selectStmt, selectStmt]
    exact .done .error
  | .jump _ | .label _ => by
    rw [Renaming.stmt, selectStmt, selectStmt]
    exact .done (.ok rfl)
  | .eval e => by
    rw [Renaming.stmt, selectStmt, selectStmt]
    refine (maps_selectExpr ρ mode e).bind ?_
    rintro ⟨instrs, _⟩
    exact .done (.ok rfl)
  | .cjump cond pos neg => by
    rw [Renaming.stmt, selectStmt, selectStmt, ρ.isLabelNext_stmts]
    refine (maps_selectExpr ρ mode cond).bind ?_
    rintro ⟨before, c⟩
    refine .done (.ok ?_)
    by_cases h : IR.isLabelNext neg next <;> simp [h, Renaming.instr, Instr.jumpTo]
  | .move (.mem addr) src => by
    rw [Renaming.stmt, Renaming.expr, selectStmt, selectStmt]
    refine (maps_selectExpr ρ mode addr).bind ?_
    rintro ⟨before₁, a⟩
    refine (maps_selectExpr ρ mode src).bind ?_
    rintro ⟨before₂, v⟩
    refine .done (.ok ?_)
    simp [Renaming.instr, Instr.plain]
  | .move (.temp t) src => by
    rw [Renaming.stmt, Renaming.expr, selectStmt, selectStmt]
    refine (maps_selectExpr ρ mode src).bind ?_
    rintro ⟨before, v⟩
    refine .done (.ok ?_)
    simp [Renaming.instr]
  | .move .absent _ | .move (.const _) _ | .move (.name _) _ | .move (.binop _ _ _) _
  | .move (.unop _ _) _ | .move (.call _ _ _) _ | .move (.sexpr _ _) _ => by
    simp only [Renaming.stmt, Renaming.expr, selectStmt]
    exact .done .error
  | .seq ss => by
    rw [Renaming.stmt, selectStmt, selectStmt]
    exact maps_selectStmts mode ss

theorem maps_selectStmts (mode : ArgPassing) : ∀ ss : List IR.Stmt,
    MapsExcept ρ (List.map ρ.instr) (selectStmts mode ss) (selectStmts mode (ρ.stmts ss))
  | [] => by
    rw [Renaming.stmts, selectStmts]
    exact .done (.ok rfl)
  | s :: ss => by
    rw [Renaming.stmts, selectStmts, selectStmts]
    refine (maps_selectStmt mode ss s).bind fun first => ?_
    refine (maps_selectStmts mode ss).bind fun rest => .done (.ok ?_)
    simp

end

end Drawing

/-! ## §4 Allocation -/

/-- A fold that gives each coloured vertex of a list its register does so under new names, too. -/
theorem Renaming.getElem?_foldl_registers (ρ : Renaming)
    {f : Std.TreeMap Temp Int → Vertex × Option Nat → Std.TreeMap Temp Int}
    (hsome : ∀ regs v (n : Nat), f regs (v, some n) = regs.insert v.temp (n : Int))
    (hnone : ∀ regs v, f regs (v, none) = regs) (vs : List Vertex) (colors : List (Option Nat))
    {regs regs' : Std.TreeMap Temp Int} (h : ∀ t : Temp, regs'[ρ t]? = regs[t]?) (t : Temp) :
    (((vs.map ρ.vertex).zip colors).foldl f regs')[ρ t]? = ((vs.zip colors).foldl f regs)[t]? := by
  induction vs generalizing colors regs regs' with
  | nil => exact h t
  | cons v vs ih =>
    cases colors with
    | nil => exact h t
    | cons color colors =>
      simp only [List.map_cons, List.zip_cons_cons, List.foldl_cons]
      cases color with
      | none =>
        rw [hnone, hnone]
        exact ih colors h
      | some n =>
        rw [hsome, hsome]
        exact ih colors (ρ.getElem?_insert h v.temp n)

/-- Two functions differ in the names of temps only. -/
structure Code.Renames (ρ : Renaming) (c c' : Code) : Prop where
  frame : c'.frame = ρ.frame c.frame
  entry : c'.entry = c.entry
  exit : c'.exit = c.exit
  instrs : c'.instrs = c.instrs.map ρ.instr
  tempSize : c'.tempSize = c.tempSize
  regs : ∀ t, c'.regs[ρ t]? = c.regs[t]?
  spills : ∀ t, c'.spills[ρ t]? = c.spills[t]?

namespace Code.Renames

variable {ρ : Renaming} {c c' : Code}

theorem nextSlot (h : c.Renames ρ c') : c'.nextSlot = c.nextSlot := by
  rw [Code.nextSlot, h.frame, h.tempSize]
  rfl

theorem temps (h : c.Renames ρ c') : c'.temps = ρ.set c.temps := by
  unfold Code.temps
  rw [h.instrs]
  suffices hfold : ∀ s, (c.instrs.map ρ.instr).foldl
      (fun s i => (s ∪ TempSet.ofList i.uses) ∪ TempSet.ofList i.defs) (ρ.set s)
        = ρ.set (c.instrs.foldl (fun s i => (s ∪ TempSet.ofList i.uses) ∪ TempSet.ofList i.defs) s) from
    hfold ∅
  induction c.instrs with
  | nil => exact fun _ => rfl
  | cons i is ih =>
    intro s
    rw [List.map_cons, List.foldl_cons, List.foldl_cons, ← ih]
    simp

theorem liveness (h : c.Renames ρ c') : c'.liveness = c.liveness.map ρ.solution := by
  have hcontains : c'.spills.contains (ρ c.frame.rv) = c.spills.contains c.frame.rv := by
    rw [Std.TreeMap.contains_eq_isSome_getElem?, Std.TreeMap.contains_eq_isSome_getElem?, h.spills]
  have hlive : c'.liveAtExit = ρ.set c.liveAtExit := by
    simp only [Code.liveAtExit, h.frame, Renaming.frame, hcontains]
    split <;> simp
  unfold Code.liveness
  rw [h.instrs, h.exit, hlive]
  refine Renaming.solve_map (fun l => ?_) c.instrs
  rw [Std.TreeMap.getElem?_insert, Std.TreeMap.getElem?_insert]
  split <;> simp

theorem checkPressure (h : c.Renames ρ c') (k : Int) :
    Outcomes (fun _ _ => True) (c.checkPressure k) (c'.checkPressure k) := by
  unfold Code.checkPressure
  rw [h.instrs, h.frame, List.find?_map]
  have hpressure : ((fun i : Instr => decide (k < i.pressure (ρ.frame c.frame).fp)) ∘ ρ.instr)
      = fun i => decide (k < i.pressure c.frame.fp) := by
    funext i
    simp [Renaming.frame]
  rw [hpressure]
  cases c.instrs.find? fun i => k < i.pressure c.frame.fp with
  | none => exact .ok trivial
  | some i => exact .error

/-- One attempt to colour both functions gives the same colours. -/
theorem tryColor (h : c.Renames ρ c') (k : Int) (avoid : TempSet) :
    Outcomes (fun p p' => ρ.Graphs p.1 p'.1 ∧ p'.2 = ⟨p.2.colors, p.2.spilled.map ρ⟩)
      (c.tryColor k avoid) (c'.tryColor k (ρ.set avoid)) := by
  unfold Code.tryColor
  rw [h.liveness]
  have hpressure := h.checkPressure k
  generalize c.checkPressure k = r at hpressure
  generalize c'.checkPressure k = r' at hpressure
  cases hpressure with
  | error => exact .error
  | ok _ =>
    cases c.liveness with
    | error fault => exact .error
    | ok live =>
      have hgraphs : ρ.Graphs (.build c.frame.fp c.instrs live.points)
          (.build c'.frame.fp c'.instrs (ρ.solution live).points) := by
        rw [h.frame, h.instrs]
        exact Renaming.Graphs.build ρ c.frame.fp c.instrs live.points
      exact .ok ⟨hgraphs, hgraphs.color k.toNat avoid⟩

theorem withColors (h : c.Renames ρ c') {g g' : InterferenceGraph} (hg : ρ.Graphs g g')
    (colors : Array (Option Nat)) : (c.withColors g colors).Renames ρ (c'.withColors g' colors) := by
  refine { h with regs := ?_ }
  unfold Code.withColors
  rw [h.frame]
  refine ρ.getElem?_insert ?_ c.frame.fp frameRegister
  rw [hg.vertices, Array.toList_map]
  exact ρ.getElem?_foldl_registers (fun _ _ _ => rfl) (fun _ _ => rfl) _ _ (by simp)

end Code.Renames

/-- Every temp of a function has a register. -/
def Code.Registered (c : Code) : Prop :=
  ∀ t, InterferenceGraph.Mentions c.instrs t → ∃ r, c.regs[t]? = some r

theorem registered_withColors {c : Code} {k : Int} {avoid : TempSet} {g : InterferenceGraph}
    {coloring : Coloring} (hk : 0 ≤ k) (h : c.tryColor k avoid = .ok (g, coloring))
    (hspilled : coloring.spilled = []) : (c.withColors g coloring.colors).Registered := by
  obtain ⟨s, hs⟩ := allocated_withColors hk h hspilled
  intro t ht
  by_cases hfp : t = (c.withColors g coloring.colors).frame.fp
  · exact ⟨_, hfp ▸ hs.fp⟩
  · obtain ⟨r, hr, -⟩ := hs.register hfp ht
    exact ⟨r, hr⟩

namespace Drawing

variable (ρ : Renaming)

theorem rename_map (old new : Temp) (i : Instr) :
    (ρ.instr i).rename (ρ old) (ρ new) = ρ.instr (i.rename old new) := by
  have hone : ∀ t, (if ρ t = ρ old then ρ new else ρ t) = ρ (if t = old then new else t) := by
    intro t
    rw [apply_ite ρ.apply]
    simp only [ρ.eq_iff]
  have hlist : ∀ ts : List Temp,
      Instr.renameIn (ρ old) (ρ new) (ts.map ρ) = (Instr.renameIn old new ts).map ρ := by
    intro ts
    simp only [Instr.renameIn, List.map_map]
    exact List.map_congr_left fun t _ => hone t
  cases i with
  | oper op uses defs jumps flow => simp only [Renaming.instr, Instr.rename, hlist]
  | move src dst => simp only [Renaming.instr, Instr.rename, hone]
  | label l => rfl

theorem maps_spillInstr (fp t : Temp) (offset : Word) (i : Instr) :
    Maps ρ (valuesMap ρ) (spillInstr fp t offset i) (spillInstr (ρ fp) (ρ t) offset (ρ.instr i)) := by
  have hmem : ∀ ts : List Temp, ρ t ∈ ts.map ρ ↔ t ∈ ts := fun ts => List.mem_map_of_injective ρ.injective
  unfold spillInstr
  simp only [Renaming.uses_instr, Renaming.defs_instr, hmem]
  split
  · exact .done rfl
  -- The temps that the spill draws are renamed with the rest.
  · refine Alike.fresh.maps_bind fun value => ?_
    have hrename := rename_map ρ t value i
    by_cases hused : t ∈ i.uses <;> by_cases hdefined : t ∈ i.defs <;>
      simp only [hused, hdefined, if_true, if_false, hrename]
    · refine (maps_constant ρ offset).maps_bind ?_
      rintro ⟨load, off⟩
      refine (maps_constant ρ offset).maps_bind ?_
      rintro ⟨store, off'⟩
      refine .done ?_
      simp [valuesMap, valueMap, Renaming.instr, Instr.plain]
    · refine (maps_constant ρ offset).maps_bind ?_
      rintro ⟨load, off⟩
      refine .done ?_
      simp [valuesMap, valueMap, Renaming.instr, Instr.plain]
    · refine (maps_constant ρ offset).maps_bind ?_
      rintro ⟨store, off⟩
      refine .done ?_
      simp [valuesMap, valueMap, Renaming.instr, Instr.plain]
    · refine .done ?_
      simp [valuesMap]

/-- Rewritten instructions and the temps made for them, under their new names. -/
def madeMap (p : List Instr × TempSet) : List Instr × TempSet := (p.1.map ρ.instr, ρ.set p.2)

theorem maps_spillInstrs (fp t : Temp) (offset : Word) (is : List Instr) :
    Maps ρ (madeMap ρ) (spillInstrs fp t offset is)
      (spillInstrs (ρ fp) (ρ t) offset (is.map ρ.instr)) := by
  induction is with
  | nil => exact .done rfl
  | cons i is ih =>
    refine (maps_spillInstr ρ fp t offset i).maps_bind ?_
    rintro ⟨first, made⟩
    refine ih.maps_bind ?_
    rintro ⟨others, madeLater⟩
    refine .done ?_
    simp [madeMap]

variable {ρ}

/-- Functions that differ in names, and the temps made for them. -/
def SpillRenames (ρ : Renaming) (p p' : Code × TempSet) : Prop := p.1.Renames ρ p'.1 ∧ p'.2 = ρ.set p.2

theorem alike_spill {c c' : Code} (h : c.Renames ρ c') (t : Temp) :
    Alike ρ (SpillRenames ρ) (spill c t) (spill c' (ρ t)) := by
  unfold spill
  have hspill := maps_spillInstrs ρ c.frame.fp t c.nextSlot c.instrs
  have hfp : ρ c.frame.fp = c'.frame.fp := by
    rw [h.frame]
    rfl
  rw [← h.instrs, hfp] at hspill
  rw [h.nextSlot]
  refine hspill.maps_bind ?_
  rintro ⟨instrs, made⟩
  refine .done ⟨?_, rfl⟩
  exact { h with
    instrs := rfl
    tempSize := congrArg (· + Word.byteSize) h.tempSize
    spills := ρ.getElem?_insert h.spills t c.nextSlot }

theorem alike_spillAll {c c' : Code} (h : c.Renames ρ c') (made : TempSet) (ts : List Temp) :
    Alike ρ (SpillRenames ρ) (spillAll c made ts) (spillAll c' (ρ.set made) (ts.map ρ)) := by
  induction ts generalizing c c' made with
  | nil => exact .done ⟨h, rfl⟩
  | cons t ts ih =>
    refine (alike_spill h t).bind ?_
    rintro ⟨c₁, made₁⟩ ⟨c₁', made₁'⟩ ⟨h₁, hmade⟩
    subst hmade
    have hmade : ρ.set made ∪ ρ.set made₁ = ρ.set (made ∪ made₁) := (ρ.set_union made made₁).symm
    simp only [hmade]
    exact ih h₁ _

/-- Two allocations that differ in the names of temps: both have failed, or both have given every temp of
the function a register, in the same number of rounds. -/
def AllocationRenames (ρ : Renaming) (p p' : Code × Except Fault Allocation) : Prop :=
  Outcomes (fun a a' => p.1.Renames ρ p'.1 ∧ p.1.Registered ∧ a'.rounds = a.rounds ∧
    a'.spilled = a.spilled.map ρ) p.2 p'.2

theorem alike_allocateRounds {k : Int} (hk : 0 ≤ k) (maxRounds fuel rounds : Nat) (avoid : TempSet)
    (spilled : List Temp) {c c' : Code} (h : c.Renames ρ c') :
    Alike ρ (AllocationRenames ρ) (allocateRounds k maxRounds fuel rounds avoid spilled c)
      (allocateRounds k maxRounds fuel rounds (ρ.set avoid) (spilled.map ρ) c') := by
  induction fuel generalizing rounds avoid spilled c c' with
  | zero => exact .done .error
  | succ fuel ih =>
    rw [allocateRounds, allocateRounds]
    have htry := h.tryColor k avoid
    -- Colouring does not look at the temps, so both rounds fail, or they spill the same vertices.
    generalize hcolor : c.tryColor k avoid = r at htry
    generalize c'.tryColor k (ρ.set avoid) = r' at htry
    cases htry with
    | error => exact .done .error
    | @ok p p' htry =>
      obtain ⟨g, coloring⟩ := p
      obtain ⟨g', coloring'⟩ := p'
      obtain ⟨hg, rfl⟩ : ρ.Graphs g g' ∧ coloring' = ⟨coloring.colors, coloring.spilled.map ρ⟩ := htry
      simp only [List.isEmpty_map]
      split
      · next hnone =>
        refine .done (.ok ⟨h.withColors hg coloring.colors, ?_, rfl, rfl⟩)
        exact registered_withColors hk hcolor (List.isEmpty_iff.mp hnone)
      · refine (alike_spillAll h avoid coloring.spilled).bind ?_
        rintro ⟨c₁, avoid₁⟩ ⟨c₁', avoid₁'⟩ ⟨h₁, hmade⟩
        subst hmade
        rw [← List.map_append]
        exact ih (rounds + 1) avoid₁ _ h₁

theorem alike_allocate {c c' : Code} (h : c.Renames ρ c') (k : Int) :
    Alike ρ (AllocationRenames ρ) (allocate c k) (allocate c' k) := by
  unfold allocate
  split
  · exact .done .error
  · next hk =>
    have hsize : (c'.temps.erase c'.frame.fp).size = (c.temps.erase c.frame.fp).size := by
      rw [← ρ.size_set (c.temps.erase c.frame.fp), ρ.set_erase, h.temps, h.frame]
      rfl
    rw [hsize]
    have hmin : (0 : Int) ≤ minRegisters := by decide
    exact alike_allocateRounds (by omega) _ _ 0 ∅ [] h

/-! ## §5 Functions -/

/-- Two finished functions that differ in the names of temps, none of which is left without a register. -/
structure UnitRenames (ρ : Renaming) (u u' : CompiledUnit × UnitListings) : Prop where
  code : u.1.code.Renames ρ u'.1.code
  registered : u.1.code.Registered
  rounds : u'.1.allocation.rounds = u.1.allocation.rounds
  spilled : u'.1.allocation.spilled = u.1.allocation.spilled.map ρ

theorem alike_stage (names : List String) {α β : Type} {R : α → β → Prop} {x : ExceptT Fault Drawing α}
    {x' : ExceptT Fault Drawing β} (h : Alike ρ (Outcomes R) x.run x'.run) :
    Alike ρ (Outcomes R) (stage names x).run (stage names x').run := by
  refine h.lift.bind_except fun r r' hr => ?_
  cases hr with
  | ok hab => exact .done (.ok hab)
  | error => exact .done .error

/-- **Compiling a function and compiling it under new names** go on in step, and end alike. -/
theorem alike_unit (ρ : Renaming) (o : Options) (chunk : IR.CodeChunk) :
    Alike ρ (Outcomes (UnitRenames ρ)) (unit o chunk).run (unit o (ρ.chunk chunk)).run := by
  have hselect : Alike ρ (Outcomes (Code.Renames ρ)) (select o.args chunk).run
      (select o.args (ρ.chunk chunk)).run := by
    refine (maps_selectStmts ρ o.args chunk.stmts).bind fun instrs => .done (.ok ?_)
    exact ⟨rfl, rfl, rfl, rfl, rfl, by simp, by simp⟩
  unfold unit
  refine (alike_stage _ hselect).bind_except fun code code' hcode => ?_
  extract_lets listing rest rest'
  have hrest : ∀ live live', Alike ρ (Outcomes (UnitRenames ρ)) (rest live).run (rest' live').run := by
    intro live live'
    refine (alike_allocate hcode o.registers).lift.bind_except ?_
    rintro ⟨c, r⟩ ⟨c', r'⟩ hr
    cases hr with
    | error => exact .done .error
    | ok hr =>
      obtain ⟨hrenames, hregistered, hrounds, hspilled⟩ := hr
      exact .done (.ok ⟨hrenames, hregistered, hrounds, hspilled⟩)
  -- The live sets that are listed may read differently, but they are found in both or in neither.
  split
  · rw [hcode.liveness]
    cases code.liveness with
    | error fault => exact .done .error
    | ok s => exact hrest _ _
  · exact hrest _ _

end Drawing

/-! ## §6 Texts -/

namespace Registers

variable {ρ : Renaming} {regs regs' : Registers}

/-- Two ways to show temps agree on a temp with a register and on its new name. -/
theorem name_map (h : ∀ t, regs'.colors[ρ t]? = regs.colors[t]?) {t : Temp}
    (ht : ∃ r, regs.colors[t]? = some r) : regs'.name (ρ t) = regs.name t := by
  obtain ⟨r, hr⟩ := ht
  simp only [name, h, hr]

theorem slot_map (h : ∀ t, regs'.colors[ρ t]? = regs.colors[t]?) (kind : String) {ts : List Temp}
    (hts : ∀ t ∈ ts, ∃ r, regs.colors[t]? = some r) (i : Nat) :
    regs'.slot kind (ts.map ρ) i = regs.slot kind ts i := by
  unfold slot
  rw [List.getElem?_map]
  cases ht : ts[i]? with
  | none => rfl
  | some t => exact name_map h (hts t (List.mem_of_getElem? ht))

end Registers

namespace Assembly

variable {ρ : Renaming} {regs regs' : Registers}

theorem text_map (h : ∀ t, regs'.colors[ρ t]? = regs.colors[t]?) (hwindow : regs'.window = regs.window)
    {i : Instr} (hi : ∀ t, t ∈ i.uses ∨ t ∈ i.defs → ∃ r, regs.colors[t]? = some r) :
    (ρ.instr i).text regs' = i.text regs := by
  cases i with
  | oper op uses defs jumps flow =>
    have hpiece : regs'.piece (uses.map ρ) (defs.map ρ) = regs.piece uses defs := by
      funext p
      cases p with
      | use n => exact Registers.slot_map h "s" (fun t ht => hi t (.inl ht)) n
      | define n => exact Registers.slot_map h "d" (fun t ht => hi t (.inr ht)) n
      | window => simp only [Registers.piece, hwindow]
      | char _ | malformed _ _ => rfl
    simp only [Renaming.instr, Instr.text, Registers.expand, hpiece]
  | move src dst =>
    have hsrc := Registers.name_map h (hi src (.inl (List.mem_singleton_self src)))
    have hdst := Registers.name_map h (hi dst (.inr (List.mem_singleton_self dst)))
    simp only [Renaming.instr, Instr.text, hsrc, hdst]
  | label l => rfl

theorem isIdentityMove_map {colors colors' : Std.TreeMap Temp Int} (h : ∀ t, colors'[ρ t]? = colors[t]?)
    (i : Instr) : isIdentityMove colors' (ρ.instr i) = isIdentityMove colors i := by
  cases i with
  | move src dst => simp only [Renaming.instr, isIdentityMove, h]
  | oper _ _ _ _ _ | label _ => rfl

theorem body_map (h : ∀ t, regs'.colors[ρ t]? = regs.colors[t]?) (hwindow : regs'.window = regs.window)
    (pending : List Label) {is : List Instr}
    (his : ∀ i ∈ is, ∀ t, t ∈ i.uses ∨ t ∈ i.defs → ∃ r, regs.colors[t]? = some r) :
    body regs' pending (is.map ρ.instr) = body regs pending is := by
  induction is generalizing pending with
  | nil => rfl
  | cons i is ih =>
    obtain ⟨hi, hrest⟩ := List.forall_mem_cons.mp his
    have htext := text_map h hwindow hi
    have hmove := isIdentityMove_map h i
    cases i with
    | label l => exact ih (pending ++ [l]) hrest
    | oper _ _ _ _ _ | move _ _ =>
      simp only [Renaming.instr] at htext hmove
      simp only [List.map_cons, Renaming.instr, body, htext, hmove, ih _ hrest]

/-- The lines of several functions are those of the single functions, up to the first fault. -/
theorem functions_cons (k : Int) (c : Code) (cs : List Code) : functions k (c :: cs)
    = match functions k [c] with
      | (ls, some fault) => (ls, some fault)
      | (ls, none) => (ls ++ (functions k cs).1, (functions k cs).2) := by
  simp only [functions]
  cases storeResult c with
  | error fault => rfl
  | ok store => simp

theorem functions_congr {k : Int} {cs cs' : List Code}
    (h : List.Forall₂ (fun c c' => functions k [c'] = functions k [c]) cs cs') :
    functions k cs' = functions k cs := by
  induction h with
  | nil => rfl
  | cons hc _ ih => rw [functions_cons, hc, ih, ← functions_cons]

end Assembly

variable {ρ : Renaming}

/-- **Functions that differ in the names of temps have the same text** once every temp has a register. -/
theorem Code.Renames.functions_eq {c c' : Code} (h : c.Renames ρ c') (hregs : c.Registered) (k : Int) :
    Assembly.functions k [c'] = Assembly.functions k [c] := by
  have hframe : c'.frameSize = c.frameSize := by
    rw [Code.frameSize, h.frame, h.tempSize]
    rfl
  have hprologue : Assembly.prologue c' = Assembly.prologue c := by
    simp only [Assembly.prologue, hframe, h.entry, h.frame]
    rfl
  have hepilogue : Assembly.epilogue c' = Assembly.epilogue c := by
    simp only [Assembly.epilogue, h.frame]
    rfl
  have hbody : Assembly.body { colors := c'.regs, window := k } [] c'.instrs
      = Assembly.body { colors := c.regs, window := k } [] c.instrs := by
    rw [h.instrs]
    exact @Assembly.body_map ρ ⟨c.regs, k⟩ ⟨c'.regs, k⟩ h.regs rfl [] _ fun i hi t ht =>
      hregs t ⟨i, hi, ht⟩
  have hhead : Assembly.functionHead k c' = Assembly.functionHead k c := by
    rw [Assembly.functionHead, hprologue, hbody, h.exit]
    rfl
  have hstore : Assembly.storeResult c' = Assembly.storeResult c := by
    simp only [Assembly.storeResult, h.frame, Renaming.frame, h.regs, h.spills]
  simp only [Assembly.functions, hstore, hhead, hepilogue]

end MmixBackend
