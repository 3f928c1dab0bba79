import MmixBackend.Proofs.Machine.Safety
import MmixBackend.Proofs.Register.Allocation
import MmixBackend.Proofs.Register.SlotExecution
import MmixBackend.Proofs.Instr.Refinement

/-!
# Control flow stays inside of a function

The code of a function is a list that starts with its entry label and ends with a jump to its exit
label. No other jump leaves it: all of them go to labels that stand in the list once. This is so for
the statements of a chunk, for the instructions that are selected for it, and for these after any
number of temps have been spilled.

Along the way the labels that instructions mention are kept track of. `Instr.Linked` says where they
come from: addresses and callees from the expressions, and branches from the jumps that the
instruction declares.

## Main statements

- `IR.Stmt.selectAll_keepsFlow`: selected instructions have the labels, the jumps and the references
  of their statements.
- `CodeChunk.Confined.select`: selection keeps control flow inside.
- `Code.Confined.spillAll`: so does spilling any number of temps.
- `Code.exists_spills_of_allocate`: register allocation does nothing else to the instructions.
-/

namespace MmixBackend

open IR Relation

/-! ## §1 Labels of instructions -/

namespace Instr

/-- The labels that the instructions of a list jump to, calls apart. -/
def targetsOf (is : List Instr) : List Label :=
  is.flatMap fun i => if i.flow = .call then [] else i.jumps

/-- The label in the text of an instruction is known: an address satisfies `names`, a callee satisfies
`callees`, and a branch goes where the instruction says that it jumps. -/
def Linked (names callees : Label → Prop) : Instr → Prop
  | .oper (.loadAddress l) _ _ _ _ => names l
  | .oper (.branch l) _ _ jumps flow | .oper (.goto l) _ _ jumps flow => flow ≠ .call ∧ l ∈ jumps
  | .oper (.call l) _ _ _ _ => callees l
  | .oper (.other _) _ _ _ _ => False
  | _ => True

@[simp] theorem labelsOf_nil : labelsOf [] = [] := rfl

@[simp] theorem targetsOf_nil : targetsOf [] = [] := rfl

@[simp] theorem targetsOf_append (is is' : List Instr) :
    targetsOf (is ++ is') = targetsOf is ++ targetsOf is' := by
  simp [targetsOf]

end Instr

/-! ## §2 Selection -/

/-- Instructions have the labels of the statements they were selected for, jump where these jump,
and mention labels that are known. -/
structure KeepsFlow (names callees : Label → Prop) (ss : List IR.Stmt) (is : List Instr) : Prop where
  labels : Instr.labelsOf is = Stmt.labelsOf ss
  targets : Instr.targetsOf is ⊆ Stmt.targetsOf ss
  linked : ∀ i ∈ is, i.Linked names callees

namespace KeepsFlow

variable {names callees : Label → Prop} {ss ss' : List IR.Stmt} {is is' : List Instr}

theorem nil : KeepsFlow names callees [] [] := ⟨rfl, List.Subset.refl _, by simp⟩

theorem append (h : KeepsFlow names callees ss is) (h' : KeepsFlow names callees ss' is') :
    KeepsFlow names callees (ss ++ ss') (is ++ is') where
  labels := by rw [Instr.labelsOf_append, Stmt.labelsOf_append, h.labels, h'.labels]
  targets := by
    rw [Instr.targetsOf_append, Stmt.targetsOf_append]
    apply List.append_subset.mpr
    exact ⟨List.subset_append_of_subset_left _ h.targets, List.subset_append_of_subset_right _ h'.targets⟩
  linked := List.forall_mem_append.mpr ⟨h.linked, h'.linked⟩

/-- An operation that neither jumps nor stands for a statement of its own, in front of other
instructions. -/
theorem plain {op : Opcode} {uses defs : List Temp}
    (hop : (Instr.plain op uses defs).Linked names callees) (h : KeepsFlow names callees ss is) :
    KeepsFlow names callees ss (.plain op uses defs :: is) where
  labels := h.labels
  targets := h.targets
  linked := List.forall_mem_cons.mpr ⟨hop, h.linked⟩

/-- Statements without labels and jumps. -/
theorem quiet (h : KeepsFlow names callees [] is) (hlabels : Stmt.labelsOf ss = []) :
    KeepsFlow names callees ss is where
  labels := h.labels.trans hlabels.symm
  targets := fun _ hl => (List.not_mem_nil (h.targets hl)).elim
  linked := h.linked

theorem loadConstant (dst : Temp) (v : Word) :
    KeepsFlow names callees [] (Instr.loadConstant dst v) := by
  unfold Instr.loadConstant
  induction Instr.loadedWydes v with
  | nil => exact .nil
  | cons group groups ih => exact .plain trivial ih

theorem binary {op : BinOp} {fst snd dst : Temp} (h : Instr.binary op fst snd dst = .ok is) :
    KeepsFlow names callees [] is := by
  cases op with
  | or | and | add | sub | mul | div =>
    cases h
    exact .plain trivial .nil
  | equ | neq | lth | gth | leq | geq | mod =>
    cases h
    exact .plain trivial (.plain trivial .nil)
  | unknown code => cases h

theorem storeArgument (mode : ArgPassing) (off : Word) (arg : Temp) (σ : Supply) :
    KeepsFlow names callees [] ((Instr.storeArgument mode off arg).run σ).1 := by
  unfold Instr.storeArgument
  split
  · exact .plain trivial .nil
  · exact (loadConstant _ off).append (.plain trivial (.plain trivial .nil))

theorem storeArguments (mode : ArgPassing) : ∀ (offs : List Word) (args : List Temp) (σ : Supply),
    KeepsFlow names callees [] ((Instr.storeArguments mode offs args).run σ).1
  | [], _, _ => .nil
  | _ :: _, [], _ => .nil
  | off :: offs, arg :: args, σ =>
    (storeArgument mode off arg σ).append (storeArguments mode offs args _)

theorem jump (l : Label) : KeepsFlow names callees [.jump l] [.jumpTo l] where
  labels := rfl
  targets := List.Subset.refl _
  linked := by simp [Instr.jumpTo, Instr.Linked]

theorem label (l : Label) : KeepsFlow names callees [.label l] [.label l] where
  labels := rfl
  targets := List.Subset.refl _
  linked := by simp [Instr.Linked]

/-- A branch, with or without a jump to the negative label behind it. -/
theorem branch (cond : IR.Expr) (c : Temp) (pos neg : Label) (falls : Bool) :
    KeepsFlow names callees [.cjump cond pos neg] (.oper (.branch pos) [c] [] [pos, neg] .next
      :: (if falls then [] else [.jumpTo neg])) := by
  cases falls with
  | true => exact ⟨rfl, List.Subset.refl _, by simp [Instr.Linked]⟩
  | false =>
    refine ⟨rfl, ?_, by simp [Instr.jumpTo, Instr.Linked]⟩
    show [pos, neg, neg] ⊆ [pos, neg]
    simp

end KeepsFlow

section Selection

variable {names callees : Label → Prop} (mode : ArgPassing)

mutual

/-- The instructions of an expression mention what the expression mentions, and jump nowhere. -/
theorem IR.Expr.select_keepsFlow : ∀ (e : IR.Expr), e.Runnable names callees → ∀ σ : Supply,
    Ensures (e.select mode) σ fun r _ => KeepsFlow names callees [] r.1
  | .absent, _, _ => .throw _
  | .sexpr _ _, _, _ => .throw _
  | .temp _, _, _ => .pure .nil
  | .const v, _, _ => .of_succeeds (.lift (.loadConstant _ v))
  | .name label, h, σ => by
    rw [IR.Expr.select]
    refine .bind (P := fun _ _ => True) (fun _ _ _ => trivial) fun dst σ' _ => ?_
    exact .pure (.plain h .nil)
  | .mem addr, h, σ => by
    rw [IR.Expr.select]
    refine (addr.select_keepsFlow h σ).bind fun ⟨before, a⟩ σ₁ hbefore => ?_
    refine .bind (P := fun _ _ => True) (fun _ _ _ => trivial) fun dst σ' _ => ?_
    exact .pure (hbefore.append (.plain trivial .nil))
  | .binop op fst snd, h, σ => by
    rw [IR.Expr.select]
    refine (fst.select_keepsFlow h.2.1 σ).bind fun ⟨before₁, a⟩ σ₁ hbefore₁ => ?_
    refine (snd.select_keepsFlow h.2.2 σ₁).bind fun ⟨before₂, b⟩ σ₂ hbefore₂ => ?_
    refine .bind (P := fun _ _ => True) (fun _ _ _ => trivial) fun dst σ' _ => ?_
    refine .ofExcept_bind fun is his => .pure ?_
    exact (hbefore₁.append hbefore₂).append (.binary his)
  | .unop op arg, h, σ => by
    rw [IR.Expr.select]
    refine (arg.select_keepsFlow h σ).bind fun ⟨before, a⟩ σ₁ hbefore => ?_
    refine .bind (P := fun _ _ => True) (fun _ _ _ => trivial) fun fresh σ' _ => ?_
    cases op with
    | unknown code => exact .throw _
    | neg => exact .pure (hbefore.append (.plain trivial .nil))
    | not =>
      refine .bind (P := fun _ _ => True) (fun _ _ _ => trivial) fun neg σ'' _ => ?_
      exact .pure (hbefore.append (.plain trivial (.plain trivial .nil)))
  | .call label offs args, h, σ => by
    rw [IR.Expr.select]
    split
    · exact .throw _
    · refine (Expr.selectArgs_keepsFlow args h.2 σ).bind fun ⟨before, temps⟩ σ₁ hbefore => ?_
      refine (Ensures.of_succeeds (.lift (.storeArguments mode offs temps σ₁))).bind
        fun stores σ₂ (hstores : KeepsFlow names callees [] stores) => ?_
      refine .bind (P := fun _ _ => True) (fun _ _ _ => trivial) fun result σ' _ => .pure ?_
      refine (hbefore.append hstores).append ?_
      -- A call mentions its callee, but it jumps to no label of the list.
      have hcall : KeepsFlow names callees [] [.oper (.call label) [] [] [label] .call] :=
        ⟨rfl, List.Subset.refl _, by simpa [Instr.Linked] using h.1.1⟩
      exact hcall.append (.plain trivial .nil)

theorem IR.Expr.selectArgs_keepsFlow : ∀ (es : List IR.Expr), Expr.RunnableAll names callees es →
    ∀ σ : Supply, Ensures (Expr.selectArgs mode es) σ fun r _ => KeepsFlow names callees [] r.1
  | [], _, _ => .pure .nil
  | e :: es, h, σ => by
    rw [IR.Expr.selectArgs]
    refine (e.select_keepsFlow h.1 σ).bind fun ⟨first, t⟩ σ₁ hfirst => ?_
    refine (Expr.selectArgs_keepsFlow es h.2 σ₁).bind fun ⟨rest, ts⟩ σ₂ hrest => ?_
    exact .pure (hfirst.append hrest)

end

theorem IR.Stmt.select_keepsFlow (next : List IR.Stmt) {s : IR.Stmt} (h : s.Runnable names callees)
    (hseq : ∀ ss, s ≠ .seq ss) (σ : Supply) :
    Ensures (s.select mode next) σ fun is _ => KeepsFlow names callees [s] is := by
  cases s with
  | absent => exact .throw _
  | seq ss => exact absurd rfl (hseq ss)
  | jump l => exact .pure (.jump l)
  | label l => exact .pure (.label l)
  | eval e =>
    rw [IR.Stmt.select]
    refine (e.select_keepsFlow mode h σ).bind fun ⟨is, t⟩ σ' his => ?_
    exact .pure (his.quiet rfl)
  | cjump cond pos neg =>
    rw [IR.Stmt.select]
    refine (cond.select_keepsFlow mode h σ).bind fun ⟨is, c⟩ σ' his => ?_
    exact .pure (his.append (.branch cond c pos neg _))
  | move dst src =>
    cases dst with
    | temp t =>
      rw [IR.Stmt.select]
      refine (src.select_keepsFlow mode h σ).bind fun ⟨is, v⟩ σ' his => .pure (.quiet ?_ rfl)
      have hmove : KeepsFlow names callees [] [.move v t] :=
        ⟨rfl, List.Subset.refl _, by simp [Instr.Linked]⟩
      exact his.append hmove
    | mem addr =>
      rw [IR.Stmt.select]
      refine (addr.select_keepsFlow mode h.1 σ).bind fun ⟨is₁, a⟩ σ₁ his₁ => ?_
      refine (src.select_keepsFlow mode h.2 σ₁).bind fun ⟨is₂, v⟩ σ₂ his₂ => .pure (.quiet ?_ rfl)
      exact (his₁.append his₂).append (.plain trivial .nil)
    | _ => exact .throw _

/-- **Selected instructions follow their statements**: a label at the start stays there, and a jump at the
end stays there too. -/
theorem IR.Stmt.selectAll_keepsFlow (exit : Label) : ∀ (ss : List IR.Stmt),
    (∀ s ∈ ss, s.Runnable names callees ∧ ∀ ss', s ≠ .seq ss') → ∀ σ : Supply,
    Ensures (Stmt.selectAll mode (ss ++ [.jump exit])) σ fun is _ => ∃ init,
      is = init ++ [.jumpTo exit] ∧ KeepsFlow names callees ss init ∧
        ∀ l, ss.head? = some (.label l) → init.head? = some (.label l)
  | [], _, σ => by
    refine .pure ⟨[], rfl, .nil, fun l hl => by cases hl⟩
  | s :: ss, h, σ => by
    obtain ⟨hs, hss⟩ := List.forall_mem_cons.mp h
    rw [List.cons_append, IR.Stmt.selectAll]
    have hfirst := IR.Stmt.select_keepsFlow mode (ss ++ [.jump exit]) hs.1 hs.2 σ
    have hlabel : Ensures (s.select mode (ss ++ [.jump exit])) σ fun is _ =>
        ∀ l, s = .label l → is = [.label l] := by
      cases s with
      | label l => exact .pure fun _ hl => by rw [Stmt.label.inj hl]
      | _ => exact fun _ _ _ _ hl => by cases hl
    refine (hfirst.and hlabel).bind fun first σ₁ ⟨hfirst, hlabel⟩ => ?_
    refine (IR.Stmt.selectAll_keepsFlow exit ss hss σ₁).bind fun rest σ₂ ⟨init, hrest, hinit, _⟩ => ?_
    refine .pure ⟨first ++ init, by rw [hrest, List.append_assoc], hfirst.append hinit, fun l hl => ?_⟩
    rw [hlabel l (Option.some.inj hl)]
    rfl

end Selection

/-! ## §3 Confinement -/

/-- A list of statements or instructions that control enters at its start and leaves at its end. Here
`labelsOf` gives the labels of a list and `targetsOf` the labels that it jumps to. -/
structure Confined {α : Type} (labelsOf targetsOf : List α → List Label) (mark jump : Label → α)
    (entry exit : Label) (xs : List α) : Prop where
  starts : xs.head? = some (mark entry)
  ends : ∃ init, xs = init ++ [jump exit] ∧ exit ∉ targetsOf init
  targets : ∀ l ∈ targetsOf xs, l = exit ∨ (labelsOf xs).count l = 1

/-- Control enters a chunk at its entry label and leaves it for its exit label. -/
def IR.CodeChunk.Confined (c : IR.CodeChunk) : Prop :=
  MmixBackend.Confined Stmt.labelsOf Stmt.targetsOf .label .jump c.entry c.exit c.stmts

/-- Control enters code at its entry label and leaves it for its exit label. -/
def Code.Confined (c : Code) : Prop :=
  MmixBackend.Confined Instr.labelsOf Instr.targetsOf .label .jumpTo c.entry c.exit c.instrs

/-- **Selection keeps control flow inside.** -/
theorem IR.CodeChunk.Confined.select {names callees : Label → Prop} {chunk : IR.CodeChunk}
    (h : chunk.Confined) (hstmts : ∀ s ∈ chunk.stmts, s.Runnable names callees ∧ ∀ ss, s ≠ .seq ss)
    (mode : ArgPassing) (σ : Supply) :
    Ensures (chunk.select mode) σ fun c _ => c.frame = chunk.frame ∧ c.entry = chunk.entry ∧
      c.exit = chunk.exit ∧ c.Confined ∧ Instr.labelsOf c.instrs = Stmt.labelsOf chunk.stmts ∧
      ∀ i ∈ c.instrs, i.Linked names callees := by
  obtain ⟨hstarts, ⟨ss, hss, hexit⟩, htargets⟩ := h
  rw [hss] at hstarts htargets hstmts
  -- The jump to the exit is not the first statement, so the entry label is one of the others.
  have hhead : ss.head? = some (.label chunk.entry) := by
    cases ss with
    | nil => cases hstarts
    | cons s ss => exact hstarts
  unfold IR.CodeChunk.select
  rw [hss]
  refine (IR.Stmt.selectAll_keepsFlow mode chunk.exit ss
    (fun s hs => hstmts s (List.mem_append_left _ hs)) σ).bind fun is σ' ⟨init, his, hinit, hlabel⟩ => ?_
  have hall : KeepsFlow names callees (ss ++ [.jump chunk.exit]) (init ++ [.jumpTo chunk.exit]) :=
    hinit.append (.jump chunk.exit)
  subst his
  refine .pure ⟨rfl, rfl, rfl, ⟨?_, ⟨init, rfl, fun hl => hexit (hinit.targets hl)⟩, fun l hl => ?_⟩,
    hall.labels, hall.linked⟩
  · rw [List.head?_append, hlabel _ hhead]
    rfl
  · rw [hall.labels]
    exact htargets l (hall.targets hl)

/-! ## §4 Spilling -/

namespace Instr

/-- Instructions with the same labels and jumps, which mention labels that are known if the old ones
do. -/
structure SameLabels (names callees : Label → Prop) (is is' : List Instr) : Prop where
  labels : labelsOf is' = labelsOf is
  targets : targetsOf is' = targetsOf is
  linked : (∀ i ∈ is, i.Linked names callees) → ∀ i ∈ is', i.Linked names callees

namespace SameLabels

variable {names callees : Label → Prop} {is is' js js' : List Instr}

theorem refl (is : List Instr) : SameLabels names callees is is := ⟨rfl, rfl, id⟩

theorem trans (h : SameLabels names callees is is') (h' : SameLabels names callees is' js) :
    SameLabels names callees is js :=
  ⟨h'.labels.trans h.labels, h'.targets.trans h.targets, fun hlinked => h'.linked (h.linked hlinked)⟩

theorem append (h : SameLabels names callees is is') (h' : SameLabels names callees js js') :
    SameLabels names callees (is ++ js) (is' ++ js') where
  labels := by rw [labelsOf_append, labelsOf_append, h.labels, h'.labels]
  targets := by rw [targetsOf_append, targetsOf_append, h.targets, h'.targets]
  linked hlinked := by
    obtain ⟨hlinked, hlinked'⟩ := List.forall_mem_append.mp hlinked
    exact List.forall_mem_append.mpr ⟨h.linked hlinked, h'.linked hlinked'⟩

theorem rename (i : Instr) (old new : Temp) : SameLabels names callees [i] [i.rename old new] := by
  cases i with
  | oper op uses defs jumps flow => cases op <;> exact ⟨rfl, rfl, by simp [Instr.rename, Linked]⟩
  | _ => exact ⟨rfl, rfl, by simp [Instr.rename, Linked]⟩

/-- What has neither labels nor jumps may be added anywhere. -/
theorem of_keepsFlow (h : KeepsFlow names callees [] is) : SameLabels names callees [] is :=
  ⟨h.labels, List.subset_nil.mp h.targets, fun _ => h.linked⟩

/-- A renamed instruction between others that have neither labels nor jumps. -/
theorem between {loads stores : List Instr} (hloads : KeepsFlow names callees [] loads)
    (hstores : KeepsFlow names callees [] stores) (i : Instr) (old new : Temp) :
    SameLabels names callees [i] (loads ++ i.rename old new :: stores) :=
  (of_keepsFlow hloads).append ((rename i old new).append (of_keepsFlow hstores))

end SameLabels

end Instr

section Spilling

variable {names callees : Label → Prop} {fp t : Temp} {offset : Word}

theorem KeepsFlow.loadSlot (value off : Temp) :
    KeepsFlow names callees [] (Instr.loadSlot fp offset value off) :=
  (loadConstant off offset).append (.plain trivial .nil)

theorem KeepsFlow.storeSlot (value off : Temp) :
    KeepsFlow names callees [] (Instr.storeSlot fp offset value off) :=
  (loadConstant off offset).append (.plain trivial .nil)

/-- Spilling a temp in one instruction changes neither its label nor its jumps nor what it mentions. -/
theorem Instr.SameLabels.spilled (i : Instr) (n : Int) :
    SameLabels names callees [i] (i.spilled fp t offset n).instrs := by
  unfold Instr.spilled
  by_cases hu : t ∈ i.uses
  · by_cases hd : t ∈ i.defs
    · simp only [if_pos hu, if_pos hd]
      exact between (.loadSlot _ _) (.storeSlot _ _) i t _
    · simp only [if_pos hu, if_neg hd]
      exact between (.loadSlot _ _) .nil i t _
  · by_cases hd : t ∈ i.defs
    · simp only [if_neg hu, if_pos hd]
      exact between .nil (.storeSlot _ _) i t _
    · simp only [if_neg hu, if_neg hd]
      exact refl [i]

/-- The same for a list of instructions. -/
theorem Instr.SameLabels.spillList (is : List Instr) (n : Int) :
    SameLabels names callees is (spillList fp t offset is n).instrs := by
  induction is generalizing n with
  | nil => exact refl []
  | cons i is ih => exact (spilled i n).append (ih (i.spilled fp t offset n).next)

end Spilling

/-- The code `c'` is `c` with one more temp in a slot, whatever the temp and the supply. -/
def Code.SpillsTo (c c' : Code) : Prop := ∃ t σ, c' = ((c.spill t).run σ).1.1

/-- Spilling a temp keeps the labels and the jumps of code, and what it mentions. -/
theorem Code.SpillsTo.sameLabels {c c' : Code} (h : c.SpillsTo c') (names callees : Label → Prop) :
    Instr.SameLabels names callees c.instrs c'.instrs := by
  obtain ⟨t, ⟨n, l⟩, rfl⟩ := h
  rw [Code.run_spill]
  exact .spillList c.instrs n

/-- **Spilling keeps control flow inside.** -/
theorem Code.Confined.spill {c c' : Code} (h : c.Confined) (hspill : c.SpillsTo c') : c'.Confined := by
  have hsame := hspill.sameLabels (fun _ => True) fun _ => True
  obtain ⟨t, ⟨n, l⟩, rfl⟩ := hspill
  rw [Code.run_spill] at hsame ⊢
  obtain ⟨hstarts, ⟨init, hinit, hexit⟩, htargets⟩ := h
  refine ⟨Instr.head?_spillList hstarts, ?_, fun l' hl' => ?_⟩
  · refine ⟨(Instr.spillList c.frame.fp t c.nextSlot init n).instrs, ?_, ?_⟩
    · show (Instr.spillList c.frame.fp t c.nextSlot c.instrs n).instrs = _
      rw [hinit, (Execution.spillList_append ..).1]
      simp [Instr.spillList, Instr.spilled, Instr.jumpTo, Instr.uses, Instr.defs, Instr.Spilled.instrs,
        Code.spilled]
    · have hsame' : Instr.SameLabels (fun _ => True) (fun _ => True) init
          (Instr.spillList c.frame.fp t c.nextSlot init n).instrs := .spillList init n
      rw [hsame'.targets]
      exact hexit
  · rw [hsame.targets] at hl'
    rw [hsame.labels]
    exact htargets l' hl'

/-- **Spilling any number of temps keeps control flow inside.** -/
theorem Code.Confined.spillAll {c c' : Code} (h : c.Confined)
    (hspills : ReflTransGen Code.SpillsTo c c') :
    c'.Confined := by
  induction hspills with
  | refl => exact h
  | tail _ hspill ih => exact ih.spill hspill

/-- What spills leave alone: the labels around the code and, with its jumps, those in it. -/
theorem Code.kept_of_spills {c c' : Code} (hspills : ReflTransGen Code.SpillsTo c c')
    (names callees : Label → Prop) : c'.frame = c.frame ∧ c'.entry = c.entry ∧ c'.exit = c.exit ∧
      Instr.SameLabels names callees c.instrs c'.instrs := by
  induction hspills with
  | refl => exact ⟨rfl, rfl, rfl, .refl _⟩
  | tail _ hspill ih =>
    have hsame := hspill.sameLabels names callees
    obtain ⟨t, σ, rfl⟩ := hspill
    exact ⟨ih.1, ih.2.1, ih.2.2.1, ih.2.2.2.trans hsame⟩

/-- **What allocation returns** is the code after some spills, with registers. -/
theorem Code.exists_spills_of_allocate {c c' : Code} {k : Int} {σ σ' : Supply} {a : Allocation}
    (hrun : (c.allocate k).run σ = ((c', .ok a), σ')) :
    ∃ c₀ g colors, ReflTransGen Code.SpillsTo c c₀ ∧ c' = c₀.withColors g colors := by
  obtain ⟨-, -, maxRounds, hrounds⟩ := allocate_eq_ok hrun
  obtain ⟨c₀, -, g, coloring, hc₀, -, -, rfl⟩ :=
    allocateRounds_induct (P := fun c₀ _ => ReflTransGen Code.SpillsTo c c₀)
      (fun c₁ σ₁ t _ h => ⟨h.tail ⟨t, σ₁, rfl⟩, rfl⟩) .refl hrounds
  exact ⟨c₀, g, coloring.colors, hc₀, rfl⟩

end MmixBackend
