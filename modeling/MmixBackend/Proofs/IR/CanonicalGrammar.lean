import MmixBackend.Proofs.IR.CanonicalForm
import MmixBackend.Proofs.IR.Printing

/-!
# The grammar of canonical code

Canonicalization fails on exactly the defective trees: those in which something is missing or a move
goes to something that is neither a temp nor a memory location. The first defect decides how it
fails: it reports a fault, or it crashes over a destination that cannot be printed. What it makes of
any other tree is canonical code, in which every statement is of one of a few shapes, and the labels
and jumps of the tree come in their order. Instructions can be selected for canonical code as long
as its operators are known and its calls have as many offsets as arguments.

Nothing is assumed of the tree otherwise. Its jumps may go anywhere, and its temps may have any number.

## Main statements

- `Stmt.canonical_ensures`: what a successful canonicalization says about the tree and its result.
- `Stmt.canonical_meets`: canonicalization fails with the fault of the first defect, if there is one.
- `Stmt.Canonical.selectAll_accepts`: canonical code is selected in both modes of passing arguments.
- `Stmt.canonical_grammar`: all of this for any statement.
-/

namespace MmixBackend.IR

/-! ## §1 Defects, shapes and controls -/

mutual

/-- Something in the expression is missing, or a move in it goes to something that is neither a temp nor a
memory location. -/
def Expr.Defective : Expr → Prop
  | .absent => True
  | .const _ | .temp _ | .name _ => False
  | .mem addr => addr.Defective
  | .binop _ fst snd => fst.Defective ∨ snd.Defective
  | .unop _ arg => arg.Defective
  | .call _ _ args => Expr.AnyDefective args
  | .sexpr stmt value => stmt.Defective ∨ value.Defective

/-- The same for some expression of a list. -/
def Expr.AnyDefective : List Expr → Prop
  | [] => False
  | e :: es => e.Defective ∨ Expr.AnyDefective es

/-- The same for a statement. -/
def Stmt.Defective : Stmt → Prop
  | .absent => True
  | .jump _ | .label _ => False
  | .eval e => e.Defective
  | .cjump cond _ _ => cond.Defective
  | .move dst src =>
    ((∀ t, dst ≠ .temp t) ∧ ∀ addr, dst ≠ .mem addr) ∨ dst.Defective ∨ src.Defective
  | .seq stmts => Stmt.AnyDefective stmts

/-- The same for some statement of a list. -/
def Stmt.AnyDefective : List Stmt → Prop
  | [] => False
  | s :: ss => s.Defective ∨ Stmt.AnyDefective ss

end

mutual

/-- The fault of the first defect in the expression, in the order of canonicalization. -/
def Expr.firstFault? : Expr → Option Fault
  | .absent => some .absentExpression
  | .const _ | .temp _ | .name _ => none
  | .mem addr => addr.firstFault?
  | .binop _ fst snd => fst.firstFault? <|> snd.firstFault?
  | .unop _ arg => arg.firstFault?
  | .call _ _ args => Expr.firstFaultOf? args
  | .sexpr stmt value => stmt.firstFault? <|> value.firstFault?

/-- The same for the expressions of a list. -/
def Expr.firstFaultOf? : List Expr → Option Fault
  | [] => none
  | e :: es => e.firstFault? <|> Expr.firstFaultOf? es

/-- The same for a statement. A destination is looked at before the source. -/
def Stmt.firstFault? : Stmt → Option Fault
  | .absent => some .absentStatement
  | .jump _ | .label _ => none
  | .eval e => e.firstFault?
  | .cjump cond _ _ => cond.firstFault?
  | .move (.mem addr) src => addr.firstFault? <|> src.firstFault?
  | .move (.temp _) src => src.firstFault?
  | .move dst _ => some dst.moveFault
  | .seq stmts => Stmt.firstFaultOf? stmts

/-- The same for the statements of a list. -/
def Stmt.firstFaultOf? : List Stmt → Option Fault
  | [] => none
  | s :: ss => s.firstFault? <|> Stmt.firstFaultOf? ss

end

/-- The source of a canonical move: an operand, an operator between two temps, or a call whose
arguments are temps. -/
def Expr.IsSource : Expr → Prop
  | .binop _ (.temp _) (.temp _) => True
  | .call _ _ args => ∀ e ∈ args, ∃ t, e = .temp t
  | e => e.IsOperand

/-- The statements of canonical code: labels and jumps, branches on operands, operands evaluated for
nothing, and moves to a temp or to the address in a temp. -/
def Stmt.Canonical : Stmt → Prop
  | .label _ | .jump _ => True
  | .cjump cond _ _ => cond.IsOperand
  | .eval e => e.IsOperand
  | .move (.temp _) src => src.IsSource
  | .move (.mem (.temp _)) src => src.IsSource
  | _ => False

/-- What makes control leave or join the statements in their order. -/
inductive Control where
  | label (l : Label)
  | jump (l : Label)
  | branch (pos neg : Label)
  deriving DecidableEq

mutual

/-- The labels and jumps of an expression in the order of the source. -/
def Expr.controls : Expr → List Control
  | .absent | .const _ | .temp _ | .name _ => []
  | .mem addr => addr.controls
  | .binop _ fst snd => fst.controls ++ snd.controls
  | .unop _ arg => arg.controls
  | .call _ _ args => Expr.controlsAll args
  | .sexpr stmt value => stmt.controls ++ value.controls

/-- The same for the expressions of a list. -/
def Expr.controlsAll : List Expr → List Control
  | [] => []
  | e :: es => e.controls ++ Expr.controlsAll es

/-- The same for a statement; a branch comes behind its condition. -/
def Stmt.controls : Stmt → List Control
  | .absent => []
  | .eval e => e.controls
  | .move dst src => dst.controls ++ src.controls
  | .cjump cond pos neg => cond.controls ++ [.branch pos neg]
  | .jump l => [.jump l]
  | .label l => [.label l]
  | .seq stmts => Stmt.controlsAll stmts

/-- The same for the statements of a list. -/
def Stmt.controlsAll : List Stmt → List Control
  | [] => []
  | s :: ss => s.controls ++ Stmt.controlsAll ss

end

@[simp] theorem Stmt.controlsAll_append (ss ss' : List Stmt) :
    Stmt.controlsAll (ss ++ ss') = Stmt.controlsAll ss ++ Stmt.controlsAll ss' := by
  induction ss with
  | nil => rfl
  | cons s ss ih => simp [Stmt.controlsAll, ih]

theorem Expr.IsOperand.isSource {e : Expr} (h : e.IsOperand) : e.IsSource := by
  cases e with
  | binop | call => exact h.elim
  | _ => exact h

@[simp] theorem Expr.IsOperand.controls_eq : ∀ {e : Expr}, e.IsOperand → e.controls = []
  | .const _, _ | .temp _, _ | .name _, _ => rfl
  | .mem addr, h => Expr.IsOperand.controls_eq (e := addr) h
  | .unop _ arg, h => Expr.IsOperand.controls_eq (e := arg) h

theorem Expr.controlsAll_temps {es : List Expr} (h : ∀ e ∈ es, ∃ t, e = .temp t) :
    Expr.controlsAll es = [] := by
  induction es with
  | nil => rfl
  | cons e es ih =>
    obtain ⟨⟨t, rfl⟩, hes⟩ := List.forall_mem_cons.mp h
    simp [Expr.controlsAll, Expr.controls, ih hes]

/-! ## §2 What canonicalization returns -/

/-- What the canonicalization of an expression comes to. -/
structure Expr.Becomes (e : Expr) (r : List Stmt × Expr) : Prop where
  whole : ¬e.Defective
  canonical : ∀ s ∈ r.1, s.Canonical
  operand : r.2.IsOperand
  controls : Stmt.controlsAll r.1 = e.controls
  regular : e.Regular → (∀ s ∈ r.1, s.Regular) ∧ r.2.Regular

/-- What the canonicalization of arguments comes to. -/
structure Expr.BecomeAll (es : List Expr) (r : List Stmt × List Expr) : Prop where
  whole : ¬Expr.AnyDefective es
  canonical : ∀ s ∈ r.1, s.Canonical
  temps : ∀ e ∈ r.2, ∃ t, e = .temp t
  length : r.2.length = es.length
  controls : Stmt.controlsAll r.1 = Expr.controlsAll es
  regular : Expr.RegularAll es → ∀ s ∈ r.1, s.Regular

/-- What the canonicalization of a statement comes to. -/
structure Stmt.Becomes (s : Stmt) (ss : List Stmt) : Prop where
  whole : ¬s.Defective
  canonical : ∀ s' ∈ ss, s'.Canonical
  controls : Stmt.controlsAll ss = s.controls
  regular : s.Regular → ∀ s' ∈ ss, s'.Regular

/-- What the canonicalization of the statements of a list comes to. -/
structure Stmt.BecomeAll (ss : List Stmt) (r : List Stmt) : Prop where
  whole : ¬Stmt.AnyDefective ss
  canonical : ∀ s ∈ r, s.Canonical
  controls : Stmt.controlsAll r = Stmt.controlsAll ss
  regular : Stmt.RegularAll ss → ∀ s ∈ r, s.Regular

theorem materialize_ensures (e : Expr) (σ : Supply) :
    Ensures (liftM (materialize e) : Fresh (Stmt × Expr)) σ fun r _ =>
      ∃ n, r = (moveInto n e, .temp ⟨n⟩) :=
  fun _ _ hrun => ⟨_, (eq_of_run_materialize hrun).1⟩

/-- An expression that needs no statements becomes itself. -/
theorem Expr.IsOperand.becomes {e : Expr} (h : e.IsOperand) (hwhole : ¬e.Defective) :
    e.Becomes ([], e) where
  whole := hwhole
  canonical := by simp
  operand := h
  controls := by simp [Stmt.controlsAll, h.controls_eq]
  regular hr := ⟨by simp, hr⟩

theorem Stmt.controls_moveInto {e : Expr} (h : e.controls = []) (n : Int) :
    (moveInto n e).controls = [] := by
  simp [moveInto, Stmt.controls, Expr.controls, h]

theorem Stmt.regular_moveInto {e : Expr} (h : e.Regular) (n : Int) :
    (moveInto n e).Regular := ⟨trivial, h⟩

theorem Expr.regularAll_temps {es : List Expr} (h : ∀ e ∈ es, ∃ t, e = .temp t) : Expr.RegularAll es := by
  induction es with
  | nil => trivial
  | cons e es ih =>
    obtain ⟨⟨t, rfl⟩, hes⟩ := List.forall_mem_cons.mp h
    exact ⟨trivial, ih hes⟩

mutual

/-- **What a successful canonicalization says about an expression.** -/
theorem Expr.canonical_ensures : ∀ (e : Expr) (σ : Supply), Ensures e.canonical σ fun r _ => e.Becomes r
  | .absent, _ => .throw _
  | .const v, _ => .pure (Expr.IsOperand.becomes (e := .const v) trivial id)
  | .name l, _ => .pure (Expr.IsOperand.becomes (e := .name l) trivial id)
  | .temp t, _ => .pure (Expr.IsOperand.becomes (e := .temp t) trivial id)
  | .mem addr, σ => by
    -- The access stays in place around what is left of its address.
    rw [Expr.canonical]
    refine (addr.canonical_ensures σ).bind fun r _ h => .pure ?_
    exact ⟨h.whole, h.canonical, h.operand, h.controls, h.regular⟩
  | .unop op arg, σ => by
    rw [Expr.canonical]
    refine (arg.canonical_ensures σ).bind fun r _ h => .pure ?_
    exact ⟨h.whole, h.canonical, h.operand, h.controls,
      fun hr => ⟨(h.regular hr.2).1, hr.1, (h.regular hr.2).2⟩⟩
  | .binop op fst snd, σ => by
    rw [Expr.canonical]
    -- Each operand is moved into a temp as soon as it has been computed, and then the result is.
    refine (fst.canonical_ensures σ).bind fun r₁ σ₁ h₁ => ?_
    refine (materialize_ensures r₁.2 σ₁).bind fun _ σ₂ ⟨n₁, hm₁⟩ => ?_
    refine (snd.canonical_ensures σ₂).bind fun r₂ σ₃ h₂ => ?_
    refine (materialize_ensures r₂.2 σ₃).bind fun _ σ₄ ⟨n₂, hm₂⟩ => ?_
    subst hm₁ hm₂
    refine (materialize_ensures _ σ₄).bind fun _ _ ⟨n, hm⟩ => ?_
    subst hm
    -- The operator itself stands between two temps, so it is a source.
    have hop : (Expr.binop op (.temp ⟨n₁⟩) (.temp ⟨n₂⟩)).IsSource := trivial
    apply Ensures.pure
    constructor
    · exact not_or.mpr ⟨h₁.whole, h₂.whole⟩
    · simp only [List.forall_mem_append, List.forall_mem_cons]
      exact ⟨⟨h₁.canonical, h₁.operand.isSource, h₂.canonical⟩, h₂.operand.isSource, hop, by simp⟩
    · trivial
    · simp [Stmt.controlsAll, Stmt.controls_moveInto, h₁.operand, h₂.operand, h₁.controls, h₂.controls,
        Expr.controls]
    · rintro ⟨hknown, hr₁, hr₂⟩
      simp only [List.forall_mem_append, List.forall_mem_cons]
      obtain ⟨hs₁, hv₁⟩ := h₁.regular hr₁
      obtain ⟨hs₂, hv₂⟩ := h₂.regular hr₂
      have hrop : (Expr.binop op (.temp ⟨n₁⟩) (.temp ⟨n₂⟩)).Regular := ⟨hknown, trivial, trivial⟩
      exact ⟨⟨⟨hs₁, Stmt.regular_moveInto hv₁ _, hs₂⟩, Stmt.regular_moveInto hv₂ _,
        Stmt.regular_moveInto hrop _, by simp⟩, trivial⟩
  | .call l offs args, σ => by
    rw [Expr.canonical]
    refine (Expr.canonicalArgs_ensures args σ).bind fun r σ₁ h => ?_
    refine (materialize_ensures _ σ₁).bind fun _ _ ⟨n, hm⟩ => ?_
    subst hm
    apply Ensures.pure
    -- The arguments have become temps, so the call as a whole can be the source of a move.
    constructor
    · exact h.whole
    · simp only [List.forall_mem_append, List.forall_mem_singleton]
      exact ⟨h.canonical, h.temps⟩
    · trivial
    · simp [Stmt.controlsAll, Stmt.controls_moveInto, Expr.controls, Expr.controlsAll_temps h.temps,
        h.controls]
    · rintro ⟨hlength, hr⟩
      simp only [List.forall_mem_append, List.forall_mem_singleton]
      have hcall : (Expr.call l offs r.2).Regular :=
        ⟨hlength.trans h.length.symm, Expr.regularAll_temps h.temps⟩
      exact ⟨⟨h.regular hr, Stmt.regular_moveInto hcall _⟩, trivial⟩
  | .sexpr stmt value, σ => by
    rw [Expr.canonical]
    refine (stmt.canonical_ensures σ).bind fun before σ₁ h₁ => ?_
    refine (value.canonical_ensures σ₁).bind fun r _ h₂ => .pure ?_
    -- The statement goes in front of what the value needs, and disappears from the value.
    constructor
    · exact not_or.mpr ⟨h₁.whole, h₂.whole⟩
    · exact List.forall_mem_append.mpr ⟨h₁.canonical, h₂.canonical⟩
    · exact h₂.operand
    · simp [h₁.controls, h₂.controls, Expr.controls]
    · rintro ⟨hr₁, hr₂⟩
      obtain ⟨hs₂, hv₂⟩ := h₂.regular hr₂
      exact ⟨List.forall_mem_append.mpr ⟨h₁.regular hr₁, hs₂⟩, hv₂⟩

theorem Expr.canonicalArgs_ensures : ∀ (es : List Expr) (σ : Supply),
    Ensures (Expr.canonicalArgs es) σ fun r _ => Expr.BecomeAll es r
  | [], _ => .pure
    { whole := id, canonical := by simp, temps := by simp, length := rfl, controls := rfl,
      regular := by simp }
  | e :: es, σ => by
    rw [Expr.canonicalArgs]
    refine (e.canonical_ensures σ).bind fun r₁ σ₁ h₁ => ?_
    refine (materialize_ensures r₁.2 σ₁).bind fun _ σ₂ ⟨n, hm⟩ => ?_
    subst hm
    refine (Expr.canonicalArgs_ensures es σ₂).bind fun r₂ _ h₂ => .pure ?_
    constructor
    · exact not_or.mpr ⟨h₁.whole, h₂.whole⟩
    · simp only [List.forall_mem_append, List.forall_mem_cons]
      exact ⟨h₁.canonical, h₁.operand.isSource, h₂.canonical⟩
    · exact List.forall_mem_cons.mpr ⟨⟨_, rfl⟩, h₂.temps⟩
    · simp [h₂.length]
    · simp [Stmt.controlsAll, Stmt.controls_moveInto, h₁.operand, h₁.controls, h₂.controls,
        Expr.controlsAll]
    · rintro ⟨hr₁, hr₂⟩
      obtain ⟨hs₁, hv₁⟩ := h₁.regular hr₁
      simp only [List.forall_mem_append, List.forall_mem_cons]
      exact ⟨hs₁, Stmt.regular_moveInto hv₁ _, h₂.regular hr₂⟩

/-- **What a successful canonicalization says about a statement.** -/
theorem Stmt.canonical_ensures : ∀ (s : Stmt) (σ : Supply), Ensures s.canonical σ fun ss _ => s.Becomes ss
  | .absent, _ => .throw _
  | .jump l, _ => .pure ⟨id, by simp [Stmt.Canonical], rfl, fun hr => List.forall_mem_singleton.mpr hr⟩
  | .label l, _ => .pure ⟨id, by simp [Stmt.Canonical], rfl, fun hr => List.forall_mem_singleton.mpr hr⟩
  | .eval e, σ => by
    rw [Stmt.canonical]
    refine (e.canonical_ensures σ).bind fun r _ h => .pure ?_
    constructor
    · exact h.whole
    · exact List.forall_mem_append.mpr ⟨h.canonical, List.forall_mem_singleton.mpr h.operand⟩
    · simp [Stmt.controlsAll, Stmt.controls, h.operand, h.controls]
    · intro hr
      exact List.forall_mem_append.mpr ⟨(h.regular hr).1, List.forall_mem_singleton.mpr (h.regular hr).2⟩
  | .cjump cond pos neg, σ => by
    rw [Stmt.canonical]
    refine (cond.canonical_ensures σ).bind fun r _ h => .pure ?_
    constructor
    · exact h.whole
    · exact List.forall_mem_append.mpr ⟨h.canonical, List.forall_mem_singleton.mpr h.operand⟩
    · simp [Stmt.controlsAll, Stmt.controls, h.operand, h.controls]
    · intro hr
      exact List.forall_mem_append.mpr ⟨(h.regular hr).1, List.forall_mem_singleton.mpr (h.regular hr).2⟩
  | .move (.mem addr) src, σ => by
    rw [Stmt.canonical]
    -- The address is fixed in a temp before the source is computed.
    refine (addr.canonical_ensures σ).bind fun r₁ σ₁ h₁ => ?_
    refine (materialize_ensures r₁.2 σ₁).bind fun _ σ₂ ⟨n, hm⟩ => ?_
    subst hm
    refine (src.canonical_ensures σ₂).bind fun r₂ _ h₂ => .pure ?_
    constructor
    -- A defect would be one of the address, of the source or of the destination itself.
    · rintro (hdst | hdst | hsrc)
      · exact hdst.2 addr rfl
      · exact h₁.whole hdst
      · exact h₂.whole hsrc
    · simp only [List.forall_mem_append, List.forall_mem_cons]
      exact ⟨⟨h₁.canonical, h₁.operand.isSource, h₂.canonical⟩, h₂.operand.isSource, by simp⟩
    · simp [Stmt.controlsAll, Stmt.controls_moveInto, Stmt.controls, Expr.controls,
        h₁.operand, h₂.operand,
        h₁.controls, h₂.controls]
    · rintro ⟨hr₁, hr₂⟩
      obtain ⟨hs₁, hv₁⟩ := h₁.regular hr₁
      obtain ⟨hs₂, hv₂⟩ := h₂.regular hr₂
      simp only [List.forall_mem_append, List.forall_mem_cons]
      exact ⟨⟨hs₁, Stmt.regular_moveInto hv₁ _, hs₂⟩, ⟨trivial, hv₂⟩, by simp⟩
  | .move (.temp t) src, σ => by
    rw [Stmt.canonical]
    refine (src.canonical_ensures σ).bind fun r _ h => .pure ?_
    constructor
    · rintro (hdst | hdst | hsrc)
      · exact hdst.1 t rfl
      · exact hdst
      · exact h.whole hsrc
    · exact List.forall_mem_append.mpr ⟨h.canonical, List.forall_mem_singleton.mpr h.operand.isSource⟩
    · simp [Stmt.controlsAll, Stmt.controls, Expr.controls, h.operand, h.controls]
    · rintro ⟨-, hr⟩
      exact List.forall_mem_append.mpr ⟨(h.regular hr).1,
        List.forall_mem_singleton.mpr ⟨trivial, (h.regular hr).2⟩⟩
  | .move .absent _, _ | .move (.const _) _, _ | .move (.name _) _, _ | .move (.binop _ _ _) _, _
  | .move (.unop _ _) _, _ | .move (.call _ _ _) _, _ | .move (.sexpr _ _) _, _ => .throw _
  | .seq stmts, σ => by
    -- A sequence disappears: its statements follow each other in the list.
    rw [Stmt.canonical]
    refine (Stmt.canonicalAll_ensures stmts σ).imp fun ss _ h => ?_
    exact ⟨h.whole, h.canonical, h.controls, h.regular⟩

theorem Stmt.canonicalAll_ensures : ∀ (stmts : List Stmt) (σ : Supply),
    Ensures (Stmt.canonicalAll stmts) σ fun ss _ => Stmt.BecomeAll stmts ss
  | [], _ => .pure ⟨id, by simp, rfl, by simp⟩
  | s :: stmts, σ => by
    rw [Stmt.canonicalAll]
    refine (s.canonical_ensures σ).bind fun first σ₁ h₁ => ?_
    refine (Stmt.canonicalAll_ensures stmts σ₁).bind fun rest _ h₂ => .pure ?_
    constructor
    · exact not_or.mpr ⟨h₁.whole, h₂.whole⟩
    · exact List.forall_mem_append.mpr ⟨h₁.canonical, h₂.canonical⟩
    · simp [Stmt.controlsAll, h₁.controls, h₂.controls]
    · exact fun hr => List.forall_mem_append.mpr ⟨h₁.regular hr.1, h₂.regular hr.2⟩

end

/-! ## §3 How canonicalization fails -/

/-- From the state `σ` the pass stops with the fault, if one is given, and has a result otherwise. -/
def Meets {α : Type} (x : Fresh α) (σ : Supply) : Option Fault → Prop
  | none => Succeeds x σ fun _ _ => True
  | some fault => ∃ σ', x.run.run σ = (.error fault, σ')

namespace Meets

variable {α β : Type} {x : Fresh α} {σ : Supply} {first rest : Option Fault}

/-- The fault of two passes is that of the first one, or else that of the second one. -/
theorem bind {f : α → Fresh β} (hx : Meets x σ first) (hf : ∀ a σ', Meets (f a) σ' rest) :
    Meets (x >>= f) σ (first <|> rest) := by
  cases first with
  | some fault =>
    obtain ⟨σ', hrun⟩ := hx
    exact ⟨σ', run_bind_error hrun⟩
  | none =>
    obtain ⟨a, σ', hrun, -⟩ := hx
    have hrest : Meets (f a) σ' rest := hf a σ'
    show Meets (x >>= f) σ rest
    cases rest with
    | some fault =>
      obtain ⟨σ'', hrun'⟩ := hrest
      exact ⟨σ'', (run_bind_ok hrun).trans hrun'⟩
    | none =>
      obtain ⟨b, σ'', hrun', -⟩ := hrest
      exact ⟨b, σ'', (run_bind_ok hrun).trans hrun', trivial⟩

/-- The second pass does not fail. -/
theorem bind_of_succeeds {f : α → Fresh β} (hx : Meets x σ first) (hf : ∀ a σ', Meets (f a) σ' none) :
    Meets (x >>= f) σ first := by
  have h := hx.bind hf
  rwa [Option.orElse_eq_orElse, Option.orElse_eq_or, Option.or_none] at h

/-- The first pass does not fail. -/
theorem bind_of_succeeded {f : α → Fresh β} (hx : Meets x σ none) (hf : ∀ a σ', Meets (f a) σ' rest) :
    Meets (x >>= f) σ rest :=
  hx.bind hf

theorem pure (a : α) : Meets (Pure.pure a : Fresh α) σ none := Succeeds.pure trivial

theorem materialize (e : Expr) : Meets (liftM (IR.materialize e) : Fresh (Stmt × Expr)) σ none :=
    Succeeds.lift trivial

end Meets

mutual

/-- **An expression is made canonical up to its first defect.** -/
theorem Expr.canonical_meets : ∀ (e : Expr) (σ : Supply), Meets e.canonical σ e.firstFault?
  | .absent, σ => ⟨σ, rfl⟩
  | .const _, _ | .name _, _ | .temp _, _ => .pure _
  | .mem addr, σ => by
    rw [Expr.canonical]
    exact (addr.canonical_meets σ).bind_of_succeeds fun _ _ => .pure _
  | .unop _ arg, σ => by
    rw [Expr.canonical]
    exact (arg.canonical_meets σ).bind_of_succeeds fun _ _ => .pure _
  | .binop _ fst snd, σ => by
    rw [Expr.canonical]
    refine (fst.canonical_meets σ).bind fun _ _ => (Meets.materialize _).bind_of_succeeded fun _ σ' => ?_
    refine (snd.canonical_meets σ').bind_of_succeeds fun _ _ =>
      (Meets.materialize _).bind_of_succeeded fun _ _ => ?_
    exact (Meets.materialize _).bind_of_succeeded fun _ _ => .pure _
  | .call _ _ args, σ => by
    rw [Expr.canonical]
    refine (Expr.canonicalArgs_meets args σ).bind_of_succeeds fun _ _ => ?_
    exact (Meets.materialize _).bind_of_succeeded fun _ _ => .pure _
  | .sexpr stmt value, σ => by
    rw [Expr.canonical]
    refine (stmt.canonical_meets σ).bind fun _ σ' => ?_
    exact (value.canonical_meets σ').bind_of_succeeds fun _ _ => .pure _

theorem Expr.canonicalArgs_meets : ∀ (es : List Expr) (σ : Supply),
    Meets (Expr.canonicalArgs es) σ (Expr.firstFaultOf? es)
  | [], _ => .pure _
  | e :: es, σ => by
    rw [Expr.canonicalArgs]
    refine (e.canonical_meets σ).bind fun _ _ => (Meets.materialize _).bind_of_succeeded fun _ σ' => ?_
    exact (Expr.canonicalArgs_meets es σ').bind_of_succeeds fun _ _ => .pure _

/-- **A statement is made canonical up to its first defect.** -/
theorem Stmt.canonical_meets : ∀ (s : Stmt) (σ : Supply), Meets s.canonical σ s.firstFault?
  | .absent, σ => ⟨σ, rfl⟩
  | .jump _, _ | .label _, _ => .pure _
  | .eval e, σ => by
    rw [Stmt.canonical]
    exact (e.canonical_meets σ).bind_of_succeeds fun _ _ => .pure _
  | .cjump cond _ _, σ => by
    rw [Stmt.canonical]
    exact (cond.canonical_meets σ).bind_of_succeeds fun _ _ => .pure _
  | .move (.mem addr) src, σ => by
    rw [Stmt.canonical]
    refine (addr.canonical_meets σ).bind fun _ _ => (Meets.materialize _).bind_of_succeeded fun _ σ' => ?_
    exact (src.canonical_meets σ').bind_of_succeeds fun _ _ => .pure _
  | .move (.temp _) src, σ => by
    rw [Stmt.canonical]
    exact (src.canonical_meets σ).bind_of_succeeds fun _ _ => .pure _
  | .move .absent _, σ | .move (.const _) _, σ | .move (.name _) _, σ | .move (.binop _ _ _) _, σ
  | .move (.unop _ _) _, σ | .move (.call _ _ _) _, σ | .move (.sexpr _ _) _, σ => ⟨σ, rfl⟩
  | .seq stmts, σ => by
    rw [Stmt.canonical]
    exact Stmt.canonicalAll_meets stmts σ

theorem Stmt.canonicalAll_meets : ∀ (ss : List Stmt) (σ : Supply),
    Meets (Stmt.canonicalAll ss) σ (Stmt.firstFaultOf? ss)
  | [], _ => .pure _
  | s :: ss, σ => by
    rw [Stmt.canonicalAll]
    refine (s.canonical_meets σ).bind fun _ σ' => ?_
    exact (Stmt.canonicalAll_meets ss σ').bind_of_succeeds fun _ _ => .pure _

end

/-- The fault of a failing canonicalization is that of the first defect. -/
theorem Stmt.canonical_error_iff (s : Stmt) (σ : Supply) (fault : Fault) :
    (∃ σ', s.canonical.run.run σ = (.error fault, σ')) ↔ s.firstFault? = some fault := by
  have hmeets := s.canonical_meets σ
  cases hfirst : s.firstFault? with
  | none =>
    rw [hfirst] at hmeets
    obtain ⟨ss, σ', hrun, -⟩ := hmeets
    refine iff_of_false (fun ⟨σ'', hfail⟩ => ?_) (Option.some_ne_none fault).symm
    rw [hrun] at hfail
    cases hfail
  | some first =>
    rw [hfirst] at hmeets
    obtain ⟨σ', hrun⟩ := hmeets
    constructor
    · rintro ⟨σ'', hfail⟩
      rw [hrun] at hfail
      cases hfail
      rfl
    · rintro heq
      cases heq
      exact ⟨σ', hrun⟩

mutual

/-- There is a first defect in an expression with a defect. -/
theorem Expr.isSome_firstFault?_iff : ∀ e : Expr, e.firstFault?.isSome = true ↔ e.Defective
  | .absent => iff_of_true rfl trivial
  | .const _ | .temp _ | .name _ => iff_of_false Bool.false_ne_true id
  | .mem addr | .unop _ addr => addr.isSome_firstFault?_iff
  | .binop _ fst snd => by
    rw [Expr.firstFault?, Expr.Defective, ← fst.isSome_firstFault?_iff, ← snd.isSome_firstFault?_iff]
    cases fst.firstFault? <;> simp
  | .call _ _ args => Expr.isSome_firstFaultOf?_iff args
  | .sexpr stmt value => by
    rw [Expr.firstFault?, Expr.Defective, ← stmt.isSome_firstFault?_iff, ← value.isSome_firstFault?_iff]
    cases stmt.firstFault? <;> simp

theorem Expr.isSome_firstFaultOf?_iff : ∀ es : List Expr,
    (Expr.firstFaultOf? es).isSome = true ↔ Expr.AnyDefective es
  | [] => iff_of_false Bool.false_ne_true id
  | e :: es => by
    rw [Expr.firstFaultOf?, Expr.AnyDefective, ← e.isSome_firstFault?_iff,
      ← Expr.isSome_firstFaultOf?_iff es]
    cases e.firstFault? <;> simp

/-- There is a first defect in a statement with a defect. -/
theorem Stmt.isSome_firstFault?_iff : ∀ s : Stmt, s.firstFault?.isSome = true ↔ s.Defective
  | .absent => iff_of_true rfl trivial
  | .jump _ | .label _ => iff_of_false Bool.false_ne_true id
  | .eval e | .cjump e _ _ => e.isSome_firstFault?_iff
  | .move (.mem addr) src => by
    rw [Stmt.firstFault?, Stmt.Defective, Expr.Defective, ← addr.isSome_firstFault?_iff,
      ← src.isSome_firstFault?_iff]
    cases addr.firstFault? <;> simp
  | .move (.temp t) src => by
    rw [Stmt.firstFault?, Stmt.Defective, Expr.Defective, ← src.isSome_firstFault?_iff]
    simp
  | .move .absent _ | .move (.const _) _ | .move (.name _) _ | .move (.binop _ _ _)
      _ | .move (.unop _ _) _
  | .move (.call _ _ _) _ | .move (.sexpr _ _) _ =>
    iff_of_true rfl (.inl ⟨by simp, by simp⟩)
  | .seq stmts => Stmt.isSome_firstFaultOf?_iff stmts

theorem Stmt.isSome_firstFaultOf?_iff : ∀ ss : List Stmt,
    (Stmt.firstFaultOf? ss).isSome = true ↔ Stmt.AnyDefective ss
  | [] => iff_of_false Bool.false_ne_true id
  | s :: ss => by
    rw [Stmt.firstFaultOf?, Stmt.AnyDefective, ← s.isSome_firstFault?_iff,
      ← Stmt.isSome_firstFaultOf?_iff ss]
    cases s.firstFault? <;> simp

end

/-- Canonicalization fails on the defective statements and on no others. -/
theorem Stmt.canonical_fails_iff (s : Stmt) (σ : Supply) :
    (∃ fault σ', s.canonical.run.run σ = (.error fault, σ')) ↔ s.Defective := by
  simp only [s.canonical_error_iff σ, ← s.isSome_firstFault?_iff, Option.isSome_iff_exists]

theorem orElse_ne_crash {first rest : Option Fault} (h₁ : first ≠ some .crash) (h₂ : rest ≠ some .crash) :
    (first <|> rest) ≠ some .crash := by
  cases first with
  | none => exact h₂
  | some fault => exact h₁

mutual

/-- The first defect of an expression that can be printed is reported. -/
theorem Expr.firstFault?_ne_crash : ∀ e : Expr, e.Printable → e.firstFault? ≠ some .crash
  | .absent, _ => by simp [Expr.firstFault?]
  | .const _, _ | .temp _, _ | .name _, _ => (Option.some_ne_none _).symm
  | .mem addr, h | .unop _ addr, h => addr.firstFault?_ne_crash h
  | .binop _ fst snd, h => orElse_ne_crash (fst.firstFault?_ne_crash h.1) (snd.firstFault?_ne_crash h.2)
  | .call _ _ args, h => Expr.firstFaultOf?_ne_crash args h.2
  | .sexpr stmt value, h =>
    orElse_ne_crash (stmt.firstFault?_ne_crash h.1) (value.firstFault?_ne_crash h.2)

theorem Expr.firstFaultOf?_ne_crash : ∀ es : List Expr,
    Expr.AllPrintable es → Expr.firstFaultOf? es ≠ some .crash
  | [], _ => (Option.some_ne_none _).symm
  | e :: es, h => orElse_ne_crash (e.firstFault?_ne_crash h.1) (Expr.firstFaultOf?_ne_crash es h.2)

/-- The first defect of a statement that can be printed is reported. -/
theorem Stmt.firstFault?_ne_crash : ∀ s : Stmt, s.Printable → s.firstFault? ≠ some .crash
  | .absent, _ => by simp [Stmt.firstFault?]
  | .jump _, _ | .label _, _ => (Option.some_ne_none _).symm
  | .eval e, h | .cjump e _ _, h => e.firstFault?_ne_crash h
  | .move (.mem addr) src, h =>
    orElse_ne_crash (addr.firstFault?_ne_crash h.1) (src.firstFault?_ne_crash h.2)
  | .move (.temp _) src, h => src.firstFault?_ne_crash h.2
  | .move .absent _, h | .move (.const _) _, h | .move (.name _) _, h | .move (.binop _ _ _) _, h
  | .move (.unop _ _) _, h | .move (.call _ _ _) _, h | .move (.sexpr _ _) _, h => fun heq =>
    Expr.moveFault_eq_crash_iff.mp (Option.some.inj heq) h.1
  | .seq stmts, h => Stmt.firstFaultOf?_ne_crash stmts h

theorem Stmt.firstFaultOf?_ne_crash : ∀ ss : List Stmt,
    Stmt.AllPrintable ss → Stmt.firstFaultOf? ss ≠ some .crash
  | [], _ => (Option.some_ne_none _).symm
  | s :: ss, h => orElse_ne_crash (s.firstFault?_ne_crash h.1) (Stmt.firstFaultOf?_ne_crash ss h.2)

end

/-! ## §4 Canonical code is selected -/

theorem exists_binary {op : BinOp} (h : op.Known) (fst snd dst : Temp) :
    ∃ is, Instr.binary op fst snd dst = .ok is := by
  cases op with
  | unknown code => exact h.elim
  | _ => exact ⟨_, rfl⟩

theorem Expr.IsOperand.select_accepts (mode : ArgPassing) : ∀ {e : Expr}, e.IsOperand → e.Regular →
    ∀ σ : Supply, Succeeds (e.select mode) σ fun _ _ => True
  | .temp _, _, _, _ => .pure trivial
  | .const _, _, _, _ => .lift trivial
  | .name _, _, _, σ => (freshTemp_spec σ).bind fun _ _ _ => .pure trivial
  | .mem addr, h, hr, σ => by
    rw [Expr.select]
    refine (Expr.IsOperand.select_accepts mode (e := addr) h hr σ).bind fun _ σ' _ => ?_
    exact (freshTemp_spec σ').bind fun _ _ _ => .pure trivial
  | .unop op arg, h, hr, σ => by
    rw [Expr.select]
    refine (Expr.IsOperand.select_accepts mode (e := arg) h hr.2 σ).bind fun _ σ' _ => ?_
    refine (freshTemp_spec σ').bind fun _ σ'' _ => ?_
    cases op with
    | neg => exact .pure trivial
    | not => exact (freshTemp_spec σ'').bind fun _ _ _ => .pure trivial
    | unknown code => exact hr.1.elim

theorem Expr.selectArgs_accepts (mode : ArgPassing) {es : List Expr} (h : ∀ e ∈ es, ∃ t, e = .temp t)
    (σ : Supply) : Succeeds (Expr.selectArgs mode es) σ fun _ _ => True := by
  induction es generalizing σ with
  | nil => exact .pure trivial
  | cons e es ih =>
    obtain ⟨⟨t, rfl⟩, hes⟩ := List.forall_mem_cons.mp h
    rw [Expr.selectArgs]
    refine (Expr.IsOperand.select_accepts mode (e := .temp t) trivial trivial σ).bind fun _ σ' _ => ?_
    exact (ih hes σ').bind fun _ _ _ => .pure trivial

theorem Expr.IsSource.select_accepts (mode : ArgPassing) {e : Expr} (h : e.IsSource) (hr : e.Regular)
    (σ : Supply) : Succeeds (e.select mode) σ fun _ _ => True := by
  unfold Expr.IsSource at h
  split at h
  · next op t t' =>
    rw [Expr.select]
    refine (Expr.IsOperand.select_accepts mode (e := .temp t) trivial trivial σ).bind fun a σ₁ _ => ?_
    refine (Expr.IsOperand.select_accepts mode (e := .temp t') trivial trivial σ₁).bind fun b σ₂ _ => ?_
    refine (freshTemp_spec σ₂).bind fun dst σ₃ _ => ?_
    obtain ⟨is, his⟩ := exists_binary hr.1 a.2 b.2 dst
    exact .ofExcept_bind his (.pure trivial)
  · next l offs args =>
    rw [Expr.select, if_neg fun h => h hr.1]
    refine (Expr.selectArgs_accepts mode h σ).bind fun _ σ₁ _ => ?_
    refine Succeeds.bind (P := fun _ _ => True) (.lift trivial) fun _ σ₂ _ => ?_
    exact (freshTemp_spec σ₂).bind fun _ _ _ => .pure trivial
  · exact Expr.IsOperand.select_accepts mode h hr σ

theorem Stmt.Canonical.select_accepts (mode : ArgPassing) (next : List Stmt) {s : Stmt} (h : s.Canonical)
    (hr : s.Regular) (σ : Supply) : Succeeds (s.select mode next) σ fun _ _ => True := by
  unfold Stmt.Canonical at h
  split at h
  · exact .pure trivial
  · exact .pure trivial
  · rw [Stmt.select]
    exact (h.select_accepts mode hr σ).bind fun _ _ _ => .pure trivial
  · rw [Stmt.select]
    exact (h.select_accepts mode hr σ).bind fun _ _ _ => .pure trivial
  · rw [Stmt.select]
    exact (h.select_accepts mode hr.2 σ).bind fun _ _ _ => .pure trivial
  · next t src =>
    rw [Stmt.select]
    refine (Expr.IsOperand.select_accepts mode (e := .temp t) trivial trivial σ).bind fun _ σ' _ => ?_
    exact (h.select_accepts mode hr.2 σ').bind fun _ _ _ => .pure trivial
  · exact h.elim

/-- **Canonical code is selected** in both modes of passing arguments. -/
theorem Stmt.Canonical.selectAll_accepts (mode : ArgPassing) {ss : List Stmt} (h : ∀ s ∈ ss, s.Canonical)
    (hr : ∀ s ∈ ss, s.Regular) (σ : Supply) : Succeeds (Stmt.selectAll mode ss) σ fun _ _ => True := by
  induction ss generalizing σ with
  | nil => exact .pure trivial
  | cons s ss ih =>
    obtain ⟨hs, hss⟩ := List.forall_mem_cons.mp h
    obtain ⟨hrs, hrss⟩ := List.forall_mem_cons.mp hr
    rw [Stmt.selectAll]
    refine (hs.select_accepts mode ss hrs σ).bind fun _ σ' _ => ?_
    exact (ih hss hrss σ').bind fun _ _ _ => .pure trivial

/-! ## §5 Any statement -/

/-- **Canonicalization of any statement**, from any supply of temps. It fails exactly on a defective
tree, and with the fault of the first defect: an error that it returns, or a crash when the first
defect is a destination in which a call has fewer offsets than arguments, for such a destination has
no text that the error could show. A tree that can be printed never makes it crash. What it returns
otherwise consists of canonical statements, has the labels and jumps of the tree in their order, and
can be selected in both modes if the tree is regular. -/
theorem Stmt.canonical_grammar (s : Stmt) (σ : Supply) :
    ((∃ fault σ', s.canonical.run.run σ = (.error fault, σ')) ↔ s.Defective) ∧
      (∀ fault, (∃ σ', s.canonical.run.run σ = (.error fault, σ')) ↔ s.firstFault? = some fault) ∧
      (s.Printable → ∀ σ', s.canonical.run.run σ ≠ (.error .crash, σ')) ∧
      ∀ ss σ', s.canonical.run.run σ = (.ok ss, σ') →
        (∀ s' ∈ ss, s'.Canonical) ∧ Stmt.controlsAll ss = s.controls ∧
          (s.Regular → ∀ (mode : ArgPassing) (τ : Supply),
            ∃ is τ', (Stmt.selectAll mode ss).run.run τ = (.ok is, τ')) := by
  refine ⟨s.canonical_fails_iff σ, s.canonical_error_iff σ,
    fun hprintable σ' hcrash => ?_, fun ss σ' hrun => ?_⟩
  · exact s.firstFault?_ne_crash hprintable ((s.canonical_error_iff σ .crash).mp ⟨σ', hcrash⟩)
  · have hss : s.Becomes ss := s.canonical_ensures σ ss σ' hrun
    refine ⟨hss.canonical, hss.controls, fun hr mode τ => ?_⟩
    obtain ⟨is, τ', hselect, -⟩ := Stmt.Canonical.selectAll_accepts mode hss.canonical (hss.regular hr) τ
    exact ⟨is, τ', hselect⟩

/-- A move to a call without an offset for its argument crashes; with the offset it is an error. -/
example : (Stmt.move (.call "f" [] [.const 1]) (.const 0)).firstFault? = some .crash ∧
    (Stmt.move (.call "f" [8] [.const 1]) (.const 0)).firstFault? ≠ some .crash := by
  constructor
  · rfl
  · decide

end MmixBackend.IR
