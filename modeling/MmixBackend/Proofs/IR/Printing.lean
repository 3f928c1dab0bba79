import MmixBackend.IR.Canonical

/-!
# Trees that can be printed

The text of a call shows an offset in front of every argument. A tree has a text unless some call in
it, at any depth, has fewer offsets than arguments. Such a tree cannot be shown in a message either:
a pass that has to report that nothing can be moved to it crashes.

## Main statements

- `Expr.isSome_text?_iff`: which expressions have a text.
- `Expr.moveFault_eq_crash_iff`: which destinations of moves make a pass crash.
-/

namespace MmixBackend.IR

mutual

/-- Each call in the expression has an offset for every argument. -/
def Expr.Printable : Expr → Prop
  | .absent | .const _ | .temp _ | .name _ => True
  | .mem addr => addr.Printable
  | .binop _ fst snd => fst.Printable ∧ snd.Printable
  | .unop _ arg => arg.Printable
  | .call _ offs args => args.length ≤ offs.length ∧ Expr.AllPrintable args
  | .sexpr stmt value => stmt.Printable ∧ value.Printable

/-- The same for all expressions of a list. -/
def Expr.AllPrintable : List Expr → Prop
  | [] => True
  | e :: es => e.Printable ∧ Expr.AllPrintable es

/-- The same for a statement. -/
def Stmt.Printable : Stmt → Prop
  | .absent | .jump _ | .label _ => True
  | .eval e => e.Printable
  | .move dst src => dst.Printable ∧ src.Printable
  | .cjump cond _ _ => cond.Printable
  | .seq stmts => Stmt.AllPrintable stmts

/-- The same for all statements of a list. -/
def Stmt.AllPrintable : List Stmt → Prop
  | [] => True
  | s :: ss => s.Printable ∧ Stmt.AllPrintable ss

end

mutual

/-- **A text exists unless an offset is missing.** -/
theorem Expr.isSome_text?_iff : ∀ e : Expr, e.text?.isSome = true ↔ e.Printable
  | .absent | .const _ | .temp _ | .name _ => iff_of_true rfl trivial
  | .mem addr | .unop _ addr => by
    rw [Expr.text?, Expr.Printable, ← addr.isSome_text?_iff]
    cases addr.text? <;> rfl
  | .binop _ fst snd => by
    rw [Expr.text?, Expr.Printable, ← fst.isSome_text?_iff, ← snd.isSome_text?_iff]
    cases fst.text? <;> cases snd.text? <;> simp
  | .call _ offs args => by
    rw [Expr.text?, Expr.Printable, ← Expr.isSome_argsText?_iff offs args]
    cases Expr.argsText? offs args <;> rfl
  | .sexpr stmt value => by
    rw [Expr.text?, Expr.Printable, ← stmt.isSome_text?_iff, ← value.isSome_text?_iff]
    cases stmt.text? <;> cases value.text? <;> simp

theorem Expr.isSome_argsText?_iff : ∀ (offs : List Word) (args : List Expr),
    (Expr.argsText? offs args).isSome = true ↔ args.length ≤ offs.length ∧ Expr.AllPrintable args
  | _, [] => by
    rw [Expr.argsText?]
    exact iff_of_true rfl ⟨Nat.zero_le _, trivial⟩
  | [], arg :: args => by
    rw [Expr.argsText?]
    exact iff_of_false Bool.false_ne_true fun h => Nat.not_succ_le_zero _ h.1
  | off :: offs, arg :: args => by
    rw [Expr.argsText?, Expr.AllPrintable, ← arg.isSome_text?_iff, List.length_cons, List.length_cons,
      Nat.add_le_add_iff_right, and_left_comm, ← Expr.isSome_argsText?_iff offs args]
    cases arg.text? <;> cases Expr.argsText? offs args <;> simp

theorem Stmt.isSome_text?_iff : ∀ s : Stmt, s.text?.isSome = true ↔ s.Printable
  | .absent | .jump _ | .label _ => iff_of_true rfl trivial
  | .eval e | .cjump e _ _ => by
    rw [Stmt.text?, Stmt.Printable, ← e.isSome_text?_iff]
    cases e.text? <;> rfl
  | .move dst src => by
    rw [Stmt.text?, Stmt.Printable, ← dst.isSome_text?_iff, ← src.isSome_text?_iff]
    cases dst.text? <;> cases src.text? <;> simp
  | .seq stmts => by
    rw [Stmt.text?, Stmt.Printable, ← Stmt.isSome_texts?_iff stmts]
    cases Stmt.texts? stmts <;> rfl

theorem Stmt.isSome_texts?_iff : ∀ ss : List Stmt, (Stmt.texts? ss).isSome = true ↔ Stmt.AllPrintable ss
  | [] => iff_of_true rfl trivial
  | s :: ss => by
    rw [Stmt.texts?, Stmt.AllPrintable, ← s.isSome_text?_iff, ← Stmt.isSome_texts?_iff ss]
    cases s.text? <;> cases Stmt.texts? ss <;> simp

end

/-- **A pass crashes over a destination that cannot be printed**, and reports any other one. -/
theorem Expr.moveFault_eq_crash_iff {dst : Expr} : dst.moveFault = .crash ↔ ¬dst.Printable := by
  rw [← dst.isSome_text?_iff, Expr.moveFault]
  cases dst.text? <;> simp

/-- A call without an offset for its argument. -/
example : (Expr.call "f" [] [.const 1]).moveFault = .crash := rfl

end MmixBackend.IR
