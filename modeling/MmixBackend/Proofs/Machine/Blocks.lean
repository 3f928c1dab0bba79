import MmixBackend.Proofs.IR.Lowering
import MmixBackend.Proofs.Machine.Runs

/-!
# Code in blocks

How a flat block finds its labels, what it means that code stands at a position of a block, and how
the machine evaluates operands, which is all the evaluation that canonical code leaves inside a
statement.

## Main statements

- `Block.labels_ofStmts`: a label is found at one of its occurrences, and not found if it has none.
- `eval_operand`, `fail_operand`: an operand is evaluated without a change of state.
-/

namespace MmixBackend.Machine

open IR Relation

/-! ## §1 Labels of a block -/

/-- A fold that inserts the positions of labels into a table finds a label at one of its positions,
and otherwise keeps what it started from. -/
private theorem foldl_labels {f : Std.HashMap Label Nat → Stmt × Nat → Std.HashMap Label Nat}
    (hlabel : ∀ found l i, f found (.label l, i) = found.insert l i)
    (hother : ∀ found s i, (∀ l, s ≠ .label l) → f found (s, i) = found)
    (l : Label) (ss : List Stmt) (start : Nat) (found : Std.HashMap Label Nat) :
    (∃ i, ss[i]? = some (.label l) ∧ ((ss.zipIdx start).foldl f found)[l]? = some (start + i)) ∨
      (.label l ∉ ss ∧ ((ss.zipIdx start).foldl f found)[l]? = found[l]?) := by
  induction ss generalizing start found with
  | nil => simp
  | cons s ss ih =>
    simp only [List.zipIdx_cons, List.foldl_cons]
    rcases ih (start + 1) (f found (s, start)) with ⟨i, hi, hres⟩ | ⟨hnot, hres⟩
    · exact .inl ⟨i + 1, by simpa using hi, by rw [hres]; congr 1; omega⟩
    · -- The label does not come later, so the head decides.
      by_cases hs : s = .label l
      · subst hs
        exact .inl ⟨0, rfl, by rw [hres, hlabel]; simp⟩
      · refine .inr ⟨by simpa [Ne.symm hs] using hnot, hres.trans ?_⟩
        by_cases hl : ∃ l', s = .label l'
        · obtain ⟨l', rfl⟩ := hl
          have hne : l' ≠ l := fun h => hs (by rw [h])
          simp [hlabel, Std.HashMap.getElem?_insert, hne]
        · rw [hother _ _ _ fun l' h => hl ⟨l', h⟩]

/-- A block finds a label at one of its occurrences, and does not find it if it has none. -/
theorem Block.labels_ofStmts (ss : List Stmt) (l : Label) :
    (∃ i, (Stmt.flattenAll ss)[i]? = some (.label l) ∧ (Block.ofStmts ss).labels[l]? = some i) ∨
      (.label l ∉ Stmt.flattenAll ss ∧ (Block.ofStmts ss).labels[l]? = none) := by
  have h := fun f hlabel hother => foldl_labels (f := f) hlabel hother l (Stmt.flattenAll ss) 0 ∅
  simp only [Nat.zero_add, Std.HashMap.getElem?_empty] at h
  refine h _ (fun _ _ _ => rfl) fun _ s _ hs => ?_
  cases s with
  | label l' => exact absurd rfl (hs l')
  | _ => rfl

theorem Block.getElem?_ofStmts (ss : List Stmt) (i : Nat) :
    (Block.ofStmts ss).stmts[i]? = (Stmt.flattenAll ss)[i]? := by
  simp [Block.ofStmts]

/-- If no label occurs twice, a label has one position. -/
theorem getElem?_label_unique {ss : List Stmt} (h : (Stmt.labelsOf ss).Nodup) {l : Label}
    {i j : Nat} (hi : ss[i]? = some (.label l)) (hj : ss[j]? = some (.label l)) : i = j := by
  induction ss generalizing i j with
  | nil => simp at hi
  | cons s ss ih =>
    -- Both positions are the head, or neither is.
    have later : ∀ {k : Nat}, ss[k]? = some (.label l) → l ∈ Stmt.labelsOf ss := fun hk =>
      Stmt.mem_labelsOf.mpr (List.mem_of_getElem? hk)
    have htail : (Stmt.labelsOf ss).Nodup := by
      cases s <;> simp_all [Stmt.labelsOf]
    cases i with
    | zero =>
      cases j with
      | zero => rfl
      | succ j =>
        simp only [List.getElem?_cons_zero, Option.some.injEq] at hi
        subst hi
        exact absurd (later (by simpa using hj)) (List.nodup_cons.mp h).1
    | succ i =>
      cases j with
      | zero =>
        simp only [List.getElem?_cons_zero, Option.some.injEq] at hj
        subst hj
        exact absurd (later (by simpa using hi)) (List.nodup_cons.mp h).1
      | succ j => exact congrArg _ (ih htail (by simpa using hi) (by simpa using hj))

/-! ## §2 Code at a position -/

/-- The statements of a list stand in a block from a position on. -/
def CodeAt (b : Block) : (pc : Nat) → List Stmt → Prop
  | _, [] => True
  | pc, s :: ss => b.stmts[pc]? = some s ∧ CodeAt b (pc + 1) ss

@[simp] theorem codeAt_nil (b : Block) (pc : Nat) : CodeAt b pc [] := trivial

@[simp] theorem codeAt_cons {b : Block} {pc : Nat} {s : Stmt} {ss : List Stmt} :
    CodeAt b pc (s :: ss) ↔ b.stmts[pc]? = some s ∧ CodeAt b (pc + 1) ss := Iff.rfl

@[simp] theorem codeAt_append {b : Block} {pc : Nat} {ss ss' : List Stmt} :
    CodeAt b pc (ss ++ ss') ↔ CodeAt b pc ss ∧ CodeAt b (pc + ss.length) ss' := by
  induction ss generalizing pc with
  | nil => simp
  | cons s ss ih => simp [ih, and_assoc, Nat.add_assoc, Nat.add_comm 1]

/-- A flat list stands at the start of its own block. -/
theorem codeAt_ofStmts {ss : List Stmt} (h : Stmt.flattenAll ss = ss) :
    CodeAt (.ofStmts ss) 0 ss := by
  suffices key : ∀ before rest, ss = before ++ rest → CodeAt (.ofStmts ss) before.length rest by
    simpa using key [] ss rfl
  intro before rest heq
  induction rest generalizing before with
  | nil => trivial
  | cons s rest ih =>
    refine ⟨?_, by simpa using ih (before ++ [s]) (by simp [heq])⟩
    rw [Block.getElem?_ofStmts, h, heq]
    simp

/-! ## §3 Operands -/

/-- The value of an operand. -/
def operandValue (m : Machine) (temps : Temps) (memory : Memory) : Expr → Except RuntimeError Word
  | .const v => .ok v
  | .temp t => .ok (temps.getD t 0)
  | .name l =>
    match m.labels[l]? with
    | some addr => .ok addr
    | none => .error (.unknownLabel l)
  | .mem addr => (operandValue m temps memory addr).map memory.read
  | .unop op arg => (operandValue m temps memory arg).map (applyUnary op)
  | _ => .error .absentExpression

variable {m : Machine} {temps : Temps} {s : State}

/-- An operand with a value is evaluated to it. -/
theorem eval_operand {e : Expr} (h : e.IsOperand) {v : Word}
    (hv : operandValue m temps s.memory e = .ok v) (k : ValueContext) :
    ReflTransGen (Next m) ⟨.eval e k, temps, s⟩ ⟨.value v k, temps, s⟩ := by
  match e, h with
  | .const _, _ =>
    cases hv
    exact .single rfl
  | .temp _, _ =>
    cases hv
    exact .single rfl
  | .name l, _ =>
    simp only [operandValue] at hv
    split at hv
    · rename_i addr hl
      cases hv
      refine .single ?_
      simp [Next, step, evalStep, hl]
    · cases hv
  -- One transition goes to the address, and one back from its value to the access.
  | .mem addr, h =>
    simp only [operandValue] at hv
    cases ha : operandValue m temps s.memory addr with
    | error _ => simp [ha, Except.map] at hv
    | ok a =>
      simp only [ha, Except.map, Except.ok.injEq] at hv
      subst hv
      exact .head rfl ((eval_operand (e := addr) h ha _).tail rfl)
  | .unop op arg, h =>
    simp only [operandValue] at hv
    cases ha : operandValue m temps s.memory arg with
    | error _ => simp [ha, Except.map] at hv
    | ok a =>
      simp only [ha, Except.map, Except.ok.injEq] at hv
      subst hv
      exact .head rfl ((eval_operand (e := arg) h ha _).tail rfl)

/-- An operand without a value stops the run. -/
theorem fail_operand {e : Expr} (h : e.IsOperand) {err : RuntimeError}
    (hv : operandValue m temps s.memory e = .error err) (k : ValueContext) :
    Halts m ⟨.eval e k, temps, s⟩ (.error err) s := by
  match e, h with
  | .const _, _ => cases hv
  | .temp _, _ => cases hv
  | .name l, _ =>
    simp only [operandValue] at hv
    split at hv
    · cases hv
    · rename_i hl
      cases hv
      refine .of_stop ?_
      simp [step, evalStep, hl]
  | .mem addr, h =>
    simp only [operandValue] at hv
    cases ha : operandValue m temps s.memory addr with
    | ok _ => simp [ha, Except.map] at hv
    | error _ =>
      simp only [ha, Except.map, Except.error.injEq] at hv
      subst hv
      exact (fail_operand (e := addr) h ha _).of_next rfl
  | .unop op arg, h =>
    simp only [operandValue] at hv
    cases ha : operandValue m temps s.memory arg with
    | ok _ => simp [ha, Except.map] at hv
    | error _ =>
      simp only [ha, Except.map, Except.error.injEq] at hv
      subst hv
      exact (fail_operand (e := arg) h ha _).of_next rfl

end MmixBackend.Machine
