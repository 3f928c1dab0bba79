import MmixBackend.IR.Chunk
import MmixBackend.Proofs.Results

/-!
# Canonicalization as a function of a counter

`Expr.canonical` takes fresh temps from a supply and may stop with a fault. On trees of the right
shape it never does, and what it makes depends only on how many temps have been handed out before.
`Expr.lower` is that function; the statements about canonical code are proved about it.

## Main statements

- `Expr.canonical_eq_lower`: on well-shaped trees canonicalization succeeds with what `lower` makes.
- `Stmt.labelsOf_lower`: canonical code has the labels of its tree, in the same order.
- `Stmt.lower_eq_lowerAll_flatten`: nested sequences do not matter.
-/

namespace MmixBackend.IR

/-! ## §1 Labels, temps and shape of a tree -/

mutual

/-- All labels that are defined anywhere in an expression, in order. -/
def Expr.labels : Expr → List Label
  | .absent | .const _ | .temp _ | .name _ => []
  | .mem addr => addr.labels
  | .binop _ fst snd => fst.labels ++ snd.labels
  | .unop _ arg => arg.labels
  | .call _ _ args => Expr.labelsAll args
  | .sexpr stmt value => stmt.labels ++ value.labels

/-- All labels that are defined in a list of expressions. -/
def Expr.labelsAll : List Expr → List Label
  | [] => []
  | e :: es => e.labels ++ Expr.labelsAll es

/-- All labels that are defined anywhere in a statement, in order. -/
def Stmt.labels : Stmt → List Label
  | .absent | .jump _ => []
  | .eval e => e.labels
  | .move dst src => dst.labels ++ src.labels
  | .cjump cond _ _ => cond.labels
  | .label l => [l]
  | .seq stmts => Stmt.labelsAll stmts

/-- All labels that are defined in a list of statements. -/
def Stmt.labelsAll : List Stmt → List Label
  | [] => []
  | s :: ss => s.labels ++ Stmt.labelsAll ss

end

mutual

/-- All temps that occur in an expression. -/
def Expr.temps : Expr → List Temp
  | .absent | .const _ | .name _ => []
  | .temp t => [t]
  | .mem addr => addr.temps
  | .binop _ fst snd => fst.temps ++ snd.temps
  | .unop _ arg => arg.temps
  | .call _ _ args => Expr.tempsAll args
  | .sexpr stmt value => stmt.temps ++ value.temps

/-- All temps that occur in a list of expressions. -/
def Expr.tempsAll : List Expr → List Temp
  | [] => []
  | e :: es => e.temps ++ Expr.tempsAll es

/-- All temps that occur in a statement. -/
def Stmt.temps : Stmt → List Temp
  | .absent | .jump _ | .label _ => []
  | .eval e => e.temps
  | .move dst src => dst.temps ++ src.temps
  | .cjump cond _ _ => cond.temps
  | .seq stmts => Stmt.tempsAll stmts

/-- All temps that occur in a list of statements. -/
def Stmt.tempsAll : List Stmt → List Temp
  | [] => []
  | s :: ss => s.temps ++ Stmt.tempsAll ss

end

/-- The labels that the statements of a list define themselves. -/
def Stmt.labelsOf (ss : List Stmt) : List Label :=
  ss.filterMap fun
    | .label l => some l
    | _ => none

/-- The labels that the statements of a list jump to themselves. -/
def Stmt.targetsOf (ss : List Stmt) : List Label :=
  ss.flatMap fun
    | .jump l => [l]
    | .cjump _ pos neg => [pos, neg]
    | _ => []

/-- No jump of a statement leaves the list that it flattens to. -/
def Stmt.Closed (s : Stmt) : Prop :=
  ∀ l ∈ Stmt.targetsOf s.flatten, l ∈ Stmt.labelsOf s.flatten

mutual

/-- The shape of the trees that code generation builds: nothing is missing, moves go to temps and
memory locations, calls have as many offsets as arguments, and no jump leaves the statement of an
expression. -/
def Expr.Shaped : Expr → Prop
  | .absent => False
  | .const _ | .temp _ | .name _ => True
  | .mem addr => addr.Shaped
  | .binop _ fst snd => fst.Shaped ∧ snd.Shaped
  | .unop _ arg => arg.Shaped
  | .call _ offs args => offs.length = args.length ∧ Expr.ShapedAll args
  | .sexpr stmt value => stmt.Shaped ∧ stmt.Closed ∧ value.Shaped

/-- The same for all expressions of a list. -/
def Expr.ShapedAll : List Expr → Prop
  | [] => True
  | e :: es => e.Shaped ∧ Expr.ShapedAll es

/-- The same for a statement. -/
def Stmt.Shaped : Stmt → Prop
  | .absent => False
  | .eval e => e.Shaped
  | .move (.temp _) src => src.Shaped
  | .move (.mem addr) src => addr.Shaped ∧ src.Shaped
  | .move _ _ => False
  | .cjump cond _ _ => cond.Shaped
  | .jump _ | .label _ => True
  | .seq stmts => Stmt.ShapedAll stmts

/-- The same for all statements of a list. -/
def Stmt.ShapedAll : List Stmt → Prop
  | [] => True
  | s :: ss => s.Shaped ∧ Stmt.ShapedAll ss

end

mutual

/-- No jump leaves the statement of an expression that it stands in. -/
def Expr.Enclosed : Expr → Prop
  | .absent | .const _ | .temp _ | .name _ => True
  | .mem addr => addr.Enclosed
  | .binop _ fst snd => fst.Enclosed ∧ snd.Enclosed
  | .unop _ arg => arg.Enclosed
  | .call _ _ args => Expr.EnclosedAll args
  | .sexpr stmt value => stmt.Enclosed ∧ stmt.Closed ∧ value.Enclosed

/-- The same for all expressions of a list. -/
def Expr.EnclosedAll : List Expr → Prop
  | [] => True
  | e :: es => e.Enclosed ∧ Expr.EnclosedAll es

/-- The same for the expressions of a statement. -/
def Stmt.Enclosed : Stmt → Prop
  | .absent | .jump _ | .label _ => True
  | .eval e => e.Enclosed
  | .move dst src => dst.Enclosed ∧ src.Enclosed
  | .cjump cond _ _ => cond.Enclosed
  | .seq stmts => Stmt.EnclosedAll stmts

/-- The same for all statements of a list. -/
def Stmt.EnclosedAll : List Stmt → Prop
  | [] => True
  | s :: ss => s.Enclosed ∧ Stmt.EnclosedAll ss

end

/-! ## §2 Canonical code without a supply -/

/-- What an expression becomes: statements, the expression behind them, and the number of the last
temp that they use. -/
structure Lowered where
  stmts : List Stmt
  value : Expr
  next : Int

/-- What arguments become: statements, the temps that hold the values, and the number of the last
temp. -/
structure LoweredArgs where
  stmts : List Stmt
  temps : List Temp
  next : Int

/-- What statements become, and the number of the last temp. -/
structure LoweredStmts where
  stmts : List Stmt
  next : Int

/-- Moves an expression into the temp with a number. -/
def moveInto (n : Int) (e : Expr) : Stmt := .move (.temp ⟨n⟩) e

mutual

/-- Canonical code of an expression when `n` is the number of the last temp. -/
def Expr.lower : Expr → (n : Int) → Lowered
  | .absent, n => ⟨[], .absent, n⟩
  | .const value, n => ⟨[], .const value, n⟩
  | .name label, n => ⟨[], .name label, n⟩
  | .temp t, n => ⟨[], .temp t, n⟩
  | .mem addr, n =>
    let a := addr.lower n
    ⟨a.stmts, .mem a.value, a.next⟩
  | .unop op arg, n =>
    let a := arg.lower n
    ⟨a.stmts, .unop op a.value, a.next⟩
  | .binop op fst snd, n =>
    let a := fst.lower n
    let b := snd.lower (a.next + 1)
    ⟨a.stmts ++ moveInto (a.next + 1) a.value :: (b.stmts ++ [moveInto (b.next + 1) b.value,
        moveInto (b.next + 2) (.binop op (.temp ⟨a.next + 1⟩) (.temp ⟨b.next + 1⟩))]),
      .temp ⟨b.next + 2⟩, b.next + 2⟩
  | .call label offs args, n =>
    let a := Expr.lowerArgs args n
    ⟨a.stmts ++ [moveInto (a.next + 1) (.call label offs (a.temps.map .temp))],
      .temp ⟨a.next + 1⟩, a.next + 1⟩
  | .sexpr stmt value, n =>
    let s := stmt.lower n
    let v := value.lower s.next
    ⟨s.stmts ++ v.stmts, v.value, v.next⟩

/-- Canonical code of arguments. -/
def Expr.lowerArgs : List Expr → (n : Int) → LoweredArgs
  | [], n => ⟨[], [], n⟩
  | arg :: args, n =>
    let a := arg.lower n
    let r := Expr.lowerArgs args (a.next + 1)
    ⟨a.stmts ++ moveInto (a.next + 1) a.value :: r.stmts, ⟨a.next + 1⟩ :: r.temps, r.next⟩

/-- Canonical code of a statement. -/
def Stmt.lower : Stmt → (n : Int) → LoweredStmts
  | .absent, n => ⟨[], n⟩
  | .jump label, n => ⟨[.jump label], n⟩
  | .label label, n => ⟨[.label label], n⟩
  | .eval e, n =>
    let a := e.lower n
    ⟨a.stmts ++ [.eval a.value], a.next⟩
  | .cjump cond pos neg, n =>
    let a := cond.lower n
    ⟨a.stmts ++ [.cjump a.value pos neg], a.next⟩
  | .move (.mem addr) src, n =>
    let a := addr.lower n
    let b := src.lower (a.next + 1)
    ⟨a.stmts ++ moveInto (a.next + 1) a.value
        :: (b.stmts ++ [.move (.mem (.temp ⟨a.next + 1⟩)) b.value]), b.next⟩
  | .move (.temp t) src, n =>
    let a := src.lower n
    ⟨a.stmts ++ [.move (.temp t) a.value], a.next⟩
  | .move _ _, n => ⟨[], n⟩
  | .seq stmts, n => Stmt.lowerAll stmts n

/-- Canonical code of a list of statements. -/
def Stmt.lowerAll : List Stmt → (n : Int) → LoweredStmts
  | [], n => ⟨[], n⟩
  | s :: ss, n =>
    let a := s.lower n
    let r := Stmt.lowerAll ss a.next
    ⟨a.stmts ++ r.stmts, r.next⟩

end

/-! ## §3 Canonicalization is lowering -/

/-- A fresh temp takes the value of an expression. -/
theorem run_materialize (e : Expr) (n l : Int) :
    (liftM (materialize e) : Fresh (Stmt × Expr)).run.run ⟨n, l⟩
      = (.ok (moveInto (n + 1) e, .temp ⟨n + 1⟩), ⟨n + 1, l⟩) := rfl

mutual

/-- **Canonicalization is lowering**: on a well-shaped tree it succeeds, and leaves the labels of the
supply alone. -/
theorem Expr.canonical_eq_lower : ∀ (e : Expr), e.Shaped → ∀ n l,
    e.canonical.run.run ⟨n, l⟩ = (.ok ((e.lower n).stmts, (e.lower n).value), ⟨(e.lower n).next, l⟩)
  | .absent, h, _, _ => h.elim
  | .const _, _, _, _ => rfl
  | .temp _, _, _, _ => rfl
  | .name _, _, _, _ => rfl
  | .mem addr, h, n, l => by
    rw [Expr.canonical, run_bind_ok (addr.canonical_eq_lower h n l)]
    rfl
  | .unop op arg, h, n, l => by
    rw [Expr.canonical, run_bind_ok (arg.canonical_eq_lower h n l)]
    rfl
  | .binop op fst snd, h, n, l => by
    rw [Expr.canonical, run_bind_ok (fst.canonical_eq_lower h.1 n l),
      run_bind_ok (run_materialize _ _ _), run_bind_ok (snd.canonical_eq_lower h.2 _ l),
      run_bind_ok (run_materialize _ _ _), run_bind_ok (run_materialize _ _ _)]
    simp [Expr.lower, Int.add_assoc]
    rfl
  | .call label offs args, h, n, l => by
    rw [Expr.canonical, run_bind_ok (Expr.canonicalArgs_eq_lower args h.2 n l),
      run_bind_ok (run_materialize _ _ _)]
    rfl
  | .sexpr stmt value, h, n, l => by
    rw [Expr.canonical, run_bind_ok (stmt.canonical_eq_lower h.1 n l),
      run_bind_ok (value.canonical_eq_lower h.2.2 _ l)]
    rfl

/-- The same for arguments. -/
theorem Expr.canonicalArgs_eq_lower : ∀ (es : List Expr), Expr.ShapedAll es → ∀ n l,
    (Expr.canonicalArgs es).run.run ⟨n, l⟩
      = (.ok ((Expr.lowerArgs es n).stmts, (Expr.lowerArgs es n).temps.map .temp),
        ⟨(Expr.lowerArgs es n).next, l⟩)
  | [], _, _, _ => rfl
  | e :: es, h, n, l => by
    rw [Expr.canonicalArgs, run_bind_ok (e.canonical_eq_lower h.1 n l),
      run_bind_ok (run_materialize _ _ _), run_bind_ok (Expr.canonicalArgs_eq_lower es h.2 _ l)]
    rfl

/-- The same for a statement. -/
theorem Stmt.canonical_eq_lower : ∀ (s : Stmt), s.Shaped → ∀ n l,
    s.canonical.run.run ⟨n, l⟩ = (.ok (s.lower n).stmts, ⟨(s.lower n).next, l⟩)
  | .absent, h, _, _ => h.elim
  | .jump _, _, _, _ => rfl
  | .label _, _, _, _ => rfl
  | .eval e, h, n, l => by
    rw [Stmt.canonical, run_bind_ok (e.canonical_eq_lower h n l)]
    rfl
  | .cjump cond _ _, h, n, l => by
    rw [Stmt.canonical, run_bind_ok (cond.canonical_eq_lower h n l)]
    rfl
  | .move (.mem addr) src, h, n, l => by
    rw [Stmt.canonical, run_bind_ok (addr.canonical_eq_lower h.1 n l),
      run_bind_ok (run_materialize _ _ _), run_bind_ok (src.canonical_eq_lower h.2 _ l)]
    simp [Stmt.lower]
    rfl
  | .move (.temp t) src, h, n, l => by
    rw [Stmt.canonical, run_bind_ok (src.canonical_eq_lower h n l)]
    rfl
  | .move .absent _, h, _, _ => h.elim
  | .move (.const _) _, h, _, _ => h.elim
  | .move (.name _) _, h, _, _ => h.elim
  | .move (.binop _ _ _) _, h, _, _ => h.elim
  | .move (.unop _ _) _, h, _, _ => h.elim
  | .move (.call _ _ _) _, h, _, _ => h.elim
  | .move (.sexpr _ _) _, h, _, _ => h.elim
  | .seq ss, h, n, l => by
    rw [Stmt.canonical, Stmt.canonicalAll_eq_lower ss h n l]
    rfl

/-- The same for a list of statements. -/
theorem Stmt.canonicalAll_eq_lower : ∀ (ss : List Stmt), Stmt.ShapedAll ss → ∀ n l,
    (Stmt.canonicalAll ss).run.run ⟨n, l⟩
      = (.ok (Stmt.lowerAll ss n).stmts, ⟨(Stmt.lowerAll ss n).next, l⟩)
  | [], _, _, _ => rfl
  | s :: ss, h, n, l => by
    rw [Stmt.canonicalAll, run_bind_ok (s.canonical_eq_lower h.1 n l),
      run_bind_ok (Stmt.canonicalAll_eq_lower ss h.2 _ l)]
    rfl

end

/-- The chunk of a well-shaped body: its canonical code between two fresh labels. -/
theorem CodeChunk.run_ofBody_eq (frame : Frame) {body : Expr} (h : body.Shaped) (n l : Int) :
    (CodeChunk.ofBody frame body).run.run ⟨n, l⟩
      = (.ok ⟨frame, "L" ++ toString (l + 1), "L" ++ toString (l + 1 + 1),
          .label ("L" ++ toString (l + 1)) :: (((Stmt.move (.temp frame.rv) body).lower n).stmts
            ++ [.jump ("L" ++ toString (l + 1 + 1))])⟩,
        ⟨((Stmt.move (.temp frame.rv) body).lower n).next, l + 1 + 1⟩) := by
  have hseq : (Stmt.seq [.label ("L" ++ toString (l + 1)), .move (.temp frame.rv) body,
      .jump ("L" ++ toString (l + 1 + 1))]).Shaped := ⟨trivial, h, trivial, trivial⟩
  unfold CodeChunk.ofBody
  rw [run_bind_ok (show (liftM freshLabel : Fresh Label).run.run ⟨n, l⟩
      = (.ok ("L" ++ toString (l + 1)), ⟨n, l + 1⟩) from rfl),
    run_bind_ok (show (liftM freshLabel : Fresh Label).run.run ⟨n, l + 1⟩
      = (.ok ("L" ++ toString (l + 1 + 1)), ⟨n, l + 1 + 1⟩) from rfl),
    run_bind_ok (Stmt.canonical_eq_lower _ hseq n (l + 1 + 1))]
  rfl

/-! ## §4 The counter grows -/

mutual

theorem Expr.le_lower_next : ∀ (e : Expr) (n : Int), n ≤ (e.lower n).next
  | .absent, _ | .const _, _ | .temp _, _ | .name _, _ => Int.le_refl _
  | .mem addr, n => addr.le_lower_next n
  | .unop _ arg, n => arg.le_lower_next n
  | .binop _ fst snd, n => by
    have h₁ := fst.le_lower_next n
    have h₂ := snd.le_lower_next ((fst.lower n).next + 1)
    simp only [Expr.lower]
    omega
  | .call _ _ args, n => by
    have h := Expr.le_lowerArgs_next args n
    simp only [Expr.lower]
    omega
  | .sexpr stmt value, n =>
    Int.le_trans (stmt.le_lower_next n) (value.le_lower_next (stmt.lower n).next)

theorem Expr.le_lowerArgs_next : ∀ (es : List Expr) (n : Int), n ≤ (Expr.lowerArgs es n).next
  | [], _ => Int.le_refl _
  | e :: es, n => by
    have h₁ := e.le_lower_next n
    have h₂ := Expr.le_lowerArgs_next es ((e.lower n).next + 1)
    simp only [Expr.lowerArgs]
    omega

theorem Stmt.le_lower_next : ∀ (s : Stmt) (n : Int), n ≤ (s.lower n).next
  | .absent, _ | .jump _, _ | .label _, _ => Int.le_refl _
  | .eval e, n => e.le_lower_next n
  | .cjump cond _ _, n => cond.le_lower_next n
  | .move (.mem addr) src, n => by
    have h₁ := addr.le_lower_next n
    have h₂ := src.le_lower_next ((addr.lower n).next + 1)
    simp only [Stmt.lower]
    omega
  | .move (.temp _) src, n => src.le_lower_next n
  | .move .absent _, _ | .move (.const _) _, _ | .move (.name _) _, _ | .move (.binop _ _ _) _, _
  | .move (.unop _ _) _, _ | .move (.call _ _ _) _, _ | .move (.sexpr _ _) _, _ => Int.le_refl _
  | .seq ss, n => Stmt.le_lowerAll_next ss n

theorem Stmt.le_lowerAll_next : ∀ (ss : List Stmt) (n : Int), n ≤ (Stmt.lowerAll ss n).next
  | [], _ => Int.le_refl _
  | s :: ss, n => Int.le_trans (s.le_lower_next n) (Stmt.le_lowerAll_next ss (s.lower n).next)

end

/-! ## §5 Sequences -/

theorem Stmt.lowerAll_append (ss ss' : List Stmt) (n : Int) :
    Stmt.lowerAll (ss ++ ss') n
      = ⟨(Stmt.lowerAll ss n).stmts ++ (Stmt.lowerAll ss' (Stmt.lowerAll ss n).next).stmts,
        (Stmt.lowerAll ss' (Stmt.lowerAll ss n).next).next⟩ := by
  induction ss generalizing n with
  | nil => rfl
  | cons s ss ih => simp [Stmt.lowerAll, ih]

/-- A statement alone in a list. -/
theorem Stmt.lowerAll_singleton (s : Stmt) (n : Int) : Stmt.lowerAll [s] n = s.lower n := by
  simp [Stmt.lowerAll]

mutual

/-- Lowering does not see nested sequences. -/
theorem Stmt.lower_eq_lowerAll_flatten : ∀ (s : Stmt) (n : Int),
    s.lower n = Stmt.lowerAll s.flatten n
  | .absent, n | .jump _, n | .label _, n | .eval _, n | .cjump _ _ _, n | .move _ _, n =>
    (Stmt.lowerAll_singleton _ n).symm
  | .seq ss, n => Stmt.lowerAll_eq_lowerAll_flattenAll ss n

theorem Stmt.lowerAll_eq_lowerAll_flattenAll : ∀ (ss : List Stmt) (n : Int),
    Stmt.lowerAll ss n = Stmt.lowerAll (Stmt.flattenAll ss) n
  | [], _ => rfl
  | s :: ss, n => by
    rw [Stmt.flattenAll, Stmt.lowerAll_append, ← s.lower_eq_lowerAll_flatten n,
      ← Stmt.lowerAll_eq_lowerAll_flattenAll ss]
    rfl

end

theorem Stmt.shapedAll_append {ss ss' : List Stmt} :
    Stmt.ShapedAll (ss ++ ss') ↔ Stmt.ShapedAll ss ∧ Stmt.ShapedAll ss' := by
  induction ss with
  | nil => simp [Stmt.ShapedAll]
  | cons s ss ih => simp [Stmt.ShapedAll, ih, and_assoc]

theorem Stmt.ShapedAll.of_mem {ss : List Stmt} (h : Stmt.ShapedAll ss) {s : Stmt} (hs : s ∈ ss) :
    s.Shaped := by
  induction ss with
  | nil => cases hs
  | cons s' ss ih =>
    rcases List.mem_cons.mp hs with rfl | hs
    · exact h.1
    · exact ih h.2 hs

theorem Stmt.tempsAll_append (ss ss' : List Stmt) :
    Stmt.tempsAll (ss ++ ss') = Stmt.tempsAll ss ++ Stmt.tempsAll ss' := by
  induction ss with
  | nil => rfl
  | cons s ss ih => simp [Stmt.tempsAll, ih]

theorem Stmt.temps_subset_tempsAll {ss : List Stmt} {s : Stmt} (hs : s ∈ ss) :
    s.temps ⊆ Stmt.tempsAll ss := by
  induction ss with
  | nil => cases hs
  | cons s' ss ih =>
    intro t ht
    rcases List.mem_cons.mp hs with rfl | hs
    · exact List.mem_append_left _ ht
    · exact List.mem_append_right _ (ih hs ht)

mutual

theorem Stmt.Shaped.flatten : ∀ {s : Stmt}, s.Shaped → Stmt.ShapedAll s.flatten
  | .absent, h => h.elim
  | .jump _, h | .label _, h | .eval _, h | .cjump _ _ _, h | .move _ _, h => ⟨h, trivial⟩
  | .seq _, h => Stmt.ShapedAll.flattenAll h

theorem Stmt.ShapedAll.flattenAll : ∀ {ss : List Stmt}, Stmt.ShapedAll ss →
    Stmt.ShapedAll (Stmt.flattenAll ss)
  | [], _ => trivial
  | _ :: _, h => Stmt.shapedAll_append.mpr ⟨Stmt.Shaped.flatten h.1, Stmt.ShapedAll.flattenAll h.2⟩

end

mutual

theorem Stmt.tempsAll_flatten : ∀ (s : Stmt), Stmt.tempsAll s.flatten = s.temps
  | .absent | .jump _ | .label _ | .eval _ | .cjump _ _ _ | .move _ _ => by
    simp [Stmt.flatten, Stmt.tempsAll]
  | .seq ss => by rw [Stmt.flatten, Stmt.temps, Stmt.tempsAll_flattenAll ss]

theorem Stmt.tempsAll_flattenAll : ∀ (ss : List Stmt),
    Stmt.tempsAll (Stmt.flattenAll ss) = Stmt.tempsAll ss
  | [] => rfl
  | s :: ss => by
    rw [Stmt.flattenAll, Stmt.tempsAll_append, s.tempsAll_flatten, Stmt.tempsAll_flattenAll ss]
    rfl

end

mutual

/-- A flattened statement has no sequences in it. -/
theorem Stmt.ne_seq_of_mem_flatten : ∀ (s : Stmt), ∀ s' ∈ s.flatten, ∀ ss, s' ≠ .seq ss
  | .absent | .jump _ | .label _ | .eval _ | .cjump _ _ _ | .move _ _ => by
    simp [Stmt.flatten]
  | .seq ss => Stmt.ne_seq_of_mem_flattenAll ss

theorem Stmt.ne_seq_of_mem_flattenAll : ∀ (ss : List Stmt),
    ∀ s' ∈ Stmt.flattenAll ss, ∀ ss', s' ≠ .seq ss'
  | [] => by simp [Stmt.flattenAll]
  | s :: ss => by
    intro s' hs'
    rcases List.mem_append.mp hs' with h | h
    · exact s.ne_seq_of_mem_flatten s' h
    · exact Stmt.ne_seq_of_mem_flattenAll ss s' h

end

mutual

/-- No statement of a flattened statement weighs more than the whole. -/
theorem Stmt.weight_le_of_mem_flatten : ∀ (s : Stmt), ∀ s' ∈ s.flatten, s'.weight ≤ s.weight
  | .absent | .jump _ | .label _ | .eval _ | .cjump _ _ _ | .move _ _ => by
    simp [Stmt.flatten]
  | .seq ss => fun s' hs' => Nat.le_succ_of_le (Stmt.weight_le_of_mem_flattenAll ss s' hs')

theorem Stmt.weight_le_of_mem_flattenAll : ∀ (ss : List Stmt),
    ∀ s' ∈ Stmt.flattenAll ss, s'.weight ≤ Stmt.weightAll ss
  | [] => by simp [Stmt.flattenAll]
  | s :: ss => by
    intro s' hs'
    rcases List.mem_append.mp hs' with h | h
    · exact Nat.le_trans (s.weight_le_of_mem_flatten s' h) (Nat.le_add_right _ _)
    · exact Nat.le_trans (Stmt.weight_le_of_mem_flattenAll ss s' h) (Nat.le_add_left _ _)

end

/-- A list without sequences is flat. -/
theorem Stmt.flattenAll_of_ne_seq {ss : List Stmt} (h : ∀ s ∈ ss, ∀ ss', s ≠ .seq ss') :
    Stmt.flattenAll ss = ss := by
  induction ss with
  | nil => rfl
  | cons s ss ih =>
    have hrest := ih fun s' hs' => h s' (List.mem_cons_of_mem _ hs')
    have hs := h s List.mem_cons_self
    cases s <;> simp_all [Stmt.flattenAll, Stmt.flatten]

/-! ## §6 What canonical code consists of -/

@[simp] theorem Stmt.labelsOf_append (ss ss' : List Stmt) :
    Stmt.labelsOf (ss ++ ss') = Stmt.labelsOf ss ++ Stmt.labelsOf ss' := by
  simp [Stmt.labelsOf]

@[simp] theorem Stmt.labelsOf_moveInto_cons (n : Int) (e : Expr) (ss : List Stmt) :
    Stmt.labelsOf (moveInto n e :: ss) = Stmt.labelsOf ss := rfl

@[simp] theorem Stmt.labelsOf_nil : Stmt.labelsOf [] = [] := rfl

theorem Stmt.mem_labelsOf {l : Label} {ss : List Stmt} :
    l ∈ Stmt.labelsOf ss ↔ .label l ∈ ss := by
  simp only [Stmt.labelsOf, List.mem_filterMap]
  constructor
  · rintro ⟨s, hs, heq⟩
    cases s <;> simp_all
  · intro h
    exact ⟨_, h, rfl⟩

mutual

theorem Expr.labelsOf_lower : ∀ (e : Expr), e.Shaped → ∀ n,
    Stmt.labelsOf (e.lower n).stmts = e.labels
  | .absent, _, _ | .const _, _, _ | .temp _, _, _ | .name _, _, _ => rfl
  | .mem addr, h, n => addr.labelsOf_lower h n
  | .unop _ arg, h, n => arg.labelsOf_lower h n
  | .binop _ fst snd, h, n => by
    simp [Expr.lower, Expr.labels, fst.labelsOf_lower h.1, snd.labelsOf_lower h.2]
  | .call _ _ args, h, n => by
    simp [Expr.lower, Expr.labels, Expr.labelsOf_lowerArgs args h.2]
  | .sexpr stmt value, h, n => by
    simp [Expr.lower, Expr.labels, stmt.labelsOf_lower h.1, value.labelsOf_lower h.2.2]

theorem Expr.labelsOf_lowerArgs : ∀ (es : List Expr), Expr.ShapedAll es → ∀ n,
    Stmt.labelsOf (Expr.lowerArgs es n).stmts = Expr.labelsAll es
  | [], _, _ => rfl
  | e :: es, h, n => by
    simp [Expr.lowerArgs, Expr.labelsAll, e.labelsOf_lower h.1, Expr.labelsOf_lowerArgs es h.2]

/-- Canonical code has the labels of its tree, in the same order. -/
theorem Stmt.labelsOf_lower : ∀ (s : Stmt), s.Shaped → ∀ n,
    Stmt.labelsOf (s.lower n).stmts = s.labels
  | .absent, _, _ | .jump _, _, _ | .label _, _, _ => rfl
  | .eval e, h, n => by
    simp only [Stmt.lower, Stmt.labelsOf_append, e.labelsOf_lower h, Stmt.labels]
    exact List.append_nil _
  | .cjump cond _ _, h, n => by
    simp only [Stmt.lower, Stmt.labelsOf_append, cond.labelsOf_lower h, Stmt.labels]
    exact List.append_nil _
  | .move (.mem addr) src, h, n => by
    simp only [Stmt.lower, Stmt.labelsOf_append, Stmt.labelsOf_moveInto_cons,
      addr.labelsOf_lower h.1, src.labelsOf_lower h.2, Stmt.labels, Expr.labels]
    exact congrArg _ (List.append_nil _)
  | .move (.temp _) src, h, n => by
    simp only [Stmt.lower, Stmt.labelsOf_append, src.labelsOf_lower h, Stmt.labels, Expr.labels]
    exact List.append_nil _
  | .move .absent _, h, _ | .move (.const _) _, h, _ | .move (.name _) _, h, _
  | .move (.binop _ _ _) _, h, _ | .move (.unop _ _) _, h, _ | .move (.call _ _ _) _, h, _
  | .move (.sexpr _ _) _, h, _ => h.elim
  | .seq ss, h, n => Stmt.labelsOf_lowerAll ss h n

theorem Stmt.labelsOf_lowerAll : ∀ (ss : List Stmt), Stmt.ShapedAll ss → ∀ n,
    Stmt.labelsOf (Stmt.lowerAll ss n).stmts = Stmt.labelsAll ss
  | [], _, _ => rfl
  | s :: ss, h, n => by
    simp [Stmt.lowerAll, Stmt.labelsAll, s.labelsOf_lower h.1, Stmt.labelsOf_lowerAll ss h.2]

end

mutual

theorem Expr.ne_seq_of_mem_lower : ∀ (e : Expr) (n : Int), ∀ s ∈ (e.lower n).stmts,
    ∀ ss, s ≠ .seq ss
  | .absent, _ | .const _, _ | .temp _, _ | .name _, _ => fun _ hs => by cases hs
  | .mem addr, n => addr.ne_seq_of_mem_lower n
  | .unop _ arg, n => arg.ne_seq_of_mem_lower n
  | .binop _ fst snd, n => by
    have h₁ := fst.ne_seq_of_mem_lower n
    have h₂ := snd.ne_seq_of_mem_lower ((fst.lower n).next + 1)
    intro s hs
    simp only [Expr.lower, List.mem_append, List.mem_cons, moveInto] at hs
    grind
  | .call _ _ args, n => by
    have h := Expr.ne_seq_of_mem_lowerArgs args n
    intro s hs
    simp only [Expr.lower, List.mem_append, List.mem_cons, moveInto] at hs
    grind
  | .sexpr stmt value, n => by
    intro s hs
    rcases List.mem_append.mp hs with hs | hs
    · exact stmt.ne_seq_of_mem_lower n s hs
    · exact value.ne_seq_of_mem_lower _ s hs

theorem Expr.ne_seq_of_mem_lowerArgs : ∀ (es : List Expr) (n : Int),
    ∀ s ∈ (Expr.lowerArgs es n).stmts, ∀ ss, s ≠ .seq ss
  | [], _ => fun _ hs => by cases hs
  | e :: es, n => by
    have h₁ := e.ne_seq_of_mem_lower n
    have h₂ := Expr.ne_seq_of_mem_lowerArgs es ((e.lower n).next + 1)
    intro s hs
    simp only [Expr.lowerArgs, List.mem_append, List.mem_cons, moveInto] at hs
    grind

/-- Canonical code has no sequences in it. -/
theorem Stmt.ne_seq_of_mem_lower : ∀ (s : Stmt) (n : Int), ∀ s' ∈ (s.lower n).stmts,
    ∀ ss, s' ≠ .seq ss
  | .absent, _ => fun _ hs => by cases hs
  | .jump _, _ | .label _, _ => by simp [Stmt.lower]
  | .eval e, n => by
    have h := e.ne_seq_of_mem_lower n
    intro s hs
    simp only [Stmt.lower, List.mem_append, List.mem_cons] at hs
    grind
  | .cjump cond _ _, n => by
    have h := cond.ne_seq_of_mem_lower n
    intro s hs
    simp only [Stmt.lower, List.mem_append, List.mem_cons] at hs
    grind
  | .move (.mem addr) src, n => by
    have h₁ := addr.ne_seq_of_mem_lower n
    have h₂ := src.ne_seq_of_mem_lower ((addr.lower n).next + 1)
    intro s hs
    simp only [Stmt.lower, List.mem_append, List.mem_cons, moveInto] at hs
    grind
  | .move (.temp _) src, n => by
    have h := src.ne_seq_of_mem_lower n
    intro s hs
    simp only [Stmt.lower, List.mem_append, List.mem_cons] at hs
    grind
  | .move .absent _, _ | .move (.const _) _, _ | .move (.name _) _, _ | .move (.binop _ _ _) _, _
  | .move (.unop _ _) _, _ | .move (.call _ _ _) _, _ | .move (.sexpr _ _) _, _ =>
    fun _ hs => by cases hs
  | .seq ss, n => Stmt.ne_seq_of_mem_lowerAll ss n

theorem Stmt.ne_seq_of_mem_lowerAll : ∀ (ss : List Stmt) (n : Int),
    ∀ s ∈ (Stmt.lowerAll ss n).stmts, ∀ ss', s ≠ .seq ss'
  | [], _ => fun _ hs => by cases hs
  | s :: ss, n => by
    intro s' hs
    rcases List.mem_append.mp hs with hs | hs
    · exact s.ne_seq_of_mem_lower n s' hs
    · exact Stmt.ne_seq_of_mem_lowerAll ss _ s' hs

end

/-- An operand: a temp, a constant or an address, under reads and unary operators. -/
def Expr.IsOperand : Expr → Prop
  | .const _ | .temp _ | .name _ => True
  | .mem addr => addr.IsOperand
  | .unop _ arg => arg.IsOperand
  | _ => False

/-- What canonicalization leaves of an expression is an operand. -/
theorem Expr.isOperand_lower : ∀ (e : Expr), e.Shaped → ∀ n, (e.lower n).value.IsOperand
  | .absent, h, _ => h.elim
  | .const _, _, _ | .temp _, _, _ | .name _, _, _ => trivial
  | .mem addr, h, n => addr.isOperand_lower h n
  | .unop _ arg, h, n => arg.isOperand_lower h n
  | .binop _ _ _, _, _ | .call _ _ _, _, _ => trivial
  | .sexpr _ value, h, _ => value.isOperand_lower h.2.2 _

end MmixBackend.IR
