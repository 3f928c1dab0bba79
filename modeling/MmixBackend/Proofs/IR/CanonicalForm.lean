import MmixBackend.Proofs.Instr.Selection

/-!
# The form of canonical lists

Whatever canonicalization returns has a form of its own: no holes, no statements inside expressions, no
nested sequences, and moves to temps and memory locations only. This holds without any assumption on the
tree, which may jump where it likes; if its operators are known and its calls have as many offsets as
arguments, the list can be selected.

## Main statements

- `Stmt.whole_of_canonical`: what canonicalization returns is whole.
- `Stmt.Whole.selectable`: a regular statement of this form can be selected.
-/

namespace MmixBackend.IR

/-! ## §1 Whole and regular code -/

mutual

/-- An expression without holes and statements, with temps numbered up to `n`. -/
def Expr.Whole (n : Int) : Expr → Prop
  | .absent | .sexpr _ _ => False
  | .const _ | .name _ => True
  | .temp t => t.index ≤ n
  | .mem addr => addr.Whole n
  | .binop _ fst snd => fst.Whole n ∧ snd.Whole n
  | .unop _ arg => arg.Whole n
  | .call _ _ args => Expr.WholeAll n args

/-- The same for all expressions of a list. -/
def Expr.WholeAll (n : Int) : List Expr → Prop
  | [] => True
  | e :: es => e.Whole n ∧ Expr.WholeAll n es

end

/-- A statement of a canonical list. -/
def Stmt.Whole (n : Int) : Stmt → Prop
  | .eval e => e.Whole n
  | .move (.temp t) src => t.index ≤ n ∧ src.Whole n
  | .move (.mem addr) src => addr.Whole n ∧ src.Whole n
  | .cjump cond _ _ => cond.Whole n
  | .jump _ | .label _ => True
  | _ => False

mutual

/-- The operators are known and calls have as many offsets as arguments. -/
def Expr.Regular : Expr → Prop
  | .absent | .const _ | .name _ | .temp _ => True
  | .mem addr => addr.Regular
  | .binop op fst snd => op.Known ∧ fst.Regular ∧ snd.Regular
  | .unop op arg => op.Known ∧ arg.Regular
  | .call _ offs args => offs.length = args.length ∧ Expr.RegularAll args
  | .sexpr stmt value => stmt.Regular ∧ value.Regular

/-- The same for all expressions of a list. -/
def Expr.RegularAll : List Expr → Prop
  | [] => True
  | e :: es => e.Regular ∧ Expr.RegularAll es

/-- The same for a statement. -/
def Stmt.Regular : Stmt → Prop
  | .absent | .jump _ | .label _ => True
  | .eval e => e.Regular
  | .move dst src => dst.Regular ∧ src.Regular
  | .cjump cond _ _ => cond.Regular
  | .seq stmts => Stmt.RegularAll stmts

/-- The same for all statements of a list. -/
def Stmt.RegularAll : List Stmt → Prop
  | [] => True
  | s :: ss => s.Regular ∧ Stmt.RegularAll ss

end

theorem Stmt.Whole.ne_seq {n : Int} {s : Stmt} (h : s.Whole n) (ss : List Stmt) : s ≠ .seq ss := by
  rintro rfl
  exact h

mutual

theorem Expr.whole_mono {n n' : Int} (hn : n ≤ n') : ∀ (e : Expr), e.Whole n → e.Whole n'
  | .absent, h | .sexpr _ _, h => h.elim
  | .const _, _ | .name _, _ => trivial
  | .temp _, h => Int.le_trans h hn
  | .mem addr, h => addr.whole_mono hn h
  | .binop _ fst snd, h => ⟨fst.whole_mono hn h.1, snd.whole_mono hn h.2⟩
  | .unop _ arg, h => arg.whole_mono hn h
  | .call _ _ args, h => Expr.wholeAll_mono hn args h

theorem Expr.wholeAll_mono {n n' : Int} (hn : n ≤ n') :
    ∀ (es : List Expr), Expr.WholeAll n es → Expr.WholeAll n' es
  | [], _ => trivial
  | e :: es, h => ⟨e.whole_mono hn h.1, Expr.wholeAll_mono hn es h.2⟩

end

theorem Expr.Whole.mono {n n' : Int} {e : Expr} (h : e.Whole n) (hn : n ≤ n') : e.Whole n' :=
  e.whole_mono hn h

theorem Stmt.Whole.mono {n n' : Int} {s : Stmt} (h : s.Whole n) (hn : n ≤ n') : s.Whole n' := by
  unfold Stmt.Whole at h ⊢
  split at h
  · exact h.mono hn
  · exact ⟨Int.le_trans h.1 hn, h.2.mono hn⟩
  · exact ⟨h.1.mono hn, h.2.mono hn⟩
  · exact h.mono hn
  · trivial
  · trivial
  · exact h.elim

mutual

theorem Expr.Whole.temps_le {n : Int} : ∀ {e : Expr}, e.Whole n → ∀ t ∈ e.temps, t.index ≤ n
  | .absent, h, _, _ | .sexpr _ _, h, _, _ => h.elim
  | .const _, _, _, ht | .name _, _, _, ht => (List.not_mem_nil ht).elim
  | .temp _, h, t, ht => by
    rw [List.mem_singleton.mp ht]
    exact h
  | .mem addr, h, t, ht => Expr.Whole.temps_le (e := addr) h t ht
  | .binop _ fst snd, h, t, ht =>
    (List.mem_append.mp ht).elim (h.1.temps_le t) (h.2.temps_le t)
  | .unop _ arg, h, t, ht => Expr.Whole.temps_le (e := arg) h t ht
  | .call _ _ args, h, t, ht => Expr.WholeAll.temps_le h t ht

theorem Expr.WholeAll.temps_le {n : Int} : ∀ {es : List Expr}, Expr.WholeAll n es →
    ∀ t ∈ Expr.tempsAll es, t.index ≤ n
  | [], _, _, ht => (List.not_mem_nil ht).elim
  | _ :: _, h, t, ht => (List.mem_append.mp ht).elim (h.1.temps_le t) (Expr.WholeAll.temps_le h.2 t)

end

mutual

theorem Expr.Whole.selectable {n : Int} : ∀ {e : Expr}, e.Whole n → e.Regular → e.Selectable n
  | .absent, h, _ | .sexpr _ _, h, _ => h.elim
  | .const _, _, _ | .name _, _, _ => trivial
  | .temp _, h, _ => h
  | .mem addr, h, hr => Expr.Whole.selectable (e := addr) h hr
  | .binop _ _ _, h, hr => ⟨hr.1, h.1.selectable hr.2.1, h.2.selectable hr.2.2⟩
  | .unop _ arg, h, hr => ⟨hr.1, Expr.Whole.selectable (e := arg) h hr.2⟩
  | .call _ _ _, h, hr => ⟨hr.1, Expr.WholeAll.selectable h hr.2⟩

theorem Expr.WholeAll.selectable {n : Int} : ∀ {es : List Expr}, Expr.WholeAll n es →
    Expr.RegularAll es → Expr.SelectableAll n es
  | [], _, _ => trivial
  | _ :: _, h, hr => ⟨h.1.selectable hr.1, Expr.WholeAll.selectable h.2 hr.2⟩

end

/-- Statements of a canonical list. -/
def Stmt.WholeAll (n : Int) (ss : List Stmt) : Prop := ∀ s ∈ ss, s.Whole n

theorem Stmt.WholeAll.mono {n n' : Int} {ss : List Stmt} (h : Stmt.WholeAll n ss) (hn : n ≤ n') :
    Stmt.WholeAll n' ss :=
  fun s hs => (h s hs).mono hn

theorem Stmt.WholeAll.append {n : Int} {ss ss' : List Stmt} (h : Stmt.WholeAll n ss)
    (h' : Stmt.WholeAll n ss') : Stmt.WholeAll n (ss ++ ss') :=
  List.forall_mem_append.mpr ⟨h, h'⟩

theorem Stmt.WholeAll.single {n : Int} {s : Stmt} (h : s.Whole n) : Stmt.WholeAll n [s] :=
  List.forall_mem_singleton.mpr h

/-- A value goes into a temp and other statements follow. -/
theorem Stmt.WholeAll.moveInto {n k : Int} {e : Expr} {ss : List Stmt} (hk : k ≤ n) (he : e.Whole n)
    (h : Stmt.WholeAll n ss) : Stmt.WholeAll n (IR.moveInto k e :: ss) :=
  List.forall_mem_cons.mpr ⟨⟨hk, he⟩, h⟩

theorem Stmt.WholeAll.nil (n : Int) : Stmt.WholeAll n [] := fun _ hs => (List.not_mem_nil hs).elim

theorem Stmt.Whole.selectable {n : Int} {s : Stmt} (h : s.Whole n) (hr : s.Regular) :
    s.Selectable n := by
  unfold Stmt.Whole at h
  split at h
  · exact h.selectable hr
  · exact ⟨h.1, h.2.selectable hr.2⟩
  · exact ⟨h.1.selectable hr.1, h.2.selectable hr.2⟩
  · exact h.selectable hr
  · trivial
  · trivial
  · exact h.elim

theorem Stmt.Whole.temps_le {n : Int} {s : Stmt} (h : s.Whole n) : ∀ t ∈ s.temps, t.index ≤ n := by
  unfold Stmt.Whole at h
  split at h
  · exact h.temps_le
  · exact List.forall_mem_append.mpr ⟨List.forall_mem_singleton.mpr h.1, h.2.temps_le⟩
  · exact List.forall_mem_append.mpr ⟨h.1.temps_le, h.2.temps_le⟩
  · exact h.temps_le
  · exact fun _ ht => (List.not_mem_nil ht).elim
  · exact fun _ ht => (List.not_mem_nil ht).elim
  · exact h.elim

theorem Stmt.WholeAll.temps_le {n : Int} {ss : List Stmt} (h : Stmt.WholeAll n ss) :
    ∀ t ∈ Stmt.tempsAll ss, t.index ≤ n := by
  induction ss with
  | nil => exact fun _ ht => (List.not_mem_nil ht).elim
  | cons s ss ih =>
    obtain ⟨hs, hss⟩ := List.forall_mem_cons.mp h
    exact List.forall_mem_append.mpr ⟨hs.temps_le, ih hss⟩

/-! ## §2 Canonical lists are whole -/

theorem eq_of_run_materialize {e : Expr} {σ σ' : Supply} {r : Stmt × Expr}
    (h : (liftM (materialize e) : Fresh (Stmt × Expr)).run.run σ = (.ok r, σ')) :
    r = (moveInto (σ.temps + 1) e, .temp ⟨σ.temps + 1⟩) ∧ σ' = ⟨σ.temps + 1, σ.labels⟩ := by
  cases h
  exact ⟨rfl, rfl⟩

mutual

/-- What canonicalization makes of an expression is whole, and so is the value that is left. -/
theorem Expr.whole_of_canonical : ∀ (e : Expr) {σ σ' : Supply} {r : List Stmt × Expr},
    e.canonical.run.run σ = (.ok r, σ') → (∀ t ∈ e.temps, t.index ≤ σ.temps) →
    σ.temps ≤ σ'.temps ∧ Stmt.WholeAll σ'.temps r.1 ∧ r.2.Whole σ'.temps
  | .absent, _, _, _, h, _ => by cases h
  | .const _, _, _, _, h, _ => by
    cases h
    exact ⟨Int.le_refl _, .nil _, trivial⟩
  | .name _, _, _, _, h, _ => by
    cases h
    exact ⟨Int.le_refl _, .nil _, trivial⟩
  | .temp t, _, _, _, h, ht => by
    cases h
    exact ⟨Int.le_refl _, .nil _, ht t (List.mem_singleton_self t)⟩
  | .mem addr, _, _, _, h, ht => by
    -- No temp is taken here, so the supply is where the address has left it.
    rw [Expr.canonical] at h
    obtain ⟨r, σ₁, haddr, h⟩ := run_bind_eq_ok h
    obtain ⟨hle, hs, hv⟩ := addr.whole_of_canonical haddr ht
    cases h
    exact ⟨hle, hs, hv⟩
  | .unop _ arg, _, _, _, h, ht => by
    rw [Expr.canonical] at h
    obtain ⟨r, σ₁, harg, h⟩ := run_bind_eq_ok h
    obtain ⟨hle, hs, hv⟩ := arg.whole_of_canonical harg ht
    cases h
    exact ⟨hle, hs, hv⟩
  | .binop op fst snd, σ, _, _, h, ht => by
    -- Both operands and the result are moved into temps, each one handed out when it is needed.
    obtain ⟨ht₁, ht₂⟩ := List.forall_mem_append.mp ht
    rw [Expr.canonical] at h
    obtain ⟨r₁, σ₁, hfst, h⟩ := run_bind_eq_ok h
    obtain ⟨hle₁, hs₁, hv₁⟩ := fst.whole_of_canonical hfst ht₁
    obtain ⟨_, _, hmove, h⟩ := run_bind_eq_ok h
    obtain ⟨rfl, rfl⟩ := eq_of_run_materialize hmove
    obtain ⟨r₂, σ₂, hsnd, h⟩ := run_bind_eq_ok h
    obtain ⟨hle₂, hs₂, hv₂⟩ := snd.whole_of_canonical hsnd
      fun t ht' => Int.le_trans (ht₂ t ht') (by simp only; omega)
    obtain ⟨_, _, hmove, h⟩ := run_bind_eq_ok h
    obtain ⟨rfl, rfl⟩ := eq_of_run_materialize hmove
    obtain ⟨_, _, hmove, h⟩ := run_bind_eq_ok h
    obtain ⟨rfl, rfl⟩ := eq_of_run_materialize hmove
    cases h
    simp only at hle₂ ⊢
    refine ⟨by omega, ?_, Int.le_refl _⟩
    rw [List.append_assoc]
    apply (hs₁.mono (by omega)).append
    apply Stmt.WholeAll.moveInto (by omega) (hv₁.mono (by omega))
    apply (hs₂.mono (by omega)).append
    apply Stmt.WholeAll.moveInto (by omega) (hv₂.mono (by omega))
    apply Stmt.WholeAll.moveInto (Int.le_refl _) ?_ (.nil _)
    exact ⟨by show _ + 1 ≤ _ + 1 + 1; omega, by show _ + 1 ≤ _ + 1 + 1; omega⟩
  | .call label offs args, _, _, _, h, ht => by
    rw [Expr.canonical] at h
    obtain ⟨r, σ₁, hargs, h⟩ := run_bind_eq_ok h
    obtain ⟨hle, hs, hts⟩ := Expr.whole_of_canonicalArgs args hargs ht
    -- The result of the call is the last temp that is handed out.
    obtain ⟨_, _, hmove, h⟩ := run_bind_eq_ok h
    obtain ⟨rfl, rfl⟩ := eq_of_run_materialize hmove
    cases h
    simp only
    refine ⟨by omega, (hs.mono (by omega)).append ?_, Int.le_refl _⟩
    exact .moveInto (Int.le_refl _) (Expr.wholeAll_mono (by omega) _ hts) (.nil _)
  | .sexpr stmt value, _, _, _, h, ht => by
    obtain ⟨ht₁, ht₂⟩ := List.forall_mem_append.mp ht
    rw [Expr.canonical] at h
    obtain ⟨ss, σ₁, hstmt, h⟩ := run_bind_eq_ok h
    obtain ⟨hle₁, hs₁⟩ := stmt.whole_of_canonical hstmt ht₁
    -- The temps of the value had been handed out before the statement took its own.
    obtain ⟨r, σ₂, hvalue, h⟩ := run_bind_eq_ok h
    obtain ⟨hle₂, hs₂, hv⟩ := value.whole_of_canonical hvalue fun t ht' => Int.le_trans (ht₂ t ht') hle₁
    cases h
    exact ⟨Int.le_trans hle₁ hle₂, (hs₁.mono hle₂).append hs₂, hv⟩

theorem Expr.whole_of_canonicalArgs : ∀ (es : List Expr) {σ σ' : Supply}
    {r : List Stmt × List Expr}, (Expr.canonicalArgs es).run.run σ = (.ok r, σ') →
    (∀ t ∈ Expr.tempsAll es, t.index ≤ σ.temps) →
    σ.temps ≤ σ'.temps ∧ Stmt.WholeAll σ'.temps r.1 ∧ Expr.WholeAll σ'.temps r.2
  | [], _, _, _, h, _ => by
    cases h
    exact ⟨Int.le_refl _, .nil _, trivial⟩
  | e :: es, _, _, _, h, ht => by
    obtain ⟨ht₁, ht₂⟩ := List.forall_mem_append.mp ht
    rw [Expr.canonicalArgs] at h
    obtain ⟨r₁, σ₁, he, h⟩ := run_bind_eq_ok h
    obtain ⟨hle₁, hs₁, hv₁⟩ := e.whole_of_canonical he ht₁
    obtain ⟨_, _, hmove, h⟩ := run_bind_eq_ok h
    obtain ⟨rfl, rfl⟩ := eq_of_run_materialize hmove
    obtain ⟨r₂, σ₂, hes, h⟩ := run_bind_eq_ok h
    obtain ⟨hle₂, hs₂, hv₂⟩ := Expr.whole_of_canonicalArgs es hes
      fun t ht' => Int.le_trans (ht₂ t ht') (by simp only; omega)
    cases h
    simp only at hle₂ ⊢
    refine ⟨by omega, ?_, hle₂, hv₂⟩
    exact (hs₁.mono (by omega)).append (.moveInto (by omega) (hv₁.mono (by omega)) hs₂)

theorem Stmt.whole_of_canonical : ∀ (s : Stmt) {σ σ' : Supply} {ss : List Stmt},
    s.canonical.run.run σ = (.ok ss, σ') → (∀ t ∈ s.temps, t.index ≤ σ.temps) →
    σ.temps ≤ σ'.temps ∧ Stmt.WholeAll σ'.temps ss
  | .absent, _, _, _, h, _ => by cases h
  | .jump _, _, _, _, h, _ => by
    cases h
    exact ⟨Int.le_refl _, .single trivial⟩
  | .label _, _, _, _, h, _ => by
    cases h
    exact ⟨Int.le_refl _, .single trivial⟩
  | .eval e, _, _, _, h, ht => by
    -- What is left of the expression stays a statement of its own.
    rw [Stmt.canonical] at h
    obtain ⟨r, σ₁, he, h⟩ := run_bind_eq_ok h
    obtain ⟨hle, hs, hv⟩ := e.whole_of_canonical he ht
    cases h
    exact ⟨hle, hs.append (.single hv)⟩
  | .cjump cond _ _, _, _, _, h, ht => by
    rw [Stmt.canonical] at h
    obtain ⟨r, σ₁, hcond, h⟩ := run_bind_eq_ok h
    obtain ⟨hle, hs, hv⟩ := cond.whole_of_canonical hcond ht
    cases h
    exact ⟨hle, hs.append (.single hv)⟩
  | .move (.mem addr) src, σ, _, _, h, ht => by
    -- The address goes into a temp before the source is evaluated; the source stays where it is.
    obtain ⟨ht₁, ht₂⟩ := List.forall_mem_append.mp ht
    rw [Stmt.canonical] at h
    obtain ⟨r₁, σ₁, haddr, h⟩ := run_bind_eq_ok h
    obtain ⟨hle₁, hs₁, hv₁⟩ := addr.whole_of_canonical haddr ht₁
    obtain ⟨_, _, hmove, h⟩ := run_bind_eq_ok h
    obtain ⟨rfl, rfl⟩ := eq_of_run_materialize hmove
    obtain ⟨r₂, σ₂, hsrc, h⟩ := run_bind_eq_ok h
    obtain ⟨hle₂, hs₂, hv₂⟩ := src.whole_of_canonical hsrc
      fun t ht' => Int.le_trans (ht₂ t ht') (by simp only; omega)
    cases h
    simp only at hle₂ ⊢
    refine ⟨by omega, ?_⟩
    rw [List.append_assoc]
    apply (hs₁.mono (by omega)).append
    apply Stmt.WholeAll.moveInto (by omega) (hv₁.mono (by omega))
    exact hs₂.append (.single ⟨hle₂, hv₂⟩)
  | .move (.temp t) src, σ, _, _, h, ht => by
    obtain ⟨ht₁, ht₂⟩ := List.forall_mem_append.mp ht
    rw [Stmt.canonical] at h
    obtain ⟨r, σ₁, hsrc, h⟩ := run_bind_eq_ok h
    -- A temp as destination is not touched before the move.
    obtain ⟨hle, hs, hv⟩ := src.whole_of_canonical hsrc ht₂
    cases h
    exact ⟨hle, hs.append (.single ⟨Int.le_trans (ht₁ t (List.mem_singleton_self t)) hle, hv⟩)⟩
  | .move .absent _, _, _, _, h, _ | .move (.const _) _, _, _, _, h, _
  | .move (.name _) _, _, _, _, h, _ | .move (.binop _ _ _) _, _, _, _, h, _
  | .move (.unop _ _) _, _, _, _, h, _ | .move (.call _ _ _) _, _, _, _, h, _
  | .move (.sexpr _ _) _, _, _, _, h, _ => by cases h
  | .seq stmts, _, _, _, h, ht => by
    rw [Stmt.canonical] at h
    exact Stmt.whole_of_canonicalAll stmts h ht

theorem Stmt.whole_of_canonicalAll : ∀ (stmts : List Stmt) {σ σ' : Supply} {ss : List Stmt},
    (Stmt.canonicalAll stmts).run.run σ = (.ok ss, σ') →
    (∀ t ∈ Stmt.tempsAll stmts, t.index ≤ σ.temps) →
    σ.temps ≤ σ'.temps ∧ Stmt.WholeAll σ'.temps ss
  | [], _, _, _, h, _ => by
    cases h
    exact ⟨Int.le_refl _, .nil _⟩
  | s :: stmts, _, _, _, h, ht => by
    obtain ⟨ht₁, ht₂⟩ := List.forall_mem_append.mp ht
    rw [Stmt.canonicalAll] at h
    obtain ⟨first, σ₁, hs, h⟩ := run_bind_eq_ok h
    obtain ⟨hle₁, hfirst⟩ := s.whole_of_canonical hs ht₁
    obtain ⟨rest, σ₂, hss, h⟩ := run_bind_eq_ok h
    obtain ⟨hle₂, hrest⟩ :=
      Stmt.whole_of_canonicalAll stmts hss fun t ht' => Int.le_trans (ht₂ t ht') hle₁
    cases h
    exact ⟨Int.le_trans hle₁ hle₂, (hfirst.mono hle₂).append hrest⟩

end

end MmixBackend.IR
