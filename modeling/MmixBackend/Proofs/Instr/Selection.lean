import MmixBackend.Instr.Selection
import MmixBackend.Proofs.IR.Lowering

/-!
# Selection of instructions for canonical code

Selection stops with a fault at holes, at statements inside expressions, at operators outside the
known ones and at calls with the wrong number of offsets. Canonical code of a well-shaped tree has
none of these. The instructions that are selected are small, two uses and one definition at most, and
they jump where the statements jump.

## Main statements

- `CodeChunk.ofBody_sound`: a well-shaped body with known operators becomes a chunk that can be
  selected.
- `CodeChunk.select_sound`: such a chunk is selected, and its code is small and closed.
-/

namespace MmixBackend.IR

/-! ## §1 What can be selected -/

/-- The operator is one of the thirteen known ones. -/
def BinOp.Known : BinOp → Prop
  | .unknown _ => False
  | _ => True

/-- The operator is one of the two known ones. -/
def UnOp.Known : UnOp → Prop
  | .unknown _ => False
  | _ => True

mutual

/-- The operators of an expression are known and its temps are numbered up to `n`. -/
def Expr.Usable (n : Int) : Expr → Prop
  | .absent | .const _ | .name _ => True
  | .temp t => t.index ≤ n
  | .mem addr => addr.Usable n
  | .binop op fst snd => op.Known ∧ fst.Usable n ∧ snd.Usable n
  | .unop op arg => op.Known ∧ arg.Usable n
  | .call _ _ args => Expr.UsableAll n args
  | .sexpr stmt value => stmt.Usable n ∧ value.Usable n

/-- The same for all expressions of a list. -/
def Expr.UsableAll (n : Int) : List Expr → Prop
  | [] => True
  | e :: es => e.Usable n ∧ Expr.UsableAll n es

/-- The same for a statement. -/
def Stmt.Usable (n : Int) : Stmt → Prop
  | .absent | .jump _ | .label _ => True
  | .eval e => e.Usable n
  | .move dst src => dst.Usable n ∧ src.Usable n
  | .cjump cond _ _ => cond.Usable n
  | .seq stmts => Stmt.UsableAll n stmts

/-- The same for all statements of a list. -/
def Stmt.UsableAll (n : Int) : List Stmt → Prop
  | [] => True
  | s :: ss => s.Usable n ∧ Stmt.UsableAll n ss

end

mutual

/-- An expression that can be selected when the temps up to `n` have been handed out: it has no holes
and no statements in it, its operators are known and its calls have as many offsets as arguments. -/
def Expr.Selectable (n : Int) : Expr → Prop
  | .absent | .sexpr _ _ => False
  | .const _ | .name _ => True
  | .temp t => t.index ≤ n
  | .mem addr => addr.Selectable n
  | .binop op fst snd => op.Known ∧ fst.Selectable n ∧ snd.Selectable n
  | .unop op arg => op.Known ∧ arg.Selectable n
  | .call _ offs args => offs.length = args.length ∧ Expr.SelectableAll n args

/-- The same for all expressions of a list. -/
def Expr.SelectableAll (n : Int) : List Expr → Prop
  | [] => True
  | e :: es => e.Selectable n ∧ Expr.SelectableAll n es

end

/-- A statement that can be selected. -/
def Stmt.Selectable (n : Int) : Stmt → Prop
  | .eval e => e.Selectable n
  | .move (.temp t) src => t.index ≤ n ∧ src.Selectable n
  | .move (.mem addr) src => addr.Selectable n ∧ src.Selectable n
  | .cjump cond _ _ => cond.Selectable n
  | .jump _ | .label _ => True
  | _ => False

mutual

theorem Expr.selectable_mono {n n' : Int} (hn : n ≤ n') :
    ∀ (e : Expr), e.Selectable n → e.Selectable n'
  | .absent, h | .sexpr _ _, h => h.elim
  | .const _, _ | .name _, _ => trivial
  | .temp _, h => Int.le_trans h hn
  | .mem addr, h => addr.selectable_mono hn h
  | .binop _ fst snd, h => ⟨h.1, fst.selectable_mono hn h.2.1, snd.selectable_mono hn h.2.2⟩
  | .unop _ arg, h => ⟨h.1, arg.selectable_mono hn h.2⟩
  | .call _ _ args, h => ⟨h.1, Expr.selectableAll_mono hn args h.2⟩

theorem Expr.selectableAll_mono {n n' : Int} (hn : n ≤ n') :
    ∀ (es : List Expr), Expr.SelectableAll n es → Expr.SelectableAll n' es
  | [], _ => trivial
  | e :: es, h => ⟨e.selectable_mono hn h.1, Expr.selectableAll_mono hn es h.2⟩

end

theorem Expr.Selectable.mono {n n' : Int} {e : Expr} (h : e.Selectable n) (hn : n ≤ n') :
    e.Selectable n' := e.selectable_mono hn h

theorem Stmt.Selectable.mono {n n' : Int} {s : Stmt} (h : s.Selectable n) (hn : n ≤ n') :
    s.Selectable n' := by
  unfold Stmt.Selectable at h ⊢
  split at h
  · exact h.mono hn
  · exact ⟨Int.le_trans h.1 hn, h.2.mono hn⟩
  · exact ⟨h.1.mono hn, h.2.mono hn⟩
  · exact h.mono hn
  · trivial
  · trivial
  · exact h.elim

/-! ## §2 Canonical code can be selected -/

theorem Expr.selectableAll_temps {n : Int} {ts : List Temp} (h : ∀ t ∈ ts, t.index ≤ n) :
    Expr.SelectableAll n (ts.map .temp) := by
  induction ts with
  | nil => trivial
  | cons t ts ih =>
    exact ⟨h t List.mem_cons_self, ih fun u hu => h u (List.mem_cons_of_mem _ hu)⟩

theorem Expr.length_lowerArgs (es : List Expr) (n : Int) :
    (Expr.lowerArgs es n).temps.length = es.length := by
  induction es generalizing n with
  | nil => rfl
  | cons e es ih => simp [Expr.lowerArgs, ih]

/-- Statements that can all be selected. -/
def Stmt.SelectableAll (n : Int) (ss : List Stmt) : Prop := ∀ s ∈ ss, s.Selectable n

theorem Stmt.SelectableAll.nil (n : Int) : Stmt.SelectableAll n [] :=
  fun _ hs => (List.not_mem_nil hs).elim

theorem Stmt.SelectableAll.single {n : Int} {s : Stmt} (h : s.Selectable n) :
    Stmt.SelectableAll n [s] :=
  List.forall_mem_singleton.mpr h

theorem Stmt.SelectableAll.append {n : Int} {ss ss' : List Stmt} (h : Stmt.SelectableAll n ss)
    (h' : Stmt.SelectableAll n ss') : Stmt.SelectableAll n (ss ++ ss') :=
  List.forall_mem_append.mpr ⟨h, h'⟩

theorem Stmt.SelectableAll.mono {n n' : Int} {ss : List Stmt} (h : Stmt.SelectableAll n ss)
    (hn : n ≤ n') : Stmt.SelectableAll n' ss :=
  fun s hs => (h s hs).mono hn

/-- A value goes into the next temp and other statements follow. -/
theorem Stmt.SelectableAll.moveInto {n k : Int} {e : Expr} {ss : List Stmt} (hk : k ≤ n)
    (he : e.Selectable n) (h : Stmt.SelectableAll n ss) :
    Stmt.SelectableAll n (IR.moveInto k e :: ss) :=
  List.forall_mem_cons.mpr ⟨⟨hk, he⟩, h⟩

mutual

/-- Canonical code of an expression can be selected, and so can the value that it leaves. -/
theorem Expr.selectable_lower {b : Int} : ∀ (e : Expr), e.Shaped → e.Usable b → ∀ n, b ≤ n →
    Stmt.SelectableAll (e.lower n).next (e.lower n).stmts ∧
      (e.lower n).value.Selectable (e.lower n).next
  | .absent, h, _, _, _ => h.elim
  | .const _, _, _, _, _ | .name _, _, _, _, _ => ⟨.nil _, trivial⟩
  | .temp _, _, hu, _, hn => ⟨.nil _, Int.le_trans hu hn⟩
  | .mem addr, h, hu, n, hn => addr.selectable_lower h hu n hn
  | .unop _ arg, h, hu, n, hn => by
    obtain ⟨hs, hv⟩ := arg.selectable_lower h hu.2 n hn
    exact ⟨hs, hu.1, hv⟩
  | .binop op fst snd, h, hu, n, hn => by
    have hle₁ := fst.le_lower_next n
    have hle₂ := snd.le_lower_next ((fst.lower n).next + 1)
    obtain ⟨hs₁, hv₁⟩ := fst.selectable_lower h.1 hu.2.1 n hn
    obtain ⟨hs₂, hv₂⟩ := snd.selectable_lower h.2 hu.2.2 ((fst.lower n).next + 1) (by omega)
    simp only [Expr.lower]
    refine ⟨(hs₁.mono (by omega)).append ?_, Int.le_refl _⟩
    -- What can be selected under a bound can be under every larger one, so all bounds move to the last.
    apply Stmt.SelectableAll.moveInto (by omega) (hv₁.mono (by omega))
    apply (hs₂.mono (by omega)).append
    apply Stmt.SelectableAll.moveInto (by omega) (hv₂.mono (by omega))
    apply Stmt.SelectableAll.moveInto (Int.le_refl _) ?_ (.nil _)
    exact ⟨hu.1, by show _ + 1 ≤ _ + 2; omega, by show _ + 1 ≤ _ + 2; omega⟩
  | .call label offs args, h, hu, n, hn => by
    have hle := Expr.le_lowerArgs_next args n
    obtain ⟨hs, ht⟩ := Expr.selectable_lowerArgs args h.2 hu n hn
    simp only [Expr.lower]
    refine ⟨(hs.mono (by omega)).append ?_, Int.le_refl _⟩
    apply Stmt.SelectableAll.moveInto (Int.le_refl _) ?_ (.nil _)
    refine ⟨?_, Expr.selectableAll_temps fun t ht' => Int.le_trans (ht t ht') (by omega)⟩
    rw [List.length_map, Expr.length_lowerArgs, h.1]
  | .sexpr stmt value, h, hu, n, hn => by
    have hle₁ := stmt.le_lower_next n
    have hle₂ := value.le_lower_next (stmt.lower n).next
    have hs := stmt.selectable_lower h.1 hu.1 n hn
    obtain ⟨hs', hv⟩ := value.selectable_lower h.2.2 hu.2 _ (Int.le_trans hn hle₁)
    exact ⟨(hs.mono hle₂).append hs', hv⟩

/-- The same for arguments, whose values are in temps. -/
theorem Expr.selectable_lowerArgs {b : Int} : ∀ (es : List Expr), Expr.ShapedAll es →
    Expr.UsableAll b es → ∀ n, b ≤ n →
    Stmt.SelectableAll (Expr.lowerArgs es n).next (Expr.lowerArgs es n).stmts ∧
      ∀ t ∈ (Expr.lowerArgs es n).temps, t.index ≤ (Expr.lowerArgs es n).next
  | [], _, _, _, _ => ⟨.nil _, fun _ ht => (List.not_mem_nil ht).elim⟩
  | e :: es, h, hu, n, hn => by
    have hle₁ := e.le_lower_next n
    have hle₂ := Expr.le_lowerArgs_next es ((e.lower n).next + 1)
    obtain ⟨hs₁, hv₁⟩ := e.selectable_lower h.1 hu.1 n hn
    obtain ⟨hs₂, ht₂⟩ := Expr.selectable_lowerArgs es h.2 hu.2 ((e.lower n).next + 1) (by omega)
    simp only [Expr.lowerArgs]
    refine ⟨(hs₁.mono (by omega)).append ?_, ?_⟩
    · exact .moveInto (by omega) (hv₁.mono (by omega)) hs₂
    · exact List.forall_mem_cons.mpr ⟨hle₂, ht₂⟩

/-- Canonical code of a statement can be selected. -/
theorem Stmt.selectable_lower {b : Int} : ∀ (s : Stmt), s.Shaped → s.Usable b → ∀ n, b ≤ n →
    Stmt.SelectableAll (s.lower n).next (s.lower n).stmts
  | .absent, h, _, _, _ => h.elim
  | .jump _, _, _, _, _ | .label _, _, _, _, _ => .single trivial
  | .eval e, h, hu, n, hn => by
    obtain ⟨hs, hv⟩ := e.selectable_lower h hu n hn
    exact hs.append (.single hv)
  | .cjump cond _ _, h, hu, n, hn => by
    obtain ⟨hs, hv⟩ := cond.selectable_lower h hu n hn
    exact hs.append (.single hv)
  | .move (.mem addr) src, h, hu, n, hn => by
    have hle₁ := addr.le_lower_next n
    have hle₂ := src.le_lower_next ((addr.lower n).next + 1)
    obtain ⟨hs₁, hv₁⟩ := addr.selectable_lower h.1 hu.1 n hn
    obtain ⟨hs₂, hv₂⟩ := src.selectable_lower h.2 hu.2 ((addr.lower n).next + 1) (by omega)
    simp only [Stmt.lower]
    apply (hs₁.mono (by omega)).append
    apply Stmt.SelectableAll.moveInto (by omega) (hv₁.mono (by omega))
    exact hs₂.append (.single ⟨hle₂, hv₂⟩)
  | .move (.temp t) src, h, hu, n, hn => by
    have hle := src.le_lower_next n
    obtain ⟨hs, hv⟩ := src.selectable_lower h hu.2 n hn
    have ht : t.index ≤ b := hu.1
    refine hs.append (.single ⟨?_, hv⟩)
    show t.index ≤ (src.lower n).next
    omega
  | .move .absent _, h, _, _, _ | .move (.const _) _, h, _, _, _ | .move (.name _) _, h, _, _, _
  | .move (.binop _ _ _) _, h, _, _, _ | .move (.unop _ _) _, h, _, _, _
  | .move (.call _ _ _) _, h, _, _, _ | .move (.sexpr _ _) _, h, _, _, _ => h.elim
  | .seq ss, h, hu, n, hn => Stmt.selectable_lowerAll ss h hu n hn

theorem Stmt.selectable_lowerAll {b : Int} : ∀ (ss : List Stmt), Stmt.ShapedAll ss →
    Stmt.UsableAll b ss → ∀ n, b ≤ n →
    Stmt.SelectableAll (Stmt.lowerAll ss n).next (Stmt.lowerAll ss n).stmts
  | [], _, _, _, _ => .nil _
  | s :: ss, h, hu, n, hn => by
    have hle₁ := s.le_lower_next n
    have hle₂ := Stmt.le_lowerAll_next ss (s.lower n).next
    have hs := s.selectable_lower h.1 hu.1 n hn
    have hss := Stmt.selectable_lowerAll ss h.2 hu.2 _ (Int.le_trans hn hle₁)
    exact (hs.mono hle₂).append hss

end

/-! ## §3 Where canonical code jumps -/

@[simp] theorem Stmt.targetsOf_append (ss ss' : List Stmt) :
    Stmt.targetsOf (ss ++ ss') = Stmt.targetsOf ss ++ Stmt.targetsOf ss' := by
  simp [Stmt.targetsOf]

@[simp] theorem Stmt.targetsOf_moveInto_cons (n : Int) (e : Expr) (ss : List Stmt) :
    Stmt.targetsOf (moveInto n e :: ss) = Stmt.targetsOf ss := rfl

@[simp] theorem Stmt.targetsOf_nil : Stmt.targetsOf [] = [] := rfl

mutual

theorem Stmt.labelsOf_flatten_subset : ∀ (s : Stmt), ∀ l ∈ Stmt.labelsOf s.flatten, l ∈ s.labels
  | .absent, _, h | .eval _, _, h | .move _ _, _, h | .cjump _ _ _, _, h | .jump _, _, h =>
    (List.not_mem_nil h).elim
  | .label _, _, h => h
  | .seq ss, l, h => Stmt.labelsOf_flattenAll_subset ss l h

theorem Stmt.labelsOf_flattenAll_subset : ∀ (ss : List Stmt),
    ∀ l ∈ Stmt.labelsOf (Stmt.flattenAll ss), l ∈ Stmt.labelsAll ss
  | [], _, h => (List.not_mem_nil h).elim
  | s :: ss, l, h => by
    rw [Stmt.flattenAll, Stmt.labelsOf_append, List.mem_append] at h
    rw [Stmt.labelsAll, List.mem_append]
    exact h.imp (s.labelsOf_flatten_subset l) (Stmt.labelsOf_flattenAll_subset ss l)

end

mutual

/-- Canonical code of an expression jumps to labels of the expression only. -/
theorem Expr.targetsOf_lower : ∀ (e : Expr), e.Shaped → ∀ n,
    ∀ l ∈ Stmt.targetsOf (e.lower n).stmts, l ∈ e.labels
  | .absent, h, _, _, _ => h.elim
  | .const _, _, _, _, hl | .temp _, _, _, _, hl | .name _, _, _, _, hl =>
    (List.not_mem_nil hl).elim
  | .mem addr, h, n, l, hl => addr.targetsOf_lower h n l hl
  | .unop _ arg, h, n, l, hl => arg.targetsOf_lower h n l hl
  | .binop _ fst snd, h, n, l, hl => by
    simp only [Expr.lower, Stmt.targetsOf_append, Stmt.targetsOf_moveInto_cons, Stmt.targetsOf_nil,
      List.append_nil, List.mem_append] at hl
    exact List.mem_append.mpr (hl.imp (fst.targetsOf_lower h.1 n l) (snd.targetsOf_lower h.2 _ l))
  | .call _ _ args, h, n, l, hl => by
    simp only [Expr.lower, Stmt.targetsOf_append, Stmt.targetsOf_moveInto_cons, Stmt.targetsOf_nil,
      List.append_nil] at hl
    exact Expr.targetsOf_lowerArgs args h.2 n l hl
  | .sexpr stmt value, h, n, l, hl => by
    simp only [Expr.lower, Stmt.targetsOf_append, List.mem_append] at hl
    apply List.mem_append.mpr
    rcases hl with hl | hl
    · -- What leaves the statement would have to be one of its own labels.
      rcases stmt.targetsOf_lower h.1 n l hl with hl | hl
      · exact .inl hl
      · exact .inl (stmt.labelsOf_flatten_subset l (h.2.1 l hl))
    · exact .inr (value.targetsOf_lower h.2.2 _ l hl)

theorem Expr.targetsOf_lowerArgs : ∀ (es : List Expr), Expr.ShapedAll es → ∀ n,
    ∀ l ∈ Stmt.targetsOf (Expr.lowerArgs es n).stmts, l ∈ Expr.labelsAll es
  | [], _, _, _, hl => (List.not_mem_nil hl).elim
  | e :: es, h, n, l, hl => by
    simp only [Expr.lowerArgs, Stmt.targetsOf_append, Stmt.targetsOf_moveInto_cons,
      List.mem_append] at hl
    exact List.mem_append.mpr
      (hl.imp (e.targetsOf_lower h.1 n l) (Expr.targetsOf_lowerArgs es h.2 _ l))

/-- Canonical code of a statement jumps to labels of the statement, and to where the statement itself
jumps. -/
theorem Stmt.targetsOf_lower : ∀ (s : Stmt), s.Shaped → ∀ n,
    ∀ l ∈ Stmt.targetsOf (s.lower n).stmts, l ∈ s.labels ∨ l ∈ Stmt.targetsOf s.flatten
  | .absent, h, _, _, _ => h.elim
  | .jump _, _, _, _, hl => .inr hl
  | .label _, _, _, _, hl => (List.not_mem_nil hl).elim
  | .eval e, h, n, l, hl => by
    simp only [Stmt.lower, Stmt.targetsOf_append, List.mem_append] at hl
    exact hl.imp (e.targetsOf_lower h n l) fun hl => (List.not_mem_nil hl).elim
  | .cjump cond _ _, h, n, l, hl => by
    simp only [Stmt.lower, Stmt.targetsOf_append, List.mem_append] at hl
    exact hl.imp (cond.targetsOf_lower h n l) id
  | .move (.mem addr) src, h, n, l, hl => by
    simp only [Stmt.lower, Stmt.targetsOf_append, Stmt.targetsOf_moveInto_cons,
      List.mem_append] at hl
    rcases hl with hl | hl | hl
    · exact .inl (List.mem_append_left _ (addr.targetsOf_lower h.1 n l hl))
    · exact .inl (List.mem_append_right _ (src.targetsOf_lower h.2 _ l hl))
    · exact (List.not_mem_nil hl).elim
  | .move (.temp _) src, h, n, l, hl => by
    simp only [Stmt.lower, Stmt.targetsOf_append, List.mem_append] at hl
    rcases hl with hl | hl
    · exact .inl (src.targetsOf_lower h n l hl)
    · exact (List.not_mem_nil hl).elim
  | .move .absent _, h, _, _, _ | .move (.const _) _, h, _, _, _ | .move (.name _) _, h, _, _, _
  | .move (.binop _ _ _) _, h, _, _, _ | .move (.unop _ _) _, h, _, _, _
  | .move (.call _ _ _) _, h, _, _, _ | .move (.sexpr _ _) _, h, _, _, _ => h.elim
  | .seq ss, h, n, l, hl => Stmt.targetsOf_lowerAll ss h n l hl

theorem Stmt.targetsOf_lowerAll : ∀ (ss : List Stmt), Stmt.ShapedAll ss → ∀ n,
    ∀ l ∈ Stmt.targetsOf (Stmt.lowerAll ss n).stmts,
      l ∈ Stmt.labelsAll ss ∨ l ∈ Stmt.targetsOf (Stmt.flattenAll ss)
  | [], _, _, _, hl => (List.not_mem_nil hl).elim
  | s :: ss, h, n, l, hl => by
    simp only [Stmt.lowerAll, Stmt.targetsOf_append, List.mem_append] at hl
    simp only [Stmt.labelsAll, Stmt.flattenAll, Stmt.targetsOf_append, List.mem_append]
    rcases hl with hl | hl
    · exact (s.targetsOf_lower h.1 n l hl).imp .inl .inl
    · exact (Stmt.targetsOf_lowerAll ss h.2 _ l hl).imp .inr .inr

end

end MmixBackend.IR

namespace MmixBackend

open IR

/-! ## §4 What is selected for an expression -/

/-- An instruction that works on temps numbered up to `n`, using two at most and defining one at
most. -/
structure Instr.Fits (n : Int) (i : Instr) : Prop where
  uses : i.uses.length ≤ 2
  defs : i.defs.length ≤ 1
  temps : ∀ t ∈ i.uses ++ i.defs, t.index ≤ n

theorem Instr.Fits.mono {n n' : Int} {i : Instr} (h : i.Fits n) (hn : n ≤ n') : i.Fits n' :=
  ⟨h.uses, h.defs, fun t ht => Int.le_trans (h.temps t ht) hn⟩

/-- Small instructions that jump nowhere, calls apart. -/
def Straight (n : Int) (is : List Instr) : Prop :=
  ∀ i ∈ is, i.Fits n ∧ (i.flow ≠ .call → i.jumps = [])

namespace Straight

variable {n n' : Int} {is is' : List Instr}

theorem nil (n : Int) : Straight n [] := fun _ hi => (List.not_mem_nil hi).elim

theorem mono (h : Straight n is) (hn : n ≤ n') : Straight n' is :=
  fun i hi => ⟨(h i hi).1.mono hn, (h i hi).2⟩

theorem append (h : Straight n is) (h' : Straight n is') : Straight n (is ++ is') :=
  List.forall_mem_append.mpr ⟨h, h'⟩

theorem cons {i : Instr} (hi : i.Fits n) (hjumps : i.flow ≠ .call → i.jumps = [])
    (h : Straight n is) : Straight n (i :: is) :=
  List.forall_mem_cons.mpr ⟨⟨hi, hjumps⟩, h⟩

theorem plain {op : Opcode} {uses defs : List Temp} (huses : uses.length ≤ 2)
    (hdefs : defs.length ≤ 1) (htemps : ∀ t ∈ uses ++ defs, t.index ≤ n) (h : Straight n is) :
    Straight n (.plain op uses defs :: is) :=
  cons ⟨huses, hdefs, htemps⟩ (fun _ => rfl) h

theorem loadConstant {dst : Temp} (v : Word) (h : dst.index ≤ n) :
    Straight n (Instr.loadConstant dst v) := by
  intro i hi
  obtain ⟨⟨place, value⟩, -, rfl⟩ := List.mem_map.mp hi
  refine ⟨⟨?_, Nat.le_refl _, fun t ht => ?_⟩, fun _ => rfl⟩
  · simp only [Instr.plain, Instr.uses]
    split <;> simp
  · suffices t = dst by rw [this]; exact h
    simp only [Instr.plain, Instr.uses, Instr.defs, List.mem_append, List.mem_singleton] at ht
    rcases ht with ht | ht
    · split at ht
      · exact (List.not_mem_nil ht).elim
      · exact List.mem_singleton.mp ht
    · exact ht

theorem binary {op : BinOp} (hop : op.Known) {fst snd dst : Temp} (hfst : fst.index ≤ n)
    (hsnd : snd.index ≤ n) (hdst : dst.index ≤ n) :
    ∃ is, Instr.binary op fst snd dst = .ok is ∧ Straight n is := by
  have two : ∀ op' : Opcode, ∀ {is}, Straight n is →
      Straight n (.plain op' [fst, snd] [dst] :: is) := fun op' is h =>
    plain (Nat.le_refl 2) (Nat.le_refl 1) (by simp [hfst, hsnd, hdst]) h
  have one : ∀ op' : Opcode, Straight n [.plain op' [dst] [dst]] := fun op' =>
    plain (by simp) (Nat.le_refl 1) (by simp [hdst]) (nil n)
  have none : ∀ op' : Opcode, Straight n [.plain op' [] [dst]] := fun op' =>
    plain (by simp) (Nat.le_refl 1) (by simp [hdst]) (nil n)
  cases op with
  | unknown code => exact hop.elim
  | or | and | add | sub | mul | div => exact ⟨_, rfl, two _ (nil n)⟩
  | equ | neq | lth | gth | leq | geq => exact ⟨_, rfl, two _ (one _)⟩
  | mod => exact ⟨_, rfl, two _ (none _)⟩

end Straight

/-- What selecting an expression leaves: small instructions, and the value in a temp that has been
handed out. -/
def Selects (σ : Supply) (r : List Instr × Temp) (σ' : Supply) : Prop :=
  σ.temps ≤ σ'.temps ∧ Straight σ'.temps r.1 ∧ r.2.index ≤ σ'.temps

theorem storeArgument_spec (mode : ArgPassing) (off : Word) {arg : Temp} {σ : Supply}
    (harg : arg.index ≤ σ.temps) :
    σ.temps ≤ ((Instr.storeArgument mode off arg).run σ).2.temps ∧
      Straight ((Instr.storeArgument mode off arg).run σ).2.temps
        ((Instr.storeArgument mode off arg).run σ).1 := by
  unfold Instr.storeArgument
  split
  · refine ⟨Int.le_refl _, .plain (by simp) (by simp) (fun t ht => ?_) (.nil _)⟩
    rw [List.mem_singleton.mp ht]
    exact harg
  · show σ.temps ≤ σ.temps + 1 + 1 ∧ Straight (σ.temps + 1 + 1)
      (Instr.loadConstant ⟨σ.temps + 1⟩ off ++ [.plain .argAddress [⟨σ.temps + 1⟩] [⟨σ.temps + 1 + 1⟩],
        .plain .storeAt [arg, ⟨σ.temps + 1 + 1⟩] []])
    refine ⟨by omega, (Straight.loadConstant off (by simp only; omega)).append ?_⟩
    apply Straight.plain (by simp) (by simp) ?_
    · apply Straight.plain (by simp) (by simp) ?_ (.nil _)
      simp only [List.append_nil, List.forall_mem_cons, List.not_mem_nil]
      exact ⟨by omega, Int.le_refl _, by simp⟩
    · simp only [List.cons_append, List.nil_append, List.forall_mem_cons, List.not_mem_nil]
      exact ⟨by omega, Int.le_refl _, by simp⟩

theorem storeArguments_spec (mode : ArgPassing) : ∀ (offs : List Word) (args : List Temp)
    (σ : Supply), (∀ t ∈ args, t.index ≤ σ.temps) →
    σ.temps ≤ ((Instr.storeArguments mode offs args).run σ).2.temps ∧
      Straight ((Instr.storeArguments mode offs args).run σ).2.temps
        ((Instr.storeArguments mode offs args).run σ).1
  | [], _, _, _ => ⟨Int.le_refl _, .nil _⟩
  | _ :: _, [], _, _ => ⟨Int.le_refl _, .nil _⟩
  | off :: offs, arg :: args, σ, h => by
    obtain ⟨harg, hargs⟩ := List.forall_mem_cons.mp h
    obtain ⟨hle₁, hs₁⟩ := storeArgument_spec mode off harg
    obtain ⟨hle₂, hs₂⟩ := storeArguments_spec mode offs args
      ((Instr.storeArgument mode off arg).run σ).2 fun t ht => Int.le_trans (hargs t ht) hle₁
    exact ⟨Int.le_trans hle₁ hle₂, (hs₁.mono hle₂).append hs₂⟩

/-- A fresh temp has the number that the supply stands at afterwards. -/
theorem freshTemp_spec (σ : Supply) : Succeeds (liftM freshTemp : Fresh Temp) σ fun t σ' =>
    t.index = σ'.temps ∧ σ'.temps = σ.temps + 1 :=
  .lift ⟨rfl, rfl⟩

mutual

/-- **An expression of canonical code is selected.** -/
theorem IR.Expr.select_spec (mode : ArgPassing) {n : Int} : ∀ (e : IR.Expr), e.Selectable n →
    ∀ σ : Supply, n ≤ σ.temps → Succeeds (e.select mode) σ (Selects σ)
  | .absent, h, _, _ | .sexpr _ _, h, _, _ => h.elim
  -- A temp is its own value: nothing is selected, and it has been handed out before.
  | .temp t, h, σ, hn => .pure ⟨Int.le_refl _, .nil _, Int.le_trans h hn⟩
  | .const v, _, σ, _ => by
    apply Succeeds.lift
    exact ⟨Int.le_of_lt (Int.lt_succ _), .loadConstant v (Int.le_refl _), Int.le_refl _⟩
  | .name label, _, σ, _ => by
    apply (freshTemp_spec σ).bind
    rintro dst σ' ⟨hdst, hσ'⟩
    refine .pure ⟨by omega, ?_, Int.le_of_eq hdst⟩
    exact .plain (by simp) (by simp) (by simp; omega) (.nil _)
  | .mem addr, h, σ, hn => by
    rw [IR.Expr.select]
    apply (addr.select_spec mode h σ hn).bind
    rintro ⟨before, a⟩ σ₁ ⟨hle, hs, ha : a.index ≤ σ₁.temps⟩
    apply (freshTemp_spec σ₁).bind
    rintro dst σ' ⟨hdst, hσ'⟩
    refine .pure ⟨by omega, (hs.mono (by omega)).append ?_, Int.le_of_eq hdst⟩
    exact .plain (by simp) (by simp) (by simp; omega) (.nil _)
  | .binop op fst snd, h, σ, hn => by
    rw [IR.Expr.select]
    apply (fst.select_spec mode h.2.1 σ hn).bind
    rintro ⟨before₁, a⟩ σ₁ ⟨hle₁, hs₁, ha : a.index ≤ σ₁.temps⟩
    apply (snd.select_spec mode h.2.2 σ₁ (by omega)).bind
    rintro ⟨before₂, b⟩ σ₂ ⟨hle₂, hs₂, hb : b.index ≤ σ₂.temps⟩
    apply (freshTemp_spec σ₂).bind
    rintro dst σ' ⟨hdst, hσ'⟩
    -- The operator is known, so the template exists; all its temps have been handed out by now.
    obtain ⟨is, his, hstraight⟩ := Straight.binary h.1 (show a.index ≤ σ'.temps by omega)
      (show b.index ≤ σ'.temps by omega) (show dst.index ≤ σ'.temps by omega)
    refine Succeeds.bind (P := fun is' σ'' => is' = is ∧ σ'' = σ') (.ofExcept his ⟨rfl, rfl⟩) ?_
    rintro _ _ ⟨rfl, rfl⟩
    refine .pure ⟨by omega, ?_, Int.le_of_eq hdst⟩
    exact ((hs₁.mono (by omega)).append (hs₂.mono (by omega))).append hstraight
  | .unop op arg, h, σ, hn => by
    rw [IR.Expr.select]
    apply (arg.select_spec mode h.2 σ hn).bind
    rintro ⟨before, a⟩ σ₁ ⟨hle, hs, ha : a.index ≤ σ₁.temps⟩
    apply (freshTemp_spec σ₁).bind
    rintro fresh σ' ⟨hfresh, hσ'⟩
    -- Whichever temp receives the result, it has been handed out.
    cases op with
    | unknown code => exact h.1.elim
    | neg =>
      refine .pure ⟨by omega, (hs.mono (by omega)).append ?_, by dsimp only; split <;> omega⟩
      apply Straight.plain (by simp) (by simp) ?_ (.nil _)
      simp only [List.cons_append, List.nil_append, List.forall_mem_cons, List.not_mem_nil]
      exact ⟨by omega, by split <;> omega, by simp⟩
    | not =>
      apply (freshTemp_spec σ').bind
      rintro neg σ'' ⟨hneg, hσ''⟩
      refine .pure ⟨by omega, (hs.mono (by omega)).append ?_, by dsimp only; split <;> omega⟩
      apply Straight.plain (by simp) (by simp) (by simp; omega)
      apply Straight.plain (by simp) (by simp) ?_ (.nil _)
      simp only [List.cons_append, List.nil_append, List.forall_mem_cons, List.not_mem_nil]
      exact ⟨by omega, by split <;> omega, by simp⟩
  | .call label offs args, h, σ, hn => by
    rw [IR.Expr.select, if_neg (not_not_intro h.1)]
    apply (Expr.selectArgs_spec mode args h.2 σ hn).bind
    rintro ⟨before, temps⟩ σ₁ ⟨hle₁, hs₁, ht⟩
    -- Storing the arguments may take further temps for their addresses.
    obtain ⟨hle₂, hs₂⟩ := storeArguments_spec mode offs temps σ₁ ht
    apply (Succeeds.lift (P := fun is σ' => σ₁.temps ≤ σ'.temps ∧ Straight σ'.temps is)
      ⟨hle₂, hs₂⟩).bind
    rintro stores σ₂ ⟨hle₂, hs₂⟩
    apply (freshTemp_spec σ₂).bind
    rintro result σ' ⟨hresult, hσ'⟩
    refine .pure ⟨by omega, ?_, Int.le_of_eq hresult⟩
    refine ((hs₁.mono (by omega)).append (hs₂.mono (by omega))).append ?_
    apply Straight.cons ⟨by simp [Instr.uses], by simp [Instr.defs], by simp [Instr.uses, Instr.defs]⟩
      (fun hcall => (hcall rfl).elim)
    exact .plain (by simp) (by simp) (by simp; omega) (.nil _)

/-- The same for arguments. -/
theorem IR.Expr.selectArgs_spec (mode : ArgPassing) {n : Int} : ∀ (es : List IR.Expr),
    Expr.SelectableAll n es → ∀ σ : Supply, n ≤ σ.temps →
    Succeeds (Expr.selectArgs mode es) σ fun r σ' =>
      σ.temps ≤ σ'.temps ∧ Straight σ'.temps r.1 ∧ ∀ t ∈ r.2, t.index ≤ σ'.temps
  | [], _, _, _ => .pure ⟨Int.le_refl _, .nil _, fun _ ht => (List.not_mem_nil ht).elim⟩
  | e :: es, h, σ, hn => by
    rw [IR.Expr.selectArgs]
    apply (e.select_spec mode h.1 σ hn).bind
    rintro ⟨first, t⟩ σ₁ ⟨hle₁, hs₁, ht : t.index ≤ σ₁.temps⟩
    apply (Expr.selectArgs_spec mode es h.2 σ₁ (by omega)).bind
    rintro ⟨rest, ts⟩ σ₂ ⟨hle₂, hs₂, hts⟩
    refine .pure ⟨by omega, (hs₁.mono hle₂).append hs₂, ?_⟩
    exact List.forall_mem_cons.mpr ⟨Int.le_trans ht hle₂, hts⟩

end

/-! ## §5 What is selected for statements -/

/-- What instructions have from the statements they were selected for: the labels, the places to jump
to and the temps that are moved into. -/
structure SelectedFrom (n : Int) (ss : List IR.Stmt) (is : List Instr) : Prop where
  fits : ∀ i ∈ is, i.Fits n
  jumps : ∀ i ∈ is, i.flow ≠ .call → ∀ l ∈ i.jumps, l ∈ Stmt.targetsOf ss
  labels : ∀ l ∈ Stmt.labelsOf ss, .label l ∈ is
  moves : ∀ t src, .move (.temp t) src ∈ ss → ∃ v, .move v t ∈ is

namespace SelectedFrom

variable {n n' : Int} {ss ss' : List IR.Stmt} {is is' : List Instr}

theorem mono (h : SelectedFrom n ss is) (hn : n ≤ n') : SelectedFrom n' ss is :=
  { h with fits := fun i hi => (h.fits i hi).mono hn }

theorem append (h : SelectedFrom n ss is) (h' : SelectedFrom n ss' is') :
    SelectedFrom n (ss ++ ss') (is ++ is') where
  fits := List.forall_mem_append.mpr ⟨h.fits, h'.fits⟩
  jumps i hi hflow l hl := by
    rw [Stmt.targetsOf_append]
    apply List.mem_append.mpr
    exact (List.mem_append.mp hi).imp (fun hi => h.jumps i hi hflow l hl)
      fun hi => h'.jumps i hi hflow l hl
  labels l hl := by
    rw [Stmt.labelsOf_append] at hl
    exact List.mem_append.mpr ((List.mem_append.mp hl).imp (h.labels l) (h'.labels l))
  moves t src hmem := by
    rcases List.mem_append.mp hmem with hmem | hmem
    · obtain ⟨v, hv⟩ := h.moves t src hmem
      exact ⟨v, List.mem_append_left _ hv⟩
    · obtain ⟨v, hv⟩ := h'.moves t src hmem
      exact ⟨v, List.mem_append_right _ hv⟩

/-- The code of the parts of a statement goes before. -/
theorem behind (hbefore : Straight n is) (h : SelectedFrom n ss is') :
    SelectedFrom n ss (is ++ is') where
  fits := List.forall_mem_append.mpr ⟨fun i hi => (hbefore i hi).1, h.fits⟩
  jumps i hi hflow l hl := by
    rcases List.mem_append.mp hi with hi | hi
    · rw [(hbefore i hi).2 hflow] at hl
      exact (List.not_mem_nil hl).elim
    · exact h.jumps i hi hflow l hl
  labels l hl := List.mem_append_right _ (h.labels l hl)
  moves t src hmem := by
    obtain ⟨v, hv⟩ := h.moves t src hmem
    exact ⟨v, List.mem_append_right _ hv⟩

/-- A statement that neither moves into a temp nor defines a label or jumps. -/
theorem quiet {s : IR.Stmt} (his : Straight n is) (hlabels : Stmt.labelsOf [s] = [])
    (hmove : ∀ t src, s ≠ .move (.temp t) src) : SelectedFrom n [s] is where
  fits i hi := (his i hi).1
  jumps i hi hflow l hl := by
    rw [(his i hi).2 hflow] at hl
    exact (List.not_mem_nil hl).elim
  labels l hl := by
    rw [hlabels] at hl
    exact (List.not_mem_nil hl).elim
  moves t src hmem := (hmove t src (List.mem_singleton.mp hmem).symm).elim

theorem move {src : IR.Expr} {v t : Temp} (hv : v.index ≤ n) (ht : t.index ≤ n) :
    SelectedFrom n [.move (.temp t) src] [.move v t] where
  fits := List.forall_mem_singleton.mpr
    ⟨by simp [Instr.uses], by simp [Instr.defs], by simp [Instr.uses, Instr.defs, hv, ht]⟩
  jumps i hi _ l hl := by
    rw [List.mem_singleton.mp hi] at hl
    exact (List.not_mem_nil hl).elim
  labels l hl := (List.not_mem_nil hl).elim
  moves t' src' hmem := by
    cases List.mem_singleton.mp hmem
    exact ⟨v, List.mem_singleton_self _⟩

theorem jump (l : Label) : SelectedFrom n [.jump l] [.jumpTo l] where
  fits := List.forall_mem_singleton.mpr
    ⟨by simp [Instr.jumpTo, Instr.uses], by simp [Instr.jumpTo, Instr.defs],
      by simp [Instr.jumpTo, Instr.uses, Instr.defs]⟩
  jumps i hi _ l' hl' := by
    rw [List.mem_singleton.mp hi] at hl'
    exact hl'
  labels l' hl' := (List.not_mem_nil hl').elim
  moves t src hmem := by cases List.mem_singleton.mp hmem

theorem label (l : Label) : SelectedFrom n [.label l] [.label l] where
  fits := List.forall_mem_singleton.mpr
    ⟨by simp [Instr.uses], by simp [Instr.defs], by simp [Instr.uses, Instr.defs]⟩
  jumps i hi _ l' hl' := by
    rw [List.mem_singleton.mp hi] at hl'
    exact (List.not_mem_nil hl').elim
  labels l' hl' := by
    rw [List.mem_singleton.mp hl']
    exact List.mem_singleton_self _
  moves t src hmem := by cases List.mem_singleton.mp hmem

/-- A branch, with or without a jump to the negative label behind it. -/
theorem branch {cond : IR.Expr} {c : Temp} (hc : c.index ≤ n) (pos neg : Label) (falls : Bool) :
    SelectedFrom n [.cjump cond pos neg] (.oper (.branch pos) [c] [] [pos, neg] .next
      :: (if falls then [] else [.jumpTo neg])) where
  fits := by
    refine List.forall_mem_cons.mpr
      ⟨⟨by simp [Instr.uses], by simp [Instr.defs], by simp [Instr.uses, Instr.defs, hc]⟩, ?_⟩
    cases falls with
    | true => exact fun _ hi => (List.not_mem_nil hi).elim
    | false => exact (jump neg).fits
  jumps i hi _ l hl := by
    show l ∈ [pos, neg]
    cases falls with
    | true =>
      rw [List.mem_singleton.mp hi] at hl
      exact hl
    | false =>
      rcases List.mem_cons.mp hi with rfl | hi
      · exact hl
      · rw [List.mem_singleton.mp hi] at hl
        exact List.mem_cons_of_mem _ hl
  labels l hl := (List.not_mem_nil hl).elim
  moves t src hmem := by cases List.mem_singleton.mp hmem

end SelectedFrom

/-- **A statement of canonical code is selected.** -/
theorem IR.Stmt.select_spec (mode : ArgPassing) (next : List IR.Stmt) {n : Int} {s : IR.Stmt}
    (h : s.Selectable n) {σ : Supply} (hn : n ≤ σ.temps) :
    Succeeds (s.select mode next) σ fun is σ' =>
      σ.temps ≤ σ'.temps ∧ SelectedFrom σ'.temps [s] is := by
  unfold Stmt.Selectable at h
  split at h
  case h_1 e =>
    rw [IR.Stmt.select]
    apply (e.select_spec mode h σ hn).bind
    rintro ⟨is, t⟩ σ' ⟨hle, hs, -⟩
    exact .pure ⟨hle, .quiet hs rfl (by simp)⟩
  case h_2 t src =>
    rw [IR.Stmt.select]
    apply (src.select_spec mode h.2 σ hn).bind
    rintro ⟨is, v⟩ σ' ⟨hle, hs, hv : v.index ≤ σ'.temps⟩
    have ht : t.index ≤ n := h.1
    exact .pure ⟨hle, .behind hs (.move hv (by omega))⟩
  case h_3 addr src =>
    rw [IR.Stmt.select]
    apply (addr.select_spec mode h.1 σ hn).bind
    rintro ⟨is₁, a⟩ σ₁ ⟨hle₁, hs₁, ha : a.index ≤ σ₁.temps⟩
    apply (src.select_spec mode h.2 σ₁ (by omega)).bind
    rintro ⟨is₂, v⟩ σ₂ ⟨hle₂, hs₂, hv : v.index ≤ σ₂.temps⟩
    refine .pure ⟨by omega, .quiet (((hs₁.mono hle₂).append hs₂).append ?_) rfl (by simp)⟩
    exact .plain (by simp) (by simp) (by simp; omega) (.nil _)
  case h_4 cond pos neg =>
    rw [IR.Stmt.select]
    apply (cond.select_spec mode h σ hn).bind
    rintro ⟨is, c⟩ σ' ⟨hle, hs, hc : c.index ≤ σ'.temps⟩
    exact .pure ⟨hle, .behind hs (.branch hc pos neg _)⟩
  case h_5 l => exact .pure ⟨Int.le_refl _, .jump l⟩
  case h_6 l => exact .pure ⟨Int.le_refl _, .label l⟩
  case h_7 => exact h.elim

/-- **Canonical code is selected.** -/
theorem IR.Stmt.selectAll_spec (mode : ArgPassing) {n : Int} : ∀ {ss : List IR.Stmt},
    Stmt.SelectableAll n ss → ∀ {σ : Supply}, n ≤ σ.temps →
    Succeeds (Stmt.selectAll mode ss) σ fun is σ' =>
      σ.temps ≤ σ'.temps ∧ SelectedFrom σ'.temps ss is
  | [], _, σ, _ => by
    refine .pure ⟨Int.le_refl _, ?_⟩
    constructor <;> simp
  | s :: ss, h, σ, hn => by
    obtain ⟨hs, hss⟩ := List.forall_mem_cons.mp h
    rw [IR.Stmt.selectAll]
    apply (IR.Stmt.select_spec mode ss hs hn).bind
    rintro first σ₁ ⟨hle₁, hfirst⟩
    apply (IR.Stmt.selectAll_spec mode hss (by omega)).bind
    rintro rest σ₂ ⟨hle₂, hrest⟩
    exact .pure ⟨by omega, (hfirst.mono hle₂).append hrest⟩

/-! ## §6 Chunks -/

/-- A chunk that can be selected and allocated when the temps up to `n` have been handed out: jumps
stay inside or go to the exit, and the return value is moved somewhere. -/
structure IR.CodeChunk.Sound (n : Int) (c : IR.CodeChunk) : Prop where
  fp : c.frame.fp.index ≤ n
  rv : c.frame.rv.index ≤ n
  selectable : Stmt.SelectableAll n c.stmts
  closed : ∀ l ∈ Stmt.targetsOf c.stmts, l ∈ Stmt.labelsOf c.stmts ∨ l = c.exit
  returns : ∃ src, .move (.temp c.frame.rv) src ∈ c.stmts

theorem IR.CodeChunk.Sound.mono {n n' : Int} {c : IR.CodeChunk} (h : c.Sound n) (hn : n ≤ n') :
    c.Sound n' :=
  { h with
    fp := Int.le_trans h.fp hn
    rv := Int.le_trans h.rv hn
    selectable := h.selectable.mono hn }

/-- **A well-shaped body with known operators becomes a sound chunk.** -/
theorem IR.CodeChunk.ofBody_sound {frame : Frame} {body : IR.Expr} {b : Int} {σ : Supply}
    (hfp : frame.fp.index ≤ b) (hrv : frame.rv.index ≤ b) (hshape : body.Shaped)
    (husable : body.Usable b) (hb : b ≤ σ.temps) :
    Succeeds (CodeChunk.ofBody frame body) σ fun c σ' =>
      σ.temps ≤ σ'.temps ∧ c.Sound σ'.temps := by
  obtain ⟨n, l⟩ := σ
  have hle := (Stmt.move (.temp frame.rv) body).le_lower_next n
  refine ⟨_, _, CodeChunk.run_ofBody_eq frame hshape n l, hle, ?_⟩
  have htree : (Stmt.move (.temp frame.rv) body).Shaped := hshape
  have hselect := (Stmt.move (.temp frame.rv) body).selectable_lower htree ⟨hrv, husable⟩ n hb
  -- The fields of soundness, each read off the code between the entry label and the jump.
  constructor
  case fp => exact Int.le_trans (Int.le_trans hfp hb) hle
  case rv => exact Int.le_trans (Int.le_trans hrv hb) hle
  case selectable =>
    exact List.forall_mem_cons.mpr ⟨trivial, hselect.append (.single trivial)⟩
  case closed =>
    intro l' hl'
    have hl' : l' ∈ Stmt.targetsOf (((Stmt.move (.temp frame.rv) body).lower n).stmts
        ++ [.jump ("L" ++ toString (l + 1 + 1))]) := hl'
    rw [Stmt.targetsOf_append] at hl'
    rcases List.mem_append.mp hl' with hl' | hl'
    · -- The code of the body only jumps to labels of the body.
      rcases Stmt.targetsOf_lower _ htree n l' hl' with hl' | hl'
      · refine .inl (List.mem_cons_of_mem _ ?_)
        have : l' ∈ Stmt.labelsOf (((Stmt.move (.temp frame.rv) body).lower n).stmts
            ++ [.jump ("L" ++ toString (l + 1 + 1))]) := by
          rw [Stmt.labelsOf_append, Stmt.labelsOf_lower _ htree]
          exact List.mem_append_left _ hl'
        exact this
      · exact (List.not_mem_nil hl').elim
    · exact .inr (List.mem_singleton.mp hl')
  case returns =>
    refine ⟨(body.lower n).value, List.mem_cons_of_mem _ (List.mem_append_left _ ?_)⟩
    exact List.mem_append_right _ (List.mem_singleton_self _)

/-- What the code of a sound chunk is like. -/
structure Code.Sound (n : Int) (c : Code) : Prop where
  fp : c.frame.fp.index ≤ n
  rv : c.frame.rv.index ≤ n
  fits : ∀ i ∈ c.instrs, i.Fits n
  closed : ∀ i ∈ c.instrs, i.flow ≠ .call → ∀ l ∈ i.jumps, .label l ∈ c.instrs ∨ l = c.exit
  returns : ∃ v, .move v c.frame.rv ∈ c.instrs

/-- **A sound chunk is selected**, and its code is small and closed. -/
theorem IR.CodeChunk.select_sound (mode : ArgPassing) {n : Int} {chunk : IR.CodeChunk}
    (h : chunk.Sound n) {σ : Supply} (hn : n ≤ σ.temps) :
    Succeeds (chunk.select mode) σ fun c σ' => σ.temps ≤ σ'.temps ∧ c.Sound σ'.temps := by
  apply (IR.Stmt.selectAll_spec mode h.selectable hn).bind
  rintro instrs σ' ⟨hle, hsel⟩
  refine .pure ⟨hle, ?_⟩
  constructor
  case fp => exact Int.le_trans h.fp (Int.le_trans hn hle)
  case rv => exact Int.le_trans h.rv (Int.le_trans hn hle)
  case fits => exact hsel.fits
  case closed =>
    intro i hi hflow l hl
    exact (h.closed l (hsel.jumps i hi hflow l hl)).imp (hsel.labels l) id
  case returns =>
    obtain ⟨src, hsrc⟩ := h.returns
    exact hsel.moves _ src hsrc

end MmixBackend
