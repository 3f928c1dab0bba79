import MmixBackend.Proofs.Label
import MmixBackend.Proofs.Source.Arrangement
import MmixBackend.Proofs.Source.Binding
import Mathlib.Tactic.Abel

/-!
# Labels of nested functions and of strings

The layout takes a fresh label for every nested function and for every string constant. What it
records for the nodes of a program, global functions apart, are exactly the labels that it has
taken, each of them at one node.

## Main statements

- `Layout.expr_labels`: the labels of the nodes of an expression are those taken for it.
- `Layout.program_labels`: the same for a program.
-/

namespace MmixBackend.Source

/-- The labels that the layout has recorded for a node: that of a function or that of a string
constant. -/
def Attributes.placeLabels (t : Attributes) : Node → List Label
  | .decl (.fn m _ _ _ _) => (t.frames[m.id]?).toList.map Frame.label
  | .expr (.atom m _ _) => (t.strings[m.id]?).toList.map StaticData.label
  | _ => []

/-- The nodes of a declaration for which labels are taken. A global function has its name. -/
def Decl.labelled (isGlobal : Bool) (d : Decl) : List Node :=
  if isGlobal then (d.walk everywhere).tail else d.walk everywhere

namespace Workspace

variable {lo hi lo₁ hi₁ lo₂ hi₂ : Nat} {w w' w'' : Workspace} {ns ns' : List Node}

/-- The labels of the nodes are those taken between two moments of a pass. -/
def Labels (w w' : Workspace) (ns : List Node) (w'' : Workspace) : Prop :=
  Label.Taken w.supply.labels w'.supply.labels (ns.flatMap w''.attrs.placeLabels : List Label)

/-- No string with a number from `lo` up to `hi` has been laid out. -/
def Blank (lo hi : Nat) (w : Workspace) : Prop := ∀ id : Nat, lo ≤ id → id < hi →
    w.attrs.strings[id]? = none

theorem Blank.narrow (h : w.Blank lo hi) (hlo : lo ≤ lo₁) (hhi : hi₁ ≤ hi) : w.Blank lo₁ hi₁ :=
  fun id h₁ h₂ => h id (by omega) (by omega)

/-- What has not been laid out is still to be laid out behind a part that lies apart. -/
theorem Blank.behind (h : w.Blank lo hi) (hstep : w.Extends lo₁ hi₁ w') (hlo : lo ≤ lo₂) (hhi : hi₂ ≤ hi)
    (hapart : hi₁ ≤ lo₂ ∨ hi₂ ≤ lo₁) : w'.Blank lo₂ hi₂ := fun id h₁ h₂ =>
  (hstep.strings id (by omega)).trans (h id (by omega) (by omega))

theorem Labels.nil (h : w'.supply = w.supply) (w'' : Workspace) : w.Labels w' [] w'' := by
  rw [Labels, h]
  exact .none _

theorem Labels.append {w₁ w₂ w₃ : Workspace} (h : w.Labels w₁ ns w₃) (h' : w₁.Labels w₂ ns' w₃) :
    w.Labels w₂ (ns ++ ns') w₃ := by
  refine (Label.Taken.add h h').of_eq ?_
  rw [List.flatMap_append, ← Multiset.coe_add]

/-- A step that leaves the labels alone goes before. -/
theorem Labels.after (h : w'.Labels w'' ns w₃) (hlabels : w'.supply.labels = w.supply.labels) :
    w.Labels w'' ns w₃ := by
  rw [Labels, ← hlabels]
  exact h

end Workspace

namespace Layout

open Workspace

variable {w : Workspace} {lo hi : Nat}

/-! ## §1 Primitive steps -/

theorem setAccess_supply (id : NodeId) (a : Access) :
    Ensures (setAccess id a) w fun _ w' => w'.supply = w.supply := by
  intro _ w' hrun
  cases hrun
  rfl

theorem params_labels (depth : Word) : ∀ (ps : List Param) {before : Word} {w : Workspace},
    Ensures (params depth before ps) w fun _ w' => w'.supply = w.supply
  | [], _, _ => by
    rw [params]
    exact .pure rfl
  | p :: ps, before, w => by
    rw [params]
    refine .bind (P := fun _ w' => w' = w) (Pass.attrs_ensures ?_) fun size w' hw' => ?_
    · split
      · exact .pure rfl
      · exact .throw _
    subst hw'
    refine (setAccess_supply p.mark.id _).bind fun _ w₁ h₁ => ?_
    exact (params_labels depth ps).imp fun _ w₂ h₂ => h₂.trans h₁

theorem placeVariable_labels (m : Mark) (name : String) (n : Needs) :
    Ensures (placeVariable m name n) w fun n' w' =>
      n'.isGlobal = n.isGlobal ∧ w'.supply = w.supply ∧ w.Extends m.id (m.id + 1) w' := by
  refine .bind (P := fun _ w' => w' = w) (Pass.attrs_ensures ?_) fun size w' hw' => ?_
  · split
    · exact .pure rfl
    · exact .throw _
  subst hw'
  split
  · refine ((setAccess_supply m.id _).and (.of_succeeds (setAccess_spec m.id _))).bind fun _ w₁ h => ?_
    exact .pure ⟨rfl, h.1, h.2.grows⟩
  · refine ((setAccess_supply m.id _).and (.of_succeeds (setAccess_spec m.id _))).bind fun _ w₁ h => ?_
    exact .pure ⟨rfl, h.1, h.2.grows⟩

/-- The label of a nested function is taken from the supply. -/
theorem functionLabel_labels (isGlobal : Bool) (name : String) :
    Ensures (Pass.withSupply (functionLabel isGlobal name)) w fun label w' =>
      Label.Taken w.supply.labels w'.supply.labels (if isGlobal then [] else [label] : List Label) := by
  intro label w' hrun
  cases isGlobal with
  | true =>
    cases hrun
    exact .none _
  | false =>
    cases hrun
    exact .next _

theorem freshFrame_labels (label : Label) (depth locsSize argsSize : Word) :
    Ensures (Pass.withSupply (Frame.fresh label depth locsSize argsSize)) w fun f w' =>
      f.label = label ∧ w'.supply.labels = w.supply.labels := by
  intro f w' hrun
  cases hrun
  exact ⟨rfl, rfl⟩

theorem setFrame_labels (id : NodeId) (f : Frame) :
    Ensures (Pass.update fun t => { t with frames := t.frames.insert id f }) w fun _ w' =>
      w'.supply = w.supply := by
  intro _ w' hrun
  cases hrun
  rfl

/-! ## §2 Expressions, statements and declarations -/

/-- The parts of a node one after the other. -/
theorem labels_next {w₁ w₂ : Workspace} {ns ns' : List Node} {k : Nat}
    (h : w.Establishes lo k w₁ (w.Labels w₁ ns)) (h' : w₁.Establishes k hi w₂ (w₁.Labels w₂ ns'))
    (hlo : lo ≤ k) (hhi : k ≤ hi) : w.Establishes lo hi w₂ (w.Labels w₂ (ns ++ ns')) :=
  (h.next h' hlo hhi).imp fun _ h => h.1.append h.2

/-- A function has the label that has been taken for it before those inside. -/
theorem labels_function {w₁ w₂ w₃ : Workspace} {isGlobal : Bool} {m : Mark} {name : String}
    {ps : List Param} {type : TypeExpr} {body : Expr} {f : Frame}
    (htaken : Label.Taken w.supply.labels w₁.supply.labels
      (if isGlobal then [] else [f.label] : List Label))
      (hinside : Label.Taken w₁.supply.labels w₂.supply.labels
      ((body.walk everywhere).flatMap w₃.attrs.placeLabels : List Label))
    (hframe : w₃.attrs.frames[m.id]? = some f) :
    w.Labels w₂ (Decl.labelled isGlobal (.fn m name ps type body)) w₃ := by
  have hparams : (ps.map fun p => Node.decl p.decl).flatMap w₃.attrs.placeLabels = [] := by
    refine List.flatMap_eq_nil_iff.mpr fun n hn => ?_
    obtain ⟨p, -, rfl⟩ := List.mem_map.mp hn
    rfl
  refine (htaken.add hinside).of_eq ?_
  rw [Decl.labelled, Decl.walk, Node.below, if_pos rfl, ← List.cons_append]
  cases isGlobal with
  | true =>
    rw [if_pos rfl, if_pos rfl, List.cons_append, List.tail_cons, List.flatMap_append, hparams]
    exact (zero_add _).symm
  | false =>
    rw [if_neg (by decide), if_neg (by decide), List.flatMap_append, List.flatMap_cons, hparams,
      Attributes.placeLabels, hframe]
    exact (Multiset.coe_add _ _).symm

theorem expr_isGlobal (e : Expr) {n : Needs} (hnum : e.Numbered lo hi) :
    Ensures (expr n e) w fun n' _ => n'.isGlobal = n.isGlobal :=
  (expr_arranged e hnum (.refl w.attrs)).imp fun _ _ h => by rw [h.1, Expr.isGlobal_needs]

theorem stmt_isGlobal (s : Stmt) {n : Needs} (hnum : s.Numbered lo hi) :
    Ensures (stmt n s) w fun n' _ => n'.isGlobal = n.isGlobal :=
  (stmt_arranged s hnum (.refl w.attrs)).imp fun _ _ h => by rw [h.1, Stmt.isGlobal_needs]

theorem decls_isGlobal (ds : List Decl) {n : Needs} (hnum : Decl.NumberedAll ds lo hi) :
    Ensures (decls n ds) w fun n' _ => n'.isGlobal = n.isGlobal :=
  (decls_arranged ds hnum (.refl w.attrs)).imp fun _ _ h => by rw [h.1, Decl.isGlobal_needsAll]

theorem flatMap_labelled (ds : List Decl) :
    ds.flatMap (Decl.labelled false) = Decl.walkAll everywhere ds := by
  induction ds with
  | nil => rfl
  | cons d ds ih => exact congrArg (d.walk everywhere ++ ·) ih

mutual

/-- **The labels of the nodes of an expression** are those that its layout has taken. -/
theorem expr_labels : ∀ (e : Expr) {n : Needs} {w : Workspace} {lo hi : Nat}, e.Numbered lo hi →
    w.Blank lo hi → n.isGlobal = false →
    Ensures (expr n e) w fun _ w' => w.Establishes lo hi w' (w.Labels w' (e.walk everywhere))
  | .absent, _, _, _, _, _, _, _ => by
    rw [expr]
    exact .throw _
  | .atom m kind value, n, w, lo, hi, ⟨hid, hhi⟩, hblank, hn => by
    subst hid hhi
    rw [expr, Expr.walk]
    by_cases hkind : kind = .str
    · rw [if_pos hkind]
      -- A string takes one label and is written down under it; no other node owns this entry, so
      -- the final tables still hold it.
      refine .bind (P := fun label w' => w.Extends m.id (m.id + 1) w' ∧
        Label.Taken w.supply.labels w'.supply.labels {label}) ?_ fun label w₁ hlabel => ?_
      · exact .of_succeeds (withSupply_spec ⟨.ofSupply (Int.le_refl _), .next _⟩)
      refine Ensures.bind (P := fun _ w₂ => w₁.Establishes m.id (m.id + 1) w₂ _ ∧ w₂.supply = w₁.supply)
        (fun _ w₂ hrun => ⟨(setString_spec m.id _).of_run hrun, by cases hrun; rfl⟩)
          fun _ w₂ hstring => .pure ?_
      refine ⟨hlabel.1.trans hstring.1.grows, fun w₃ h => ?_⟩
      rw [Labels, hstring.2]
      refine hlabel.2.of_eq ?_
      show (List.flatMap _ [_] : List Label) = ({label} : Multiset Label)
      rw [List.flatMap_singleton, Attributes.placeLabels, hstring.1.holds w₃ h]
      rfl
    · -- Other atoms have no data.
      rw [if_neg hkind]
      refine .pure ⟨.refl .., fun w₃ h => ?_⟩
      have hnone := (h.strings m.id (Nat.le_refl _) (Nat.lt_succ_self _)).trans
        (hblank m.id (Nat.le_refl _) (Nat.lt_succ_self _))
      refine (Label.Taken.none _).of_eq ?_
      show (List.flatMap _ [_] : List Label) = (0 : Multiset Label)
      rw [List.flatMap_singleton, Attributes.placeLabels, hnone]
      rfl
  | .name m ident, n, w, lo, hi, _, _, _ => by
    rw [expr]
    -- Only the needs of the enclosing function depend on the binding of the name.
    refine Pass.attrs_ensures ?_
    split <;> exact .pure (.ofExtends (.refl ..) fun w₃ => Labels.nil rfl w₃)
  | .unary m op arg, n, w, lo, hi, ⟨_, hnum⟩, hblank, hn => by
    rw [expr]
    -- The node itself holds no data: its labels are those of its operand.
    refine (expr_labels arg hnum (hblank.narrow (Nat.le_succ lo) (Nat.le_refl hi)) hn).bind
      fun n' w₁ harg => .pure ?_
    exact harg.widen (Nat.le_succ lo) (Nat.le_refl hi)
  | .deref m arg, n, w, lo, hi, ⟨_, hnum⟩, hblank, hn => by
    rw [expr]
    refine (expr_labels arg hnum (hblank.narrow (Nat.le_succ lo) (Nat.le_refl hi)) hn).imp
      fun n' w₁ harg => ?_
    exact harg.widen (Nat.le_succ lo) (Nat.le_refl hi)
  | .select m arg comp, n, w, lo, hi, ⟨_, k, hnum, _, hhi⟩, hblank, hn => by
    rw [expr, Expr.walk]
    refine (expr_labels arg hnum (hblank.narrow (Nat.le_succ lo) (hhi ▸ Nat.le_succ k)) hn).imp
      fun n' w₁ harg => ?_
    refine (harg.widen (Nat.le_succ lo) (hhi ▸ Nat.le_succ k)).imp fun w₃ h => ?_
    exact h.append (Labels.nil rfl w₃)
  | .cast m arg comp, n, w, lo, hi, ⟨_, k, hnum, _, hhi⟩, hblank, hn => by
    rw [expr]
    refine (expr_labels arg hnum (hblank.narrow (Nat.le_succ lo) (hhi ▸ Nat.le_succ k)) hn).imp
      fun n' w₁ harg => ?_
    exact harg.widen (Nat.le_succ lo) (hhi ▸ Nat.le_succ k)
  | .binary m op fst snd, n, w, lo, hi, ⟨_, k, hnum₁, hnum₂⟩, hblank, hn
  | .index m fst snd, n, w, lo, hi, ⟨_, k, hnum₁, hnum₂⟩, hblank, hn => by
    have hlo := fst.le_of_numbered hnum₁
    have hhi := snd.le_of_numbered hnum₂
    rw [expr]
    refine ((expr_labels fst hnum₁ (hblank.narrow (Nat.le_succ lo) hhi) hn).and
      (expr_isGlobal fst hnum₁)).bind
      fun n' w₁ ⟨hfst, hn₁⟩ => ?_
    -- The second operand has other nodes, and the labels of the first are none of them.
    have hblank₁ := hblank.behind hfst.grows (Nat.le_of_succ_le hlo) (Nat.le_refl hi)
      (.inl (Nat.le_refl k))
    refine (expr_labels snd hnum₂ hblank₁ (hn₁.trans hn)).imp fun n' w₂ hsnd => ?_
    exact (labels_next hfst hsnd hlo hhi).widen (Nat.le_succ lo) (Nat.le_refl hi)
  | .call m ident args, n, w, lo, hi, ⟨_, hnum⟩, hblank, hn => by
    rw [expr]
    -- A call takes no label of its own; its argument area is a number among the needs.
    refine (exprs_labels ident args hnum (hblank.narrow (Nat.le_succ lo) (Nat.le_refl hi)) hn).bind
      fun r w₁ hargs => .pure ?_
    exact hargs.widen (Nat.le_succ lo) (Nat.le_refl hi)
  | .block m ss, n, w, lo, hi, ⟨_, hnum⟩, hblank, hn => by
    rw [expr]
    refine (stmts_labels ss hnum (hblank.narrow (Nat.le_succ lo) (Nat.le_refl hi)) hn).imp
      fun _ w₁ hss => ?_
    exact hss.widen (Nat.le_succ lo) (Nat.le_refl hi)
  | .scope m ds body, n, w, lo, hi, ⟨_, k, hnum₁, hnum₂⟩, hblank, hn => by
    have hlo := Decl.le_of_numberedAll ds hnum₁
    have hhi := body.le_of_numbered hnum₂
    rw [expr]
    refine ((decls_labels ds hnum₁ (hblank.narrow (Nat.le_succ lo) hhi)).and
      (decls_isGlobal ds hnum₁)).bind
      fun n' w₁ ⟨hds, hn₁⟩ => ?_
    -- Inside a function the block's variables are local and take no labels.
    rw [hn, flatMap_labelled] at hds
    have hblank₁ := hblank.behind hds.grows (Nat.le_of_succ_le hlo) (Nat.le_refl hi)
      (.inl (Nat.le_refl k))
    refine (expr_labels body hnum₂ hblank₁ (hn₁.trans hn)).imp fun n' w₂ hbody => ?_
    exact (labels_next hds hbody hlo hhi).widen (Nat.le_succ lo) (Nat.le_refl hi)

theorem exprs_labels (callee : String) : ∀ (es : List Expr) {n : Needs} {size : Word} {w : Workspace}
    {lo hi : Nat}, Expr.NumberedAll es lo hi → w.Blank lo hi → n.isGlobal = false →
    Ensures (exprs callee n size es) w fun _ w' =>
      w.Establishes lo hi w' (w.Labels w' (Expr.walkAll everywhere es))
  | [], _, _, _, _, _, _, _, _ => by
    rw [exprs]
    exact .pure (.ofExtends (.refl ..) fun w₃ => Labels.nil rfl w₃)
  | e :: es, n, size, w, lo, hi, ⟨k, hnum₁, hnum₂⟩, hblank, hn => by
    have hlo := e.le_of_numbered hnum₁
    have hhi := Expr.le_of_numberedAll es hnum₂
    rw [exprs]
    refine ((expr_labels e hnum₁ (hblank.narrow (Nat.le_refl lo) hhi) hn).and
      (expr_isGlobal e hnum₁)).bind
      fun n' w₁ ⟨he, hn₁⟩ => ?_
    refine (argSize_ensures (.refl w₁.attrs) callee e).bind fun size' w' hw' => ?_
    obtain ⟨rfl, -⟩ := hw'
    have hblank₁ := hblank.behind he.grows hlo (Nat.le_refl hi) (.inl (Nat.le_refl k))
    refine (exprs_labels callee es hnum₂ hblank₁ (hn₁.trans hn)).imp fun r w₂ hes => ?_
    exact labels_next he hes hlo hhi

theorem stmt_labels : ∀ (s : Stmt) {n : Needs} {w : Workspace} {lo hi : Nat}, s.Numbered lo hi →
    w.Blank lo hi → n.isGlobal = false →
    Ensures (stmt n s) w fun _ w' => w.Establishes lo hi w' (w.Labels w' (s.walk everywhere))
  | .absent, _, _, _, _, _, _, _ => by
    rw [stmt]
    exact .throw _
  | .eval m e, n, w, lo, hi, ⟨_, hnum⟩, hblank, hn => by
    rw [stmt]
    refine (expr_labels e hnum (hblank.narrow (Nat.le_succ lo) (Nat.le_refl hi)) hn).imp fun _ w₁ he => ?_
    exact he.widen (Nat.le_succ lo) (Nat.le_refl hi)
  | .assign m dst src, n, w, lo, hi, ⟨_, k, hnum₁, hnum₂⟩, hblank, hn => by
    have hlo := dst.le_of_numbered hnum₁
    have hhi := src.le_of_numbered hnum₂
    rw [stmt]
    refine ((expr_labels dst hnum₁ (hblank.narrow (Nat.le_succ lo) hhi) hn).and
      (expr_isGlobal dst hnum₁)).bind
      fun n' w₁ ⟨hdst, hn₁⟩ => ?_
    -- The right side has other nodes, so its strings are still unwritten.
    have hblank₁ := hblank.behind hdst.grows (Nat.le_of_succ_le hlo) (Nat.le_refl hi)
      (.inl (Nat.le_refl k))
    refine (expr_labels src hnum₂ hblank₁ (hn₁.trans hn)).imp fun n' w₂ hsrc => ?_
    exact (labels_next hdst hsrc hlo hhi).widen (Nat.le_succ lo) (Nat.le_refl hi)
  | .cond m test yes no, n, w, lo, hi, ⟨_, j, k, hnum₁, hnum₂, hnum₃⟩, hblank, hn => by
    have hj := test.le_of_numbered hnum₁
    have hk := yes.le_of_numbered hnum₂
    have hhi := no.le_of_numbered hnum₃
    -- A missing `else` takes no step and has no nodes.
    by_cases hno : no = .absent
    · subst hno
      rw [stmt, Stmt.walk, Stmt.walk, List.append_nil]
      refine ((expr_labels test hnum₁ (hblank.narrow (Nat.le_succ lo) (by omega)) hn).and
        (expr_isGlobal test hnum₁)).bind fun n' w₁ ⟨htest, hn₁⟩ => ?_
      have hblank₁ := hblank.behind htest.grows (Nat.le_of_succ_le hj) hhi (.inl (Nat.le_refl j))
      refine (stmt_labels yes hnum₂ hblank₁ (hn₁.trans hn)).imp fun n' w₂ hyes => ?_
      exact (labels_next htest hyes hj hk).widen (Nat.le_succ lo) hhi
    · rw [stmt]
      · refine ((expr_labels test hnum₁ (hblank.narrow (Nat.le_succ lo) (by omega)) hn).and
          (expr_isGlobal test hnum₁)).bind fun n' w₁ ⟨htest, hn₁⟩ => ?_
        have hblank₁ := hblank.behind htest.grows (Nat.le_of_succ_le hj) hhi (.inl (Nat.le_refl j))
        refine ((stmt_labels yes hnum₂ hblank₁ (hn₁.trans hn)).and (stmt_isGlobal yes hnum₂)).bind
          fun n' w₂ ⟨hyes, hn₂⟩ => ?_
        have hparts := labels_next htest hyes hj hk
        have hblank₂ := hblank.behind hparts.grows (by omega) (Nat.le_refl hi) (.inl (Nat.le_refl k))
        refine (stmt_labels no hnum₃ hblank₂ (hn₂.trans (hn₁.trans hn))).imp fun n' w₃ hno => ?_
        exact (labels_next hparts hno (Nat.le_trans hj hk) hhi).widen (Nat.le_succ lo) (Nat.le_refl hi)
      · exact hno
  | .loop m test body, n, w, lo, hi, ⟨_, k, hnum₁, hnum₂⟩, hblank, hn => by
    have hlo := test.le_of_numbered hnum₁
    have hhi := body.le_of_numbered hnum₂
    rw [stmt]
    refine ((expr_labels test hnum₁ (hblank.narrow (Nat.le_succ lo) hhi) hn).and
      (expr_isGlobal test hnum₁)).bind
      fun n' w₁ ⟨htest, hn₁⟩ => ?_
    have hblank₁ := hblank.behind htest.grows (Nat.le_of_succ_le hlo) (Nat.le_refl hi)
      (.inl (Nat.le_refl k))
    refine (stmt_labels body hnum₂ hblank₁ (hn₁.trans hn)).imp fun n' w₂ hbody => ?_
    exact (labels_next htest hbody hlo hhi).widen (Nat.le_succ lo) (Nat.le_refl hi)

theorem stmts_labels : ∀ (ss : List Stmt) {n : Needs} {w : Workspace} {lo hi : Nat},
    Stmt.NumberedAll ss lo hi → w.Blank lo hi → n.isGlobal = false →
    Ensures (stmts n ss) w fun _ w' => w.Establishes lo hi w' (w.Labels w' (Stmt.walkAll everywhere ss))
  | [], _, _, _, _, _, _, _ => by
    rw [stmts]
    exact .pure (.ofExtends (.refl ..) fun w₃ => Labels.nil rfl w₃)
  | s :: ss, n, w, lo, hi, ⟨k, hnum₁, hnum₂⟩, hblank, hn => by
    have hlo := s.le_of_numbered hnum₁
    have hhi := Stmt.le_of_numberedAll ss hnum₂
    rw [stmts]
    refine ((stmt_labels s hnum₁ (hblank.narrow (Nat.le_refl lo) hhi) hn).and
      (stmt_isGlobal s hnum₁)).bind
      fun n' w₁ ⟨hs, hn₁⟩ => ?_
    have hblank₁ := hblank.behind hs.grows hlo (Nat.le_refl hi) (.inl (Nat.le_refl k))
    refine (stmts_labels ss hnum₂ hblank₁ (hn₁.trans hn)).imp fun n' w₂ hss => ?_
    exact labels_next hs hss hlo hhi

theorem decls_labels : ∀ (ds : List Decl) {n : Needs} {w : Workspace} {lo hi : Nat},
    Decl.NumberedAll ds lo hi → w.Blank lo hi →
    Ensures (decls n ds) w fun _ w' =>
      w.Establishes lo hi w' (w.Labels w' (ds.flatMap (Decl.labelled n.isGlobal)))
  | [], _, _, _, _, _, _ => by
    rw [decls]
    exact .pure (.ofExtends (.refl ..) fun w₃ => Labels.nil rfl w₃)
  | .fn m name ps type body :: ds, n, w, lo, hi, ⟨k, ⟨hid, j, hparams, _, hnum₁⟩, hnum₂⟩, hblank => by
    subst hid
    have hj := Param.le_of_numberedAll hparams
    have hlo : m.id ≤ j := Nat.le_of_succ_le hj
    have hk := body.le_of_numbered hnum₁
    have hhi := Decl.le_of_numberedAll ds hnum₂
    rw [decls]
    -- The function's own label is the first that is taken, then come those of its body.
    refine ((functionLabel_labels n.isGlobal name).and
      (functionLabel_ensures n.isGlobal name m.id (m.id + 1))).bind fun label w₁ ⟨htaken, _, hlabel⟩ => ?_
    refine ((params_arranged (n.depth + 1) ps hparams (.refl w₁.attrs)).and (params_labels _ ps)).bind
      fun _ w₂ ⟨hps, hsupply⟩ => ?_
    have hbefore := (hlabel.widen (Nat.le_refl _) (by omega)).trans
      (hps.grows.widen (Nat.le_succ m.id) (Nat.le_refl j))
    -- Behind the body the frame gets the label, and the other declarations follow.
    have hrest : ∀ (own : Needs) (w₃ : Workspace),
        w₂.Establishes (j + 1) k w₃ (w₂.Labels w₃ (body.walk everywhere)) →
        Ensures (do
          let frame ← Pass.withSupply (Frame.fresh label n.depth own.locsSize own.argsSize)
          Pass.update fun t => { t with frames := t.frames.insert m.id frame }
          decls n ds) w₃ fun _ w' => w.Establishes m.id hi w'
            (w.Labels w' ((.fn m name ps type body :: ds).flatMap (Decl.labelled n.isGlobal))) := by
      intro own w₃ hbody
      refine ((freshFrame_labels label _ _ _).and (freshFrame_ensures label _ _ _ m.id (m.id + 1))).bind
        fun f w₄ ⟨⟨hf, hlabels₄⟩, _, hfresh, hfp, hrv⟩ => ?_
      refine ((setFrame_labels m.id f).and (.of_succeeds (setFrame_spec hfp hrv))).bind
        fun _ w₅ ⟨hsupply₅, hframe⟩ => ?_
      have hframe : w₃.Establishes m.id (m.id + 1) w₅ _ := ⟨hfresh.trans hframe.grows, hframe.holds⟩
      have hfn := hbody.seq hframe (.inr (by omega)) (Nat.le_succ_of_le hlo) (Nat.le_refl k)
        (Nat.le_refl _) (by omega)
      have hblank₅ := hblank.behind
        ((hbefore.widen (Nat.le_refl _) (Nat.le_of_succ_le hk)).trans hfn.grows)
        (Nat.le_trans hlo (Nat.le_of_succ_le hk)) (Nat.le_refl hi) (.inl (Nat.le_refl k))
      refine (decls_labels ds hnum₂ hblank₅).imp fun _ w₆ hds => ?_
      have hall := hfn.next hds (by omega) hhi
      -- No label is taken between the parts: the supplies at their ends agree.
      refine ⟨(hbefore.widen (Nat.le_refl _) (by omega)).trans hall.grows, fun w h => ?_⟩
      obtain ⟨⟨hbody, hframe, -⟩, hds⟩ := hall.holds w h
      rw [Labels, hsupply, ← hlabels₄, ← hsupply₅] at hbody
      rw [← hf] at htaken
      exact (labels_function htaken hbody hframe).append hds
    -- Without a body nothing is laid out between the label and the frame.
    by_cases habsent : body = .absent
    · subst habsent
      exact hrest _ w₂ (.ofExtends (.refl ..) fun w₃ => Labels.nil rfl w₃)
    · have hblank₂ := hblank.behind hbefore (Nat.le_succ_of_le hlo) hhi (.inl (Nat.le_succ j))
      have hbody := (expr_labels (n := { depth := n.depth + 1 }) body hnum₁ hblank₂ rfl).bind hrest
      cases body with
      | absent => exact absurd rfl habsent
      | _ => exact hbody
  | .var m name type :: ds, n, w, lo, hi, ⟨k, ⟨hid, _, hk⟩, hnum⟩, hblank => by
    subst hid hk
    have hhi := Decl.le_of_numberedAll ds hnum
    rw [decls]
    -- A global variable has its name for a label and a local one an offset: neither takes a label.
    refine (placeVariable_labels m name n).bind fun n' w₁ ⟨hn', hsupply, hvar⟩ => ?_
    have hblank₁ := hblank.behind hvar (Nat.le_add_right m.id 2) (Nat.le_refl hi) (.inl (Nat.le_succ _))
    refine (decls_labels ds hnum hblank₁).imp fun _ w₂ hds => ?_
    rw [hn'] at hds
    refine ⟨(hvar.widen (Nat.le_refl _) (by omega)).trans (hds.grows.widen (by omega) (Nat.le_refl hi)),
      fun w₃ h => ?_⟩
    have hlabels := (hds.holds w₃ (h.narrow (by omega) (Nat.le_refl hi))).after
      (congrArg Supply.labels hsupply)
    rw [List.flatMap_cons, Decl.labelled, Decl.walk]
    split <;> exact hlabels
  | .typ m name type :: ds, n, w, lo, hi, ⟨k, ⟨_, _, hk⟩, hnum⟩, hblank => by
    subst hk
    rw [decls]
    have hblank₁ := hblank.narrow (Nat.le_add_right lo 2) (Nat.le_refl hi)
    refine (decls_labels ds hnum hblank₁).imp fun _ w₂ hds => ?_
    refine (hds.widen (Nat.le_add_right lo 2) (Nat.le_refl hi)).imp fun w₃ h => ?_
    rw [List.flatMap_cons, Decl.labelled, Decl.walk]
    split <;> exact h
  | .par .. :: ds, _, _, _, _, _, _ => by
    rw [decls]
    exact .throw _
  | .comp .. :: ds, _, _, _, _, _, _ => by
    rw [decls]
    exact .throw _

end

/-- **The labels of the nodes of a program**, global functions apart, are those that its layout has
taken. -/
theorem program_labels {p : Program} {hi : Nat} (hnum : Decl.NumberedAll p.decls 1 hi)
    (hstrings : w.attrs.strings = ∅) :
    Ensures (program p) w fun _ w' => w.Labels w' (p.decls.flatMap (Decl.labelled true)) w' := by
  refine Pass.attrs_ensures ?_
  have hrecords := forM_offsets (t := w.attrs) (f := fun r : NodeId × RecordInfo => record r.2)
    (R := fun _ _ => True) w.attrs.records.toList (fun _ _ _ _ _ => True.intro)
    (fun r _ w _ => (record_offsets r.2).imp fun _ _ h => ⟨h.1, True.intro⟩) (.refl _)
  refine (Ensures.of_succeeds hrecords).bind fun _ w₁ ⟨hoffsets, _⟩ => ?_
  have hblank : w₁.Blank 1 hi := fun id _ _ => by simp [hoffsets.strings, hstrings]
  refine (decls_labels p.decls hnum hblank).bind fun _ w₂ hdecls => .pure ?_
  exact (hdecls.holds w₂ (.refl ..)).after (congrArg Supply.labels hoffsets.supply)

end Layout

end MmixBackend.Source
