import MmixBackend.Proofs.Results
import MmixBackend.Source.Resolution

/-!
# Errors of resolution stay reported

Resolution collects all errors of a program and goes on behind each of them. No step takes an error
back, so a run that has none in the end had none at any time, and every check on the way has been
passed. `Ends s x Q` is the form in which this is used: it says what holds behind a step `x` if there
are no errors then.

## Main statements

- `persistent_expr`: resolving an expression takes no error back.
- `Ends.bind`: what two steps one after the other have checked.
-/

namespace MmixBackend.Source

namespace Resolve

variable {α β : Type}

/-! ## §1 Errors stay reported -/

/-- What ends without errors had none before. -/
class Persistent (x : Resolve α) : Prop where
  errors : ∀ s, (x.run s).2.errors = [] → s.errors = []

namespace Persistent

instance (a : α) : Persistent (pure a) := ⟨fun _ h => h⟩

instance {x : Resolve α} {f : α → Resolve β} [hx : Persistent x] [hf : ∀ a, Persistent (f a)] :
    Persistent (x >>= f) := ⟨fun s h => hx.errors s ((hf _).errors _ h)⟩

instance {x : Resolve α} {f : α → β} [hx : Persistent x] : Persistent (f <$> x) :=
  ⟨fun s h => hx.errors s h⟩

instance : Persistent get := ⟨fun _ h => h⟩

instance {c : Prop} [Decidable c] {x y : Resolve α} [Persistent x] [Persistent y] :
    Persistent (if c then x else y) := by
  split <;> infer_instance

theorem bind {x : Resolve α} {f : α → Resolve β} (hx : Persistent x) (hf : ∀ a, Persistent (f a)) :
    Persistent (x >>= f) := inferInstance

theorem forM {f : α → Resolve PUnit} (hf : ∀ a, Persistent (f a)) (xs : List α) :
    Persistent (xs.forM f) := by
  induction xs with
  | nil => exact inferInstanceAs (Persistent (Pure.pure _))
  | cons a xs ih => exact inferInstanceAs (Persistent (f a >>= fun _ => xs.forM f))

theorem foldlM {f : β → α → Resolve β} (hf : ∀ b a, Persistent (f b a)) (b : β) (xs : List α) :
    Persistent (xs.foldlM f b) := by
  induction xs generalizing b with
  | nil => exact inferInstanceAs (Persistent (Pure.pure _))
  | cons a xs ih => exact inferInstanceAs (Persistent (f b a >>= fun b' => xs.foldlM f b'))

end Persistent

instance (pos : Pos) (cause : Cause) : Persistent (report pos cause) := ⟨fun _ h => by cases h⟩

instance (f : Attributes → Attributes) : Persistent (update f) := ⟨fun _ h => h⟩

instance : Persistent defs := ⟨fun _ h => h⟩

instance (id : NodeId) (d : Decl) : Persistent (bind id d) := ⟨fun _ h => h⟩

instance (id : NodeId) (ty : Option Ty) : Persistent (setDeclType id ty) := by
  cases ty <;> exact ⟨fun _ h => h⟩

instance (id : NodeId) : Persistent (declType id) := ⟨fun _ h => h⟩

instance (id : NodeId) (info : RecordInfo) : Persistent (addRecord id info) :=
  .bind inferInstance fun _ => .forM (fun ⟨_, _, _⟩ => inferInstance) _

instance (te : TypeExpr) (parts : TypeParts) : Persistent (keepParts te parts) := by
  refine .bind ⟨fun _ h => h⟩ fun _ => .bind (.forM (fun ⟨_, _⟩ => inferInstance) _) fun _ => ?_
  cases parts.lastNamed <;> infer_instance

instance (scope : Scope) (te : TypeExpr) : Persistent (typeExpr scope te) := by
  refine .bind inferInstance fun s => ?_
  split <;> infer_instance

instance (d : Decl) : Persistent (checkReserved d) := by
  unfold checkReserved
  cases d <;> infer_instance

instance (ds : List Decl) : Persistent (blockNames ds) :=
  .foldlM (fun _ _ => inferInstance) _ _

instance (ds : List Decl) : Persistent (nameTypes ds) :=
  .forM (fun d => by cases d <;> infer_instance) _

instance (scope : Scope) (ds : List Decl) : Persistent (defineTypes scope ds) := by
  refine .forM (fun d => ?_) _
  cases d with
  | typ m name type => exact .bind inferInstance fun ty => by cases ty <;> infer_instance
  | _ => infer_instance

instance (ds : List Decl) : Persistent (checkTypes ds) :=
  .forM (fun d => by cases d <;> infer_instance) _

instance (scope : Scope) (ps : List Param) : Persistent (paramTypes scope ps) :=
  .forM (fun p => .bind inferInstance fun ty => by cases ty <;> infer_instance) _

instance (scope : Scope) (ds : List Decl) : Persistent (signatures scope ds) := by
  refine .forM (fun d => ?_) _
  cases d with
  | var m name type => exact .bind inferInstance fun ty => by cases ty <;> infer_instance
  | fn m name params type body =>
    exact .bind inferInstance fun _ => .bind inferInstance fun ty => by cases ty <;> infer_instance
  | _ => infer_instance

instance (outer : Scope) (ds : List Decl) : Persistent (declare outer ds) := by
  unfold declare
  infer_instance

instance (ps : List Param) : Persistent (paramNames ps) :=
  .foldlM (fun _ _ => inferInstance) _ _

instance (m : Mark) (name : String) (body : Expr) (got : Option Ty) :
    Persistent (checkBody m name body got) :=
  .bind inferInstance fun want => by cases got <;> cases want <;> infer_instance

instance (e : Expr) : Persistent (isLocation e) := by
  unfold isLocation
  split
  · refine .bind inferInstance fun s => ?_
    split <;> infer_instance
  all_goals infer_instance

instance (m : Mark) (kind : AtomKind) : Persistent (atomType m kind) := by
  cases kind <;> unfold atomType <;> infer_instance

instance (scope : Scope) (m : Mark) (ident : String) : Persistent (nameType scope m ident) := by
  unfold nameType
  cases scope.find? ident with
  | none => infer_instance
  | some d => exact .bind inferInstance fun _ => by cases d <;> infer_instance

instance (ok : Bool) (ty : Ty) (pos : Pos) (cause : Cause) :
    Persistent (typeIf ok ty pos cause) := by
  unfold typeIf
  infer_instance

instance (m : Mark) (op : UnaryOp) (arg : Expr) (ty : Ty) : Persistent (unaryType m op arg ty) := by
  cases op <;> unfold unaryType <;> infer_instance

instance (m : Mark) (ty : Ty) : Persistent (derefType m ty) :=
  .bind inferInstance fun defs => by cases ty.pointee? defs <;> infer_instance

instance (m : Mark) (op : BinaryOp) (fst snd : Ty) : Persistent (binaryType m op fst snd) := by
  cases op <;> unfold binaryType <;> infer_instance

instance (m : Mark) (array idx : Expr) (ty : Ty) (idxTy : Option Ty) :
    Persistent (indexType m array idx ty idxTy) := by
  refine .bind inferInstance fun defs => ?_
  cases ty.actual defs <;> cases idxTy <;> infer_instance

instance (m : Mark) (record : Expr) (comp : CompName) (ty : Ty) :
    Persistent (selectType m record comp ty) := by
  refine .bind inferInstance fun defs => ?_
  split
  · refine .bind inferInstance fun addressable => ?_
    split
    · refine .bind inferInstance fun _ => .bind inferInstance fun s => ?_
      dsimp only
      split <;> infer_instance
    · refine .bind inferInstance fun s => ?_
      dsimp only
      split <;> infer_instance
  · infer_instance

instance (ident : String) (n : Nat) (args : List Expr) (tys : List (Option Ty)) (ps : List Param) :
    Persistent (checkArgs ident n args tys ps) := by
  fun_induction checkArgs ident n args tys ps with
  | case1 n arg args ty tys p ps ih =>
    refine .bind inferInstance fun want => ?_
    cases ty <;> cases want <;> infer_instance
  | case2 => infer_instance

instance (scope : Scope) (m : Mark) (ident : String) (args : List Expr) (tys : List (Option Ty)) :
    Persistent (callType scope m ident args tys) := by
  unfold callType
  split <;> infer_instance

instance (m : Mark) (src dst : Option Ty) : Persistent (castType m src dst) := by
  cases src <;> cases dst <;> unfold castType <;> infer_instance

instance (m : Mark) (target : Expr) (dst src : Option Ty) :
    Persistent (checkAssign m target dst src) := by
  cases dst <;> cases src <;> unfold checkAssign <;> infer_instance

instance (test : Expr) (ty : Option Ty) : Persistent (checkCondition test ty) := by
  cases ty <;> unfold checkCondition <;> infer_instance

instance (m : Mark) (ty : Option Ty) : Persistent (setType m ty) := by
  cases ty <;> unfold setType <;> infer_instance

mutual

theorem persistent_expr : ∀ (scope : Scope) (e : Expr), Persistent (expr scope e)
  | _, .absent => by
    rw [expr]
    infer_instance
  | scope, .atom .. | scope, .name .. => by
    rw [expr]
    infer_instance
  | scope, .unary m op arg | scope, .deref m arg | scope, .select m arg comp => by
    rw [expr]
    exact .bind (persistent_expr scope arg) fun ty => by cases ty <;> infer_instance
  | scope, .binary m op fst snd => by
    rw [expr]
    refine .bind (persistent_expr scope fst) fun fstTy =>
      .bind (persistent_expr scope snd) fun sndTy => ?_
    cases fstTy <;> cases sndTy <;> infer_instance
  | scope, .index m array idx => by
    rw [expr]
    refine .bind (persistent_expr scope array) fun ty => .bind (persistent_expr scope idx) fun _ => ?_
    cases ty <;> infer_instance
  | scope, .call m ident args => by
    rw [expr]
    exact .bind (persistent_exprs scope args) fun _ => inferInstance
  | scope, .block m ss => by
    rw [expr]
    exact .bind (persistent_stmtList scope ss) fun _ => inferInstance
  | scope, .cast m arg type => by
    rw [expr]
    exact .bind (persistent_expr scope arg) fun _ => inferInstance
  | scope, .scope m ds body => by
    rw [expr]
    exact .bind inferInstance fun inner => .bind (persistent_bodies inner ds) fun _ =>
      .bind (persistent_expr inner body) fun _ => inferInstance

theorem persistent_exprs : ∀ (scope : Scope) (es : List Expr), Persistent (exprs scope es)
  | _, [] => by
    rw [exprs]
    infer_instance
  | scope, e :: es => by
    rw [exprs]
    exact .bind (persistent_expr scope e) fun _ => .bind (persistent_exprs scope es) fun _ =>
      inferInstance

theorem persistent_stmt : ∀ (scope : Scope) (s : Stmt), Persistent (stmt scope s)
  | _, .absent => by
    rw [stmt]
    infer_instance
  | scope, .eval _ e => by
    rw [stmt]
    exact persistent_expr scope e
  | scope, .assign m dst src => by
    rw [stmt]
    exact .bind (persistent_expr scope dst) fun _ => .bind (persistent_expr scope src) fun _ =>
      inferInstance
  | scope, .cond _ test yes no => by
    rw [stmt]
    exact .bind (persistent_expr scope test) fun _ => .bind inferInstance fun _ =>
      .bind (persistent_stmt scope yes) fun _ => .bind (persistent_stmt scope no) fun _ =>
        inferInstance
  | scope, .loop _ test body => by
    rw [stmt]
    exact .bind (persistent_expr scope test) fun _ => .bind inferInstance fun _ =>
      .bind (persistent_stmt scope body) fun _ => inferInstance

theorem persistent_stmtList : ∀ (scope : Scope) (ss : List Stmt), Persistent (stmtList scope ss)
  | _, [] => by
    rw [stmtList]
    infer_instance
  | scope, [s] => by
    rw [stmtList]
    exact persistent_stmt scope s
  | scope, s :: s' :: ss => by
    rw [stmtList]
    · exact .bind (persistent_stmt scope s) fun _ => persistent_stmtList scope (s' :: ss)
    · simp

theorem persistent_bodies : ∀ (scope : Scope) (ds : List Decl), Persistent (bodies scope ds)
  | _, [] => by
    rw [bodies]
    infer_instance
  | scope, .fn m name params type body :: rest => by
    have := persistent_bodies scope rest
    have := fun names => persistent_expr (names :: scope) body
    rw [bodies]
    infer_instance
  | scope, .var .. :: rest | scope, .typ .. :: rest | scope, .par .. :: rest
  | scope, .comp .. :: rest => by
    rw [bodies]
    · exact persistent_bodies scope rest
    · simp

end

instance (scope : Scope) (e : Expr) : Persistent (expr scope e) := persistent_expr scope e

instance (scope : Scope) (es : List Expr) : Persistent (exprs scope es) := persistent_exprs scope es

instance (scope : Scope) (s : Stmt) : Persistent (stmt scope s) := persistent_stmt scope s

instance (scope : Scope) (ss : List Stmt) : Persistent (stmtList scope ss) :=
  persistent_stmtList scope ss

instance (scope : Scope) (ds : List Decl) : Persistent (bodies scope ds) := persistent_bodies scope ds

/-! ## §2 What holds without errors -/

/-- If the step `x` ends without errors when it starts from the state `s`, then its result and the state
behind it satisfy `Q`. -/
def Ends (s : Resolving) (x : Resolve α) (Q : α → Resolving → Prop) : Prop :=
  (x.run s).2.errors = [] → Q (x.run s).1 (x.run s).2

namespace Ends

variable {s : Resolving} {x : Resolve α} {Q R : α → Resolving → Prop}

theorem imp (h : Ends s x R) (hRQ : ∀ a s', R a s' → Q a s') : Ends s x Q :=
  fun hs => hRQ _ _ (h hs)

theorem pure {a : α} (h : Q a s) : Ends s (pure a) Q := fun _ => h

/-- One step after another; the second one finds no errors when it starts. -/
theorem bind {f : α → Resolve β} {Q : β → Resolving → Prop} [hp : ∀ a, Persistent (f a)]
    (hx : Ends s x R) (hf : ∀ a s', R a s' → Ends s' (f a) Q) : Ends s (x >>= f) Q :=
  fun h => hf _ _ (hx ((hp _).errors _ h)) h

theorem bind_of_persistent {f : α → Resolve β} {Q : β → Resolving → Prop}
    (hp : ∀ a, Persistent (f a)) (hx : Ends s x R) (hf : ∀ a s', R a s' → Ends s' (f a) Q) :
    Ends s (x >>= f) Q := hx.bind hf

/-- An error has been reported, so that nothing is left to be shown. -/
theorem report {pos : Pos} {cause : Cause} {Q : Unit → Resolving → Prop} :
    Ends s (report pos cause) Q := fun h => by cases h

theorem report_bind {pos : Pos} {cause : Cause} {f : Unit → Resolve α} [∀ a, Persistent (f a)] :
    Ends s (Resolve.report pos cause >>= f) Q :=
  bind (R := fun _ _ => False) report fun _ _ h => h.elim

/-- Of two ways one is taken. -/
theorem ite {c : Prop} [Decidable c] {y : Resolve α} (hx : c → Ends s x Q) (hy : ¬c → Ends s y Q) :
    Ends s (if c then x else y) Q := by
  split
  · exact hx ‹_›
  · exact hy ‹_›

/-- A first step of which the result and the state behind it are known. -/
theorem step {f : α → Resolve β} {Q : β → Resolving → Prop} {a : α} {s' : Resolving}
    (hx : x.run s = (a, s')) (hf : Ends s' (f a) Q) : Ends s (x >>= f) Q := by
  unfold Ends at hf ⊢
  rw [run_bind_state, hx]
  exact hf

end Ends

end Resolve

end MmixBackend.Source
