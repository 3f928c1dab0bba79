import MmixBackend.Proofs.Source.Errors
import MmixBackend.Proofs.Source.Scoping
import MmixBackend.Proofs.Types.Rereading

/-!
# Outcomes of the checks

The checks of the resolver report errors on the way. This module says what each of them returns, what it
records, and in which case it reports nothing, all of it in terms of the tables it starts from. `Judges`
is the form of these statements. The rules for the types of expressions are functions of their own:
`UnaryOp.type?`, `BinaryOp.type?`, `Ty.target?`, `Ty.elem?` and `Attributes.component?`.

None of these checks reports an infinite type; only the check of the definitions of a block does.

## Main statements

- `judges_unaryType` to `judges_checkBody`: the outcomes of the checks.
- `judges_typeExpr`, `judges_typeExpr_error`: that of reading a type, which depends on what its text
  says only.
-/

namespace MmixBackend.Source

/-! ## §1 States -/

namespace Resolving

/-- The state with errors added. -/
def adding (s : Resolving) (es : List Diagnostic) : Resolving := { s with errors := es ++ s.errors }

/-- The state with a node bound. -/
def binding (s : Resolving) (id : NodeId) (d : Decl) : Resolving :=
  { s with attrs := { s.attrs with declaredAt := s.attrs.declaredAt.insert id d } }

/-- The state with the type of an expression. -/
def typing (s : Resolving) (id : NodeId) (ty : Ty) : Resolving :=
  { s with attrs := { s.attrs with ofType := s.attrs.ofType.insert id ty } }

/-- The state with the type of a declaration. -/
def declaring (s : Resolving) (id : NodeId) (ty : Ty) : Resolving :=
  { s with attrs := { s.attrs with declType := s.attrs.declType.insert id ty } }

/-- The state with the type that a type expression denotes. -/
def denoting (s : Resolving) (id : NodeId) (ty : Ty) : Resolving :=
  { s with attrs := { s.attrs with isType := s.attrs.isType.insert id ty } }

/-- The state with the definition of a type name. -/
def defining (s : Resolving) (id : NodeId) (ty : Ty) : Resolving :=
  { s with attrs := { s.attrs with typeDefs := s.attrs.typeDefs.insert id ty } }

variable (s : Resolving) (es : List Diagnostic)

@[simp] theorem attrs_adding : (s.adding es).attrs = s.attrs := rfl

@[simp] theorem errors_adding : (s.adding es).errors = es ++ s.errors := rfl

theorem adding_adding (es' : List Diagnostic) : (s.adding es).adding es' = s.adding (es' ++ es) := by
  rw [adding, adding, adding, List.append_assoc]

end Resolving

/-- The cause tells that a type is infinite. -/
def Cause.IsInfinite : Cause → Prop
  | .infiniteType _ => True
  | _ => False

instance (cause : Cause) : Decidable cause.IsInfinite := by
  unfold Cause.IsInfinite
  split <;> infer_instance

namespace Resolve

variable {α β : Type} {s : Resolving}

/-- The step `x` returns `a` and leaves `s'` behind, up to the errors that it reports. It reports
none exactly if `ok` holds, and it does not report infinite types. -/
def Judges (s : Resolving) (x : Resolve α) (a : α) (s' : Resolving) (ok : Prop) : Prop :=
  ∃ es, x.run s = (a, s'.adding es) ∧ (es = [] ↔ ok) ∧ ∀ e ∈ es, ¬e.cause.IsInfinite

namespace Judges

variable {x : Resolve α} {a : α} {b : β} {s₁ s₂ : Resolving} {ok ok' : Prop}

theorem of_run (h : x.run s = (a, s₁)) : Judges s x a s₁ True :=
  ⟨[], h, iff_of_true rfl trivial, List.forall_mem_nil _⟩

theorem pure : Judges s (pure a) a s True := of_run rfl

theorem report {pos : Pos} {cause : Cause} (h : ¬cause.IsInfinite) :
    Judges s (report pos cause) () s False :=
  ⟨[⟨pos, cause⟩], rfl, iff_of_false (List.cons_ne_nil _ _) id, List.forall_mem_singleton.mpr h⟩

/-- Of two ways one is taken. -/
theorem ite {c : Prop} [Decidable c] {y : Resolve α} (hx : c → Judges s x a s₁ ok)
    (hy : ¬c → Judges s y a s₁ ok) :
    Judges s (if c then x else y) a s₁ ok := by
  split
  · exact hx ‹_›
  · exact hy ‹_›

theorem congr (h : Judges s x a s₁ ok) (hok : ok ↔ ok') : Judges s x a s₁ ok' := by
  rwa [← propext hok]

/-- One step after another one. What the second one does must not depend on the errors so far. -/
theorem bind {f : α → Resolve β} (hx : Judges s x a s₁ ok)
    (hf : ∀ es, Judges (s₁.adding es) (f a) b (s₂.adding es) ok') :
    Judges s (x >>= f) b s₂ (ok ∧ ok') := by
  obtain ⟨es, hrun, hes, hcauses⟩ := hx
  obtain ⟨es', hrun', hes', hcauses'⟩ := hf es
  refine ⟨es' ++ es, ?_, ?_, List.forall_mem_append.mpr ⟨hcauses', hcauses⟩⟩
  · rw [run_bind_state, hrun, hrun', Resolving.adding_adding]
  · rw [List.append_eq_nil_iff, hes, hes', And.comm]

/-- Reporting an error and going on. -/
theorem report_bind {pos : Pos} {cause : Cause} (h : ¬cause.IsInfinite) {f : Unit → Resolve α}
    (hf : ∀ es, Judges (s.adding es) (f ()) a (s₁.adding es) ok) :
    Judges s (Resolve.report pos cause >>= f) a s₁ False :=
  ((report h).bind hf).congr (iff_of_false (fun h => h.1) id)

/-- A step that neither reports nor changes anything, in front of another one. -/
theorem get_bind {f : α → Resolve β} (hx : x.run s = (a, s)) (hf : Judges s (f a) b s₂ ok) :
    Judges s (x >>= f) b s₂ ok := by
  obtain ⟨es, hrun, hes⟩ := hf
  exact ⟨es, by rw [run_bind_state, hx, hrun], hes⟩

/-- Without a reason to report something the step just has its result. -/
theorem run_eq (h : Judges s x a s₁ ok) (hok : ok) : x.run s = (a, s₁) := by
  obtain ⟨es, hrun, hes, -⟩ := h
  rw [hes.mpr hok] at hrun
  exact hrun

end Judges

/-- A condition that is reported unless it holds. -/
theorem judges_reportIf {c : Prop} [Decidable c] {pos : Pos} {cause : Cause} (h : ¬cause.IsInfinite) :
    Judges s (if c then report pos cause else pure ()) () s ¬c := by
  split
  · next hc => exact (Judges.report h).congr (iff_of_false id (not_not_intro hc))
  · next hc => exact Judges.pure.congr (iff_of_true trivial hc)

theorem judges_typeIf (ok : Bool) (ty : Ty) (pos : Pos) {cause : Cause} (h : ¬cause.IsInfinite) :
    Judges s (typeIf ok ty pos cause) (if ok then some ty else none) s (ok = true) := by
  cases ok with
  | true => exact Judges.pure.congr (iff_of_true trivial rfl)
  | false => exact Judges.congr (.report_bind h fun _ => .pure) (iff_of_false id Bool.false_ne_true)

end Resolve

/-! ## §2 Rules -/

/-- The type of an atom. -/
def AtomKind.type? : AtomKind → Option Ty
  | .int => some .int
  | .char => some .char
  | .bool => some .bool
  | .void => some .void
  | .ptr => some (.ptr .void)
  | .str => some (.ptr .char)
  | .unknown _ => none

/-- The type of a unary operator applied to an operand, which may be located in memory. -/
def UnaryOp.type? (defs : TypeDefs) (located : Bool) (op : UnaryOp) (ty : Ty) : Option Ty :=
  match op with
  | .pos | .neg => if ty.isInt defs then some .int else none
  | .not => if ty.isBool defs then some .bool else none
  | .addr => if located then some (.ptr ty) else none
  | .new => if ty.isInt defs then some (.ptr .void) else none
  | .del => if ty.isPtr defs then some .void else none
  | .unknown _ => none

/-- The type of a binary operator applied to operands. -/
def BinaryOp.type? (defs : TypeDefs) (op : BinaryOp) (fst snd : Ty) : Option Ty :=
  match op with
  | .or | .and => if fst.isBool defs && snd.isBool defs then some .bool else none
  | .eq | .ne =>
    if fst.isScalar defs && (fst.assignable defs snd || snd.assignable defs fst) then some .bool else none
  | .lt | .gt | .le | .ge =>
    if fst.isInt defs && snd.isInt defs || fst.isChar defs && snd.isChar defs then some .bool else none
  | _ => if fst.isInt defs && snd.isInt defs then some .int else none

end MmixBackend.Source

namespace MmixBackend

open Source

/-- The type of what a pointer points to, unless this is `void`. -/
def Ty.target? (defs : TypeDefs) (ty : Ty) : Option Ty :=
  (ty.pointee? defs).filter fun base => !base.isVoid defs

/-- The type of the elements of an array. -/
def Ty.elem? (defs : TypeDefs) (ty : Ty) : Option Ty :=
  match ty.actual defs with
  | .arr _ elem => some elem
  | _ => none

/-- The type of a cast. -/
def Ty.cast? (defs : TypeDefs) (src dst : Ty) : Option Ty :=
  if src.isCastable defs && dst.isCastable defs then some dst else none

/-- The components of a record with their names and types. -/
def RecordInfo.typed (info : RecordInfo) : List (Decl × String × Ty) := info.comps.zip info.fields.toList

/-- The component of a record that has a name, with its type. -/
def Source.Attributes.component? (t : Attributes) (ty : Ty) (ident : String) : Option (Decl × Ty) :=
  match ty.actual t.typeDefs with
  | .record id fields =>
    let comps := (t.records[id]?.map RecordInfo.comps).getD []
    ((comps.zip fields.toList).find? fun (d, _) => d.name = ident).map fun (d, _, compTy) => (d, compTy)
  | _ => none

end MmixBackend

namespace MmixBackend.Source

/-- Whether an expression denotes a memory location. -/
def Expr.located (t : Attributes) : Expr → Bool
  | .name m _ =>
    match t.declaredAt[m.id]? with
    | some (.var ..) | some (.par ..) => true
    | _ => false
  | .deref .. | .index .. | .select .. => true
  | _ => false

theorem Expr.located_iff {t : Attributes} {e : Expr} : e.located t = true ↔ e.IsLocation t := by
  cases e with
  | name m ident =>
    rw [located, IsLocation]
    cases t.declaredAt[m.id]? with
    | none => simp
    | some d => cases d <;> simp [Decl.IsVariable]
  | _ => simp [located, IsLocation]

/-- Arguments whose types are known fit the parameters whose types are known. -/
def ArgsFit (t : Attributes) : List (Option Ty) → List Param → Prop
  | ty :: tys, p :: ps => (∀ got want, ty = some got → t.declType[p.mark.id]? = some want →
      want.assignable t.typeDefs got = true) ∧ ArgsFit t tys ps
  | _, _ => True

theorem argsFit_congr {t t' : Attributes} (hdecl : t'.declType = t.declType)
    (hdefs : t'.typeDefs = t.typeDefs) :
    ∀ (tys : List (Option Ty)) (ps : List Param), ArgsFit t' tys ps ↔ ArgsFit t tys ps
  | ty :: tys, p :: ps => by rw [ArgsFit, ArgsFit, hdecl, hdefs, argsFit_congr hdecl hdefs tys ps]
  | [], _ | _ :: _, [] => Iff.rfl

namespace Resolve

variable {s : Resolving}

/-! ## §3 Checks of expressions -/

theorem isLocation_run (e : Expr) : (isLocation e).run s = (e.located s.attrs, s) := by
  cases e with
  | name m ident =>
    unfold isLocation
    rw [run_bind_state, Expr.located]
    show StateT.run (match s.attrs.declaredAt[m.id]? with
      | some (.var ..) | some (.par ..) => pure true | _ => pure false : Resolve Bool) s = _
    cases s.attrs.declaredAt[m.id]? with
    | none => rfl
    | some d => cases d <;> rfl
  | _ => rfl

theorem judges_atomType (m : Mark) (kind : AtomKind) :
    Judges s (atomType m kind) kind.type? s kind.type?.isSome := by
  cases kind with
  | unknown code =>
    exact Judges.congr (.report_bind id fun _ => .pure) (iff_of_false id (by simp [AtomKind.type?]))
  | _ => exact Judges.pure.congr (iff_of_true trivial rfl)

theorem isSome_ite {c : Bool} {ty : Ty} : (if c then some ty else none : Option Ty).isSome ↔
    c = true := by
  cases c <;> simp

theorem judges_unaryType (m : Mark) (op : UnaryOp) (arg : Expr) (ty : Ty) :
    Judges s (unaryType m op arg ty) (op.type? s.attrs.typeDefs (arg.located s.attrs) ty) s
      (op.type? s.attrs.typeDefs (arg.located s.attrs) ty).isSome := by
  refine .get_bind (a := s.attrs.typeDefs) rfl ?_
  cases op with
  | addr => exact .get_bind (isLocation_run arg) ((judges_typeIf _ _ _ id).congr isSome_ite.symm)
  | unknown code => exact (judges_typeIf _ _ _ id).congr (by simp [UnaryOp.type?])
  | _ => exact (judges_typeIf _ _ _ id).congr isSome_ite.symm

theorem judges_derefType (m : Mark) (ty : Ty) :
    Judges s (derefType m ty) (ty.target? s.attrs.typeDefs) s (ty.target? s.attrs.typeDefs).isSome := by
  refine .get_bind (a := s.attrs.typeDefs) rfl ?_
  rw [Ty.target?]
  cases ty.pointee? s.attrs.typeDefs with
  | none => exact (judges_typeIf _ _ _ id).congr (by simp)
  | some base => exact (judges_typeIf _ _ _ id).congr isSome_ite.symm

theorem judges_binaryType (m : Mark) (op : BinaryOp) (fst snd : Ty) :
    Judges s (binaryType m op fst snd) (op.type? s.attrs.typeDefs fst snd) s
      (op.type? s.attrs.typeDefs fst snd).isSome := by
  refine .get_bind (a := s.attrs.typeDefs) rfl ?_
  cases op <;> exact (judges_typeIf _ _ _ id).congr isSome_ite.symm

/-- What remains to be done for an element, once the array is known to be one. -/
def elementType (defs : TypeDefs) (idx : Expr) (idxTy : Option Ty) (elem : Ty) : Resolve (Option Ty) := do
  if let some ty := idxTy then
    if !ty.isInt defs then report idx.pos (.indexType ty)
  return some elem

theorem judges_indexType (m : Mark) (array idx : Expr) (arrayTy : Ty) (idxTy : Option Ty) :
    Judges s (indexType m array idx arrayTy idxTy) (arrayTy.elem? s.attrs.typeDefs) s
      ((arrayTy.elem? s.attrs.typeDefs).isSome ∧ array.located s.attrs = true ∧
        ∀ ty, idxTy = some ty → ty.isInt s.attrs.typeDefs = true) := by
  refine .get_bind (a := s.attrs.typeDefs) rfl ?_
  rw [Ty.elem?]
  cases arrayTy.actual s.attrs.typeDefs with
  | arr len elem =>
    refine .get_bind (isLocation_run array) ?_
    have hidx (es : List Diagnostic) :
      Judges (s.adding es) (elementType s.attrs.typeDefs idx idxTy elem) (some elem)
        (s.adding es)
        (∀ ty, idxTy = some ty → ty.isInt s.attrs.typeDefs = true) := by
      cases idxTy with
      | none => exact Judges.pure.congr (iff_of_true trivial fun ty h => by cases h)
      | some ty =>
        refine .ite (fun hint => Judges.congr (.report_bind id fun _ => .pure) ?_) fun hint =>
          Judges.congr .pure ?_
        · exact iff_of_false id (by simpa using hint)
        · exact iff_of_true trivial (by simpa using hint)
    cases array.located s.attrs with
    | true => exact (hidx []).congr (by simp)
    | false => exact Judges.congr (.report_bind id hidx) (by simp)
  | _ => exact (judges_typeIf _ _ _ id).congr (by simp)

/-- What remains to be done for a component, once the operand is known to be a record. -/
def componentType (comp : CompName) (ty : Ty) (i : NodeId) (fields : Fields) : Resolve (Option Ty) := do
  let comps := ((← get).attrs.records[i]?.map RecordInfo.comps).getD []
  match (comps.zip fields.toList).find? fun (d, _) => d.name = comp.ident with
  | some (d, _, compTy) => do
    bind comp.mark.id d
    return some compTy
  | none => typeIf false .void comp.mark.pos (.noComponent ty comp.ident)

theorem judges_selectType (m : Mark) (record : Expr) (comp : CompName) (ty : Ty) :
    Judges s (selectType m record comp ty) ((s.attrs.component? ty comp.ident).map Prod.snd)
      ((s.attrs.component? ty comp.ident).elim s fun c => s.binding comp.mark.id c.1)
      ((s.attrs.component? ty comp.ident).isSome ∧ record.located s.attrs = true) := by
  refine .get_bind (a := s.attrs.typeDefs) rfl ?_
  rw [Attributes.component?]
  cases ty.actual s.attrs.typeDefs with
  | record i fields =>
    dsimp only
    refine .get_bind (isLocation_run record) ?_
    generalize hfound : List.find? (fun c : Decl × String × Ty => decide (c.1.name = comp.ident))
      (((s.attrs.records[i]?.map RecordInfo.comps).getD []).zip fields.toList) = found
    -- Whether the record is a location does not change what is found in it.
    have hcomp (es : List Diagnostic) : Judges (s.adding es) (componentType comp ty i fields)
        ((found.map fun c => (c.1, c.2.2)).map Prod.snd)
        (((found.map fun c => (c.1, c.2.2)).elim s fun c => s.binding comp.mark.id c.1).adding es)
        (found.map fun c => (c.1, c.2.2)).isSome := by
      refine .get_bind (a := s.adding es) rfl ?_
      subst hfound
      dsimp only [Resolving.attrs_adding]
      split
      · next hfind =>
        rw [hfind]
        exact (Judges.of_run rfl).congr (iff_of_true trivial rfl)
      · next hfind =>
        rw [hfind]
        exact (judges_typeIf _ _ _ id).congr (by simp)
    cases record.located s.attrs with
    | true => exact (hcomp []).congr (by simp)
    | false => exact Judges.congr (.report_bind id hcomp) (by simp)
  | _ => exact (judges_typeIf _ _ _ id).congr (by simp)

theorem judges_checkArgs (ident : String) (n : Nat) (args : List Expr) (tys : List (Option Ty))
    (ps : List Param) (hargs : args.length = tys.length) :
    Judges s (checkArgs ident n args tys ps) () s (ArgsFit s.attrs tys ps) := by
  fun_induction checkArgs ident n args tys ps generalizing s with
  | case1 n arg args ty tys p ps ih =>
    refine .get_bind (a := s.attrs.declType[p.mark.id]?) rfl ?_
    have hrest (es : List Diagnostic) : Judges (s.adding es) (checkArgs ident (n + 1) args tys ps) ()
        (s.adding es) (ArgsFit s.attrs tys ps) := ih (Nat.succ.inj hargs)
    -- Where a type is missing nothing is compared, and an argument that fits is passed over.
    have hskip (h : ∀ got want, ty = some got → s.attrs.declType[p.mark.id]? = some want →
        want.assignable s.attrs.typeDefs got = true) :
        Judges s (checkArgs ident (n + 1) args tys ps) () s (ArgsFit s.attrs (ty :: tys) (p :: ps)) :=
      (hrest []).congr (iff_and_self.mpr fun _ => h)
    cases hty : ty with
    | none =>
      subst hty
      exact hskip fun got want h => by cases h
    | some got =>
      subst hty
      cases hwant : s.attrs.declType[p.mark.id]? with
      | none => exact hskip fun got' want _ h => by rw [hwant] at h; cases h
      | some want =>
        refine .get_bind (a := s.attrs.typeDefs) rfl ?_
        refine .ite (fun hfit => Judges.congr (.report_bind id hrest) ?_) fun hfit => hskip ?_
        · exact iff_of_false id fun h => by simp [h.1 got want rfl hwant] at hfit
        · rintro _ _ ⟨⟩ hwant'
          rw [hwant] at hwant'
          cases hwant'
          simpa using hfit
  | case2 args n tys ps hnot =>
    refine Judges.pure.congr (iff_of_true trivial ?_)
    cases tys with
    | nil => trivial
    | cons ty tys =>
      cases ps with
      | nil => trivial
      | cons p ps =>
        cases args with
        | nil => cases hargs
        | cons arg args => exact (hnot _ _ _ _ _ _ rfl rfl rfl).elim

/-- The name is bound to the declaration that scoping finds; without an error it is that of a value. -/
theorem judges_nameType {scope : Scope} (m : Mark) {ident : String} {d : Decl}
    (h : scope.find? ident = some d) :
    ∃ ty, Judges s (nameType scope m ident) ty (s.binding m.id d) d.IsValue ∧
      (∀ ty', ty = some ty' → s.attrs.declType[d.id]? = some ty') ∧
        (d.IsValue → ty = s.attrs.declType[d.id]?) := by
  unfold nameType
  rw [h]
  have hvalue (x : Resolve (Option Ty)) (hd : d.IsValue)
      (hx : x.run s = (s.attrs.declType[d.id]?, s.binding m.id d)) :
      ∃ ty, Judges s x ty (s.binding m.id d) d.IsValue ∧
        (∀ ty', ty = some ty' → s.attrs.declType[d.id]? = some ty') ∧
          (d.IsValue → ty = s.attrs.declType[d.id]?) :=
    ⟨_, (Judges.of_run hx).congr (iff_of_true trivial hd), fun _ h => h, fun _ => rfl⟩
  have hother (x : Resolve (Option Ty)) (cause : Cause) (hd : ¬d.IsValue) (hcause : ¬cause.IsInfinite)
      (hx : x.run s = (none, (s.binding m.id d).adding [⟨m.pos, cause⟩])) :
      ∃ ty, Judges s x ty (s.binding m.id d) d.IsValue ∧
        (∀ ty', ty = some ty' → s.attrs.declType[d.id]? = some ty') ∧
          (d.IsValue → ty = s.attrs.declType[d.id]?) :=
    ⟨none, ⟨_, hx, iff_of_false (List.cons_ne_nil _ _) hd, List.forall_mem_singleton.mpr hcause⟩,
      (fun _ h => by cases h), fun h => (hd h).elim⟩
  -- Variables, parameters and functions without parameters are values; the name is bound in any case.
  cases d with
  | var dm name type => exact hvalue _ trivial rfl
  | par dm name type => exact hvalue _ trivial rfl
  | fn dm name params type body =>
    cases params with
    | nil => exact hvalue _ rfl rfl
    | cons p ps => exact hother _ _ (List.cons_ne_nil _ _) id rfl
  | typ dm name type => exact hother _ _ id id rfl
  | comp dm name type => exact hother _ _ id id rfl

theorem judges_nameType_none {scope : Scope} (m : Mark) {ident : String} (h : scope.find? ident = none) :
    Judges s (nameType scope m ident) none s False := by
  unfold nameType
  rw [h]
  exact Judges.report_bind id fun _ => .pure

/-- The callee is bound to the function that scoping finds; without an error the arguments fit. -/
theorem judges_callType {scope : Scope} (m : Mark) {ident : String} {fm : Mark} {name : String}
    {params : List Param} {type : TypeExpr} {body : Expr}
    (h : scope.find? ident = some (.fn fm name params type body)) {args : List Expr}
    {tys : List (Option Ty)} (hargs : args.length = tys.length) :
    Judges s (callType scope m ident args tys)
      (if tys.length = params.length then s.attrs.declType[fm.id]? else none)
      (s.binding m.id (.fn fm name params type body))
      (tys.length = params.length ∧ ArgsFit s.attrs tys params) := by
  unfold callType
  rw [h]
  refine Judges.congr (.bind (a := ()) (.of_run rfl) fun es => ?_) (iff_of_eq (true_and _))
  by_cases hlength : tys.length = params.length
  · rw [if_neg (not_not_intro hlength), if_pos hlength]
    refine Judges.congr (.bind (judges_checkArgs ident 1 args tys params hargs) fun es' => .of_run rfl) ?_
    rw [and_true, and_iff_right hlength]
    refine argsFit_congr ?_ ?_ tys params <;> rfl
  · rw [if_pos hlength, if_neg hlength]
    exact (judges_typeIf _ _ _ id).congr (iff_of_false Bool.false_ne_true fun h => hlength h.1)

theorem judges_callType_none {scope : Scope} (m : Mark) {ident : String} (args : List Expr)
    (tys : List (Option Ty))
    (h : ∀ fm name params type body, scope.find? ident ≠ some (.fn fm name params type body)) :
    Judges s (callType scope m ident args tys) none s False := by
  unfold callType
  split
  · next heq => exact (h _ _ _ _ _ heq).elim
  · exact (judges_typeIf _ _ _ id).congr (iff_of_false Bool.false_ne_true id)

theorem judges_castType (m : Mark) (src dst : Ty) :
    Judges s (castType m (some src) (some dst)) (src.cast? s.attrs.typeDefs dst) s
      (src.cast? s.attrs.typeDefs dst).isSome :=
  .get_bind (a := s.attrs.typeDefs) rfl ((judges_typeIf _ _ _ id).congr isSome_ite.symm)

theorem judges_checkCondition (test : Expr) (ty : Option Ty) :
    Judges s (checkCondition test ty) () s
      (∀ ty', ty = some ty' → ty'.isBool s.attrs.typeDefs = true) := by
  cases ty with
  | none => exact Judges.pure.congr (iff_of_true trivial fun _ h => by cases h)
  | some ty =>
    refine .get_bind (a := s.attrs.typeDefs) rfl ((judges_reportIf id).congr ?_)
    simp

/-- What remains to be done for an assignment, once the target is known to be a place in memory or not. -/
def checkFit (m : Mark) (dst src : Option Ty) : Resolve Unit := do
  match dst, src with
  | some dst, some src =>
    let defs ← defs
    if !dst.isScalar defs then report m.pos (.assignType dst)
    else if !dst.assignable defs src then report m.pos (.assignMismatch src dst)
  | _, _ => pure ()

theorem judges_checkAssign (m : Mark) (target : Expr) (dst src : Option Ty) :
    Judges s (checkAssign m target dst src) () s (target.located s.attrs = true ∧
      ∀ dst' src', dst = some dst' → src = some src' →
        dst'.isScalar s.attrs.typeDefs = true ∧ dst'.assignable s.attrs.typeDefs src' = true) := by
  refine .get_bind (isLocation_run target) ?_
  have hfit (es : List Diagnostic) : Judges (s.adding es) (checkFit m dst src) () (s.adding es)
    (∀ dst' src', dst = some dst' → src = some src' →
        dst'.isScalar s.attrs.typeDefs = true ∧ dst'.assignable s.attrs.typeDefs src' = true) := by
    cases dst with
    | none => exact Judges.pure.congr (iff_of_true trivial fun _ _ h => by cases h)
    | some dst =>
      cases src with
      | none => exact Judges.pure.congr (iff_of_true trivial fun _ _ _ h => by cases h)
      | some src =>
        refine .get_bind (a := s.attrs.typeDefs) rfl ?_
        cases hscalar : dst.isScalar s.attrs.typeDefs with
        | false => exact (Judges.report id).congr (by simp [hscalar])
        | true => exact (judges_reportIf id).congr (by simp [hscalar])
  cases target.located s.attrs with
  | true => exact (hfit []).congr (by simp)
  | false => exact ((Judges.report id).bind hfit).congr (by simp)

theorem judges_checkBody (m : Mark) (name : String) (body : Expr) (got : Option Ty) :
    Judges s (checkBody m name body got) () s (∀ got' want, got = some got' →
      s.attrs.declType[m.id]? = some want → want.isVoid s.attrs.typeDefs = true ∨
        want.assignable s.attrs.typeDefs got' = true) := by
  refine .get_bind (a := s.attrs.declType[m.id]?) rfl ?_
  cases got with
  | none => exact Judges.pure.congr (iff_of_true trivial fun _ _ h => by cases h)
  | some got =>
    cases s.attrs.declType[m.id]? with
    | none => exact Judges.pure.congr (iff_of_true trivial fun _ _ _ h => by cases h)
    | some want =>
      refine .get_bind (a := s.attrs.typeDefs) rfl ((judges_reportIf id).congr ?_)
      simp [or_iff_not_imp_left]

/-! ## §4 Names of blocks and parameters -/

/-- Adds a declaration under its name, unless there is one already. -/
def addName {α : Type} (key : α → String) (decl : α → Decl) (names : List (String × Decl)) (x : α) :
    List (String × Decl) :=
  if (names.lookup (key x)).isSome then names else names ++ [(key x, decl x)]

section

variable {α : Type} {key : α → String} {decl : α → Decl}

theorem lookup_foldl_addName (ident : String) : ∀ (xs : List α) (names : List (String × Decl)),
    (xs.foldl (addName key decl) names).lookup ident =
      (names ++ xs.map fun x => (key x, decl x)).lookup ident
  | [], names => by rw [List.map_nil, List.append_nil]; rfl
  | x :: xs, names => by
    rw [List.foldl_cons, lookup_foldl_addName ident xs, List.map_cons, addName]
    split
    · next hold =>
      -- A second declaration of a name is never found.
      rw [List.lookup_append, List.lookup_append, List.lookup_cons]
      split
      · next heq =>
        obtain ⟨d, hd⟩ := Option.isSome_iff_exists.mp hold
        rw [beq_iff_eq.mp heq, hd]
        rfl
      · rfl
    · rw [List.append_assoc]
      rfl

theorem judges_names {pos : α → Pos} {cause : String → Cause}
    (hcause : ∀ name, ¬(cause name).IsInfinite) :
    ∀ (xs : List α) (names : List (String × Decl)) {s : Resolving}, (names.map Prod.fst).Nodup →
    Judges s (xs.foldlM (fun names x => do
      if (names.lookup (key x)).isSome then
        report (pos x) (cause (key x))
        return names
      else return names ++ [(key x, decl x)]) names) (xs.foldl (addName key decl) names) s
      (names.map Prod.fst ++ xs.map key).Nodup
  | [], names, s, hnodup => Judges.pure.congr (iff_of_true trivial (by simpa using hnodup))
  | x :: xs, names, s, hnodup => by
    rw [List.foldlM_cons, List.foldl_cons]
    -- A name that is there already is reported and left out, which is the only way to repeat one.
    by_cases hold : (names.lookup (key x)).isSome
    · rw [if_pos hold, addName, if_pos hold]
      have hstep : Judges s (do report (pos x) (cause (key x)); return names) names s False :=
        .report_bind (hcause _) fun _ => .pure
      refine (hstep.bind fun es => judges_names hcause xs names hnodup).congr ?_
      refine iff_of_false (fun h => h.1) fun h => ?_
      obtain ⟨d, hd⟩ := Option.isSome_iff_exists.mp hold
      obtain ⟨before, after, rfl, -⟩ := List.lookup_eq_some_iff.mp hd
      simp [List.nodup_append] at h
    · rw [if_neg hold, addName, if_neg hold]
      have hnew : key x ∉ names.map Prod.fst := by
        intro hmem
        obtain ⟨⟨_, d⟩, hd, rfl⟩ := List.mem_map.mp hmem
        rw [Option.not_isSome_iff_eq_none, List.lookup_eq_none_iff] at hold
        exact absurd (hold _ hd) (by simp)
      refine (Judges.pure.bind fun es => judges_names hcause xs _ ?_).congr ?_
      · rw [List.map_append]
        refine List.nodup_append.mpr ⟨hnodup, List.nodup_singleton _, fun a ha b hb hab => ?_⟩
        rw [hab, List.mem_singleton.mp hb] at ha
        exact hnew ha
      · simp

end

theorem judges_blockNames (ds : List Decl) :
    Judges s (blockNames ds) (ds.foldl (addName Decl.name id) []) s (ds.map Decl.name).Nodup :=
  judges_names (fun _ => id) ds [] .nil

theorem judges_paramNames (ps : List Param) :
    Judges s (paramNames ps) (ps.foldl (addName Param.name Param.decl) []) s (ps.map Param.name).Nodup :=
  judges_names (fun _ => id) ps [] .nil

/-- The names of a block are found like those of all its declarations. -/
theorem find?_blockNames (ds : List Decl) (outer : Scope) :
    Scope.find? (ds.foldl (addName Decl.name id) [] :: outer) = Scope.find? (blockScope ds :: outer) := by
  funext ident
  unfold Scope.find?
  rw [List.findSome?_cons, List.findSome?_cons, lookup_foldl_addName]
  rfl

theorem find?_paramNames (ps : List Param) (outer : Scope) :
    Scope.find? (ps.foldl (addName Param.name Param.decl) [] :: outer) =
      Scope.find? (paramScope ps :: outer) := by
  funext ident
  unfold Scope.find?
  rw [List.findSome?_cons, List.findSome?_cons, lookup_foldl_addName]
  rfl

end Resolve

/-! ## §5 Types that are read -/

section

variable {α β : Type} (key : α → NodeId) (value : α → β) {id : NodeId}

theorem getElem?_foldl_insert_of_forall_ne : ∀ (xs : List α) (m : Std.TreeMap NodeId β),
    (∀ x ∈ xs, key x ≠ id) → (xs.foldl (fun m x => m.insert (key x) (value x)) m)[id]? = m[id]?
  | [], _, _ => rfl
  | x :: xs, m, h => by
    obtain ⟨hx, hxs⟩ := List.forall_mem_cons.mp h
    rw [List.foldl_cons, getElem?_foldl_insert_of_forall_ne xs _ hxs, Std.TreeMap.getElem?_insert,
      if_neg (by simpa using hx)]

theorem getElem?_foldl_insert_of_mem : ∀ (xs : List α) (m : Std.TreeMap NodeId β) {x : α}, x ∈ xs →
    (xs.map key).Nodup → (xs.foldl (fun m x => m.insert (key x) (value x)) m)[key x]? = some (value x)
  | y :: ys, m, x, hx, hnodup => by
    obtain ⟨hy, hys⟩ := List.nodup_cons.mp hnodup
    rw [List.foldl_cons]
    rcases List.mem_cons.mp hx with rfl | hx
    · rw [getElem?_foldl_insert_of_forall_ne key value ys _ fun z hz heq =>
        hy (List.mem_map.mpr ⟨z, hz, heq⟩),
        Std.TreeMap.getElem?_insert_self]
    · exact getElem?_foldl_insert_of_mem ys _ hx hys

theorem eq_or_of_getElem?_foldl_insert : ∀ (xs : List α) (m : Std.TreeMap NodeId β) {b : β},
    (xs.foldl (fun m x => m.insert (key x) (value x)) m)[id]? = some b →
      m[id]? = some b ∨ ∃ x ∈ xs, key x = id ∧ value x = b
  | [], _, _, h => .inl h
  | x :: xs, m, b, h => by
    rcases eq_or_of_getElem?_foldl_insert xs _ h with h | ⟨y, hy, heq⟩
    · rw [Std.TreeMap.getElem?_insert] at h
      split at h
      · next heq =>
        exact .inr ⟨x, List.mem_cons_self, Std.LawfulEqCmp.eq_of_compare heq, Option.some.inj h⟩
      · exact .inl h
    · exact .inr ⟨y, List.mem_cons_of_mem _ hy, heq⟩

end

/-- The tables with a record and the types of its components. -/
def Attributes.withRecord (t : Attributes) (id : NodeId) (info : RecordInfo) : Attributes :=
  { t with
    records := t.records.insert id info
    declType := info.typed.foldl (fun types c => types.insert c.1.id c.2.2) t.declType }

/-- The state with what has been read of a type expression. -/
def Resolving.keeping (s : Resolving) (te : TypeExpr) (p : TypeParts) : Resolving :=
  { s with
    nextId := p.nextId
    attrs := { s.attrs with
      declaredAt := p.lastNamed.elim s.attrs.declaredAt (s.attrs.declaredAt.insert te.mark.id)
      records := p.records.foldl (fun records r => records.insert r.1 r.2) s.attrs.records
      declType := (p.records.flatMap fun r => r.2.typed).foldl
        (fun types c => types.insert c.1.id c.2.2) s.attrs.declType } }

/-- The state in which a type expression has been read as a type. -/
def Resolving.reading (s : Resolving) (te : TypeExpr) (r : TypeResult) : Resolving :=
  (s.keeping te r.toTypeParts).denoting te.mark.id r.type

namespace Resolve

variable {s : Resolving}

theorem run_setDeclTypes_eq : ∀ (cs : List (Decl × String × Ty)) (s : Resolving),
    (cs.forM fun (d, _, ty) => setDeclType d.id (some ty)).run s = ((), { s with attrs := { s.attrs with
      declType := cs.foldl (fun types c => types.insert c.1.id c.2.2) s.attrs.declType } })
  | [], _ => rfl
  | _ :: cs, _ => run_setDeclTypes_eq cs _

theorem run_addRecord (id : NodeId) (info : RecordInfo) (s : Resolving) :
    (addRecord id info).run s = ((), { s with attrs := s.attrs.withRecord id info }) :=
  run_setDeclTypes_eq info.typed _

theorem run_addRecords : ∀ (rs : List (NodeId × RecordInfo)) (s : Resolving),
    (rs.forM fun r => addRecord r.1 r.2).run s = ((), { s with attrs := { s.attrs with
      records := rs.foldl (fun records r => records.insert r.1 r.2) s.attrs.records
      declType := (rs.flatMap fun r => r.2.typed).foldl (fun types c => types.insert c.1.id c.2.2)
        s.attrs.declType } })
  | [], _ => rfl
  | (id, info) :: rs, s => by
    show (addRecord id info >>= fun _ => rs.forM fun r => addRecord r.1 r.2).run s = _
    rw [run_bind_state, run_addRecord, run_addRecords rs, List.flatMap_cons, List.foldl_append]
    rfl

theorem run_keepParts (te : TypeExpr) (p : TypeParts) (s : Resolving) :
    (keepParts te p).run s = ((), s.keeping te p) := by
  unfold keepParts
  rw [run_bind_state, run_bind_state, run_addRecords]
  cases hlast : p.lastNamed <;> rw [Resolving.keeping, hlast] <;> rfl

theorem judges_typeExpr {scope : Scope} {te : TypeExpr} {r : TypeResult}
    (h : readTypeExpr scope.find? s.nextId te = .ok r) :
    Judges s (typeExpr scope te) (some r.type) (s.reading te r) True := by
  refine .get_bind (a := s) rfl ?_
  rw [h]
  refine .of_run ?_
  dsimp only
  rw [run_bind_state, run_keepParts]
  rfl

/-- Text that is no type leaves behind what has been read of it. -/
theorem judges_typeExpr_error {scope : Scope} {te : TypeExpr} {e : TypeFailure}
    (h : readTypeExpr scope.find? s.nextId te = .error e) :
    Judges s (typeExpr scope te) none (s.keeping te e.toTypeParts) False := by
  refine .get_bind (a := s) rfl ?_
  rw [h]
  refine .report_bind id fun es => .of_run ?_
  rw [run_bind_state, run_keepParts]
  rfl

/-! ## §6 Types of declarations -/

/-- A declared type gets its name. -/
def nameDecl : Decl → Resolve Unit
  | .typ m name _ => setDeclType m.id (some (.named m.id name))
  | _ => pure ()

/-- A declared type gets its definition, if it can be read. -/
def defineDecl (scope : Scope) : Decl → Resolve Unit
  | .typ m _ type => do
    if let some ty ← typeExpr scope type then
      update fun t => { t with typeDefs := t.typeDefs.insert m.id ty }
  | _ => pure ()

/-- Reads the type of a declaration, reports it if it is refused, and records it. -/
def declareType (scope : Scope) (id : NodeId) (te : TypeExpr) (pos : Pos) (refused : TypeDefs → Ty → Bool)
    (cause : Ty → Cause) : Resolve Unit := do
  let ty ← typeExpr scope te
  if let some ty := ty then
    if refused (← defs) ty then report pos (cause ty)
  setDeclType id ty

/-- The type of a parameter. -/
def paramType (scope : Scope) (p : Param) : Resolve Unit :=
  declareType scope p.mark.id p.type p.mark.pos (fun defs ty => !ty.isScalar defs) (.parameterType p.name)

/-- The types of a variable or a function. -/
def signature (scope : Scope) : Decl → Resolve Unit
  | .var m name type =>
    declareType scope m.id type m.pos (fun defs ty => ty.isVoid defs) fun _ => .voidVariable name
  | .fn m name params type _ => do
    params.forM (paramType scope)
    declareType scope m.id type m.pos (fun defs ty => !ty.isScalar defs && !ty.isVoid defs)
      (.resultType name)
  | _ => pure ()

theorem nameTypes_eq (ds : List Decl) : nameTypes ds = ds.forM nameDecl := by
  unfold nameTypes
  congr 1

theorem defineTypes_eq (scope : Scope) (ds : List Decl) :
    defineTypes scope ds = ds.forM (defineDecl scope) := by
  unfold defineTypes
  congr 1

theorem paramTypes_eq (scope : Scope) (ps : List Param) :
    paramTypes scope ps = ps.forM (paramType scope) := rfl

theorem signatures_eq (scope : Scope) (ds : List Decl) :
    signatures scope ds = ds.forM (signature scope) := by
  unfold signatures
  congr 1

section

variable {scope : Scope} {id : NodeId} {te : TypeExpr} {pos : Pos} {refused : TypeDefs → Ty → Bool}
  {cause : Ty → Cause}

theorem judges_defineDecl {m : Mark} {name : String} {r : TypeResult}
    (h : readTypeExpr scope.find? s.nextId te = .ok r) :
    Judges s (defineDecl scope (.typ m name te)) () ((s.reading te r).defining m.id r.type) True :=
  Judges.congr (.bind (judges_typeExpr h) fun _ => .of_run rfl) (iff_of_eq (true_and _))

theorem judges_defineDecl_error {m : Mark} {name : String} {e : TypeFailure}
    (h : readTypeExpr scope.find? s.nextId te = .error e) :
    Judges s (defineDecl scope (.typ m name te)) () (s.keeping te e.toTypeParts) False :=
  Judges.congr (.bind (judges_typeExpr_error h) fun _ => .pure) (iff_of_false (fun h => h.1) not_false)

theorem judges_declareType (hcause : ∀ ty, ¬(cause ty).IsInfinite) {r : TypeResult}
    (h : readTypeExpr scope.find? s.nextId te = .ok r) :
    Judges s (declareType scope id te pos refused cause) () ((s.reading te r).declaring id r.type)
      (refused s.attrs.typeDefs r.type = false) := by
  refine Judges.congr (.bind (judges_typeExpr h) fun es => ?_) (iff_of_eq (true_and _))
  refine .get_bind (a := s.attrs.typeDefs) rfl ?_
  have hset (s : Resolving) : Judges s (setDeclType id (some r.type)) () (s.declaring id r.type)
    True := .of_run rfl
  refine .ite (fun hc => Judges.congr (.report_bind (hcause _) fun es' => hset _) ?_) fun hc =>
    (hset _).congr ?_
  · simp [hc]
  · simpa using hc

theorem judges_declareType_error {e : TypeFailure} (h : readTypeExpr scope.find? s.nextId te = .error e) :
    Judges s (declareType scope id te pos refused cause) () (s.keeping te e.toTypeParts) False :=
  Judges.congr (.bind (judges_typeExpr_error h) fun _ => .of_run rfl)
    (iff_of_false (fun h => h.1) not_false)

end

end Resolve

end MmixBackend.Source
