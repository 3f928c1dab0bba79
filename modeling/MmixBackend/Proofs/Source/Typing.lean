import MmixBackend.Proofs.Source.Completeness
import MmixBackend.Proofs.Source.Footprint
import MmixBackend.Proofs.Source.Resolution
import MmixBackend.Proofs.Source.Rules

/-!
# Typed trees

`Expr.HasType t scope e ty` says that the expression `e` has the type `ty` inside of `scope` and
that the tables `t` record this: the types of all expressions in it, what the names and type
expressions in it mean, and the types of the declarations in it. It is a rule for each kind of node,
without states and errors.

Resolution without errors comes to typed trees, whatever is recorded later. This is what
`Attributes.Completes` is about: the tables have all entries of a state, and possibly others.

## Main definitions

- `TypeExpr.Denotes`, `Block.Typed`, `Expr.HasType`: type expressions, declarations and expressions.

## Main statements

- `Attributes.Completes.corresponds`: with more entries the answers to all questions about types stay.
-/

namespace MmixBackend.Source

/-! ## §1 Tables with more entries -/

/-- All entries of the resolver's tables `t` are in `t'`. -/
structure Attributes.Extends (t t' : Attributes) : Prop where
  declaredAt : ∀ (id : NodeId) d, t.declaredAt[id]? = some d → t'.declaredAt[id]? = some d
  ofType : ∀ (id : NodeId) ty, t.ofType[id]? = some ty → t'.ofType[id]? = some ty
  isType : ∀ (id : NodeId) ty, t.isType[id]? = some ty → t'.isType[id]? = some ty
  declType : ∀ (id : NodeId) ty, t.declType[id]? = some ty → t'.declType[id]? = some ty
  typeDefs : t.typeDefs.Grows t'.typeDefs
  records : ∀ (id : NodeId) info, t.records[id]? = some info → t'.records[id]? = some info

theorem Attributes.Extends.refl (t : Attributes) : t.Extends t :=
  ⟨fun _ _ h => h, fun _ _ h => h, fun _ _ h => h, fun _ _ h => h, .refl _, fun _ _ h => h⟩

theorem Attributes.Extends.trans {t t' t'' : Attributes} (h : t.Extends t') (h' : t'.Extends t'') :
    t.Extends t'' where
  declaredAt id d hd := h'.declaredAt id d (h.declaredAt id d hd)
  ofType id ty hty := h'.ofType id ty (h.ofType id ty hty)
  isType id ty hty := h'.isType id ty (h.isType id ty hty)
  declType id ty hty := h'.declType id ty (h.declType id ty hty)
  typeDefs := h.typeDefs.trans h'.typeDefs
  records id info hinfo := h'.records id info (h.records id info hinfo)

/-- There are no errors, and the tables have all entries of the state. Type names in them have no
cycles. -/
structure Attributes.Completes (t : Attributes) (s : Resolving) : Prop where
  errors : s.errors = []
  entries : s.attrs.Extends t
  guarded : t.typeDefs.Guarded

theorem Attributes.Completes.corresponds {t : Attributes} {s : Resolving} (h : t.Completes s)
    (hclosed : s.attrs.typeDefs.Closed) : TypeDefs.Corresponds Eq t.typeDefs s.attrs.typeDefs where
  guarded := h.guarded
  closed := hclosed
  image d ty hty := ⟨ty, h.entries.typeDefs d ty hty, .refl (fun _ => rfl) ty⟩

/-- What resolving nodes adds to the tables leaves everything in its place that was there before. -/
theorem Resolving.Admits.extended {s s' : Resolving} {scope : Scope} {ids : List NodeId}
    (h : s.Admits scope ids) (hstep : s.Touches ids s') : s.attrs.Extends s'.attrs where
  declaredAt id d hd :=
    (hstep.declaredAt id fun hid => by rw [h.declaredAt id hid] at hd; cases hd).trans hd
  ofType id ty hty := (hstep.ofType id fun hid => by rw [h.ofType id hid] at hty; cases hty).trans hty
  isType id ty hty := (hstep.isType id fun hid => by rw [h.isType id hid] at hty; cases hty).trans hty
  declType id ty hty := (hstep.declType id (fun hid => by rw [h.declType id hid] at hty; cases hty)
    (h.sound.declType id ty hty)).trans hty
  typeDefs := h.grows hstep
  records id info hinfo := (hstep.records id (h.sound.records id info hinfo).id_lt).trans hinfo

/-! ## §2 Declarations -/

/-- The type expression means `ty` in the scope. The tables have this and the records in it. -/
structure TypeExpr.Denotes (t : Attributes) (scope : Scope) (te : TypeExpr) (ty : Ty) : Prop where
  isType : t.isType[te.mark.id]? = some ty
  reads : ∃ n r, readTypeExpr scope.find? n te = .ok r ∧ r.type = ty ∧
    (∀ d, r.lastNamed = some d → t.declaredAt[te.mark.id]? = some d) ∧
      ∀ id info, (id, info) ∈ r.records → t.records[id]? = some info

/-- The declaration has a type that is allowed. -/
def TypeExpr.Declares (t : Attributes) (scope : Scope) (te : TypeExpr) (id : NodeId)
    (refused : TypeDefs → Ty → Bool) :
    Prop := ∃ ty, te.Denotes t scope ty ∧ refused t.typeDefs ty = false ∧ t.declType[id]? = some ty

/-- The parameter has a scalar type. -/
def Param.HasType (t : Attributes) (scope : Scope) (p : Param) : Prop :=
  p.type.Declares t scope p.mark.id fun defs ty => !ty.isScalar defs

/-- A declared type has its definition, a variable does not have the type `void`, a function has
scalar parameters and a scalar result or none. -/
def Decl.HasType (t : Attributes) (scope : Scope) : Decl → Prop
  | .typ m name type => t.declType[m.id]? = some (.named m.id name) ∧
      ∃ ty, type.Denotes t scope ty ∧ t.typeDefs[m.id]? = some ty
  | .var m _ type => type.Declares t scope m.id fun defs ty => ty.isVoid defs
  | .fn m _ params type _ => (∀ p ∈ params, p.HasType t scope) ∧
      type.Declares t scope m.id fun defs ty => !ty.isScalar defs && !ty.isVoid defs
  | .par .. | .comp .. => True

theorem Scope.find?_cons_congr {outer outer' : Scope} (h : outer.find? = outer'.find?)
    (names : List (String × Decl)) : Scope.find? (names :: outer) = Scope.find? (names :: outer') := by
  funext ident
  have hident := congrFun h ident
  unfold Scope.find? at hident ⊢
  rw [List.findSome?_cons, List.findSome?_cons, hident]

/-- The declarations of a block have different names, and types inside of the block. -/
structure Block.Typed (t : Attributes) (outer : Scope) (ds : List Decl) : Prop where
  names : (ds.map Decl.name).Nodup
  types : ∀ d ∈ ds, d.HasType t (blockScope ds :: outer)

/-- The numbers of a declaration and of its parameters. -/
def Decl.ownIds : Decl → List NodeId
  | .fn m _ params _ _ => m.id :: params.map fun p => p.mark.id
  | .var m _ _ | .typ m _ _ | .par m _ _ | .comp m _ _ => [m.id]

/-- All declarations in scope have types, and so do their parameters. -/
def Resolving.Declares (s : Resolving) (scope : Scope) : Prop :=
  ∀ ident d, scope.find? ident = some d → ∀ id ∈ d.ownIds, (s.attrs.declType[id]?).isSome

/-- The declarations of a block and their parameters have types. -/
def Resolving.DeclaresAll (s : Resolving) (ds : List Decl) : Prop :=
  ∀ d ∈ ds, ∀ id ∈ d.ownIds, (s.attrs.declType[id]?).isSome

theorem Resolving.DeclaresAll.mono {s s' : Resolving} {ds : List Decl} (h : s.DeclaresAll ds)
    (hstep : s.attrs.Extends s'.attrs) : s'.DeclaresAll ds := by
  intro d hd id hid
  obtain ⟨ty, hty⟩ := Option.isSome_iff_exists.mp (h d hd id hid)
  exact Option.isSome_of_eq_some (hstep.declType id ty hty)

theorem Resolving.DeclaresAll.tail {s : Resolving} {d : Decl} {ds : List Decl}
    (h : s.DeclaresAll (d :: ds)) :
    s.DeclaresAll ds :=
  fun d' hd => h d' (List.mem_cons_of_mem d hd)

theorem Decl.id_mem_ownIds (d : Decl) : d.id ∈ d.ownIds := by
  cases d <;> exact List.mem_cons_self

theorem Resolving.Declares.mono {s s' : Resolving} {scope : Scope} (h : s.Declares scope)
    (hstep : s.attrs.Extends s'.attrs) : s'.Declares scope := by
  intro ident d hfind id hid
  obtain ⟨ty, hty⟩ := Option.isSome_iff_exists.mp (h ident d hfind id hid)
  exact Option.isSome_of_eq_some (hstep.declType id ty hty)

section

variable {t t' : Attributes} {scope : Scope} {te : TypeExpr} {ty : Ty}

theorem TypeExpr.Denotes.mono (h : te.Denotes t scope ty) (hext : t.Extends t') :
    te.Denotes t' scope ty := by
  obtain ⟨hty, n, r, hread, hr, hlast, hrecords⟩ := h
  exact ⟨hext.isType _ _ hty, n, r, hread, hr, fun d hd => hext.declaredAt _ _ (hlast d hd),
    fun id info hinfo => hext.records _ _ (hrecords id info hinfo)⟩

/-- Only what the scope finds matters. -/
theorem TypeExpr.Denotes.congr {scope' : Scope} (h : te.Denotes t scope ty)
    (hscope : scope.find? = scope'.find?) :
    te.Denotes t scope' ty := by
  obtain ⟨hty, hreads⟩ := h
  rw [hscope] at hreads
  exact ⟨hty, hreads⟩

theorem Decl.HasType.congr {scope' : Scope} {d : Decl} (h : d.HasType t scope)
    (hscope : scope.find? = scope'.find?) :
    d.HasType t scope' := by
  have hdeclares {te : TypeExpr} {id : NodeId} {refused : TypeDefs → Ty → Bool}
    (h : te.Declares t scope id refused) :
      te.Declares t scope' id refused := by
    obtain ⟨ty, hty, hrest⟩ := h
    exact ⟨ty, hty.congr hscope, hrest⟩
  cases d with
  | typ m name te =>
    obtain ⟨hname, ty, hty, hdef⟩ := h
    exact ⟨hname, ty, hty.congr hscope, hdef⟩
  | var m name te => exact hdeclares h
  | fn m name params te body => exact ⟨fun p hp => hdeclares (h.1 p hp), hdeclares h.2⟩
  | _ => trivial

theorem Block.Typed.congr {outer outer' : Scope} {ds : List Decl} (h : Block.Typed t outer ds)
    (houter : outer.find? = outer'.find?) : Block.Typed t outer' ds :=
  ⟨h.names, fun d hd => (h.types d hd).congr (Scope.find?_cons_congr houter _)⟩

theorem Resolving.Declares.congr {s : Resolving} {scope scope' : Scope} (h : s.Declares scope)
    (hscope : scope.find? = scope'.find?) : s.Declares scope' :=
  fun ident d hfind => h ident d ((congrFun hscope ident).trans hfind)

/-- Inside of a block. -/
theorem Resolving.Declares.inner {s : Resolving} {outer : Scope} {ds : List Decl} (h : s.Declares outer)
    (hds : s.DeclaresAll ds) : s.Declares (blockScope ds :: outer) := by
  intro ident d hfind
  rcases Scope.mem_of_find?_cons hfind with hmem | hfind
  · obtain ⟨d', hd, heq⟩ := List.mem_map.mp hmem
    cases heq
    exact hds d hd
  · exact h ident d hfind

/-- Inside of a function. -/
theorem Resolving.Declares.params {s : Resolving} {outer : Scope} {ps : List Param} (h : s.Declares outer)
    (hps : ∀ p ∈ ps, (s.attrs.declType[p.mark.id]?).isSome) : s.Declares (paramScope ps :: outer) := by
  intro ident d hfind
  rcases Scope.mem_of_find?_cons hfind with hmem | hfind
  · obtain ⟨p, hp, heq⟩ := List.mem_map.mp hmem
    cases heq
    exact List.forall_mem_singleton.mpr (hps p hp)
  · exact h ident d hfind

theorem TypeExpr.Declares.isSome {id : NodeId} {refused : TypeDefs → Ty → Bool}
    (h : te.Declares t scope id refused) : (t.declType[id]?).isSome := by
  obtain ⟨ty, -, -, hty⟩ := h
  exact Option.isSome_of_eq_some hty

theorem Block.Typed.declaresAll {s : Resolving} {outer : Scope} {ds : List Decl}
    (h : Block.Typed s.attrs outer ds) (hcomplete : Decl.CompleteAll ds) : s.DeclaresAll ds := by
  intro d hd
  have htyped := h.types d hd
  have hnot := hcomplete.of_mem hd
  cases d with
  | typ m name te => exact List.forall_mem_singleton.mpr (Option.isSome_of_eq_some htyped.1)
  | var m name te => exact List.forall_mem_singleton.mpr htyped.isSome
  | fn m name params te body =>
    exact List.forall_mem_cons.mpr ⟨htyped.2.isSome, List.forall_mem_map.mpr fun p hp =>
      (htyped.1 p hp).isSome⟩
  | par | comp => exact hnot.elim

/-- What has been read stays, if other nodes are resolved. -/
theorem TypeExpr.Denotes.touched {P : NodeId → Prop} {s s' : Resolving} {ids : List NodeId}
    (h : te.Denotes s.attrs scope ty) (hs : s.Sound P) (hstep : s.Touches ids s')
    (hid : te.mark.id ∉ ids) :
    te.Denotes s'.attrs scope ty := by
  obtain ⟨hty, n, r, hread, hr, hlast, hrecords⟩ := h
  refine ⟨(hstep.isType _ hid).trans hty, n, r, hread, hr, fun d hd =>
    (hstep.declaredAt _ hid).trans (hlast d hd),
    fun id info hinfo => ?_⟩
  have hold := hrecords id info hinfo
  exact (hstep.records id (hs.records id info hold).id_lt).trans hold

end

section

variable {t : Attributes} {s : Resolving} {scope : Scope}

theorem TypeExpr.Declares.completed {te : TypeExpr} {id : NodeId} {refused : TypeDefs → Ty → Bool}
    (h : te.Declares s.attrs scope id refused) (ht : t.Completes s) (hs : s.Sound s.Defines)
    (hrefused : ∀ ty, ty.NamesIn s.Defines → refused t.typeDefs ty = refused s.attrs.typeDefs ty) :
    te.Declares t scope id refused := by
  obtain ⟨ty, hdenotes, hallowed, hty⟩ := h
  exact ⟨ty, hdenotes.mono ht.entries, (hrefused ty (hs.names ty (.declType hty))).trans hallowed,
    ht.entries.declType id ty hty⟩

/-- **The types of a block stay** when more is resolved. -/
theorem Block.Typed.completed {outer : Scope} {ds : List Decl} (h : Block.Typed s.attrs outer ds)
    (ht : t.Completes s) (hs : s.Sound s.Defines) : Block.Typed t outer ds := by
  have hdefs := ht.corresponds hs.closed
  have hself (ty : Ty) : ty.Renumbered Eq ty := .refl (fun _ => rfl) ty
  refine ⟨h.names, fun d hd => ?_⟩
  have htyped := h.types d hd
  cases d with
  | typ m name te =>
    obtain ⟨hname, ty, hty, hdef⟩ := htyped
    exact ⟨ht.entries.declType _ _ hname, ty, hty.mono ht.entries, ht.entries.typeDefs _ _ hdef⟩
  | var m name te => exact htyped.completed ht hs fun ty hty => hdefs.isVoid_eq (hself ty) hty
  | fn m name params te body =>
    refine ⟨fun p hp => (htyped.1 p hp).completed ht hs
      fun ty hty => ?_, htyped.2.completed ht hs fun ty hty => ?_⟩
    · rw [hdefs.isScalar_eq (hself ty) hty]
    · rw [hdefs.isScalar_eq (hself ty) hty, hdefs.isVoid_eq (hself ty) hty]
  | _ => trivial

theorem Expr.located_mono {t' : Attributes} {e : Expr} (h : e.located t = true) (hext : t.Extends t') :
    e.located t' = true := by
  rw [Expr.located_iff] at h ⊢
  cases e with
  | name m ident =>
    obtain ⟨d, hd, hvar⟩ := h
    exact ⟨d, hext.declaredAt _ _ hd, hvar⟩
  | _ => exact h

end

/-! ## §3 Expressions, statements and bodies -/

mutual

/-- The expression has a type. -/
def Expr.HasType (t : Attributes) (scope : Scope) : Expr → Ty → Prop
  | .absent, _ => False
  | .atom m kind _, ty => kind.type? = some ty ∧ t.ofType[m.id]? = some ty
  | .name m ident, ty => (∃ d, scope.find? ident = some d ∧ t.declaredAt[m.id]? = some d ∧ d.IsValue ∧
      t.declType[d.id]? = some ty) ∧ t.ofType[m.id]? = some ty
  | .unary m op arg, ty => (∃ argTy, arg.HasType t scope argTy ∧
      op.type? t.typeDefs (arg.located t) argTy = some ty) ∧ t.ofType[m.id]? = some ty
  | .deref m arg, ty => (∃ argTy, arg.HasType t scope argTy ∧ argTy.target? t.typeDefs = some ty) ∧
      t.ofType[m.id]? = some ty
  | .binary m op fst snd, ty => (∃ fstTy sndTy, fst.HasType t scope fstTy ∧ snd.HasType t scope sndTy ∧
      op.type? t.typeDefs fstTy sndTy = some ty) ∧ t.ofType[m.id]? = some ty
  | .index m array idx, ty =>
    (∃ arrayTy idxTy, array.HasType t scope arrayTy ∧ idx.HasType t scope idxTy ∧
      arrayTy.elem? t.typeDefs = some ty ∧ array.located t = true ∧ idxTy.isInt t.typeDefs = true) ∧
      t.ofType[m.id]? = some ty
  | .select m record comp, ty => (∃ recordTy d, record.HasType t scope recordTy ∧
      t.component? recordTy comp.ident = some (d, ty) ∧ record.located t = true ∧
      t.declaredAt[comp.mark.id]? = some d) ∧ t.ofType[m.id]? = some ty
  | .call m ident args, ty => (∃ tys fm name params type body, Expr.HaveTypes t scope args tys ∧
      scope.find? ident = some (.fn fm name params type body) ∧
      t.declaredAt[m.id]? = some (.fn fm name params type body) ∧ tys.length = params.length ∧
      ArgsFit t (tys.map some) params ∧ t.declType[fm.id]? = some ty) ∧ t.ofType[m.id]? = some ty
  | .block m stmts, ty => Stmt.HaveType t scope stmts ty ∧ t.ofType[m.id]? = some ty
  | .cast m arg type, ty => (∃ src dst, arg.HasType t scope src ∧ type.Denotes t scope dst ∧
      src.cast? t.typeDefs dst = some ty) ∧ t.ofType[m.id]? = some ty
  | .scope m decls body, ty =>
    (Block.Typed t scope decls ∧ Decl.BodiesTyped t (blockScope decls :: scope) decls ∧
      body.HasType t (blockScope decls :: scope) ty) ∧ t.ofType[m.id]? = some ty

/-- The expressions have types. -/
def Expr.HaveTypes (t : Attributes) (scope : Scope) : List Expr → List Ty → Prop
  | [], tys => tys = []
  | e :: es, tys => ∃ ty rest, e.HasType t scope ty ∧ Expr.HaveTypes t scope es rest ∧ tys = ty :: rest

/-- The statement has a value of a type, `void` if it is no expression. -/
def Stmt.HasType (t : Attributes) (scope : Scope) : Stmt → Ty → Prop
  | .absent, ty => ty = .void
  | .eval _ e, ty => e.HasType t scope ty
  | .assign _ dst src, ty => (∃ dstTy srcTy, dst.HasType t scope dstTy ∧ src.HasType t scope srcTy ∧
      dst.located t = true ∧ dstTy.isScalar t.typeDefs = true ∧
        dstTy.assignable t.typeDefs srcTy = true) ∧ ty = .void
  | .cond _ test yes no, ty => (∃ testTy yesTy noTy, test.HasType t scope testTy ∧
      testTy.isBool t.typeDefs = true ∧ yes.HasType t scope yesTy ∧ no.HasType t scope noTy) ∧ ty = .void
  | .loop _ test body, ty => (∃ testTy bodyTy, test.HasType t scope testTy ∧
      testTy.isBool t.typeDefs = true ∧ body.HasType t scope bodyTy) ∧ ty = .void

/-- The last one of the statements has a value of a type. -/
def Stmt.HaveType (t : Attributes) (scope : Scope) : List Stmt → Ty → Prop
  | [], ty => ty = .void
  | [s], ty => s.HasType t scope ty
  | s :: ss, ty => (∃ ty', s.HasType t scope ty') ∧ Stmt.HaveType t scope ss ty

/-- The bodies of the functions among the declarations of a block fit the result types. -/
def Decl.BodiesTyped (t : Attributes) (scope : Scope) : List Decl → Prop
  | [] => True
  | .fn m _ params _ body :: ds => (body.isAbsent = false → (params.map Param.name).Nodup ∧
      ∃ got want, body.HasType t (paramScope params :: scope) got ∧ t.declType[m.id]? = some want ∧
        (want.isVoid t.typeDefs = true ∨ want.assignable t.typeDefs got = true)) ∧
          Decl.BodiesTyped t scope ds
  | _ :: ds => Decl.BodiesTyped t scope ds

end

/-- A whole program is typed. -/
structure Program.Typed (t : Attributes) (p : Program) : Prop where
  permitted : ∀ d ∈ p.decls, d.Permitted
  block : Block.Typed t [] p.decls
  bodies : Decl.BodiesTyped t [blockScope p.decls] p.decls

theorem Expr.HasType.ofType {t : Attributes} {scope : Scope} {e : Expr} {ty : Ty}
    (h : e.HasType t scope ty) :
    t.typeOf? e = some ty := by
  cases e with
  | absent => exact h.elim
  | _ => exact h.2

end MmixBackend.Source
