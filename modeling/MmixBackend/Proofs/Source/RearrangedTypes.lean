import MmixBackend.Proofs.Source.Attribution
import MmixBackend.Proofs.Source.Rearrangement

/-!
# Types do not depend on the order of declarations

The rules for typed trees look at the declarations of a block one by one, and at the names that they
declare as a whole. So a typed tree stays typed when the declarations of its blocks are put in
another order. The tables may stay, too; only the declarations that names are bound to have to be
those of the new tree.

## Main definitions

- `Scope.Rearranged`: names refer to the same declarations inside of two scopes.
- `Attributes.rearrange`: tables for a tree in which the blocks are rearranged.

## Main statements

- `Scope.Rearranged.block`: with different names the order of the declarations does not matter in a scope.
- `Program.Typed.rearrange`: a typed program is typed in every arrangement.
-/

namespace MmixBackend.Source

variable {σ : Arrangement}

/-! ## §1 Scopes -/

/-- In the second scope names refer to the declarations of the first one, with the blocks in them
rearranged. -/
def Scope.Rearranged (σ : Arrangement) (scope scope' : Scope) : Prop :=
  ∀ ident, scope'.find? ident = (scope.find? ident).map (Decl.rearrange σ)

theorem lookup_perm {β : Type} {l l' : List (String × β)} (hperm : l.Perm l')
    (hnodup : (l.map Prod.fst).Nodup) (ident : String) : l.lookup ident = l'.lookup ident := by
  induction hperm with
  | nil => rfl
  | cons p _ ih => rw [List.lookup_cons, List.lookup_cons, ih (List.nodup_cons.mp hnodup).2]
  | swap p q l =>
    have hne : q.1 ≠ p.1 := fun heq => (List.nodup_cons.mp hnodup).1 (heq ▸ List.mem_cons_self)
    rw [List.lookup_cons, List.lookup_cons, List.lookup_cons, List.lookup_cons]
    cases hp : ident == p.1 with
    | false => rfl
    | true =>
      rw [beq_iff_eq] at hp
      rw [beq_false_of_ne (hp ▸ hne.symm)]
  | trans h₁ _ ih₁ ih₂ => exact (ih₁ hnodup).trans (ih₂ ((h₁.map _).nodup_iff.mp hnodup))

theorem lookup_blockScope_map (ident : String) (ds : List Decl) :
    (blockScope (ds.map (Decl.rearrange σ))).lookup ident = ((blockScope ds).lookup ident).map
    (Decl.rearrange σ) := by
  induction ds with
  | nil => rfl
  | cons d ds ih =>
    show List.lookup ident (((d.rearrange σ).name, d.rearrange σ) :: blockScope
      (ds.map (Decl.rearrange σ))) =
      (List.lookup ident ((d.name, d) :: blockScope ds)).map (Decl.rearrange σ)
    rw [List.lookup_cons, List.lookup_cons, ih, Decl.name_rearrange]
    cases ident == d.name <;> rfl

theorem find?_cons_eq (ident : String) (names : List (String × Decl)) (outer : Scope) :
    Scope.find? (names :: outer) ident = (names.lookup ident).or (outer.find? ident) := by
  unfold Scope.find?
  rw [List.findSome?_cons]
  cases names.lookup ident <;> rfl

namespace Scope.Rearranged

variable {outer outer' scope scope' : Scope}

theorem empty : Rearranged σ [] [] := fun _ => rfl

/-- **The order of the declarations of a block does not matter** if their names are different. -/
theorem block (h : outer.Rearranged σ outer') {ds ds' : List Decl} (hnames : (ds.map Decl.name).Nodup)
    (hperm : ds'.Perm (ds.map (Decl.rearrange σ))) :
    Rearranged σ (blockScope ds :: outer) (blockScope ds' :: outer') := by
  intro ident
  have hkeys : ((blockScope ds').map Prod.fst).Nodup := by
    have hsame : (ds'.map Decl.name).Perm (ds.map Decl.name) := by
      simpa [Function.comp_def] using hperm.map Decl.name
    simpa [blockScope, Function.comp_def] using hsame.nodup_iff.mpr hnames
  have hlookup : (blockScope ds').lookup ident = ((blockScope ds).lookup ident).map (Decl.rearrange σ) :=
    (lookup_perm (hperm.map _) hkeys ident).trans (lookup_blockScope_map ident ds)
  rw [find?_cons_eq, find?_cons_eq, hlookup, h ident]
  cases (blockScope ds).lookup ident <;> rfl

/-- Parameters contain no blocks. -/
theorem params (h : outer.Rearranged σ outer') (ps : List Param) :
    Rearranged σ (paramScope ps :: outer) (paramScope ps :: outer') := by
  intro ident
  rw [find?_cons_eq, find?_cons_eq, h ident]
  cases hlookup : (paramScope ps).lookup ident with
  | none => rfl
  | some d =>
    obtain ⟨before, after, heq, -⟩ := List.lookup_eq_some_iff.mp hlookup
    have hmem : (ident, d) ∈ paramScope ps := heq ▸ List.mem_append_right _ List.mem_cons_self
    obtain ⟨p, -, hp⟩ := List.mem_map.mp hmem
    cases hp
    rfl

/-- The names of types are the same. -/
theorem sameTypeNames (h : scope.Rearranged σ scope') : SameTypeNames scope.find? scope'.find? := by
  intro ident m name te
  rw [h ident]
  cases scope.find? ident with
  | none => simp
  | some d => cases d <;> simp [Decl.rearrange]

theorem find?_eq_some (h : scope.Rearranged σ scope') {ident : String} {d : Decl}
    (hfind : scope.find? ident = some d) :
    scope'.find? ident = some (d.rearrange σ) := by
  rw [h ident, hfind]
  rfl

end Scope.Rearranged

/-! ## §2 Tables -/

/-- The tables, with the blocks in the declarations rearranged that names are bound to. -/
def Attributes.rearrange (σ : Arrangement) (t : Attributes) : Attributes :=
  { t with declaredAt := t.declaredAt.map fun _ d => d.rearrange σ }

/-- All records in the tables have components. -/
def Attributes.Componental (t : Attributes) : Prop :=
  ∀ (id : NodeId) info, t.records[id]? = some info → ∀ d ∈ info.comps, ∃ m name type,
    d = .comp m name type

section

variable {t : Attributes} {scope scope' : Scope}

theorem Attributes.declaredAt_rearrange (σ : Arrangement) (t : Attributes) (id : NodeId) :
    (t.rearrange σ).declaredAt[id]? = t.declaredAt[id]?.map (Decl.rearrange σ) :=
  Std.TreeMap.getElem?_map

theorem Attributes.declaredAt_rearrange_of_eq {id : NodeId} {d : Decl} (h : t.declaredAt[id]? = some d) :
    (t.rearrange σ).declaredAt[id]? = some (d.rearrange σ) := by
  rw [declaredAt_rearrange, h]
  rfl

theorem Expr.located_rearrange (e : Expr) : (e.rearrange σ).located (t.rearrange σ) = e.located t := by
  cases e with
  | name m ident =>
    rw [rearrange, located, located, Attributes.declaredAt_rearrange]
    cases t.declaredAt[m.id]? with
    | none => rfl
    | some d => cases d <;> rfl
  | _ => rfl

theorem ArgsFit.rearrange {tys : List (Option Ty)} {params : List Param} (h : ArgsFit t tys params) :
    ArgsFit (t.rearrange σ) tys params := by
  have hdecl : (t.rearrange σ).declType = t.declType := rfl
  have hdefs : (t.rearrange σ).typeDefs = t.typeDefs := rfl
  exact (argsFit_congr hdecl hdefs tys params).mpr h

theorem Decl.isValue_rearrange {d : Decl} : (d.rearrange σ).IsValue ↔ d.IsValue := by
  cases d <;> rfl

theorem TypeExpr.Denotes.rearrange {te : TypeExpr} {ty : Ty} (h : te.Denotes t scope ty)
    (hscope : scope.Rearranged σ scope') : te.Denotes (t.rearrange σ) scope' ty := by
  obtain ⟨hty, n, r, hread, hr, hlast, hrecords⟩ := h
  refine ⟨hty, n, r, (readTypeExpr_congr hscope.sameTypeNames n te).symm.trans hread, hr,
    fun d hd => ?_, hrecords⟩
  obtain ⟨m, name, te', rfl, -⟩ := (TypeParts.ReadFrom.ok hread).lastNamed hd
  exact Attributes.declaredAt_rearrange_of_eq (hlast _ hd)

theorem TypeExpr.Declares.rearrange {te : TypeExpr} {id : NodeId} {refused : TypeDefs → Ty → Bool}
    (h : te.Declares t scope id refused) (hscope : scope.Rearranged σ scope') :
    te.Declares (t.rearrange σ) scope' id refused := by
  obtain ⟨ty, hty, hrest⟩ := h
  exact ⟨ty, hty.rearrange hscope, hrest⟩

theorem Decl.HasType.rearrange {d : Decl} (h : d.HasType t scope) (hscope : scope.Rearranged σ scope') :
    (d.rearrange σ).HasType (t.rearrange σ) scope' := by
  cases d with
  | typ m name te =>
    obtain ⟨hname, ty, hty, hdef⟩ := h
    exact ⟨hname, ty, hty.rearrange hscope, hdef⟩
  | var m name te => exact TypeExpr.Declares.rearrange h hscope
  | fn m name params te body => exact ⟨fun p hp => (h.1 p hp).rearrange hscope, h.2.rearrange hscope⟩
  | _ => trivial

/-- **A block is typed in every order**, and in the same way. -/
theorem Block.Typed.rearrange {outer outer' : Scope} {ds ds' : List Decl} (h : Block.Typed t outer ds)
    (houter : outer.Rearranged σ outer') (hperm : ds'.Perm (ds.map (Decl.rearrange σ))) :
    Block.Typed (t.rearrange σ) outer' ds' where
  names := by
    have hsame : (ds'.map Decl.name).Perm (ds.map Decl.name) := by
      simpa [Function.comp_def] using hperm.map Decl.name
    exact hsame.nodup_iff.mpr h.names
  types d' hd' := by
    obtain ⟨d, hd, rfl⟩ := List.mem_map.mp (hperm.subset hd')
    exact (h.types d hd).rearrange (houter.block h.names hperm)

/-! ## §3 Expressions, statements and bodies -/

/-- The body of the declaration, if it is a function, fits the result type. -/
def Decl.BodyTyped (t : Attributes) (scope : Scope) : Decl → Prop
  | .fn m _ params _ body => body.isAbsent = false → (params.map Param.name).Nodup ∧
      ∃ got want, body.HasType t (paramScope params :: scope) got ∧ t.declType[m.id]? = some want ∧
        (want.isVoid t.typeDefs = true ∨ want.assignable t.typeDefs got = true)
  | _ => True

theorem Decl.bodiesTyped_iff {ds : List Decl} : Decl.BodiesTyped t scope ds ↔
    ∀ d ∈ ds, d.BodyTyped t scope := by
  induction ds with
  | nil => simp [BodiesTyped]
  | cons d ds ih => cases d <;> simp [BodiesTyped, BodyTyped, ih]

theorem Decl.BodiesTyped.perm {ds ds' : List Decl} (h : Decl.BodiesTyped t scope ds)
    (hperm : ds'.Perm ds) :
    Decl.BodiesTyped t scope ds' :=
  Decl.bodiesTyped_iff.mpr fun d hd => Decl.bodiesTyped_iff.mp h d (hperm.subset hd)

mutual

/-- **A typed expression is typed in every arrangement**, and in the same way. -/
theorem Expr.hasType_rearrange (hcomps : t.Componental) : ∀ (e : Expr) {scope scope' : Scope} {ty : Ty},
    e.HasType t scope ty → scope.Rearranged σ scope' → (e.rearrange σ).HasType (t.rearrange σ) scope' ty
  | .absent, _, _, _, h, _ => h
  | .atom .., _, _, _, h, _ => h
  | .name m ident, _, _, _, ⟨⟨d, hfind, hbound, hvalue, hty⟩, hof⟩, hscope => by
    refine ⟨⟨d.rearrange σ, hscope.find?_eq_some hfind, Attributes.declaredAt_rearrange_of_eq hbound,
      Decl.isValue_rearrange.mpr hvalue, ?_⟩, hof⟩
    rw [Decl.id_rearrange]
    exact hty
  | .unary m op arg, _, _, _, ⟨⟨argTy, harg, hty⟩, hof⟩, hscope => by
    refine ⟨⟨argTy, arg.hasType_rearrange hcomps harg hscope, ?_⟩, hof⟩
    rw [Expr.located_rearrange]
    exact hty
  | .deref m arg, _, _, _, ⟨⟨argTy, harg, hty⟩, hof⟩, hscope =>
    ⟨⟨argTy, arg.hasType_rearrange hcomps harg hscope, hty⟩, hof⟩
  | .binary m op fst snd, _, _, _, ⟨⟨fstTy, sndTy, hfst, hsnd, hty⟩, hof⟩, hscope =>
    ⟨⟨fstTy, sndTy, fst.hasType_rearrange hcomps hfst hscope, snd.hasType_rearrange hcomps hsnd
      hscope, hty⟩, hof⟩
  | .index m array idx, _, _, _, ⟨⟨arrayTy, idxTy, harray, hidx, hty, hlocated, hint⟩, hof⟩, hscope =>
    ⟨⟨arrayTy, idxTy, array.hasType_rearrange hcomps harray hscope, idx.hasType_rearrange hcomps
      hidx hscope, hty,
      array.located_rearrange.trans hlocated, hint⟩, hof⟩
  | .select m record comp, _, _, _, ⟨⟨recordTy, d, hrecord, hcomp, hlocated, hbound⟩, hof⟩, hscope => by
    -- A component is no block and stays as it is.
    obtain ⟨id, fields, info, -, hinfo, hd, -⟩ := Attributes.exists_of_component? hcomp
    obtain ⟨cm, name, type, rfl⟩ := hcomps id info hinfo d hd
    exact ⟨⟨recordTy, _, record.hasType_rearrange hcomps hrecord hscope, hcomp,
      record.located_rearrange.trans hlocated,
      Attributes.declaredAt_rearrange_of_eq hbound⟩, hof⟩
  | .call m ident args, _, _, _,
      ⟨⟨tys, fm, name, params, type, body, hargs, hfind, hbound, hlength, hfit, hty⟩, hof⟩,
      hscope =>
    ⟨⟨tys, fm, name, params, type, body.rearrange σ, Expr.haveTypes_rearrangeAll hcomps args hargs hscope,
      hscope.find?_eq_some hfind, Attributes.declaredAt_rearrange_of_eq hbound, hlength,
      hfit.rearrange, hty⟩, hof⟩
  | .block m stmts, _, _, _, ⟨hstmts, hof⟩, hscope =>
    ⟨Stmt.haveType_rearrangeAll hcomps stmts hstmts hscope, hof⟩
  | .cast m arg type, _, _, _, ⟨⟨src, dst, harg, htype, hty⟩, hof⟩, hscope =>
    ⟨⟨src, dst, arg.hasType_rearrange hcomps harg hscope, htype.rearrange hscope, hty⟩, hof⟩
  | .scope m decls body, _, _, _, ⟨⟨hblock, hbodies, hbody⟩, hof⟩, hscope => by
    -- The declarations are permuted, which scopes and the types of the bodies do not notice.
    have hperm := σ.perm_map m.id decls
    have hinner := hscope.block hblock.names hperm
    exact ⟨⟨hblock.rearrange hscope hperm,
      (Decl.bodiesTyped_rearrangeAll hcomps decls hbodies hinner).perm (σ.perm m.id _),
      body.hasType_rearrange hcomps hbody hinner⟩, hof⟩

theorem Expr.haveTypes_rearrangeAll (hcomps : t.Componental) : ∀ (es : List Expr) {scope scope' : Scope}
    {tys : List Ty}, Expr.HaveTypes t scope es tys → scope.Rearranged σ scope' →
    Expr.HaveTypes (t.rearrange σ) scope' (Expr.rearrangeAll σ es) tys
  | [], _, _, _, h, _ => h
  | e :: es, _, _, _, ⟨ty, rest, he, hes, htys⟩, hscope =>
    ⟨ty, rest, e.hasType_rearrange hcomps he hscope, Expr.haveTypes_rearrangeAll hcomps es
      hes hscope, htys⟩

theorem Stmt.hasType_rearrange (hcomps : t.Componental) : ∀ (s : Stmt) {scope scope' : Scope} {ty : Ty},
    s.HasType t scope ty → scope.Rearranged σ scope' → (s.rearrange σ).HasType (t.rearrange σ) scope' ty
  | .absent, _, _, _, h, _ => h
  | .eval _ e, _, _, _, h, hscope => e.hasType_rearrange hcomps h hscope
  | .assign _ dst src, _, _, _, ⟨⟨dstTy, srcTy, hdst, hsrc, hlocated, hfit⟩, hty⟩, hscope =>
    ⟨⟨dstTy, srcTy, dst.hasType_rearrange hcomps hdst hscope, src.hasType_rearrange hcomps hsrc hscope,
      dst.located_rearrange.trans hlocated, hfit⟩, hty⟩
  | .cond _ test yes no, _, _, _, ⟨⟨testTy, yesTy, noTy, htest, hbool, hyes, hno⟩, hty⟩, hscope =>
    ⟨⟨testTy, yesTy, noTy, test.hasType_rearrange hcomps htest hscope, hbool, yes.hasType_rearrange
      hcomps hyes hscope,
      no.hasType_rearrange hcomps hno hscope⟩, hty⟩
  | .loop _ test body, _, _, _, ⟨⟨testTy, bodyTy, htest, hbool, hbody⟩, hty⟩, hscope =>
    ⟨⟨testTy, bodyTy, test.hasType_rearrange hcomps htest hscope, hbool,
      body.hasType_rearrange hcomps hbody hscope⟩, hty⟩

theorem Stmt.haveType_rearrangeAll (hcomps : t.Componental) :
    ∀ (ss : List Stmt) {scope scope' : Scope} {ty : Ty},
    Stmt.HaveType t scope ss ty → scope.Rearranged σ scope' →
    Stmt.HaveType (t.rearrange σ) scope' (Stmt.rearrangeAll σ ss) ty
  | [], _, _, _, h, _ => h
  | [s], _, _, _, h, hscope => s.hasType_rearrange hcomps h hscope
  | s :: s' :: ss, _, _, _, ⟨⟨ty', hs⟩, hss⟩, hscope =>
    ⟨⟨ty', s.hasType_rearrange hcomps hs hscope⟩, Stmt.haveType_rearrangeAll hcomps (s' :: ss) hss hscope⟩

theorem Decl.bodiesTyped_rearrangeAll (hcomps : t.Componental) :
    ∀ (ds : List Decl) {scope scope' : Scope},
    Decl.BodiesTyped t scope ds → scope.Rearranged σ scope' →
    Decl.BodiesTyped (t.rearrange σ) scope' (Decl.rearrangeAll σ ds)
  | [], _, _, h, _ => h
  | .fn m name params type body :: ds, _, _, ⟨hbody, hbodies⟩, hscope => by
    refine ⟨fun hpresent => ?_, Decl.bodiesTyped_rearrangeAll hcomps ds hbodies hscope⟩
    rw [Expr.isAbsent_rearrange] at hpresent
    obtain ⟨hnames, got, want, hgot, hfit⟩ := hbody hpresent
    exact ⟨hnames, got, want, body.hasType_rearrange hcomps hgot (hscope.params params), hfit⟩
  | .var .. :: ds, _, _, hbodies, hscope => Decl.bodiesTyped_rearrangeAll hcomps ds hbodies hscope
  | .typ .. :: ds, _, _, hbodies, hscope => Decl.bodiesTyped_rearrangeAll hcomps ds hbodies hscope
  | .par .. :: ds, _, _, hbodies, hscope => Decl.bodiesTyped_rearrangeAll hcomps ds hbodies hscope
  | .comp .. :: ds, _, _, hbodies, hscope => Decl.bodiesTyped_rearrangeAll hcomps ds hbodies hscope

end

/-- **A typed program is typed in every arrangement.** -/
theorem Program.Typed.rearrange {p : Program} (h : p.Typed t) (hcomps : t.Componental) (σ : Arrangement) :
    (p.rearrange σ).Typed (t.rearrange σ) := by
  have hperm := σ.perm_map p.mark.id p.decls
  refine ⟨fun d' hd' => ?_, h.block.rearrange .empty hperm, ?_⟩
  · obtain ⟨d, hd, rfl⟩ := List.mem_map.mp (hperm.subset hd')
    have hpermitted := h.permitted d hd
    cases d with
    | fn m name params type body => exact fun hname => congrArg (Expr.rearrange σ) (hpermitted hname)
    | _ => exact hpermitted
  · have hinner := Scope.Rearranged.empty.block h.block.names hperm
    exact (Decl.bodiesTyped_rearrangeAll hcomps p.decls h.bodies hinner).perm (σ.perm p.mark.id _)

end

end MmixBackend.Source
