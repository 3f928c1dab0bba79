import MmixBackend.Source.Resolution

/-!
# Lexically resolved trees

`Expr.Resolved t scope e` says that the tables `t` bind every name in `e` to the declaration that
lexical scoping finds for it, starting from the declarations in `scope`, and that they have the other
entries that later passes look up: types of declarations, of array elements and of arguments, and
records with the components that are selected. Parameters and arguments are scalars.

A block of declarations opens a scope for itself and for the expression behind it, a function opens one
for its body.
-/

namespace MmixBackend.Source

/-- A variable or a parameter. -/
def Decl.IsVariable : Decl → Prop
  | .var .. | .par .. => True
  | _ => False

/-- A declaration whose name alone has a value: a variable, a parameter or a function without
parameters. -/
def Decl.IsValue : Decl → Prop
  | .var .. | .par .. => True
  | .fn _ _ params _ _ => params = []
  | _ => False

/-- The parameter has a scalar type. -/
def Param.IsScalar (t : Attributes) (p : Param) : Prop :=
  ∃ ty, t.declType[p.mark.id]? = some ty ∧ ty.isScalar t.typeDefs = true

/-- The expression has a scalar type. -/
def Expr.IsScalar (t : Attributes) (e : Expr) : Prop :=
  ∃ ty, t.typeOf? e = some ty ∧ ty.isScalar t.typeDefs = true

theorem Param.IsScalar.isSome {t : Attributes} {p : Param} (h : p.IsScalar t) :
    (t.declType[p.mark.id]?).isSome := by
  obtain ⟨ty, hty, -⟩ := h
  exact Option.isSome_iff_exists.mpr ⟨ty, hty⟩

/-- The declaration, if it has a value or can be called, has a type, and its parameters are scalars. -/
def Decl.Typed (t : Attributes) : Decl → Prop
  | .fn m _ params _ _ => (t.declType[m.id]?).isSome ∧ ∀ p ∈ params, p.IsScalar t
  | .var m _ _ | .par m _ _ => (t.declType[m.id]?).isSome
  | _ => True

/-- The names that the declarations of a block declare. -/
def blockScope (ds : List Decl) : List (String × Decl) := ds.map fun d => (d.name, d)

/-- The names that the parameters of a function declare. -/
def paramScope (ps : List Param) : List (String × Decl) := ps.map fun p => (p.name, p.decl)

/-- Every declaration in the scope has a type. -/
def Scope.Typed (t : Attributes) (scope : Scope) : Prop :=
  ∀ ident d, scope.find? ident = some d → d.Typed t

/-- The expression denotes a memory location. -/
def Expr.IsLocation (t : Attributes) : Expr → Prop
  | .name m _ => ∃ d, t.declaredAt[m.id]? = some d ∧ d.IsVariable
  | .deref .. | .index .. | .select .. => True
  | _ => False

mutual

/-- An expression is resolved. -/
def Expr.Resolved (t : Attributes) (scope : Scope) : Expr → Prop
  | .absent | .atom .. => True
  | .name m ident =>
    ∃ d, scope.find? ident = some d ∧ t.declaredAt[m.id]? = some d ∧ d.IsValue
  | .unary _ op arg => arg.Resolved t scope ∧ (op = .addr → arg.IsLocation t)
  | .deref _ arg | .cast _ arg _ => arg.Resolved t scope
  | .binary _ _ fst snd => fst.Resolved t scope ∧ snd.Resolved t scope
  | .index m array idx =>
    array.Resolved t scope ∧ idx.Resolved t scope ∧ array.IsLocation t ∧ (t.ofType[m.id]?).isSome
  | .select _ record comp =>
    record.Resolved t scope ∧ record.IsLocation t ∧ ∃ (id : NodeId) (info : RecordInfo) (d : Decl),
      t.records[id]? = some info ∧ d ∈ info.comps ∧ t.declaredAt[comp.mark.id]? = some d
  | .call m ident args =>
    Expr.ResolvedAll t scope args ∧ ∃ fm name params type body,
      scope.find? ident = some (.fn fm name params type body) ∧
        t.declaredAt[m.id]? = some (.fn fm name params type body) ∧ params.length = args.length ∧
          ∀ e ∈ args, e.IsScalar t
  | .block _ stmts => Stmt.ResolvedAll t scope stmts
  | .scope _ decls body =>
    Decl.ResolvedAll t (blockScope decls :: scope) decls ∧
      body.Resolved t (blockScope decls :: scope)

/-- Arguments are resolved and have types. -/
def Expr.ResolvedAll (t : Attributes) (scope : Scope) : List Expr → Prop
  | [] => True
  | e :: es => e.Resolved t scope ∧ (t.typeOf? e).isSome ∧ Expr.ResolvedAll t scope es

/-- A statement is resolved. -/
def Stmt.Resolved (t : Attributes) (scope : Scope) : Stmt → Prop
  | .absent => True
  | .eval _ e => e.Resolved t scope
  | .assign _ dst src => dst.Resolved t scope ∧ src.Resolved t scope ∧ dst.IsLocation t
  | .cond _ test yes no => test.Resolved t scope ∧ yes.Resolved t scope ∧ no.Resolved t scope
  | .loop _ test body => test.Resolved t scope ∧ body.Resolved t scope

/-- Statements are resolved. -/
def Stmt.ResolvedAll (t : Attributes) (scope : Scope) : List Stmt → Prop
  | [] => True
  | s :: ss => s.Resolved t scope ∧ Stmt.ResolvedAll t scope ss

/-- A declaration of a block with the scope `scope` inside is resolved. -/
def Decl.Resolved (t : Attributes) (scope : Scope) : Decl → Prop
  | .fn m name params type body =>
    (Decl.fn m name params type body).Typed t ∧ body.Resolved t (paramScope params :: scope)
  | .var m name type => (Decl.var m name type).Typed t
  | .typ .. | .par .. | .comp .. => True

/-- The declarations of a block are resolved. -/
def Decl.ResolvedAll (t : Attributes) (scope : Scope) : List Decl → Prop
  | [] => True
  | d :: ds => d.Resolved t scope ∧ Decl.ResolvedAll t scope ds

end

/-! ## Scopes -/

/-- A name that is found is declared in the innermost block or found without it. -/
theorem Scope.mem_of_find?_cons {names : List (String × Decl)} {scope : Scope} {ident : String}
    {d : Decl} (h : Scope.find? (names :: scope) ident = some d) :
    (ident, d) ∈ names ∨ scope.find? ident = some d := by
  unfold Scope.find? at h
  rw [List.findSome?_cons] at h
  cases hlookup : names.lookup ident with
  | some d' =>
    rw [hlookup] at h
    cases h
    obtain ⟨before, after, rfl, -⟩ := List.lookup_eq_some_iff.mp hlookup
    exact .inl (List.mem_append_right _ List.mem_cons_self)
  | none =>
    rw [hlookup] at h
    exact .inr h

theorem Scope.Typed.block {t : Attributes} {scope : Scope} (h : scope.Typed t) {ds : List Decl}
    (hds : ∀ d ∈ ds, d.Typed t) : Scope.Typed t (blockScope ds :: scope) := by
  intro ident d hd
  rcases Scope.mem_of_find?_cons hd with hmem | hd
  · obtain ⟨d', hd', heq⟩ := List.mem_map.mp hmem
    cases heq
    exact hds _ hd'
  · exact h ident d hd

theorem Scope.Typed.params {t : Attributes} {scope : Scope} (h : scope.Typed t) {ps : List Param}
    (hps : ∀ p ∈ ps, p.IsScalar t) : Scope.Typed t (paramScope ps :: scope) := by
  intro ident d hd
  rcases Scope.mem_of_find?_cons hd with hmem | hd
  · obtain ⟨p, hp, heq⟩ := List.mem_map.mp hmem
    cases heq
    exact (hps p hp).isSome
  · exact h ident d hd

theorem Expr.ResolvedAll.typed_of_mem {t : Attributes} {scope : Scope} {es : List Expr}
    (h : Expr.ResolvedAll t scope es) {e : Expr} (he : e ∈ es) : (t.typeOf? e).isSome := by
  induction es with
  | nil => exact (List.not_mem_nil he).elim
  | cons e' es ih =>
    rcases List.mem_cons.mp he with rfl | he
    · exact h.2.1
    · exact ih h.2.2 he

end MmixBackend.Source
