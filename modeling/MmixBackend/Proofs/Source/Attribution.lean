import MmixBackend.Proofs.Compilation
import MmixBackend.Proofs.Source.Recovery

/-!
# Resolved programs

The passes behind resolution look up types and bindings without asking whether they are there. This
module says what is in the tables of a program on which resolution reports no error: every node of
the tree has the entries that belong to it, and names are bound as lexical scoping has it.

The proof goes along the tree of a typed program; the run of the resolver does not occur in it any more.

## Main definitions

- `Scope.Selects`: lexical scoping.
- `Node.Attributed`: what the tables say about a node.

## Main statements

- `Program.attributed_of_resolve`: a program that resolves is attributed and bound.
-/

namespace MmixBackend.Source

/-! ## §1 Lexical scoping -/

/-- Lexical scoping selects a declaration for a name: it belongs to the innermost block that
declares the name. -/
def Scope.Selects (scope : Scope) (ident : String) (d : Decl) : Prop :=
  ∃ inner block outer, scope = inner ++ block :: outer ∧ (∀ b ∈ inner, ident ∉ b.map Prod.fst) ∧
    (ident, d) ∈ block

/-- No block declares a name twice. -/
def Scope.Distinct (scope : Scope) : Prop := ∀ block ∈ scope, (block.map Prod.fst).Nodup

namespace Scope

variable {scope : Scope} {ident : String} {d d' : Decl}

theorem selects_of_find? (h : scope.find? ident = some d) : scope.Selects ident d := by
  obtain ⟨inner, block, outer, hscope, hblock, hinner⟩ := List.findSome?_eq_some_iff.mp h
  refine ⟨inner, block, outer, hscope, fun b hb hmem => ?_, ?_⟩
  · obtain ⟨p, hp, rfl⟩ := List.mem_map.mp hmem
    have hnot := List.lookup_eq_none_iff.mp (hinner b hb) p hp
    rw [bne_self_eq_false] at hnot
    cases hnot
  · obtain ⟨front, back, rfl, -⟩ := List.lookup_eq_some_iff.mp hblock
    exact List.mem_append_right _ List.mem_cons_self

/-- **Scoping selects at most one declaration.** -/
theorem Selects.unique (hdistinct : scope.Distinct) (h : scope.Selects ident d)
    (h' : scope.Selects ident d') :
    d = d' := by
  induction scope with
  | nil =>
    obtain ⟨inner, block, outer, hscope, -⟩ := h
    cases inner <;> cases hscope
  | cons b scope ih =>
    by_cases hb : ident ∈ b.map Prod.fst
    · -- The first block declares the name, and it does so once.
      have hfirst {d : Decl} (h : Selects (b :: scope) ident d) : (ident, d) ∈ b := by
        obtain ⟨inner, block, outer, hscope, hinner, hmem⟩ := h
        cases inner with
        | nil =>
          cases hscope
          exact hmem
        | cons b' inner =>
          cases hscope
          exact (hinner b List.mem_cons_self hb).elim
      have hinj := List.inj_on_of_nodup_map (hdistinct b List.mem_cons_self) (hfirst h) (hfirst h') rfl
      exact (Prod.mk.inj hinj).2
    · have hrest {d : Decl} (h : Selects (b :: scope) ident d) : Selects scope ident d := by
        obtain ⟨inner, block, outer, hscope, hinner, hmem⟩ := h
        cases inner with
        | nil =>
          cases hscope
          exact (hb (List.mem_map.mpr ⟨_, hmem, rfl⟩)).elim
        | cons b' inner =>
          cases hscope
          exact ⟨inner, block, outer, rfl, fun b' hb' => hinner b' (List.mem_cons_of_mem _ hb'), hmem⟩
      exact ih (fun block hblock => hdistinct block (List.mem_cons_of_mem _ hblock)) (hrest h) (hrest h')

theorem Distinct.block {ds : List Decl} (h : scope.Distinct) (hds : (ds.map Decl.name).Nodup) :
    Distinct (blockScope ds :: scope) := by
  refine List.forall_mem_cons.mpr ⟨?_, h⟩
  rwa [blockScope, List.map_map]

theorem Distinct.params {ps : List Param} (h : scope.Distinct) (hps : (ps.map Param.name).Nodup) :
    Distinct (paramScope ps :: scope) := by
  refine List.forall_mem_cons.mpr ⟨?_, h⟩
  rwa [paramScope, List.map_map]

end Scope

/-! ## §2 Nodes with their entries -/

/-- The names in an expression are bound, and its parts that have to be places in memory are. -/
def Expr.Bound (t : Attributes) (scope : Scope) : Expr → Prop
  | .name m ident => ∃ d, scope.Selects ident d ∧ t.declaredAt[m.id]? = some d ∧ d.IsValue
  | .call m ident args => ∃ fm name params type body, scope.Selects ident (.fn fm name params type body) ∧
      t.declaredAt[m.id]? = some (.fn fm name params type body) ∧ params.length = args.length
  | .unary _ op arg => op = .addr → arg.IsLocation t
  | .index _ array _ => array.IsLocation t
  | .select _ record comp => record.IsLocation t ∧ ∃ ty id fields info d, t.typeOf? record = some ty ∧
      ty.actual t.typeDefs = .record id fields ∧ t.records[id]? = some info ∧ d ∈ info.comps ∧
        d.name = comp.ident ∧
        t.declaredAt[comp.mark.id]? = some d
  | .cast _ _ type => (t.isType[type.mark.id]?).isSome
  | _ => True

/-- What the tables say about a node inside of `scope`: expressions and declarations have types, so
do the type expressions in them, names are bound, and the target of an assignment is a place in
memory. -/
def Node.Attributed (t : Attributes) (scope : Scope) : Node → Prop
  | .program _ => True
  | .decl d => (t.declType[d.id]?).isSome ∧ (t.isType[d.type.mark.id]?).isSome
  | .expr e => (t.typeOf? e).isSome ∧ e.Bound t scope
  | .compName c => (t.declaredAt[c.mark.id]?).isSome
  | .stmt (.assign _ dst _) => dst.IsLocation t
  | .stmt _ => True

/-- The tables say about a node what they should, and its scope declares no name twice in a block. -/
def Site.Attributed (t : Attributes) (site : Site) : Prop := site.1.Distinct ∧ site.2.Attributed t site.1

/-- A record in the tables has components with different names, all of them with types. -/
def RecordInfo.Attributed (t : Attributes) (info : RecordInfo) : Prop :=
  (info.comps.map Decl.name).Nodup ∧ ∀ d ∈ info.comps, (t.declType[d.id]?).isSome

/-- Everything in a program has the entries that belong to it. -/
structure Program.Attributed (t : Attributes) (p : Program) : Prop where
  sites : ∀ site ∈ p.sites, Site.Attributed t site
  records : ∀ (id : NodeId) info, t.records[id]? = some info → RecordInfo.Attributed t info

/-! ## §3 Typed trees -/

variable {t : Attributes} {scope : Scope}

theorem TypeExpr.Declares.attributed {te : TypeExpr} {id : NodeId} {refused : TypeDefs → Ty → Bool}
    (h : te.Declares t scope id refused) : (t.declType[id]?).isSome ∧ (t.isType[te.mark.id]?).isSome := by
  have hsome := h.isSome
  obtain ⟨ty, hdenotes, -, -⟩ := h
  exact ⟨hsome, Option.isSome_of_eq_some hdenotes.isType⟩

theorem Expr.HasType.isSome {e : Expr} {ty : Ty} (h : e.HasType t scope ty) : (t.typeOf? e).isSome :=
  Option.isSome_of_eq_some h.ofType

theorem Expr.HaveTypes.length_eq : ∀ {es : List Expr} {tys : List Ty}, Expr.HaveTypes t scope es tys →
    tys.length = es.length
  | [], _, h => by
    rw [show _ = [] from h]
    rfl
  | _ :: _, _, ⟨_, _, _, hrest, htys⟩ => by
    rw [htys, List.length_cons, List.length_cons, hrest.length_eq]

theorem Attributes.exists_of_component? {ty cty : Ty} {ident : String} {d : Decl}
    (h : t.component? ty ident = some (d, cty)) :
    ∃ id fields info, ty.actual t.typeDefs = .record id fields ∧
      t.records[id]? = some info ∧ d ∈ info.comps ∧ d.name = ident := by
  rw [component?] at h
  split at h
  · next id fields heq =>
    obtain ⟨⟨d', c⟩, hfound, hd⟩ := Option.map_eq_some_iff.mp h
    cases hd
    have hmem := (List.of_mem_zip (List.mem_of_find?_eq_some hfound)).1
    have hname : d.name = ident := by simpa using List.find?_some hfound
    cases hinfo : t.records[id]? with
    | none =>
      rw [hinfo] at hmem
      exact (List.not_mem_nil hmem).elim
    | some info =>
      rw [hinfo] at hmem
      exact ⟨id, fields, info, heq, hinfo, hmem, hname⟩
  · cases h

/-- The head of a declaration with what belongs to it, without the body. -/
theorem Decl.HasType.attributed {d : Decl} (h : d.HasType t scope) (hcomplete : d.Complete) :
    Node.Attributed t scope (.decl d) := by
  cases d with
  | typ m name te =>
    obtain ⟨hname, ty, hdenotes, -⟩ := h
    exact ⟨Option.isSome_of_eq_some hname, Option.isSome_of_eq_some hdenotes.isType⟩
  | var m name te => exact TypeExpr.Declares.attributed h
  | fn m name params te body => exact h.2.attributed
  | par | comp => exact hcomplete.elim

mutual

/-- **A typed expression** has its entries in the tables. -/
theorem Expr.attributed_of_hasType : ∀ (e : Expr) {scope : Scope} {ty : Ty}, e.Complete →
    e.HasType t scope ty →
    scope.Distinct → ∀ site ∈ e.sites scope, Site.Attributed t site
  | .absent, _, _, hcomplete, _, _ => hcomplete.elim
  | .atom m kind value, _, _, _, h, hscope => List.forall_mem_singleton.mpr ⟨hscope, h.isSome, trivial⟩
  | .name m ident, _, _, _, h, hscope => by
    refine List.forall_mem_singleton.mpr ⟨hscope, h.isSome, ?_⟩
    obtain ⟨⟨d, hfind, hbound, hvalue, -⟩, -⟩ := h
    exact ⟨d, Scope.selects_of_find? hfind, hbound, hvalue⟩
  | .unary m op arg, _, _, hcomplete, h, hscope => by
    refine List.forall_mem_cons.mpr ⟨⟨hscope, h.isSome, ?_⟩, ?_⟩
    -- Only the address operator asks something of its operand.
    · rintro rfl
      obtain ⟨⟨argTy, -, hty⟩, -⟩ := h
      exact Expr.located_iff.mp (Option.ite_none_right_eq_some.mp hty).1
    · obtain ⟨⟨argTy, harg, -⟩, -⟩ := h
      exact arg.attributed_of_hasType hcomplete.2 harg hscope
  | .deref m arg, _, _, hcomplete, h, hscope => by
    refine List.forall_mem_cons.mpr ⟨⟨hscope, h.isSome, trivial⟩, ?_⟩
    obtain ⟨⟨argTy, harg, -⟩, -⟩ := h
    exact arg.attributed_of_hasType hcomplete harg hscope
  | .binary m op fst snd, _, _, hcomplete, h, hscope => by
    refine List.forall_mem_cons.mpr ⟨⟨hscope, h.isSome, trivial⟩, List.forall_mem_append.mpr ?_⟩
    obtain ⟨⟨fstTy, sndTy, hfst, hsnd, -⟩, -⟩ := h
    exact ⟨fst.attributed_of_hasType hcomplete.2.1 hfst hscope, snd.attributed_of_hasType
      hcomplete.2.2 hsnd hscope⟩
  | .index m array idx, _, _, hcomplete, h, hscope => by
    have hsome := h.isSome
    obtain ⟨⟨arrayTy, idxTy, harray, hidx, -, hlocated, -⟩, -⟩ := h
    refine List.forall_mem_cons.mpr ⟨⟨hscope, hsome, Expr.located_iff.mp hlocated⟩,
      List.forall_mem_append.mpr ?_⟩
    exact ⟨array.attributed_of_hasType hcomplete.1 harray hscope, idx.attributed_of_hasType
      hcomplete.2 hidx hscope⟩
  | .select m record comp, _, _, hcomplete, h, hscope => by
    have hsome := h.isSome
    obtain ⟨⟨recordTy, d, hrecord, hcomp, hlocated, hbound⟩, -⟩ := h
    -- The component is found in the record of the actual type, so a name of a type is followed first.
    obtain ⟨id, fields, info, hactual, hinfo, hmem, hname⟩ := Attributes.exists_of_component? hcomp
    refine List.forall_mem_cons.mpr
      ⟨⟨hscope, hsome, Expr.located_iff.mp hlocated, recordTy, id, fields, info, d,
      hrecord.ofType, hactual, hinfo, hmem, hname, hbound⟩, List.forall_mem_append.mpr ⟨?_, ?_⟩⟩
    · exact record.attributed_of_hasType hcomplete hrecord hscope
    · exact List.forall_mem_singleton.mpr ⟨hscope, Option.isSome_of_eq_some hbound⟩
  | .call m ident args, _, _, hcomplete, h, hscope => by
    have hsome := h.isSome
    obtain ⟨⟨tys, fm, name, params, type, body, hargs, hfind, hbound, hlength, -⟩, -⟩ := h
    refine List.forall_mem_cons.mpr
      ⟨⟨hscope, hsome, fm, name, params, type, body, Scope.selects_of_find? hfind, hbound,
      hlength.symm.trans hargs.length_eq⟩, ?_⟩
    exact Expr.attributed_of_haveTypes args hcomplete hargs hscope
  | .block m stmts, _, _, hcomplete, h, hscope => by
    refine List.forall_mem_cons.mpr ⟨⟨hscope, h.isSome, trivial⟩, ?_⟩
    exact Stmt.attributed_of_haveType stmts hcomplete h.1 hscope
  | .cast m arg type, _, _, hcomplete, h, hscope => by
    have hsome := h.isSome
    obtain ⟨⟨src, dst, harg, htype, -⟩, -⟩ := h
    refine List.forall_mem_cons.mpr ⟨⟨hscope, hsome, Option.isSome_of_eq_some htype.isType⟩, ?_⟩
    exact arg.attributed_of_hasType hcomplete harg hscope
  | .scope m ds body, _, _, hcomplete, h, hscope => by
    refine List.forall_mem_cons.mpr ⟨⟨hscope, h.isSome, trivial⟩, List.forall_mem_append.mpr ?_⟩
    obtain ⟨⟨hblock, hbodies, hbody⟩, -⟩ := h
    -- A block names nothing twice, so the scope inside of it is distinct as well.
    have hinner := hscope.block hblock.names
    exact ⟨Decl.attributed_of_typed ds hcomplete.1 hblock.types hbodies hinner,
      body.attributed_of_hasType hcomplete.2 hbody hinner⟩

theorem Expr.attributed_of_haveTypes : ∀ (es : List Expr) {scope : Scope} {tys : List Ty},
    Expr.CompleteAll es →
    Expr.HaveTypes t scope es tys → scope.Distinct → ∀ site ∈ Expr.sitesAll scope es,
      Site.Attributed t site
  | [], _, _, _, _, _ => List.forall_mem_nil _
  | e :: es, _, _, hcomplete, ⟨_, _, he, hes, _⟩, hscope => List.forall_mem_append.mpr
    ⟨e.attributed_of_hasType hcomplete.1 he hscope, Expr.attributed_of_haveTypes es
      hcomplete.2 hes hscope⟩

theorem Stmt.attributed_of_hasType : ∀ (st : Stmt) {scope : Scope} {ty : Ty}, st = .absent ∨ st.Complete →
    st.HasType t scope ty → scope.Distinct → ∀ site ∈ st.sites scope, Site.Attributed t site
  | .absent, _, _, _, _, _ => List.forall_mem_nil _
  | .eval m e, _, _, hcomplete, h, hscope => List.forall_mem_cons.mpr
    ⟨⟨hscope, trivial⟩, e.attributed_of_hasType (hcomplete.resolve_left Stmt.noConfusion) h hscope⟩
  | .assign m dst src, _, _, hcomplete, ⟨⟨_, _, hdst, hsrc, hlocated, _⟩, _⟩, hscope => by
    replace hcomplete := hcomplete.resolve_left Stmt.noConfusion
    refine List.forall_mem_cons.mpr ⟨⟨hscope, Expr.located_iff.mp hlocated⟩,
      List.forall_mem_append.mpr ?_⟩
    exact ⟨dst.attributed_of_hasType hcomplete.1 hdst hscope, src.attributed_of_hasType
      hcomplete.2 hsrc hscope⟩
  | .cond m test yes no, _, _, hcomplete, ⟨⟨_, _, _, htest, _, hyes, hno⟩, _⟩, hscope => by
    replace hcomplete := hcomplete.resolve_left Stmt.noConfusion
    refine List.forall_mem_cons.mpr ⟨⟨hscope, trivial⟩, List.forall_mem_append.mpr
      ⟨List.forall_mem_append.mpr ?_, ?_⟩⟩
    · exact ⟨test.attributed_of_hasType hcomplete.1 htest hscope,
        yes.attributed_of_hasType (.inr hcomplete.2.1) hyes hscope⟩
    · exact no.attributed_of_hasType hcomplete.2.2 hno hscope
  | .loop m test body, _, _, hcomplete, ⟨⟨_, _, htest, _, hbody⟩, _⟩, hscope => by
    replace hcomplete := hcomplete.resolve_left Stmt.noConfusion
    refine List.forall_mem_cons.mpr ⟨⟨hscope, trivial⟩, List.forall_mem_append.mpr ?_⟩
    exact ⟨test.attributed_of_hasType hcomplete.1 htest hscope,
      body.attributed_of_hasType (.inr hcomplete.2) hbody hscope⟩

theorem Stmt.attributed_of_haveType : ∀ (ss : List Stmt) {scope : Scope} {ty : Ty}, Stmt.CompleteAll ss →
    Stmt.HaveType t scope ss ty → scope.Distinct → ∀ site ∈ Stmt.sitesAll scope ss, Site.Attributed t site
  | [], _, _, _, _, _ => List.forall_mem_nil _
  | [st], _, _, hcomplete, h, hscope => List.forall_mem_append.mpr
    ⟨st.attributed_of_hasType (.inr hcomplete.1) h hscope, List.forall_mem_nil _⟩
  | st :: st' :: ss, _, _, hcomplete, ⟨⟨_, hst⟩, hrest⟩, hscope => List.forall_mem_append.mpr
    ⟨st.attributed_of_hasType (.inr hcomplete.1) hst hscope,
      Stmt.attributed_of_haveType (st' :: ss) hcomplete.2 hrest hscope⟩

theorem Decl.attributed_of_typed : ∀ (ds : List Decl) {scope : Scope}, Decl.CompleteAll ds →
    (∀ d ∈ ds, d.HasType t scope) → Decl.BodiesTyped t scope ds → scope.Distinct →
    ∀ site ∈ Decl.sitesAll scope ds, Site.Attributed t site
  | [], _, _, _, _, _ => List.forall_mem_nil _
  | .fn m name params type body :: ds, scope, hcomplete, htypes, ⟨hbody, hbodies⟩, hscope => by
    obtain ⟨htype, htypes⟩ := List.forall_mem_cons.mp htypes
    refine List.forall_mem_append.mpr ⟨List.forall_mem_cons.mpr ⟨⟨hscope, htype.attributed hcomplete.1⟩,
      List.forall_mem_append.mpr ⟨List.forall_mem_map.mpr fun p hp =>
        ⟨hscope, (htype.1 p hp).attributed⟩, ?_⟩⟩,
      Decl.attributed_of_typed ds hcomplete.2 htypes hbodies hscope⟩
    rcases hcomplete.1 with rfl | hcomplete
    · exact List.forall_mem_nil _
    · have hpresent : body.isAbsent = false := by
        cases body with
        | absent => exact hcomplete.elim
        | _ => rfl
      obtain ⟨hnames, got, want, hgot, -⟩ := hbody hpresent
      exact body.attributed_of_hasType hcomplete hgot (hscope.params hnames)
  | .var .. :: ds, _, hcomplete, htypes, hbodies, hscope
  | .typ .. :: ds, _, hcomplete, htypes, hbodies, hscope => by
    obtain ⟨htype, htypes⟩ := List.forall_mem_cons.mp htypes
    exact List.forall_mem_append.mpr
      ⟨List.forall_mem_singleton.mpr ⟨hscope, htype.attributed hcomplete.1⟩,
      Decl.attributed_of_typed ds hcomplete.2 htypes hbodies hscope⟩
  | .par .. :: _, _, hcomplete, _, _, _ | .comp .. :: _, _, hcomplete, _, _, _ => hcomplete.1.elim

end

/-! ## §4 Programs -/

/-- The tables of a program that resolves are those of a run without errors. -/
theorem Program.exists_run_of_resolve {p : Program} {t : Attributes} (h : p.resolve = .ok t) :
    ∃ s, ((Resolve.program p).run { nextId := p.nextId }).2 = s ∧ s.errors = [] ∧ s.attrs = t := by
  replace h : (if ((Resolve.program p).run { nextId := p.nextId }).2.errors.isEmpty then _ else _) =
    Except.ok t := h
  split at h
  · next herrors =>
    cases h
    exact ⟨_, rfl, List.isEmpty_iff.mp herrors, rfl⟩
  · cases h

/-- **A resolved program is completely attributed and correctly bound.** -/
theorem Program.attributed_of_resolve {n : Yaml.Node} {p : Program} {t : Attributes}
    (hread : Program.ofNode n = .ok p) (hresolve : p.number.resolve = .ok t) :
    p.number.Attributed t := by
  have hcomplete := p.number_spec.2 (Program.complete_of_ofNode hread)
  obtain ⟨s, hrun, herrors, rfl⟩ := Program.exists_run_of_resolve hresolve
  obtain ⟨⟨hgo, -⟩, -, htyped⟩ := Resolve.program_resolves p
  rw [hrun] at hgo htyped
  obtain ⟨-, hblock, hbodies⟩ := htyped s.attrs ⟨herrors, .refl _, hgo.guarded⟩ hcomplete
  have hscope : Scope.Distinct [blockScope p.number.decls] :=
    Scope.Distinct.block (List.forall_mem_nil _) hblock.names
  refine ⟨List.forall_mem_cons.mpr ⟨⟨List.forall_mem_nil _, trivial⟩, ?_⟩, fun id info hinfo => ?_⟩
  · exact Decl.attributed_of_typed _ hcomplete hblock.types hbodies hscope
  · obtain ⟨-, -, hnames, hdistinct, htypes, -⟩ := hgo.sound.records id info hinfo
    refine ⟨hdistinct, fun d hd => ?_⟩
    have hlength : info.comps.length = info.fields.toList.length := by
      simpa using congrArg List.length hnames
    obtain ⟨i, hi, rfl⟩ := List.getElem_of_mem hd
    have hmem : (info.comps[i], info.fields.toList[i]) ∈ info.typed := by
      rw [RecordInfo.typed, ← List.getElem_zip (h := by simpa [hlength] using hi)]
      exact List.getElem_mem _
    exact Option.isSome_of_eq_some (htypes _ hmem)

/-- A document with a record type, a function that adds the components of a record, and a call of it
with a local record. -/
def sumOfPair : Yaml.Node :=
  sequenceNode [
    mappingNode [("fun", scalarNode .str "main"), ("type", scalarNode .str "int"),
      ("body", mappingNode [("where", mappingNode [
        ("decls", sequenceNode
          [mappingNode [("var", scalarNode .str "x"), ("type", scalarNode .str "pair")]]),
        ("expr", mappingNode [("call", sequenceNode [scalarNode .str "sum",
          mappingNode [("addr", scalarNode .str "x")]])])])])],
    mappingNode [("fun", scalarNode .str "sum"), ("type", scalarNode .str "int"),
      ("pars", sequenceNode [mappingNode [("p", scalarNode .str "^pair")]]),
      ("body", mappingNode [("add", sequenceNode [
        mappingNode [("field", sequenceNode [mappingNode [("deref", scalarNode .str "p")],
          scalarNode .str "first"])],
        mappingNode [("field", sequenceNode [mappingNode [("deref", scalarNode .str "p")],
          scalarNode .str "second"])]])])],
    mappingNode [("typ", scalarNode .str "pair"), ("type", scalarNode .str "{first:int,second:int}")]]

theorem Program.attributed_of_resolve_sumOfPair : ∃ p t, Program.ofNode sumOfPair = .ok p ∧
    p.number.resolve = .ok t ∧ p.number.sites.length = 19 ∧ p.number.Attributed t := by
  have haccepted : (Program.ofNode sumOfPair >>= fun p => p.number.resolve.map fun _ =>
    p.number.sites.length) =
      .ok 19 := by
    decide +kernel
  rcases hread : Program.ofNode sumOfPair with diagnostics | p
  · rw [hread] at haccepted
    cases haccepted
  rcases hresolve : p.number.resolve with diagnostics | t
  · rw [hread] at haccepted
    change p.number.resolve.map _ = .ok 19 at haccepted
    rw [hresolve] at haccepted
    cases haccepted
  · rw [hread] at haccepted
    change p.number.resolve.map _ = .ok 19 at haccepted
    rw [hresolve] at haccepted
    exact ⟨p, t, rfl, hresolve, Except.ok.inj haccepted, attributed_of_resolve hread hresolve⟩

end MmixBackend.Source
