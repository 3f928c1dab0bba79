import MmixBackend.Proofs.Source.RearrangedTypes
import MmixBackend.Proofs.Source.Replay

/-!
# The order of declarations

A program is accepted in every arrangement of its declarations or in none. In all of them names
refer to the same declarations, and expressions and declarations have types that look the same.

An accepted program is typed with the tables that resolution has come to. A typed program is typed
in every arrangement, and a typed program is accepted, with the same entries. Numbers of records
apart, the tables of an arrangement therefore have no entries but those of the program. As every
arrangement can be taken back, they have all of them.

## Main definitions

- `Program.Accepts`: what is known about the tables of an accepted program.
- `Attributes.SameType`, `Attributes.SameComponent`: types and components that look the same in two
  tables.
- `Node.Agrees`, `Program.Agrees`: two tables say the same about a node, and about a program.

## Main statements

- `Program.exists_mirror_of_rearrange`: an arrangement of an accepted program is accepted, with the
  same entries.
- `Program.resolution_ignores_order`: the order of declarations does not matter.
-/

namespace MmixBackend.Source

/-! ## §1 Accepted programs -/

/-- The program is typed with these tables. No definition in them goes round, all names have
definitions, and the records are as they have been read. -/
structure Program.Accepts (p : Program) (t : Attributes) : Prop where
  typed : p.Typed t
  guarded : t.typeDefs.Guarded
  names : ∀ ty, t.Mentions ty → ty.NamesIn fun d => (t.typeDefs[d]?).isSome
  registered : ∀ (id : NodeId) info, t.records[id]? = some info → ∃ n, t.Registered n id info

theorem Program.accepts_of_resolve {p : Program} {t : Attributes} (hp : p.WellNumbered)
    (hcomplete : Decl.CompleteAll p.decls) (h : p.resolve = .ok t) : p.Accepts t := by
  obtain ⟨s, hrun, herrors, rfl⟩ := Program.exists_run_of_resolve h
  obtain ⟨⟨hgo, -⟩, -, htyped⟩ := Resolve.wellNumbered_resolves hp
  rw [hrun] at hgo htyped
  exact ⟨htyped s.attrs ⟨herrors, .refl _, hgo.guarded⟩ hcomplete, hgo.guarded, hgo.sound.names,
    fun id info hinfo => ⟨_, hgo.sound.records id info hinfo⟩⟩

namespace Program.Accepts

variable {p : Program} {t : Attributes}

theorem closed (h : p.Accepts t) : t.typeDefs.Closed := fun _ ty hty => h.names ty (.typeDefs hty)

theorem componental (h : p.Accepts t) : t.Componental := fun id info hinfo => by
  obtain ⟨n, hregistered⟩ := h.registered id info hinfo
  exact hregistered.comp

theorem exists_of_mem_comps (h : p.Accepts t) {id : NodeId} {d : Decl} (hd : d ∈ t.comps id) :
    ∃ m name type, d = .comp m name type := by
  cases hinfo : t.records[id]? with
  | none =>
    rw [Attributes.comps, hinfo] at hd
    cases hd
  | some info =>
    rw [Attributes.comps_eq hinfo] at hd
    exact h.componental id info hinfo d hd

/-- Component declarations have the types of the record. -/
theorem declType_comp (h : p.Accepts t) {id : NodeId} {info : RecordInfo}
    (hinfo : t.records[id]? = some info) {k : Nat} {d : Decl} (hd : info.comps[k]? = some d) :
    ∃ f, info.fields.toList[k]? = some f ∧ t.declType[d.id]? = some f.2 := by
  obtain ⟨n, hregistered⟩ := h.registered id info hinfo
  obtain ⟨hk, rfl⟩ := List.getElem?_eq_some_iff.mp hd
  have hlength : info.comps.length = info.fields.toList.length := by
    simpa using congrArg List.length hregistered.names
  have hk' : k < info.fields.toList.length := hlength ▸ hk
  refine ⟨_, List.getElem?_eq_getElem hk', hregistered.typed (_, info.fields.toList[k]) ?_⟩
  rw [RecordInfo.typed, ← List.getElem_zip (h := by simpa [hlength] using hk')]
  exact List.getElem_mem _

end Program.Accepts

/-! ## §2 What looks the same -/

namespace Attributes

/-- The types have the same text, the same unfolding and the same size. -/
structure SameType (t t' : Attributes) (ty ty' : Ty) : Prop where
  text : ty.text = ty'.text
  unfolding : ∀ path h, ty.At t.typeDefs path h ↔ ty'.At t'.typeDefs path h
  size : t.sizeOf ty = t'.sizeOf ty'

/-- Both tables have a type for a node, and the two look the same. -/
def SameEntry (t t' : Attributes) (ty ty' : Option Ty) : Prop :=
  ∃ a a', ty = some a ∧ ty' = some a' ∧ t.SameType t' a a'

/-- The declarations are those of the same component: they stand in the same place of records that
stand in the same place of a type expression, and they are written in the same way. -/
structure SameComponent (t t' : Attributes) (d d' : Decl) : Prop where
  place : ∃ (i j : NodeId) (k : Nat), t.Counterpart t' i j ∧ (t.comps i)[k]? = some d ∧
    (t'.comps j)[k]? = some d'
  pos : d.mark.pos = d'.mark.pos
  name : d.name = d'.name
  text : d.type.text = d'.type.text
  type : t.SameEntry t' t.declType[d.id]? t'.declType[d'.id]?

end Attributes

/-- The declarations are one declaration of the tree, or those of one component. -/
def Decl.SameAs (σ : Arrangement) (t t' : Attributes) (d d' : Decl) : Prop :=
  d' = d.rearrange σ ∨ t.SameComponent t' d d'

/-- The type expression means types that look the same, and the type names in it are the same. -/
def TypeExpr.Agrees (σ : Arrangement) (t t' : Attributes) (te : TypeExpr) : Prop :=
  t.SameEntry t' t.isType[te.mark.id]? t'.isType[te.mark.id]? ∧
    Option.Rel (Decl.SameAs σ t t') t.declaredAt[te.mark.id]? t'.declaredAt[te.mark.id]?

/-- Names, calls and components are bound to the same declarations, and type expressions mean the same. -/
def Expr.Agrees (σ : Arrangement) (t t' : Attributes) : Expr → Prop
  | .name m _ | .call m _ _ =>
    ∃ d, t.declaredAt[m.id]? = some d ∧ t'.declaredAt[m.id]? = some (d.rearrange σ)
  | .select _ _ comp =>
    ∃ d d', t.declaredAt[comp.mark.id]? = some d ∧ t'.declaredAt[comp.mark.id]? = some d' ∧
      t.SameComponent t' d d'
  | .cast _ _ type => type.Agrees σ t t'
  | _ => True

/-- The tables `t` of a program and the tables `t'` of the arrangement say the same about a node of
the program: expressions and declarations have types that look the same, and what is written in them
is bound in the same way. -/
def Node.Agrees (σ : Arrangement) (t t' : Attributes) : Node → Prop
  | .expr e => t.SameEntry t' (t.typeOf? e) (t'.typeOf? e) ∧ e.Agrees σ t t'
  | .decl d => t.SameEntry t' t.declType[d.id]? t'.declType[d.id]? ∧ d.type.Agrees σ t t'
  | .program _ | .stmt _ | .compName _ => True

/-- The tables say the same about all nodes of the program, and about the components of all records. -/
structure Program.Agrees (σ : Arrangement) (t t' : Attributes) (p : Program) : Prop where
  nodes : ∀ node ∈ p.nodes, node.Agrees σ t t'
  components : ∀ i j, t.Counterpart t' i j → List.Forall₂ (t.SameComponent t') (t.comps i) (t'.comps j)

/-! ## §3 Nodes and numbers -/

/-- The number of a node that is there. -/
def Site.number? (site : Site) : Option NodeId := site.2.mark?.map Mark.id

theorem numbers_append {sites sites' : List Site} {ids ids' : List NodeId}
    (h : (sites.filterMap Site.number?).Sublist ids) (h' : (sites'.filterMap Site.number?).Sublist ids') :
    ((sites ++ sites').filterMap Site.number?).Sublist (ids ++ ids') := by
  rw [List.filterMap_append]
  exact h.append h'

theorem numbers_params (scope : Scope) (ps : List Param) :
    ((ps.map fun p => ((scope, .decl p.decl) : Site)).filterMap Site.number?).Sublist
    (Param.idsAll ps) := by
  induction ps with
  | nil => exact .slnil
  | cons p ps ih => exact (ih.cons p.type.mark.id).cons_cons p.mark.id

mutual

theorem Expr.numbers_sublist : ∀ (e : Expr) {scope : Scope},
    ((e.sites scope).filterMap Site.number?).Sublist e.ids
  | .absent, _ => .slnil
  | .atom .., _ | .name .., _ => .refl _
  | .unary _ _ arg, _ | .deref _ arg, _ => arg.numbers_sublist.cons_cons _
  | .binary _ _ fst snd, _ | .index _ fst snd, _ =>
    (numbers_append fst.numbers_sublist snd.numbers_sublist).cons_cons _
  | .select _ record comp, scope => by
    have hcomp : (([(scope, .compName comp)] : List Site).filterMap Site.number?).Sublist
      [comp.mark.id] := .refl _
    exact (numbers_append record.numbers_sublist hcomp).cons_cons _
  | .call _ _ args, _ => (Expr.numbersAll_sublist args).cons_cons _
  | .block _ stmts, _ => (Stmt.numbersAll_sublist stmts).cons_cons _
  | .cast _ arg _, _ => (arg.numbers_sublist.trans (List.sublist_append_left _ _)).cons_cons _
  | .scope _ decls body, _ =>
    (numbers_append (Decl.numbersAll_sublist decls) body.numbers_sublist).cons_cons _

theorem Expr.numbersAll_sublist : ∀ (es : List Expr) {scope : Scope},
    ((Expr.sitesAll scope es).filterMap Site.number?).Sublist (Expr.idsAll es)
  | [], _ => .slnil
  | e :: es, _ => numbers_append e.numbers_sublist (Expr.numbersAll_sublist es)

theorem Stmt.numbers_sublist : ∀ (s : Stmt) {scope : Scope},
    ((s.sites scope).filterMap Site.number?).Sublist s.ids
  | .absent, _ => .slnil
  | .eval _ e, _ => e.numbers_sublist.cons_cons _
  | .assign _ fst snd, _ => (numbers_append fst.numbers_sublist snd.numbers_sublist).cons_cons _
  | .cond _ test yes no, scope => by
    rw [Stmt.sites, List.append_assoc]
    exact (numbers_append test.numbers_sublist
      (numbers_append yes.numbers_sublist no.numbers_sublist)).cons_cons _
  | .loop _ test body, _ => (numbers_append test.numbers_sublist body.numbers_sublist).cons_cons _

theorem Stmt.numbersAll_sublist : ∀ (ss : List Stmt) {scope : Scope},
    ((Stmt.sitesAll scope ss).filterMap Site.number?).Sublist (Stmt.idsAll ss)
  | [], _ => .slnil
  | s :: ss, _ => numbers_append s.numbers_sublist (Stmt.numbersAll_sublist ss)

theorem Decl.numbers_sublist : ∀ (d : Decl) {scope : Scope},
    ((d.sites scope).filterMap Site.number?).Sublist d.ids
  | .fn _ _ params type body, scope =>
    (numbers_append (numbers_params scope params) (body.numbers_sublist.cons type.mark.id)).cons_cons _
  | .var .., _ | .typ .., _ | .par .., _ | .comp .., _ => (List.nil_sublist _).cons_cons _

/-- The nodes of declarations have numbers of the tree. -/
theorem Decl.numbersAll_sublist : ∀ (ds : List Decl) {scope : Scope},
    ((Decl.sitesAll scope ds).filterMap Site.number?).Sublist (Decl.idsAll ds)
  | [], _ => .slnil
  | d :: ds, _ => numbers_append d.numbers_sublist (Decl.numbersAll_sublist ds)

end

/-! ## §4 Tables that mirror each other -/

/-- What has an image in both directions. -/
theorem Images.both {β : Type} {P Q : β → β → Prop} {m m' : Std.TreeMap NodeId β} (h : Images P m m')
    (h' : Images Q m' m) {id : NodeId} {b : β} (hb : m[id]? = some b) :
    ∃ b', m'[id]? = some b' ∧ P b b' := by
  obtain ⟨b', hb', -⟩ := h' id b hb
  obtain ⟨c, hc, hP⟩ := h id b' hb'
  cases hb.symm.trans hc
  exact ⟨b', hb', hP⟩

theorem Program.WellNumbered.rearrange {p : Program} (hp : p.WellNumbered) (σ : Arrangement) :
    (p.rearrange σ).WellNumbered := by
  have hids := p.ids_rearrange σ
  exact ⟨hids.nodup_iff.mpr hp.nodup, fun id hid => p.nextId_rearrange σ ▸ hp.lt_nextId id
    (hids.subset hid)⟩

/-- **The tables of an arrangement mirror those of the program.** -/
theorem Program.exists_mirror_of_rearrange {p : Program} {t : Attributes} (hp : p.WellNumbered)
    (hcomplete : Decl.CompleteAll p.decls) (h : p.resolve = .ok t) (σ : Arrangement) :
    ∃ t', (p.rearrange σ).resolve = .ok t' ∧ (t.rearrange σ).Mirrors p.nextId t' := by
  have haccepts := accepts_of_resolve hp hcomplete h
  rw [← p.nextId_rearrange σ]
  exact Program.exists_mirror_of_typed (hp.rearrange σ) (p.complete_rearrange σ hcomplete)
    haccepts.guarded
    (haccepts.typed.rearrange haccepts.componental σ)

section Mirrored

variable {p q : Program} {t t' : Attributes} {σ τ : Arrangement} {base : NodeId} (h : p.Accepts t)
  (h' : q.Accepts t') (hm : (t.rearrange σ).Mirrors base t') (hm' : (t'.rearrange τ).Mirrors base t)
include h h' hm

/-- Types that differ in the numbers of records look the same. -/
theorem Attributes.sameType_of_renumbered {R : NodeId → NodeId → Prop} {ty ty' : Ty} (hty : t.Mentions ty)
    (hty' : t'.Mentions ty') (hrenumbered : ty.Renumbered R ty') : t.SameType t' ty ty' := by
  -- Which records belong together does not matter here.
  have hdefs : TypeDefs.Corresponds (fun _ _ => True) t.typeDefs t'.typeDefs := by
    refine ⟨h.guarded, h'.closed, fun d b hb => ?_⟩
    obtain ⟨a, ha, hab⟩ := hm.typeDefs d b hb
    exact ⟨a, ha, Ty.Renumbered.mono (fun _ _ _ => trivial) hab⟩
  have hab : ty.Renumbered (fun _ _ => True) ty' := hrenumbered.mono fun _ _ _ => trivial
  exact ⟨hab.text_eq, hdefs.at_iff hab (h'.names ty' hty'), hdefs.size_eq h.closed hab (h.names ty hty)
    (h'.names ty' hty')⟩

/-- Components of records that belong together are the same. -/
theorem Attributes.sameComponent_of_counterpart {i j : NodeId} {k : Nat} {d d' : Decl}
    (hij : t.Counterpart t' i j) (hd : (t.comps i)[k]? = some d)
    (hd' : (t'.comps j)[k]? = some d') : t.SameComponent t' d d' := by
  obtain ⟨info, m, n, hinfo, hinfo'⟩ := hm.records i j hij
  change t.records[i]? = some (info.shift m) at hinfo
  have hcomp := hd
  have hcomp' := hd'
  rw [comps_eq hinfo] at hcomp
  rw [comps_eq hinfo'] at hcomp'
  obtain ⟨⟨name, ty⟩, hty, htype⟩ := h.declType_comp hinfo hcomp
  obtain ⟨⟨name', ty'⟩, hty', htype'⟩ := h'.declType_comp hinfo' hcomp'
  -- Both records come from one text, and so do the two components.
  obtain ⟨c, hc, rfl⟩ : ∃ c, info.comps[k]? = some c ∧ c.shift m = d := by
    simpa [RecordInfo.shift] using hcomp
  obtain rfl : c.shift n = d' := by simpa [RecordInfo.shift, hc] using hcomp'
  have hsame : (c.shift m).mark.pos = (c.shift n).mark.pos ∧
      (c.shift m).type.text = (c.shift n).type.text := by
    cases c <;> exact ⟨rfl, rfl⟩
  refine ⟨⟨i, j, k, hij, hd, hd'⟩, hsame.1, (c.name_shift m).trans (c.name_shift n).symm, hsame.2,
    ty, ty', htype, htype',
    ?_⟩
  rw [RecordInfo.shift, Fields.toList_shift] at hty hty'
  obtain ⟨f, hf, heq⟩ : ∃ f, info.fields.toList[k]? = some f ∧ (f.1, f.2.shift m) = (name, ty) := by
    simpa using hty
  have heq' : (f.1, f.2.shift n) = (name', ty') := by simpa [hf] using hty'
  cases heq
  cases heq'
  exact Attributes.sameType_of_renumbered h h' hm (.declType htype) (.declType htype')
    (Ty.renumbered_shift (R := fun _ _ => True) fun _ _ => trivial)

/-- Records that belong together have the same components. -/
theorem Attributes.sameComponents_of_counterpart {i j : NodeId} (hij : t.Counterpart t' i j) :
    List.Forall₂ (t.SameComponent t') (t.comps i) (t'.comps j) := by
  obtain ⟨info, m, n, hinfo, hinfo'⟩ := hm.records i j hij
  change t.records[i]? = some (info.shift m) at hinfo
  have hlength : (t.comps i).length = (t'.comps j).length := by
    simp [comps_eq hinfo, comps_eq hinfo', RecordInfo.shift]
  refine List.forall₂_iff_get.mpr ⟨hlength, fun k hk hk' => ?_⟩
  exact Attributes.sameComponent_of_counterpart h h' hm hij (List.getElem?_eq_getElem hk)
    (List.getElem?_eq_getElem hk')

/-! ## §5 Entries of nodes -/

/-- Declarations that belong together are the same. -/
theorem Decl.sameAs_of_sameDecl {d d' : Decl} (hsame : (t.rearrange σ).SameDecl t' (d.rearrange σ) d') :
    d.SameAs σ t t' d' := by
  rcases hsame with ⟨rfl, -⟩ | ⟨i, j, k, hij, hd, hd'⟩
  · exact .inl rfl
  · change (t.comps i)[k]? = some (d.rearrange σ) at hd
    obtain ⟨mark, name, type, hcomp⟩ := h.exists_of_mem_comps (List.mem_of_getElem? hd)
    have hfixed : d.rearrange σ = d := by
      cases d with
      | comp => rfl
      | _ => cases hcomp
    exact .inr (Attributes.sameComponent_of_counterpart h h' hm hij (hfixed ▸ hd) hd')

omit h' hm in
/-- A declaration of the tree belongs to no record. -/
theorem Decl.eq_of_sameDecl {d d' : Decl} (hd : d.InTree)
    (hsame : (t.rearrange σ).SameDecl t' (d.rearrange σ) d') : d' = d.rearrange σ := by
  rcases hsame with ⟨rfl, -⟩ | ⟨i, j, k, hij, hcomp, -⟩
  · rfl
  · obtain ⟨mark, name, type, heq⟩ := h.exists_of_mem_comps (t := t) (List.mem_of_getElem? hcomp)
    cases d with
    | comp => exact hd.elim
    | _ => cases heq

include hm'

omit h h' in
theorem exists_declared_of_mirrors {id : NodeId} {d : Decl} (hd : t.declaredAt[id]? = some d) :
    ∃ d', t'.declaredAt[id]? = some d' ∧ (t.rearrange σ).SameDecl t' (d.rearrange σ) d' := by
  obtain ⟨b', hb', -⟩ := hm'.declaredAt id d hd
  rw [Attributes.declaredAt_rearrange] at hb'
  obtain ⟨d', hd', -⟩ := Option.map_eq_some_iff.mp hb'
  obtain ⟨b, hb, hsame⟩ := hm.declaredAt id d' hd'
  rw [Attributes.declaredAt_rearrange, hd] at hb
  cases hb
  exact ⟨d', hd', hsame⟩

theorem Expr.sameEntry_of_mirrors {e : Expr} (he : (t.typeOf? e).isSome) :
    t.SameEntry t' (t.typeOf? e) (t'.typeOf? e) := by
  obtain ⟨ty, hty⟩ := Option.isSome_iff_exists.mp he
  obtain ⟨m, hm₀, hof⟩ := Option.bind_eq_some_iff.mp hty
  obtain ⟨ty', hof', halike⟩ := Images.both hm.ofType hm'.ofType hof
  have hty' : t'.typeOf? e = some ty' := Option.bind_eq_some_iff.mpr ⟨m, hm₀, hof'⟩
  exact ⟨ty, ty', hty, hty', Attributes.sameType_of_renumbered h h' hm (.ofType hof)
    (.ofType hof') halike⟩

theorem Decl.sameEntry_of_mirrors {d : Decl} (hid : d.id < base) (hd : (t.declType[d.id]?).isSome) :
    t.SameEntry t' t.declType[d.id]? t'.declType[d.id]? := by
  obtain ⟨ty, hty⟩ := Option.isSome_iff_exists.mp hd
  obtain ⟨ty', hty', -⟩ := hm'.declType d.id hid ty hty
  obtain ⟨ty₀, hty₀, halike⟩ := hm.declType d.id hid ty' hty'
  cases hty.symm.trans hty₀
  exact ⟨ty, ty', hty, hty', Attributes.sameType_of_renumbered h h' hm (.declType hty)
    (.declType hty') halike⟩

theorem TypeExpr.agrees_of_mirrors {te : TypeExpr} (hte : (t.isType[te.mark.id]?).isSome) :
    te.Agrees σ t t' := by
  obtain ⟨ty, hty⟩ := Option.isSome_iff_exists.mp hte
  obtain ⟨ty', hty', halike⟩ := Images.both hm.isType hm'.isType hty
  refine ⟨⟨ty, ty', hty, hty', Attributes.sameType_of_renumbered h h' hm (.isType hty)
    (.isType hty') halike⟩, ?_⟩
  cases hd : t.declaredAt[te.mark.id]? with
  | some d =>
    obtain ⟨d', hd', hsame⟩ := exists_declared_of_mirrors hm hm' hd
    rw [hd']
    exact .some (Decl.sameAs_of_sameDecl h h' hm hsame)
  | none =>
    cases hd' : t'.declaredAt[te.mark.id]? with
    | none => exact .none
    | some d' =>
      obtain ⟨b, hb, -⟩ := hm.declaredAt _ d' hd'
      rw [Attributes.declaredAt_rearrange, hd] at hb
      cases hb

/-- **Bindings are the same.** -/
theorem Expr.agrees_of_mirrors {scope : Scope} {e : Expr} (he : e.Bound t scope) : e.Agrees σ t t' := by
  cases e with
  | name m ident =>
    obtain ⟨d, -, hd, hvalue⟩ := he
    obtain ⟨d', hd', hsame⟩ := exists_declared_of_mirrors hm hm' hd
    exact ⟨d, hd, hd'.trans (congrArg some (Decl.eq_of_sameDecl h hvalue.inTree hsame))⟩
  | call m ident args =>
    obtain ⟨fm, name, params, type, body, -, hd, -⟩ := he
    obtain ⟨d', hd', hsame⟩ := exists_declared_of_mirrors hm hm' hd
    exact ⟨_, hd, hd'.trans (congrArg some (Decl.eq_of_sameDecl h trivial hsame))⟩
  | select m record comp =>
    obtain ⟨-, ty, id, fields, info, d, -, -, hinfo, hmem, -, hd⟩ := he
    obtain ⟨d', hd', hsame⟩ := exists_declared_of_mirrors hm hm' hd
    obtain ⟨mark, name, type, rfl⟩ := h.componental id info hinfo d hmem
    rcases hsame with ⟨-, hnot⟩ | ⟨i, j, k, hij, hcomp, hcomp'⟩
    · exact hnot.elim
    · exact ⟨_, d', hd, hd', Attributes.sameComponent_of_counterpart h h' hm hij hcomp hcomp'⟩
  | cast m arg type => exact TypeExpr.agrees_of_mirrors h h' hm hm' he
  | _ => trivial

/-- **The tables agree about a node** that is attributed in one of them. -/
theorem Node.agrees_of_mirrors {scope : Scope} {node : Node} (hnode : node.Attributed t scope)
    (hid : ∀ m, node.mark? = some m → m.id < base) : node.Agrees σ t t' := by
  cases node with
  | expr e =>
    exact ⟨Expr.sameEntry_of_mirrors h h' hm hm' hnode.1, Expr.agrees_of_mirrors h h'
      hm hm' hnode.2⟩
  | decl d =>
    exact ⟨Decl.sameEntry_of_mirrors h h' hm hm' (hid _ rfl) hnode.1, TypeExpr.agrees_of_mirrors h
      h' hm hm' hnode.2⟩
  | _ => trivial

end Mirrored

/-! ## §6 Programs -/

theorem Program.Accepts.attributed {p : Program} {t : Attributes} (h : p.Accepts t)
    (hcomplete : Decl.CompleteAll p.decls) {site : Site} (hsite : site ∈ p.sites) :
    site.2.Attributed t site.1 := by
  rcases List.mem_cons.mp hsite with rfl | hsite
  · trivial
  · have hscope := Scope.Distinct.block (List.forall_mem_nil _) h.typed.block.names
    exact (Decl.attributed_of_typed _ hcomplete h.typed.block.types h.typed.bodies hscope site hsite).2

theorem Program.WellNumbered.site_lt {p : Program} (hp : p.WellNumbered) {site : Site}
    (hsite : site ∈ Decl.sitesAll [blockScope p.decls] p.decls) {m : Mark} (hm : site.2.mark? = some m) :
    m.id < p.nextId := by
  have hnumber : site.number? = some m.id := by rw [Site.number?, hm]; rfl
  exact hp.lt_nextId _ ((Decl.numbersAll_sublist p.decls).subset
    (List.mem_filterMap.mpr ⟨site, hsite, hnumber⟩))

theorem Program.agrees_of_mirrors {p : Program} {t t' : Attributes} {σ τ : Arrangement}
    (hp : p.WellNumbered) (hcomplete : Decl.CompleteAll p.decls) (h : p.Accepts t)
    (h' : (p.rearrange σ).Accepts t') (hm : (t.rearrange σ).Mirrors p.nextId t')
    (hm' : (t'.rearrange τ).Mirrors p.nextId t) : p.Agrees σ t t' where
  nodes node hnode := by
    rw [← p.sites_map_snd] at hnode
    obtain ⟨site, hsite, rfl⟩ := List.mem_map.mp hnode
    have hattributed := h.attributed hcomplete hsite
    rcases List.mem_cons.mp hsite with rfl | hsite
    · trivial
    · exact Node.agrees_of_mirrors h h' hm hm' hattributed fun m => hp.site_lt hsite
  components _ _ := Attributes.sameComponents_of_counterpart h h' hm

/-- **The order of declarations does not matter.** A program is accepted in every arrangement of its
declarations or in none. If it is accepted, then the tables of all arrangements agree: names, calls
and components are bound to the same declarations, and all types have the same text, the same
unfolding and the same size. -/
theorem Program.resolution_ignores_order {n : Yaml.Node} {p : Program} (hread : Program.ofNode n = .ok p)
    (σ : Arrangement) :
    ((∃ t, p.number.resolve = .ok t) ↔ ∃ t', (p.number.rearrange σ).resolve = .ok t') ∧
      ∀ t t', p.number.resolve = .ok t → (p.number.rearrange σ).resolve = .ok t' →
        p.number.Agrees σ t t' := by
  have hp := p.wellNumbered_number
  have hp' := hp.rearrange σ
  have hcomplete := p.number_spec.2 (Program.complete_of_ofNode hread)
  have hcomplete' := p.number.complete_rearrange σ hcomplete
  -- The way back leads to the program again.
  have hback {t' : Attributes} (h' : (p.number.rearrange σ).resolve = .ok t') :
      ∃ t, p.number.resolve = .ok t ∧ (t'.rearrange .byNumber).Mirrors p.number.nextId t := by
    have hmirror := Program.exists_mirror_of_rearrange hp' hcomplete' h' .byNumber
    rwa [p.rearrange_byNumber σ, p.number.nextId_rearrange σ] at hmirror
  refine ⟨⟨fun ⟨t, h⟩ => ?_, fun ⟨t', h'⟩ => ?_⟩, fun t t' h h' => ?_⟩
  · obtain ⟨t', h', -⟩ := Program.exists_mirror_of_rearrange hp hcomplete h σ
    exact ⟨t', h'⟩
  · obtain ⟨t, h, -⟩ := hback h'
    exact ⟨t, h⟩
  · obtain ⟨t₁, h₁, hm⟩ := Program.exists_mirror_of_rearrange hp hcomplete h σ
    cases h'.symm.trans h₁
    obtain ⟨t₂, h₂, hm'⟩ := hback h'
    cases h.symm.trans h₂
    exact Program.agrees_of_mirrors hp hcomplete (Program.accepts_of_resolve hp hcomplete h)
      (Program.accepts_of_resolve hp' hcomplete' h') hm hm'

/-- All blocks from the last declaration to the first. -/
def Arrangement.backwards : Arrangement where
  order _ ds := ds.reverse
  perm _ ds := List.reverse_perm ds

theorem Program.resolution_ignores_order_sumOfPair : ∃ p t t', Program.ofNode sumOfPair = .ok p ∧
    (p.number.rearrange .backwards).decls.map Decl.name = ["pair", "sum", "main"] ∧
      p.number.resolve = .ok t ∧ (p.number.rearrange .backwards).resolve = .ok t' ∧
        p.number.Agrees .backwards t t' := by
  have haccepted : (Program.ofNode sumOfPair >>= fun p => p.number.resolve.map fun _ =>
      (p.number.rearrange .backwards).decls.map Decl.name) = .ok ["pair", "sum", "main"] := by
    decide +kernel
  rcases hread : Program.ofNode sumOfPair with diagnostics | p
  · rw [hread] at haccepted
    cases haccepted
  · rw [hread] at haccepted
    change p.number.resolve.map _ = .ok ["pair", "sum", "main"] at haccepted
    obtain ⟨haccepts, hagree⟩ := Program.resolution_ignores_order hread .backwards
    rcases hresolve : p.number.resolve with diagnostics | t
    · rw [hresolve] at haccepted
      cases haccepted
    · rw [hresolve] at haccepted
      obtain ⟨t', hresolve'⟩ := haccepts.mp ⟨t, hresolve⟩
      exact ⟨p, t, t', rfl, Except.ok.inj haccepted, hresolve, hresolve', hagree t t' hresolve hresolve'⟩

end MmixBackend.Source
