import MmixBackend.Proofs.Source.Footprint
import MmixBackend.Proofs.Types.Respelling

/-!
# Type expressions and their texts

A type expression of a program is a text. If it derives from the grammar of types, then resolution
records the type that it denotes, and for every record in this type the declarations of its
components with their types. Otherwise it reports one error and records no type for the expression.
The parts that had been read before the fault was found are not taken back: records among them stay
in the tables, and so does the binding of a name.

A type is written in messages and listings with `Ty.text`. In every scope that resolution opens,
this is again a text of the type.

## Main statements

- `type_texts_are_those_of_the_grammar`: which texts are types, and what becomes of them.
- `text_denotes_type`: what is written for a type is read as this type.
-/

namespace MmixBackend.Source

/-- Resolution of the type expression has recorded the type `t` and its records, one list of
components for each of them, and has reported no errors. -/
structure TypeExpr.Recorded (scope : Scope) (te : TypeExpr) (s s' : Resolving) (t : Ty) : Prop where
  errors : s'.errors = s.errors
  isType : s'.attrs.isType[te.mark.id]? = some t
  distinct : (t.recordParts.map Prod.fst).Nodup
  records : ∀ id fields, (id, fields) ∈ t.recordParts → ∃ comps, s'.attrs.records[id]? = some
    ⟨fields, comps⟩ ∧
    List.Forall₂ (fun d f => d.Spells scope.find? f ∧ s'.attrs.declType[d.id]? = some f.2)
      comps fields.toList
  others : ∀ id ∉ t.recordParts.map Prod.fst, s'.attrs.records[id]? = s.attrs.records[id]?

/-- Resolution of the type expression has reported one error and has found no type. What it leaves
behind are parts of the text that had been read before: complete records, all under numbers from the
counter, with the types of their components, and the last name of a declared type. Nothing else
changes. -/
structure TypeExpr.Rejected (scope : Scope) (te : TypeExpr) (s s' : Resolving) : Prop where
  errors : ∃ fault, s'.errors = ⟨te.mark.pos, .badType te.text fault⟩ :: s.errors
  nextId : s.nextId ≤ s'.nextId
  others : s'.attrs = { s.attrs with
    declaredAt := s'.attrs.declaredAt, records := s'.attrs.records, declType := s'.attrs.declType }
  declaredAt : s'.attrs.declaredAt = s.attrs.declaredAt ∨ ∃ m ident type, IsTypeName scope.find? m.id ∧
    s'.attrs.declaredAt = s.attrs.declaredAt.insert te.mark.id (.typ m ident type)
  recordsOld : ∀ id < s.nextId, s'.attrs.records[id]? = s.attrs.records[id]?
  recordsNew : ∀ (id : NodeId) info, s'.attrs.records[id]? = some info →
    s.attrs.records[id]? = some info ∨
    s.nextId ≤ id ∧ s'.attrs.Registered s'.nextId id info ∧ ∀ d ∈ info.comps, s.nextId ≤ d.id
  declTypeOld : ∀ id < s.nextId, s'.attrs.declType[id]? = s.attrs.declType[id]?
  declTypeNew : ∀ (id : NodeId) ty, s'.attrs.declType[id]? = some ty → s.attrs.declType[id]? = some ty ∨
    ∃ (i : NodeId) (info : RecordInfo), s'.attrs.records[i]? = some info ∧ ∃ c ∈ info.typed,
      c.1.id = id ∧ c.2.2 = ty

namespace Resolve

variable {scope : Scope} {te : TypeExpr} {s : Resolving}

theorem run_typeExpr {r : TypeResult} (h : readTypeExpr scope.find? s.nextId te = .ok r) :
    (typeExpr scope te).run s = (some r.type, s.reading te r) := by
  obtain ⟨es, hrun, hes, -⟩ := judges_typeExpr h
  rw [hrun, hes.mpr trivial]
  rfl

theorem run_typeExpr_error {e : TypeFailure} (h : readTypeExpr scope.find? s.nextId te = .error e) :
    (typeExpr scope te).run s =
      (none, (s.adding [⟨te.mark.pos, .badType te.text e.fault⟩]).keeping te e.toTypeParts) := by
  rw [typeExpr, run_bind_state, show (get : Resolve Resolving).run s = (s, s) from rfl, h]
  dsimp only
  rw [run_bind_state, run_bind_state, run_keepParts]
  rfl

theorem rejected_keeping {e : TypeFailure} (h : readTypeExpr scope.find? s.nextId te = .error e) :
    te.Rejected scope s ((s.adding [⟨te.mark.pos, .badType te.text e.fault⟩]).keeping te
        e.toTypeParts) := by
  have hread : e.ReadFrom scope.find? s.nextId te := .error h
  obtain ⟨hnext, hspec⟩ := hread.spec
  obtain ⟨-, hsound⟩ := hread.sound
  refine ⟨⟨e.fault, rfl⟩, hnext, rfl, ?_, fun id => Resolving.records_keeping_of_lt hread,
    fun id info hinfo => ?_,
    fun id => Resolving.declType_keeping_of_lt hread, fun id ty hty => ?_⟩
  -- The expression is bound to the last name that was read, if there was one.
  · show e.lastNamed.elim _ _ = _ ∨ _
    cases hlast : e.lastNamed with
    | none => exact .inl rfl
    | some d =>
      obtain ⟨m, ident, type, rfl, hname⟩ := hread.lastNamed hlast
      exact .inr ⟨m, ident, type, hname, by rw [Resolving.keeping, hlast]; rfl⟩
  -- A record is an old one, or had been read to its end before the text failed.
  · rcases Resolving.records_keeping hread hinfo with hold | ⟨hmem, hnew⟩
    · exact .inl hold
    · obtain ⟨hle, hlt, hwf, hcomps⟩ := hspec id info hmem
      refine .inr ⟨hle, ⟨hlt, hcomps, (hsound id info hmem).comps, (hsound id info hmem).distinct,
        fun c hc => Resolving.declType_keeping_of_mem hread hmem hc, fun d hd => ?_⟩, hnew⟩
      obtain ⟨m, name, type, hcomp, -⟩ := hwf.comp d hd
      exact ⟨m, name, type, hcomp⟩
  -- A declared type is an old one, or that of a component of such a record.
  · rcases eq_or_of_getElem?_foldl_insert (fun c : Decl × String × Ty => c.1.id)
      (fun c => c.2.2) _ _ hty with
      hold | ⟨c, hc, hid, hty⟩
    · exact .inl hold
    · obtain ⟨⟨i, info⟩, hinfo, hc⟩ := List.mem_flatMap.mp hc
      exact .inr ⟨i, info, Resolving.records_keeping_of_mem hread hinfo, c, hc, hid, hty⟩

theorem recorded_reading {r : TypeResult} (h : readTypeExpr scope.find? s.nextId te = .ok r) :
    te.Recorded scope s (s.reading te r) r.type := by
  obtain ⟨-, hparts, hspelled⟩ := spelled_of_readTypeExpr h
  obtain ⟨hnodup, -⟩ := (TypeParts.ReadFrom.ok h).sound
  -- The identities in the type are those of the records that were read, in the same order.
  have hids : r.type.recordParts.map Prod.fst = r.records.map Prod.fst := by
    rw [← hparts, List.map_map]
    rfl
  refine ⟨rfl, Resolving.isType_reading s, ?_, fun id fields hmem => ?_, fun id hid => ?_⟩
  · rw [hids]
    refine hnodup.sublist ?_
    generalize r.records = rs
    induction rs with
    | nil => exact List.nil_sublist _
    | cons r rs ih => exact (List.Sublist.append (List.singleton_sublist.mpr List.mem_cons_self) ih :)
  · rw [← hparts] at hmem
    obtain ⟨⟨id, info⟩, hinfo, heq⟩ := List.mem_map.mp hmem
    cases heq
    refine ⟨info.comps, Resolving.records_keeping_of_mem (.ok h) hinfo, ?_⟩
    have hdecls := hspelled _ hinfo
    rw [RecordInfo.Spelled, List.forall₂_iff_zip] at hdecls
    rw [List.forall₂_iff_zip]
    refine ⟨hdecls.1, fun {d f} hzip => ⟨hdecls.2 hzip, ?_⟩⟩
    exact Resolving.declType_keeping_of_mem (.ok h) hinfo (c := (d, f)) hzip
  · rw [hids] at hid
    refine getElem?_foldl_insert_of_forall_ne Prod.fst Prod.snd r.records _ fun x hx heq => ?_
    exact hid (heq ▸ List.mem_map_of_mem hx)

end Resolve

/-- **The texts of types are those of the grammar.** Resolution of a type expression finds a type
iff its whole text derives from the grammar, in any scope and any state. The type is the one that
the text denotes, which is unique up to the numbers of records; it is recorded, and so is one list
of components for each record in it, with the names and the types of the components. Otherwise
exactly one error is reported, and nothing is recorded but records and a name that had been read
before the fault. -/
theorem type_texts_are_those_of_the_grammar (scope : Scope) (te : TypeExpr) (s : Resolving) :
    (((Resolve.typeExpr scope te).run s).1.isSome = true ↔
      ∃ t : Ty, t.Spelled scope.find? te.text.toList) ∧
    (∀ t, ((Resolve.typeExpr scope te).run s).1 = some t →
      t.Spelled scope.find? te.text.toList ∧
      (∀ t' : Ty, t'.Spelled scope.find? te.text.toList → t'.Renumbered (fun _ _ => True) t) ∧
      te.Recorded scope s ((Resolve.typeExpr scope te).run s).2 t) ∧
    (((Resolve.typeExpr scope te).run s).1 = none →
      te.Rejected scope s ((Resolve.typeExpr scope te).run s).2) := by
  cases hread : readTypeExpr scope.find? s.nextId te with
  | ok r =>
    have hspelled := (spelled_of_readTypeExpr hread).1
    rw [Resolve.run_typeExpr hread]
    refine ⟨iff_of_true rfl ⟨r.type, hspelled⟩, fun t ht => ?_, fun h => by cases h⟩
    cases ht
    refine ⟨hspelled, fun t' ht' => ?_, Resolve.recorded_reading hread⟩
    -- The reader finds what any derivation denotes.
    obtain ⟨r', hread', hrenumbered⟩ := readTypeExpr_of_spelled ht' s.nextId
    rw [hread] at hread'
    cases hread'
    exact hrenumbered
  | error e =>
    rw [Resolve.run_typeExpr_error hread]
    refine ⟨iff_of_false Bool.false_ne_true fun ⟨t, ht⟩ => ?_, fun t h => (by cases h),
      fun _ => Resolve.rejected_keeping hread⟩
    obtain ⟨r, hread', -⟩ := readTypeExpr_of_spelled ht s.nextId
    rw [hread] at hread'
    cases hread'

/-! ## What is written for a type -/

/-- The scopes that resolution opens: the outermost one has no names, a block of declarations adds
their names inside of it, and a function adds the names of its parameters inside of its body. -/
inductive Scope.Opened : Scope → Prop
  | outermost : Opened []
  | block {outer : Scope} (decls : List Decl) (s : Resolving) : Opened outer →
    Opened ((Resolve.declare outer decls).run s).1
  | function {scope : Scope} (params : List Param) (s : Resolving) : Opened scope →
    Opened (((Resolve.paramNames params).run s).1 :: scope)

theorem Scope.namesItself_cons {α : Type} (key : α → String) (decl : α → Decl)
    (hkey : ∀ x, (decl x).name = key x) {outer : Scope} (houter : NamesItself outer.find?)
    (xs : List α) :
    NamesItself (Scope.find? ((xs.map fun x => (key x, decl x)) :: outer)) := by
  intro name d hfind
  rw [Scope.find?, List.findSome?_cons] at hfind
  split at hfind
  · next d' hlookup =>
    cases hfind
    obtain ⟨before, after, heq, -⟩ := List.lookup_eq_some_iff.mp hlookup
    have hmem : (name, d) ∈ xs.map fun x => (key x, decl x) :=
      heq ▸ List.mem_append_right _ List.mem_cons_self
    obtain ⟨x, -, hx⟩ := List.mem_map.mp hmem
    cases hx
    exact hkey x
  · exact houter name d hfind

/-- In a scope that resolution opens every name stands for a declaration of this name. -/
theorem Scope.Opened.namesItself {scope : Scope} (h : scope.Opened) : NamesItself scope.find? := by
  induction h with
  | outermost => exact fun name d h => by cases h
  | @block outer decls s _ ih =>
    obtain ⟨es, hrun, -⟩ := Resolve.judges_blockNames decls (s := s)
    have hopened : ((Resolve.declare outer decls).run s).1 = ((Resolve.blockNames decls).run s).1 ::
      outer := rfl
    rw [hopened, hrun, Resolve.find?_blockNames]
    exact namesItself_cons Decl.name id (fun _ => rfl) ih decls
  | @function scope params s _ ih =>
    obtain ⟨es, hrun, -⟩ := Resolve.judges_paramNames params (s := s)
    rw [hrun, Resolve.find?_paramNames]
    exact namesItself_cons Param.name Param.decl (fun _ => rfl) ih params

/-- **What is written for a type is read as this type.** Take any type that resolution has found for
a type expression in a scope that it opens. In the same scope the text of the type is resolved
without errors, wherever it stands and whatever has been resolved before. The type found has the
same text; with any definitions of the names in it, it has the same size and is equal to the first
type. -/
theorem text_denotes_type {scope : Scope} (hscope : scope.Opened) {te : TypeExpr} {s : Resolving} {t : Ty}
    (h : ((Resolve.typeExpr scope te).run s).1 = some t) (mark : Mark) (s' : Resolving) :
    ∃ t', ((Resolve.typeExpr scope ⟨mark, t.text⟩).run s').1 = some t' ∧
      ((Resolve.typeExpr scope ⟨mark, t.text⟩).run s').2.errors = s'.errors ∧
      t'.text = t.text ∧ ∀ defs : TypeDefs, t'.size defs = t.size defs ∧ Ty.equal defs t t' = true := by
  cases hread : readTypeExpr scope.find? s.nextId te with
  | error fault =>
    rw [Resolve.run_typeExpr_error hread] at h
    cases h
  | ok r =>
    rw [Resolve.run_typeExpr hread] at h
    cases h
    have hspelled := (spelled_of_readTypeExpr hread).1.text hscope.namesItself
    obtain ⟨r', hread', hrenumbered⟩ :
      ∃ r', readTypeExpr scope.find? s'.nextId ⟨mark, r.type.text⟩ = .ok r' ∧
        r.type.Renumbered (fun _ _ => True) r'.type := readTypeExpr_of_spelled hspelled s'.nextId
    rw [Resolve.run_typeExpr hread']
    exact ⟨r'.type, rfl, rfl, hrenumbered.text_eq.symm, fun defs =>
      ⟨(hrenumbered.sizeWith_eq _).symm, hrenumbered.equal fun _ => trivial⟩⟩

/-- A block that declares a recursive type of records and a variable with the name of one of their
components. -/
def nodeScope : Scope := ((Resolve.declare [] [.typ { id := 1, pos := ⟨1, 1⟩ } "node" nodeText,
    .var { id := 3, pos := ⟨2, 1⟩ } "next" ⟨{ id := 4, pos := ⟨2, 7⟩ }, "node"⟩]).run { nextId := 5 }).1
where
  /-- The record has a value and a pointer to the next one. -/
  nodeText : TypeExpr := ⟨{ id := 2, pos := ⟨1, 7⟩ }, "\x7b value: int, next: ^node \x7d"⟩

/-- Seven nodes with arrays of two characters, written with blanks and a leading zero. -/
def nodesText : TypeExpr := ⟨{ id := 5, pos := ⟨3, 1⟩ }, "[007] \x7b next : ^\tnode,x:[ 2 ]char\x7d"⟩

theorem text_denotes_type_nodesText : nodeScope.Opened ∧
    ((Resolve.typeExpr nodeScope nodesText).run { nextId := 8 }).1.map Ty.text =
      some "[7]\x7bnext:^node,x:[2]char\x7d" ∧
    ∃ t', ((Resolve.typeExpr nodeScope ⟨{ id := 6, pos := ⟨4, 1⟩ },
      "[7]\x7bnext:^node,x:[2]char\x7d"⟩).run
      { nextId := 20 }).1 = some t' ∧ t'.text = "[7]\x7bnext:^node,x:[2]char\x7d" := by
  have hopened : nodeScope.Opened := .block _ _ .outermost
  have htext : ((Resolve.typeExpr nodeScope nodesText).run { nextId := 8 }).1.map Ty.text =
      some "[7]\x7bnext:^node,x:[2]char\x7d" := by decide +kernel
  obtain ⟨t, ht, heq⟩ := Option.map_eq_some_iff.mp htext
  obtain ⟨t', ht', -, htext', -⟩ := text_denotes_type hopened ht { id := 6, pos := ⟨4, 1⟩ }
    { nextId := 20 }
  rw [heq] at ht' htext'
  exact ⟨hopened, htext, t', ht', htext'⟩

end MmixBackend.Source
