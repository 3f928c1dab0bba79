import MmixBackend.Proofs.Source.Typing

/-!
# Two tables for one tree

The tables of two runs over the same nodes may differ in the numbers of records and of their
components, which are taken from a counter. Records belong together if they stand in the same place
of the type of one type expression, and so do their components.

`Attributes.Mirrors base t t'` says that `t'` has no entries but those of `t`, up to these numbers.
While a tree is resolved, `t'` may still have fewer entries than `t`. Nodes of the tree have numbers
below `base`.

## Main definitions

- `Attributes.Counterpart`, `Attributes.Alike`, `Attributes.SameDecl`: records, types and
  declarations that belong together.
- `Attributes.Mirrors`: entries that do.

## Main statements

- `Attributes.Mirrors.component?`: components that are found in types that belong together.
- `Attributes.Mirrors.reading`: a type expression is read that has been read for the other tables.
-/

namespace MmixBackend.Source

/-! ## §1 What belongs together -/

/-- Every entry of the second table is one of the first table, up to `P`. -/
def Images {β : Type} (P : β → β → Prop) (m m' : Std.TreeMap NodeId β) : Prop :=
  ∀ (id : NodeId) b', m'[id]? = some b' → ∃ b, m[id]? = some b ∧ P b b'

theorem Images.empty {β : Type} {P : β → β → Prop} {m : Std.TreeMap NodeId β} : Images P m ∅ :=
    fun id b' h => by
  rw [Std.TreeMap.getElem?_emptyc] at h
  cases h

theorem Images.mono {β : Type} {P Q : β → β → Prop} {m m' : Std.TreeMap NodeId β} (h : Images P m m')
    (hPQ : ∀ b b', P b b' → Q b b') : Images Q m m' := by
  intro id b' hb'
  obtain ⟨b, hb, hP⟩ := h id b' hb'
  exact ⟨b, hb, hPQ b b' hP⟩

theorem Images.insert {β : Type} {P : β → β → Prop} {m m' : Std.TreeMap NodeId β}
    (h : Images P m m') {id : NodeId} {b b' : β} (hb : m[id]? = some b) (hP : P b b') :
    Images P m (m'.insert id b') := by
  intro id' b'' hb''
  rcases Resolving.eq_or_of_getElem?_insert hb'' with ⟨rfl, rfl⟩ | hb''
  · exact ⟨b, hb, hP⟩
  · exact h id' b'' hb''

/-- The declaration is a node of the tree. The components of records are in the texts of types. -/
def Decl.InTree : Decl → Prop
  | .comp .. => False
  | _ => True

theorem Decl.IsValue.inTree {d : Decl} (h : d.IsValue) : d.InTree := by
  cases d with
  | comp => exact h
  | _ => trivial

namespace Attributes

/-- The two records stand in the same place of the type of one type expression. -/
def Counterpart (t t' : Attributes) (i j : NodeId) : Prop :=
  ∃ (id : NodeId) (ty ty' : Ty), t.isType[id]? = some ty ∧ t'.isType[id]? = some ty' ∧
    (i, j) ∈ ty.recordIds.zip ty'.recordIds

/-- The types differ in the numbers of records that belong together, and in nothing else. -/
def Alike (t t' : Attributes) (ty ty' : Ty) : Prop := ty.Renumbered (t.Counterpart t') ty'

/-- Both are one declaration of the tree, or the same component of records that belong together. -/
def SameDecl (t t' : Attributes) (d d' : Decl) : Prop :=
  (d = d' ∧ d.InTree) ∨ ∃ (i j : NodeId) (k : Nat), t.Counterpart t' i j ∧
    (t.comps i)[k]? = some d ∧ (t'.comps j)[k]? = some d'

/-- The tables `t'` have no entries for the nodes of a tree but those of `t`, up to the numbers of
records. Records that belong together have been read from the same text. -/
structure Mirrors (base : NodeId) (t t' : Attributes) : Prop where
  declaredAt : Images (t.SameDecl t') t.declaredAt t'.declaredAt
  ofType : Images (t.Alike t') t.ofType t'.ofType
  isType : Images (t.Alike t') t.isType t'.isType
  declType : ∀ id < base, ∀ ty', t'.declType[id]? = some ty' → ∃ ty, t.declType[id]? = some ty ∧
    t.Alike t' ty ty'
  typeDefs : Images (t.Alike t') t.typeDefs t'.typeDefs
  records : ∀ i j, t.Counterpart t' i j → ∃ (info : RecordInfo) (k k' : Nat), t.records[i]? = some
    (info.shift k) ∧
    t'.records[j]? = some (info.shift k')

variable {base : NodeId} {t t' t'' : Attributes} {ty ty' : Ty} {d d' : Decl}

theorem comps_eq {id : NodeId} {info : RecordInfo} (h : t.records[id]? = some info) :
    t.comps id = info.comps := by
  rw [comps, h]
  rfl

/-! ## §2 More entries -/

section

variable (hisType : ∀ (id : NodeId) ty, t'.isType[id]? = some ty → t''.isType[id]? = some ty)
include hisType

theorem Counterpart.mono {i j : NodeId} (h : t.Counterpart t' i j) : t.Counterpart t'' i j := by
  obtain ⟨id, ty, ty', hty, hty', hmem⟩ := h
  exact ⟨id, ty, ty', hty, hisType id ty' hty', hmem⟩

theorem Alike.mono (h : t.Alike t' ty ty') : t.Alike t'' ty ty' :=
  Ty.Renumbered.mono (fun _ _ => Counterpart.mono hisType) h

theorem SameDecl.mono (hrecords : ∀ (id : NodeId) info, t'.records[id]? = some info →
      t''.records[id]? = some info)
    (h : t.SameDecl t' d d') : t.SameDecl t'' d d' := by
  rcases h with hsame | ⟨i, j, k, hij, hd, hd'⟩
  · exact .inl hsame
  · refine .inr ⟨i, j, k, hij.mono hisType, hd, ?_⟩
    cases hinfo : t'.records[j]? with
    | none =>
      rw [comps, hinfo] at hd'
      cases hd'
    | some info => rwa [comps_eq (hrecords j info hinfo), ← comps_eq hinfo]

end

/-- Nothing has been recorded yet. -/
theorem Mirrors.empty : t.Mirrors base {} where
  declaredAt := .empty
  ofType := .empty
  isType := .empty
  declType id _ ty' h := by
    rw [Std.TreeMap.getElem?_emptyc] at h
    cases h
  typeDefs := .empty
  records i j h := by
    obtain ⟨id, ty, ty', -, h, -⟩ := h
    rw [Std.TreeMap.getElem?_emptyc] at h
    cases h

/-- The definitions of type names correspond. -/
theorem Mirrors.corresponds (h : t.Mirrors base t') (hguarded : t.typeDefs.Guarded)
    (hclosed : t'.typeDefs.Closed) :
    TypeDefs.Corresponds (t.Counterpart t') t.typeDefs t'.typeDefs :=
  ⟨hguarded, hclosed, h.typeDefs⟩

theorem Mirrors.guarded (h : t.Mirrors base t') (hguarded : t.typeDefs.Guarded) :
    t'.typeDefs.Guarded := by
  have hneeds : ∀ d d', t'.typeDefs.Needs d d' → t.typeDefs.Needs d d' := by
    rintro d d' ⟨ty', hty', hd'⟩
    obtain ⟨ty, hty, halike⟩ := h.typeDefs d ty' hty'
    exact ⟨ty, hty, Ty.Renumbered.exposes_iff halike |>.mpr hd'⟩
  exact fun d hcycle => hguarded d (Relation.TransGen.mono hneeds d d hcycle)

/-- **Components of types that belong together** belong together. -/
theorem Mirrors.component? (h : t.Mirrors base t')
    (hdefs : TypeDefs.Corresponds (t.Counterpart t') t.typeDefs t'.typeDefs) (halike : t.Alike t' ty ty')
    (hnames : ty'.NamesIn fun d => (t'.typeDefs[d]?).isSome) {ident : String} {c : Decl × Ty}
    (hc : t.component? ty ident = some c) :
    ∃ c', t'.component? ty' ident = some c' ∧ t.SameDecl t' c.1 c'.1 ∧ t.Alike t' c.2 c'.2 := by
  have hcomps (i j : NodeId) (hij : t.Counterpart t' i j) :
      List.Forall₂ (fun d d' => d.name = d'.name ∧ t.SameDecl t' d d') (t.comps i) (t'.comps j) := by
    obtain ⟨info, m, n, hinfo, hinfo'⟩ := h.records i j hij
    -- Both records have been read from one text, so their components have the same names in the
    -- same order.
    have hsame : (t.comps i).map Decl.name = (t'.comps j).map Decl.name := by
      simp [comps_eq hinfo, comps_eq hinfo', RecordInfo.shift, Function.comp_def, Decl.name_shift]
    have hlength : (t.comps i).length = (t'.comps j).length := by simpa using congrArg List.length hsame
    refine List.forall₂_iff_get.mpr ⟨hlength, fun k hk hk' => ⟨?_, .inr ⟨i, j, k, hij, ?_, ?_⟩⟩⟩
    · have hget := congrArg (·[k]?) hsame
      simpa [hk, hk'] using hget
    · exact List.getElem?_eq_getElem hk
    · exact List.getElem?_eq_getElem hk'
  have hrel := component?_rel hdefs halike hnames (fun _ _ hd => hd.1) hcomps ident
  rw [hc] at hrel
  cases hc' : t'.component? ty' ident with
  | none =>
    rw [hc'] at hrel
    cases hrel
  | some c' =>
    rw [hc'] at hrel
    cases hrel with
    | some hrel => exact ⟨c', rfl, hrel.1.2, hrel.2⟩

/-! ## §3 Single entries -/

section

variable {s : Resolving} {id : NodeId} (h : t.Mirrors base s.attrs)
include h

theorem Mirrors.binding (hd : t.declaredAt[id]? = some d) (hsame : t.SameDecl s.attrs d d') :
    t.Mirrors base (s.binding id d').attrs :=
  { h with declaredAt := h.declaredAt.insert hd hsame }

theorem Mirrors.typing (hty : t.ofType[id]? = some ty) (halike : t.Alike s.attrs ty ty') :
    t.Mirrors base (s.typing id ty').attrs :=
  { h with ofType := h.ofType.insert hty halike }

theorem Mirrors.defining (hty : t.typeDefs[id]? = some ty) (halike : t.Alike s.attrs ty ty') :
    t.Mirrors base (s.defining id ty').attrs :=
  { h with typeDefs := h.typeDefs.insert hty halike }

theorem Mirrors.declaring (hty : t.declType[id]? = some ty) (halike : t.Alike s.attrs ty ty') :
    t.Mirrors base (s.declaring id ty').attrs := by
  refine { h with declType := fun id' hid' ty'' hty'' => ?_ }
  rcases Resolving.eq_or_of_getElem?_insert hty'' with ⟨rfl, rfl⟩ | hty''
  · exact ⟨ty, hty, halike⟩
  · exact h.declType id' hid' ty'' hty''

/-! ## §4 Reading types -/

/-- **A type expression is read** whose type is in the other tables. -/
theorem Mirrors.reading {P : NodeId → Prop} {scope : Scope} {te : TypeExpr} (hs : s.Sound P)
    (hbase : base ≤ s.nextId) (hnew : s.attrs.isType[te.mark.id]? = none) (hty : te.Denotes t scope ty) :
    ∃ r, readTypeExpr scope.find? s.nextId te = .ok r ∧ t.Mirrors base (s.reading te r).attrs ∧
      t.Alike (s.reading te r).attrs ty r.type := by
  -- The text was read before, with other numbers for its records; it is read in the same way now.
  obtain ⟨hisType, n, _, hread, rfl, hlast, hrecords⟩ := hty
  obtain ⟨r, hbase₀, rfl⟩ := exists_base_of_readTypeExpr hread
  have hread' := readTypeExpr_of_base hbase₀ s.nextId
  -- The entry is new, so none of the old ones is overwritten.
  have hkept (id : NodeId) (ty : Ty) (hid : s.attrs.isType[id]? = some ty) :
      (s.reading te (r.shift s.nextId)).attrs.isType[id]? = some ty := by
    refine (Resolving.getElem?_insert_of_not_mem (List.mem_singleton.mpr rfl) fun hmem => ?_).trans hid
    rw [List.mem_singleton.mp hmem, hnew] at hid
    cases hid
  have hkept' (id : NodeId) (info : RecordInfo) (hinfo : s.attrs.records[id]? = some info) :
      (s.reading te (r.shift s.nextId)).attrs.records[id]? = some info :=
    (Resolving.records_keeping_of_lt (.ok hread') (hs.records id info hinfo).id_lt).trans hinfo
  have hisType' : (s.reading te (r.shift s.nextId)).attrs.isType[te.mark.id]? = some
      (r.type.shift s.nextId) :=
    Resolving.isType_reading s
  -- The records of both types stand at the same places of the text.
  have halike : t.Alike (s.reading te (r.shift s.nextId)).attrs (r.type.shift n)
      (r.type.shift s.nextId) := by
    refine Ty.renumbered_shift fun i hi => ⟨te.mark.id, _, _, hisType, hisType', ?_⟩
    rw [TypeResult.shift, Ty.recordIds_shift, Ty.recordIds_shift, List.zip_map']
    exact List.mem_map.mpr ⟨i, hi, rfl⟩
  have hold {ty ty' : Ty} (h : t.Alike s.attrs ty ty') :
      t.Alike (s.reading te (r.shift s.nextId)).attrs ty ty' :=
    h.mono hkept
  refine ⟨_, hread', ⟨?_, h.ofType.mono fun _ _ => hold, ?_,
    fun id hid ty' hty' => ?_, h.typeDefs.mono fun _ _ => hold,
    fun i j hij => ?_⟩, halike⟩
  · have hbound := h.declaredAt.mono fun _ _ => SameDecl.mono hkept hkept'
    show Images _ _ ((r.shift s.nextId).lastNamed.elim s.attrs.declaredAt
      (s.attrs.declaredAt.insert te.mark.id))
    cases hd : (r.shift s.nextId).lastNamed with
    | none => exact hbound
    | some d =>
      obtain ⟨m, name, te', rfl, -⟩ := (TypeParts.ReadFrom.ok hread').lastNamed hd
      exact hbound.insert (hlast _ hd) (.inl ⟨rfl, trivial⟩)
  · exact (h.isType.mono fun _ _ => hold).insert hisType halike
  -- Below the base nothing has been written: the components have new numbers.
  · have hsame := Resolving.declType_keeping_of_lt (.ok hread') (Nat.lt_of_lt_of_le hid hbase)
    obtain ⟨ty, hty, h'⟩ := h.declType id hid ty' (hsame.symm.trans hty')
    exact ⟨ty, hty, hold h'⟩
  · obtain ⟨id, ty, ty', hty, hty', hmem⟩ := hij
    rcases Resolving.eq_or_of_getElem?_insert hty' with ⟨rfl, rfl⟩ | hty'
    · -- A record of the new type has been read from the same text.
      rw [hisType] at hty
      cases hty
      rw [TypeResult.shift, TypeResult.shift, Ty.recordIds_shift, Ty.recordIds_shift,
        List.zip_map'] at hmem
      obtain ⟨i₀, hi₀, heq⟩ := List.mem_map.mp hmem
      cases heq
      obtain ⟨info, hinfo⟩ := (readTypeExpr_sound hbase₀).recordIds i₀ hi₀
      exact ⟨info, n, s.nextId, hrecords _ _ (List.mem_map.mpr ⟨_, hinfo, rfl⟩),
        Resolving.records_keeping_of_mem (.ok hread') (List.mem_map.mpr ⟨_, hinfo, rfl⟩)⟩
    · obtain ⟨info, k, k', hinfo, hinfo'⟩ := h.records i j ⟨id, ty, ty', hty, hty', hmem⟩
      exact ⟨info, k, k', hinfo, hkept' j _ hinfo'⟩

end

end Attributes

end MmixBackend.Source
