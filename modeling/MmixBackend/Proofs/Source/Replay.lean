import MmixBackend.Proofs.Source.BlockReplay
import MmixBackend.Proofs.Source.Recovery

/-!
# Resolving a typed tree

A program that is typed with some tables is accepted, and the tables that resolution comes to have
the same entries, up to the numbers of records. This is the other direction to the types that
accepted programs have.

`Resolving.Follows` describes the states in which a part of a typed tree can be resolved. `Replays`
is the form in which this goes along the tree.

## Main statements

- `Replays.bind`: one part of a tree after another one.
- `expr_replays`, `bodies_replays`: typed expressions, and the bodies of a typed block.
- `Program.exists_mirror_of_typed`: a typed program is accepted.
-/

namespace MmixBackend.Source

/-! ## §1 States -/

/-- All declarations in scope, with their parameters, have numbers below `base`. -/
def Scope.Below (base : NodeId) (scope : Scope) : Prop :=
  ∀ ident d, scope.find? ident = some d → ∀ id ∈ d.ownIds, id < base

/-- Nodes of a typed tree with the numbers `ids` can be resolved inside of `scope`; everything in
scope has been declared. -/
structure Resolving.Follows (base : NodeId) (t : Attributes) (scope : Scope) (ids : List NodeId)
    (s : Resolving) :
    Prop where
  awaits : s.Awaits scope ids
  tracks : s.Tracks base t
  declares : s.Declares scope
  below : scope.Below base
  lt : ∀ id ∈ ids, id < base

/-- The expression has the type `ty` in the tables `t`, and `r` is this type in the tables of the
state. If it is a place in memory in the first tables, then it is one in the second ones. -/
def Expr.Replayed (t : Attributes) (e : Expr) (ty : Ty) (r : Option Ty) (s : Resolving) : Prop :=
  (∃ ty', r = some ty' ∧ t.Alike s.attrs ty ty') ∧ (e.located t = true → e.located s.attrs = true)

theorem Decl.ownIds_subset_headIds (d : Decl) : d.ownIds ⊆ d.headIds := by
  cases d with
  | fn m name params type body =>
    refine List.cons_subset_cons _ fun id hid => List.mem_append_left _ ?_
    obtain ⟨p, hp, rfl⟩ := List.mem_map.mp hid
    exact List.mem_flatMap.mpr ⟨p, hp, List.mem_cons_self⟩
  | _ => exact List.cons_subset_cons _ (List.nil_subset _)

namespace Resolving.Follows

variable {base : NodeId} {t : Attributes} {scope scope' : Scope} {ids ids' : List NodeId}
  {id : NodeId} {s : Resolving}

theorem mono (h : s.Follows base t scope ids) (hs : s.Awaits scope ids') (hsub : ids' ⊆ ids) :
    s.Follows base t scope ids' :=
  { h with awaits := hs, lt := fun id hid => h.lt id (hsub hid) }

theorem perm (h : s.Follows base t scope ids) (hperm : ids.Perm ids') :
    s.Follows base t scope ids' :=
  h.mono (h.awaits.perm hperm) hperm.symm.subset

theorem of_append_left (h : s.Follows base t scope (ids ++ ids')) : s.Follows base t scope ids :=
  h.mono h.awaits.of_append_left (List.subset_append_left _ _)

theorem of_cons (h : s.Follows base t scope (id :: ids)) : s.Follows base t scope ids :=
  h.mono h.awaits.of_cons (List.subset_cons_self _ _)

/-- Inside of a block that has been declared. -/
theorem inner {ds : List Decl} (h : s.Follows base t scope ids)
    (hinner : scope'.find? = Scope.find? (blockScope ds :: scope))
    (hds : ∀ d ∈ Decl.typeIds ds, s.Defines d) (hall : s.DeclaresAll ds)
    (hlt : ∀ id ∈ ds.flatMap Decl.headIds, id < base) : s.Follows base t scope' ids := by
  refine ⟨h.awaits.inner hinner hds, h.tracks, (h.declares.inner hall).congr hinner.symm,
    fun ident d hfind => ?_, h.lt⟩
  rw [hinner] at hfind
  rcases Scope.mem_of_find?_cons hfind with hmem | hfind
  · obtain ⟨d', hd, heq⟩ := List.mem_map.mp hmem
    cases heq
    exact fun id hid => hlt id (List.mem_flatMap.mpr ⟨d, hd, d.ownIds_subset_headIds hid⟩)
  · exact h.below ident d hfind

/-- Inside of a function whose parameters have been declared. -/
theorem params {ps : List Param} (h : s.Follows base t scope ids)
    (hinner : scope'.find? = Scope.find? (paramScope ps :: scope))
    (hps : ∀ p ∈ ps, (s.attrs.declType[p.mark.id]?).isSome ∧ p.mark.id < base) :
    s.Follows base t scope' ids := by
  refine ⟨h.awaits.params hinner, h.tracks, (h.declares.params fun p hp => (hps p hp).1).congr
    hinner.symm,
    fun ident d hfind => ?_, h.lt⟩
  rw [hinner] at hfind
  rcases Scope.mem_of_find?_cons hfind with hmem | hfind
  · obtain ⟨p, hp, heq⟩ := List.mem_map.mp hmem
    cases heq
    exact List.forall_mem_singleton.mpr (hps p hp).2
  · exact h.below ident d hfind

/-- A declaration in scope has its type. -/
theorem exists_declType {ident : String} {d : Decl} (h : s.Follows base t scope ids)
    (hfind : scope.find? ident = some d) (hid : id ∈ d.ownIds) :
    ∃ ty ty', t.declType[id]? = some ty ∧ s.attrs.declType[id]? = some ty' ∧
      t.Alike s.attrs ty ty' := by
  obtain ⟨ty', hty'⟩ := Option.isSome_iff_exists.mp (h.declares ident d hfind id hid)
  obtain ⟨ty, hty, halike⟩ := h.tracks.mirrors.declType id (h.below ident d hfind id hid) ty' hty'
  exact ⟨ty, ty', hty, hty', halike⟩

theorem corresponds (h : s.Follows base t scope ids) (hguarded : t.typeDefs.Guarded) :
    TypeDefs.Corresponds (t.Counterpart s.attrs) t.typeDefs s.attrs.typeDefs :=
  h.tracks.mirrors.corresponds hguarded h.awaits.admits.sound.closed

end Resolving.Follows

/-! ## §2 Steps -/

namespace Resolve

variable {α β : Type} {base : NodeId} {t : Attributes} {done rest : List NodeId} {s s' : Resolving}
  {x : Resolve α} {Q R K : α → Resolving → Prop} {scope : Scope} {m : Mark} {ty ty' : Ty}

/-- The step `x` does what has been done for the tables `t`. Its result and the state behind it
satisfy `Q`. -/
structure Replays (base : NodeId) (t : Attributes) (s : Resolving) (x : Resolve α)
    (Q : α → Resolving → Prop) :
    Prop where
  tracks : (x.run s).2.Tracks base t
  result : Q (x.run s).1 (x.run s).2

namespace Replays

theorem pure {a : α} (hs : s.Tracks base t) (h : Q a s) : Replays base t s (pure a) Q := ⟨hs, h⟩

theorem imp (h : Replays base t s x R) (hQ : ∀ a s', R a s' → Q a s') : Replays base t s x Q :=
  ⟨h.tracks, hQ _ _ h.result⟩

/-- A check that passes. -/
theorem of_judges {a : α} {ok : Prop} (h : Judges s x a s' ok) (hok : ok)
    (htracks : s'.Tracks base t) (hQ : Q a s') :
    Replays base t s x Q := by
  have hrun := h.run_eq hok
  refine ⟨?_, ?_⟩ <;> rw [hrun]
  · exact htracks
  · exact hQ

/-- A check that passes and gives the type of a node. -/
theorem of_judges_typed {x : Resolve (Option Ty)} {r : Option Ty} {ok : Prop}
    {Q : Option Ty → Resolving → Prop} (h : Judges s x r s' ok) (hok : ok) (hr : r = some ty')
    (htracks : s'.Tracks base t) (hof : t.ofType[m.id]? = some ty)
    (halike : t.Alike s'.attrs ty ty') (hQ : Q (some ty') (s'.typing m.id ty')) :
    Replays base t s (x >>= setType m) Q := by
  subst hr
  exact of_judges h.typed hok ⟨htracks.errors, htracks.base_le, htracks.mirrors.typing hof halike⟩
    hQ

/-- One part of a tree after another one. -/
theorem bind {f : α → Resolve β} {Q : β → Resolving → Prop}
    (hs : s.Follows base t scope (done ++ rest)) (hrun : Runs done s x K)
    (hx : Replays base t s x R) (hf : ∀ a s', s'.Follows base t scope rest →
      s.attrs.Extends s'.attrs → K a s' → R a s' →
      Replays base t s' (f a) Q) : Replays base t s (x >>= f) Q := by
  obtain ⟨hgo, hK⟩ := hrun
  have hext := hs.awaits.of_append_left.admits.extended hgo.touches
  have hafter : Resolving.Awaits scope rest (x.run s).2 :=
    ⟨hs.awaits.admits.after (List.subset_append_left _ _) (List.subset_append_right _ _) hgo
      (List.disjoint_of_nodup_append hs.awaits.nodup), hs.awaits.nodup.of_append_right⟩
  have hfollows : (x.run s).2.Follows base t scope rest :=
    ⟨hafter, hx.tracks, hs.declares.mono hext, hs.below, fun id hid =>
      hs.lt id (List.mem_append_right _ hid)⟩
  obtain ⟨htracks, hQ⟩ := hf _ _ hfollows hext hK hx.result
  exact ⟨htracks, hQ⟩

/-- The last part of a tree. -/
theorem bind_last {f : α → Resolve β} {Q : β → Resolving → Prop} {ids : List NodeId}
    (hs : s.Follows base t scope ids) (hrun : Runs ids s x K) (hx : Replays base t s x R)
    (hf : ∀ a s', s'.Follows base t scope [] → s.attrs.Extends s'.attrs → K a s' → R a s' →
      Replays base t s' (f a) Q) : Replays base t s (x >>= f) Q :=
  bind ((List.append_nil ids).symm ▸ hs) hrun hx hf

/-- A check in front of a part of a tree. -/
theorem check_bind {f : α → Resolve β} {Q : β → Resolving → Prop} {a : α} {ok : Prop}
    (h : Judges s x a s ok) (hok : ok) (hf : Replays base t s (f a) Q) :
    Replays base t s (x >>= f) Q := by
  have hrun : (x >>= f).run s = (f a).run s := by
    rw [run_bind_state, h.run_eq hok]
  obtain ⟨htracks, hQ⟩ := hf
  rw [← hrun] at htracks hQ
  exact ⟨htracks, hQ⟩

end Replays

end Resolve

/-- Types without records are alike. -/
theorem AtomKind.alike_of_type? {t t' : Attributes} {kind : AtomKind} {ty : Ty}
    (h : kind.type? = some ty) :
    t.Alike t' ty ty := by
  cases kind <;> cases h <;> first | exact .ptr .void | exact .ptr .char | constructor

theorem BinaryOp.alike_of_type? {t t' : Attributes} {defs : TypeDefs} {op : BinaryOp}
    {fst snd ty : Ty} (h : op.type? defs fst snd = some ty) : t.Alike t' ty ty := by
  cases op <;> simp only [BinaryOp.type?, Option.ite_none_right_eq_some, Option.some.injEq] at h <;>
    obtain ⟨-, rfl⟩ := h <;> constructor

/-- Of two types that differ in record numbers one is there if the other one is. -/
theorem exists_of_renumberedIf {t t' : Attributes} {r r' : Option Ty} {ty : Ty}
    (h : Ty.RenumberedIf (t.Counterpart t') r r') (hr : r = some ty) : ∃ ty', r' = some ty' ∧
    t.Alike t' ty ty' := by
  subst hr
  cases h with
  | some h => exact ⟨_, rfl, h⟩

namespace Expr.Replayed

variable {t : Attributes} {e : Expr} {ty ty' : Ty} {r : Option Ty} {s s' : Resolving}

theorem mono (h : e.Replayed t ty r s) (hext : s.attrs.Extends s'.attrs) :
    e.Replayed t ty r s' := by
  obtain ⟨⟨ty', hr, halike⟩, hlocated⟩ := h
  exact ⟨⟨ty', hr, halike.mono hext.isType⟩, fun h => Expr.located_mono (hlocated h) hext⟩

/-- A truth value is one in the other tables. -/
theorem isBool (h : e.Replayed t ty r s)
    (hdefs : TypeDefs.Corresponds (t.Counterpart s.attrs) t.typeDefs s.attrs.typeDefs)
    (hnames : s.Knows r) (hbool : ty.isBool t.typeDefs = true) : ∀ ty', r = some ty' →
    ty'.isBool s.attrs.typeDefs = true := by
  intro ty' hty'
  obtain ⟨⟨_, hr, halike⟩, -⟩ := h
  cases hr.symm.trans hty'
  exact (hdefs.isBool_eq halike (hnames ty' hty')).symm.trans hbool

end Expr.Replayed

/-- The declarations of a block have types and numbers below `base`. -/
theorem Resolving.DeclaresAll.with_lt {base : NodeId} {s : Resolving} {ds : List Decl}
    (h : s.DeclaresAll ds) (hlt : ∀ id ∈ ds.flatMap Decl.headIds, id < base) :
    ∀ d ∈ ds, ∀ id ∈ d.ownIds, (s.attrs.declType[id]?).isSome ∧ id < base := fun d hd id hid =>
  ⟨h d hd id hid, hlt id (List.mem_flatMap.mpr ⟨d, hd, d.ownIds_subset_headIds hid⟩)⟩

/-! ## §3 Types of expressions

Types that differ in record numbers only have the same place in the rules, so the types that the
rules give differ in the same way. -/

namespace Resolve

variable {base : NodeId} {t : Attributes} {scope scope' : Scope} {s : Resolving}
  {m : Mark} {ty : Ty}

/-- The type of a node that is known already is recorded. -/
theorem setType_replays {r : Option Ty} {Q : Option Ty → Resolving → Prop} (hs : s.Tracks base t)
    (hr : ∃ ty', r = some ty' ∧ t.Alike s.attrs ty ty') (hof : t.ofType[m.id]? = some ty)
    (hQ : ∀ ty', t.Alike s.attrs ty ty' → Q (some ty') (s.typing m.id ty')) :
    Replays base t s (setType m r) Q := by
  obtain ⟨ty', rfl, halike⟩ := hr
  exact .of_judges_typed .pure trivial rfl hs hof halike (hQ ty' halike)

theorem typeExpr_replays {te : TypeExpr} (hscope : scope.find? = scope'.find?)
    (hs : s.Follows base t scope [te.mark.id]) (hty : te.Denotes t scope' ty) :
    Replays base t s (typeExpr scope te) fun r s' =>
      ∃ ty', r = some ty' ∧ t.Alike s'.attrs ty ty' := by
  obtain ⟨r, hread, htracks, halike⟩ := hs.tracks.reading hs.awaits.admits.sound
    (hs.awaits.admits.isType _ List.mem_cons_self) (hty.congr hscope.symm)
  exact .of_judges (judges_typeExpr hread) trivial htracks ⟨r.type, rfl, halike⟩

theorem declare_replays {ds : List Decl} (hguarded : t.typeDefs.Guarded)
    (hscope : scope.find? = scope'.find?) (hs : s.Follows base t scope (ds.flatMap Decl.headIds))
    (hds : Block.Typed t scope' ds) : Replays base t s (declare scope ds) fun _ _ => True :=
  ⟨declare_tracks hguarded hs.awaits.admits hs.awaits.nodup hs.tracks (hds.congr hscope.symm),
    trivial⟩

/-- A check that passes and binds nothing. -/
theorem Replays.of_judges_alike {x : Resolve (Option Ty)} {r : Option Ty} {ty' : Ty} {ok : Prop}
    (h : Judges s x r s ok) (hok : ok) (hs : s.Tracks base t) (hr : r = some ty')
    (hof : t.ofType[m.id]? = some ty) (halike : t.Alike s.attrs ty ty') :
    Replays base t s (x >>= setType m) fun r s' => ∃ ty', r = some ty' ∧ t.Alike s'.attrs ty ty' :=
  .of_judges_typed h hok hr hs hof halike ⟨ty', rfl, halike⟩

theorem name_replays {ident : String} (hscope : scope.find? = scope'.find?)
    (hs : s.Follows base t scope [m.id]) (hty : (Expr.name m ident).HasType t scope' ty) :
    Replays base t s (nameType scope m ident >>= setType m)
      ((Expr.name m ident).Replayed t ty) := by
  obtain ⟨⟨d, hfind, hbound, hvalue, hty⟩, hof⟩ := hty
  have hfind' := (congrFun hscope ident).trans hfind
  obtain ⟨_, ty', hty₀, hty', halike⟩ := hs.exists_declType hfind' d.id_mem_ownIds
  cases hty.symm.trans hty₀
  obtain ⟨r, hjudges, -, hr⟩ := judges_nameType m hfind' (s := s)
  refine .of_judges_typed hjudges hvalue ((hr hvalue).trans hty')
    ⟨hs.tracks.errors, hs.tracks.base_le, hs.tracks.mirrors.binding hbound
      (.inl ⟨rfl, hvalue.inTree⟩)⟩ hof halike
    ⟨⟨ty', rfl, halike⟩, fun hlocated => ?_⟩
  -- The name is bound to the same declaration, so it is a place in memory for both tables or for
  -- none of them.
  have hbound' : ((s.binding m.id d).typing m.id ty').attrs.declaredAt[m.id]? = some d :=
    Std.TreeMap.getElem?_insert_self
  rw [Expr.located, hbound] at hlocated
  rw [Expr.located, hbound']
  exact hlocated

theorem unary_replays (hguarded : t.typeDefs.Guarded) (hs : s.Follows base t scope [m.id])
    {op : UnaryOp} {arg : Expr} {argTy argTy' : Ty} (halike : t.Alike s.attrs argTy argTy')
    (hnames : s.Knows (some argTy')) (hlocated : arg.located t = true → arg.located s.attrs = true)
    (hty : op.type? t.typeDefs (arg.located t) argTy = some ty) (hof : t.ofType[m.id]? = some ty) :
    Replays base t s (unaryType m op arg argTy' >>= setType m) fun r s' =>
      ∃ ty', r = some ty' ∧ t.Alike s'.attrs ty ty' := by
  obtain ⟨ty', hty', halike'⟩ := exists_of_renumberedIf
    (UnaryOp.type?_rel (hs.corresponds hguarded) halike (hnames argTy' rfl) op (arg.located t)) hty
  have htype := UnaryOp.type?_of_located hlocated hty'
  exact .of_judges_alike (judges_unaryType m op arg argTy') (Option.isSome_of_eq_some htype)
    hs.tracks htype hof halike'

theorem deref_replays (hguarded : t.typeDefs.Guarded) (hs : s.Follows base t scope [m.id])
    {argTy argTy' : Ty} (halike : t.Alike s.attrs argTy argTy') (hnames : s.Knows (some argTy'))
    (hty : argTy.target? t.typeDefs = some ty) (hof : t.ofType[m.id]? = some ty) :
    Replays base t s (derefType m argTy' >>= setType m) fun r s' =>
      ∃ ty', r = some ty' ∧ t.Alike s'.attrs ty ty' := by
  obtain ⟨ty', hty', halike'⟩ := exists_of_renumberedIf
    (Ty.target?_rel (hs.corresponds hguarded) halike (hnames argTy' rfl)) hty
  exact .of_judges_alike (judges_derefType m argTy') (Option.isSome_of_eq_some hty') hs.tracks
    hty' hof halike'

theorem binary_replays (hguarded : t.typeDefs.Guarded) (hs : s.Follows base t scope [m.id])
    {op : BinaryOp} {fst fst' snd snd' : Ty} (halike : t.Alike s.attrs fst fst')
    (halike' : t.Alike s.attrs snd snd') (hnames : s.Knows (some fst'))
    (hnames' : s.Knows (some snd')) (hty : op.type? t.typeDefs fst snd = some ty)
    (hof : t.ofType[m.id]? = some ty) :
    Replays base t s (binaryType m op fst' snd' >>= setType m) fun r s' =>
      ∃ ty', r = some ty' ∧ t.Alike s'.attrs ty ty' := by
  have hsame := BinaryOp.type?_eq (hs.corresponds hguarded) halike halike' (hnames fst' rfl)
    (hnames' snd' rfl) op
  have hty' := hsame.symm.trans hty
  exact .of_judges_alike (judges_binaryType m op fst' snd') (Option.isSome_of_eq_some hty')
    hs.tracks hty' hof
    (BinaryOp.alike_of_type? hty)

theorem index_replays (hguarded : t.typeDefs.Guarded) (hs : s.Follows base t scope [m.id])
    {array idx : Expr} {arrayTy arrayTy' idxTy idxTy' : Ty}
    (halike : t.Alike s.attrs arrayTy arrayTy') (halike' : t.Alike s.attrs idxTy idxTy')
    (hnames : s.Knows (some arrayTy')) (hnames' : s.Knows (some idxTy'))
    (hty : arrayTy.elem? t.typeDefs = some ty) (hlocated : array.located s.attrs = true)
    (hint : idxTy.isInt t.typeDefs = true) (hof : t.ofType[m.id]? = some ty) :
    Replays base t s (indexType m array idx arrayTy' (some idxTy') >>= setType m)
      fun r s' => ∃ ty', r = some ty' ∧ t.Alike s'.attrs ty ty' := by
  have hdefs := hs.corresponds hguarded
  obtain ⟨ty', hty', halikeTy⟩ :=
    exists_of_renumberedIf (Ty.elem?_rel hdefs halike (hnames arrayTy' rfl)) hty
  have hint' : ∀ ty, some idxTy' = some ty → ty.isInt s.attrs.typeDefs = true := by
    rintro _ ⟨⟩
    exact (hdefs.isInt_eq halike' (hnames' idxTy' rfl)).symm.trans hint
  exact .of_judges_alike (judges_indexType m array idx arrayTy' (some idxTy'))
    ⟨Option.isSome_of_eq_some hty', hlocated, hint'⟩ hs.tracks hty' hof halikeTy

theorem cast_replays (hguarded : t.typeDefs.Guarded) (hs : s.Follows base t scope [m.id])
    {src src' dst dst' : Ty} (halike : t.Alike s.attrs src src')
    (halike' : t.Alike s.attrs dst dst') (hnames : s.Knows (some src'))
    (hnames' : s.Knows (some dst')) (hty : src.cast? t.typeDefs dst = some ty)
    (hof : t.ofType[m.id]? = some ty) :
    Replays base t s (castType m (some src') (some dst') >>= setType m)
      fun r s' => ∃ ty', r = some ty' ∧ t.Alike s'.attrs ty ty' := by
  obtain ⟨ty', hty', halikeTy⟩ := exists_of_renumberedIf
    (Ty.cast?_rel (hs.corresponds hguarded) halike halike' (hnames src' rfl) (hnames' dst' rfl)) hty
  exact .of_judges_alike (judges_castType m src' dst') (Option.isSome_of_eq_some hty') hs.tracks
    hty' hof halikeTy

/-- The component is the one in the same place, and its name is bound to it. -/
theorem select_replays {comp : CompName} (hguarded : t.typeDefs.Guarded)
    (hs : s.Follows base t scope [comp.mark.id, m.id]) {record : Expr} {recordTy recordTy' : Ty}
    {d : Decl} (halike : t.Alike s.attrs recordTy recordTy') (hnames : s.Knows (some recordTy'))
    (hcomp : t.component? recordTy comp.ident = some (d, ty))
    (hlocated : record.located s.attrs = true) (hbound : t.declaredAt[comp.mark.id]? = some d)
    (hof : t.ofType[m.id]? = some ty) :
    Replays base t s (selectType m record comp recordTy' >>= setType m)
      fun r s' => ∃ ty', r = some ty' ∧ t.Alike s'.attrs ty ty' := by
  obtain ⟨c, hc, hsame, halike'⟩ := hs.tracks.mirrors.component? (hs.corresponds hguarded) halike
    (hnames recordTy' rfl) hcomp
  have hjudges := judges_selectType m record comp recordTy' (s := s)
  rw [hc] at hjudges
  exact .of_judges_typed hjudges ⟨rfl, hlocated⟩ rfl
    ⟨hs.tracks.errors, hs.tracks.base_le, hs.tracks.mirrors.binding hbound hsame⟩ hof halike'
      ⟨c.2, rfl, halike'⟩

theorem call_replays (hguarded : t.typeDefs.Guarded) (hscope : scope.find? = scope'.find?)
    (hs : s.Follows base t scope [m.id]) {ident : String} {args : List Expr} {tys : List Ty}
    {rs : List (Option Ty)} {fm : Mark} {name : String} {params : List Param} {type : TypeExpr}
    {body : Expr} (hcount : rs.length = args.length) (hnames : ∀ r ∈ rs, s.Knows r)
    (hrs : List.Forall₂ (fun ty r => ∃ ty', r = some ty' ∧ t.Alike s.attrs ty ty') tys rs)
    (hfind : scope'.find? ident = some (.fn fm name params type body))
    (hbound : t.declaredAt[m.id]? = some (.fn fm name params type body))
    (hlength : tys.length = params.length) (hfit : ArgsFit t (tys.map some) params)
    (hty : t.declType[fm.id]? = some ty) (hof : t.ofType[m.id]? = some ty) :
    Replays base t s (callType scope m ident args rs >>= setType m)
      fun r s' => ∃ ty', r = some ty' ∧ t.Alike s'.attrs ty ty' := by
  have hfind' := (congrFun hscope ident).trans hfind
  obtain ⟨_, ty', hty₀, hty', halike⟩ := hs.exists_declType hfind' List.mem_cons_self
  cases hty.symm.trans hty₀
  have hlength' : rs.length = params.length := hrs.length_eq.symm.trans hlength
  -- The parameters have been declared in both runs, with types that are alike.
  have hparams : List.Forall₂ (fun p p' : Param =>
      Ty.RenumberedIf (t.Counterpart s.attrs) t.declType[p.mark.id]? s.attrs.declType[p'.mark.id]? ∧
        ∀ b, s.attrs.declType[p'.mark.id]? = some b → b.NamesIn fun d =>
          (s.attrs.typeDefs[d]?).isSome)
      params params := by
    refine List.forall₂_same.mpr fun p hp =>
      ⟨?_, fun b hb => hs.awaits.admits.sound.names b (.declType hb)⟩
    obtain ⟨ty, ty', hty, hty', halike⟩ := hs.exists_declType hfind'
      (List.mem_cons_of_mem _ (List.mem_map.mpr ⟨p, hp, rfl⟩))
    rw [hty, hty']
    exact .some halike
  have htys : List.Forall₂ (fun ty ty' => Ty.RenumberedIf (t.Counterpart s.attrs) ty ty' ∧
      ∀ b, ty' = some b → b.NamesIn fun d => (s.attrs.typeDefs[d]?).isSome) (tys.map some) rs := by
    refine List.forall₂_map_left_iff.mpr
      (List.forall₂_iff_zip.mpr ⟨hrs.length_eq, fun {ty r} hzip => ?_⟩)
    obtain ⟨ty', rfl, halike⟩ := (List.forall₂_iff_zip.mp hrs).2 hzip
    exact ⟨.some halike, hnames _ (List.of_mem_zip hzip).2⟩
  have hfit' := (ArgsFit.rel (hs.corresponds hguarded) htys hparams).mp hfit
  exact .of_judges_typed (judges_callType m hfind' hcount.symm) ⟨hlength', hfit'⟩
    ((if_pos hlength').trans hty')
    ⟨hs.tracks.errors, hs.tracks.base_le, hs.tracks.mirrors.binding hbound (.inl ⟨rfl, trivial⟩)⟩
      hof halike
    ⟨ty', rfl, halike⟩

/-! ## §4 Expressions, statements and bodies -/

mutual

/-- **A typed expression is resolved without errors**, to the same type. -/
theorem expr_replays (hguarded : t.typeDefs.Guarded) :
    ∀ (e : Expr) {scope scope' : Scope} {s : Resolving} {ty : Ty},
    scope.find? = scope'.find? → e.Complete → e.HasType t scope' ty → s.Follows base t scope e.ids →
    Replays base t s (expr scope e) (e.Replayed t ty)
  | .absent, _, _, _, _, _, _, h, _ => h.elim
  | .atom m kind value, scope, scope', s, ty, hscope, _, ⟨hty, hof⟩, hs => by
    rw [expr]
    have halike : t.Alike s.attrs ty ty := AtomKind.alike_of_type? hty
    exact .of_judges_typed (judges_atomType m kind) (Option.isSome_of_eq_some hty) hty
      hs.tracks hof halike
      ⟨⟨ty, rfl, halike⟩, fun h => by cases h⟩
  | .name m ident, scope, scope', s, ty, hscope, _, h, hs => by
    rw [expr]
    exact name_replays hscope hs h
  | .unary m op arg, scope, scope', s, ty, hscope, hcomplete, ⟨⟨argTy, harg, hty⟩, hof⟩, hs => by
    rw [expr]
    replace hs := hs.perm (perm_last m.id arg.ids)
    -- The operand gets a type of its own, with its own record numbers; all that follows sees it
    -- only through what is the same for types that are alike.
    refine .bind hs (expr_resolves arg hscope hs.of_append_left.awaits).runs
      (expr_replays hguarded arg hscope hcomplete.2 harg hs.of_append_left)
        fun r s₁ hs₁ _ hnames hr => ?_
    obtain ⟨⟨argTy', rfl, halike⟩, hlocated⟩ := hr
    exact (unary_replays hguarded hs₁ halike hnames hlocated hty hof).imp fun _ _ h =>
      ⟨h, fun h => by cases h⟩
  | .deref m arg, scope, scope', s, ty, hscope, hcomplete, ⟨⟨argTy, harg, hty⟩, hof⟩, hs => by
    rw [expr]
    replace hs := hs.perm (perm_last m.id arg.ids)
    refine .bind hs (expr_resolves arg hscope hs.of_append_left.awaits).runs
      (expr_replays hguarded arg hscope hcomplete harg hs.of_append_left)
        fun r s₁ hs₁ _ hnames hr => ?_
    obtain ⟨⟨argTy', rfl, halike⟩, -⟩ := hr
    exact (deref_replays hguarded hs₁ halike hnames hty hof).imp fun _ _ h => ⟨h, fun _ => rfl⟩
  | .binary m op fst snd, scope, scope', s, ty, hscope, hcomplete,
      ⟨⟨fstTy, sndTy, hfst, hsnd, hty⟩, hof⟩, hs => by
    rw [expr]
    replace hs := hs.perm (perm_last_append m.id fst.ids snd.ids)
    refine .bind hs (expr_resolves fst hscope hs.of_append_left.awaits).runs
      (expr_replays hguarded fst hscope hcomplete.2.1 hfst hs.of_append_left)
        fun r s₁ hs₁ _ hnames hr => ?_
    refine .bind hs₁ (expr_resolves snd hscope hs₁.of_append_left.awaits).runs
      (expr_replays hguarded snd hscope hcomplete.2.2 hsnd hs₁.of_append_left)
        fun r' s₂ hs₂ hext hnames' hr' => ?_
    -- The first operand's type is still like the given one after the second has been resolved.
    obtain ⟨⟨fstTy', rfl, halike⟩, -⟩ := hr.mono hext
    obtain ⟨⟨sndTy', rfl, halike'⟩, -⟩ := hr'
    exact (binary_replays hguarded hs₂ halike halike' (hnames.mono hext.typeDefs)
      hnames' hty hof).imp
      fun _ _ h => ⟨h, fun h => by cases h⟩
  | .index m array idx, scope, scope', s, ty, hscope, hcomplete,
      ⟨⟨arrayTy, idxTy, harray, hidx, hty, hlocated, hint⟩, hof⟩, hs => by
    rw [expr]
    replace hs := hs.perm (perm_last_append m.id array.ids idx.ids)
    refine .bind hs (expr_resolves array hscope hs.of_append_left.awaits).runs
      (expr_replays hguarded array hscope hcomplete.1 harray hs.of_append_left)
        fun r s₁ hs₁ _ hnames hr => ?_
    refine .bind hs₁ (expr_resolves idx hscope hs₁.of_append_left.awaits).runs
      (expr_replays hguarded idx hscope hcomplete.2 hidx hs₁.of_append_left)
        fun r' s₂ hs₂ hext hnames' hr' => ?_
    -- That the array is a location is kept as well; it is what the check asks for.
    obtain ⟨⟨arrayTy', rfl, halike⟩, hplace⟩ := hr.mono hext
    obtain ⟨⟨idxTy', rfl, halike'⟩, -⟩ := hr'
    exact (index_replays hguarded hs₂ halike halike' (hnames.mono hext.typeDefs) hnames' hty
      (hplace hlocated) hint
      hof).imp fun _ _ h => ⟨h, fun _ => rfl⟩
  | .select m record comp, scope, scope', s, ty, hscope, hcomplete,
      ⟨⟨recordTy, d, hrecord, hcomp, hlocated, hbound⟩, hof⟩, hs => by
    rw [expr]
    replace hs := hs.perm (perm_last_append m.id record.ids [comp.mark.id])
    refine .bind hs (expr_resolves record hscope hs.of_append_left.awaits).runs
      (expr_replays hguarded record hscope hcomplete hrecord hs.of_append_left)
        fun r s₁ hs₁ _ hnames hr => ?_
    obtain ⟨⟨recordTy', rfl, halike⟩, hplace⟩ := hr
    exact (select_replays hguarded hs₁ halike hnames hcomp (hplace hlocated) hbound hof).imp
      fun _ _ h => ⟨h, fun _ => rfl⟩
  | .call m ident args, scope, scope', s, ty, hscope, hcomplete,
      ⟨⟨tys, fm, name, params, type, body, hargs, hfind, hbound, hlength, hfit, hty⟩, hof⟩, hs => by
    rw [expr]
    replace hs := hs.perm (perm_last m.id _)
    refine .bind hs (exprs_resolves args hscope hs.of_append_left.awaits).runs
      (exprs_replays hguarded args hscope hcomplete hargs hs.of_append_left)
        fun rs s₁ hs₁ _ ⟨hcount, hnames⟩ hrs => ?_
    exact (call_replays hguarded hscope hs₁ hcount hnames hrs hfind hbound hlength hfit hty hof).imp
      fun _ _ h => ⟨h, fun h => by cases h⟩
  | .block m stmts, scope, scope', s, ty, hscope, hcomplete, ⟨hstmts, hof⟩, hs => by
    rw [expr]
    replace hs := hs.perm (perm_last m.id _)
    refine .bind hs (stmtList_resolves stmts hscope hs.of_append_left.awaits).runs
      (stmtList_replays hguarded stmts hscope hcomplete hstmts hs.of_append_left)
        fun r s₁ hs₁ _ _ hr => ?_
    exact setType_replays hs₁.tracks hr hof fun ty' halike =>
      ⟨⟨ty', rfl, halike⟩, fun h => by cases h⟩
  | .cast m arg type, scope, scope', s, ty, hscope, hcomplete, ⟨⟨src, dst, harg, htype, hty⟩, hof⟩,
      hs => by
    rw [expr]
    replace hs := hs.perm (perm_last_append m.id arg.ids [type.mark.id])
    refine .bind hs (expr_resolves arg hscope hs.of_append_left.awaits).runs
      (expr_replays hguarded arg hscope hcomplete harg hs.of_append_left)
        fun r s₁ hs₁ _ hnames hr => ?_
    refine .bind hs₁ (typeExpr_resolves hscope hs₁.of_append_left.awaits).runs
      (typeExpr_replays hscope hs₁.of_append_left htype) fun r' s₂ hs₂ hext hnames' hr' => ?_
    obtain ⟨⟨src', rfl, halike⟩, -⟩ := hr.mono hext
    obtain ⟨dst', rfl, halike'⟩ := hr'
    exact (cast_replays hguarded hs₂ halike halike' (hnames.mono hext.typeDefs) hnames' hty hof).imp
      fun _ _ h => ⟨h, fun h => by cases h⟩
  | .scope m ds body, scope, scope', s, ty, hscope, hcomplete, ⟨⟨hblock, hbodies, hbody⟩, hof⟩,
      hs => by
    rw [expr]
    replace hs := hs.perm (perm_scope m.id ds body.ids)
    have hlt := hs.of_append_left.lt
    refine .bind hs (declare_resolves hscope hs.of_append_left.awaits).runs
      (declare_replays hguarded hscope hs.of_append_left hblock)
        fun inner s₁ hs₁ _ ⟨hinner, hds, htyped⟩ _ => ?_
    -- The block has been declared without errors, so everything in it has its type.
    have hall := (htyped hs₁.tracks.errors).declaresAll hcomplete.1
    replace hs₁ := hs₁.inner (hinner.trans (Scope.find?_cons_congr hscope _).symm) hds hall hlt
    refine .bind hs₁ (bodies_resolves ds hinner hs₁.of_append_left.awaits).runs
      (bodies_replays hguarded ds hinner hcomplete.1 hbodies hs₁.of_append_left (hall.with_lt hlt))
      fun _ s₂ hs₂ _ _ _ => ?_
    refine .bind hs₂ (expr_resolves body hinner hs₂.of_append_left.awaits).runs
      (expr_replays hguarded body hinner hcomplete.2 hbody hs₂.of_append_left)
        fun r s₃ hs₃ _ _ hr => ?_
    exact setType_replays hs₃.tracks hr.1 hof fun ty' halike =>
      ⟨⟨ty', rfl, halike⟩, fun h => by cases h⟩

theorem exprs_replays (hguarded : t.typeDefs.Guarded) :
    ∀ (es : List Expr) {scope scope' : Scope} {s : Resolving}
    {tys : List Ty}, scope.find? = scope'.find? → Expr.CompleteAll es →
    Expr.HaveTypes t scope' es tys →
    s.Follows base t scope (Expr.idsAll es) →
    Replays base t s (exprs scope es) fun rs s' =>
      List.Forall₂ (fun ty r => ∃ ty', r = some ty' ∧ t.Alike s'.attrs ty ty') tys rs
  | [], scope, scope', s, tys, hscope, _, h, hs => by
    rw [exprs]
    cases h
    exact .pure hs.tracks .nil
  | e :: es, scope, scope', s, tys, hscope, hcomplete, h, hs => by
    rw [exprs]
    obtain ⟨ty, tys, he, hes, rfl⟩ := h
    refine .bind hs (expr_resolves e hscope hs.of_append_left.awaits).runs
      (expr_replays hguarded e hscope hcomplete.1 he hs.of_append_left) fun r s₁ hs₁ _ _ hr => ?_
    refine .bind_last hs₁ (exprs_resolves es hscope hs₁.awaits).runs
      (exprs_replays hguarded es hscope hcomplete.2 hes hs₁) fun rs s₂ hs₂ hext _ hrs => ?_
    exact .pure hs₂.tracks (.cons (hr.mono hext).1 hrs)

theorem stmt_replays (hguarded : t.typeDefs.Guarded) :
    ∀ (st : Stmt) {scope scope' : Scope} {s : Resolving} {ty : Ty},
    scope.find? = scope'.find? → st = .absent ∨ st.Complete → st.HasType t scope' ty →
      s.Follows base t scope st.ids →
    Replays base t s (stmt scope st) fun r s' => ∃ ty', r = some ty' ∧ t.Alike s'.attrs ty ty'
  | .absent, scope, scope', s, ty, _, _, h, hs => by
    rw [stmt]
    cases h
    exact .pure hs.tracks ⟨.void, rfl, .void⟩
  | .eval m e, scope, scope', s, ty, hscope, hcomplete, h, hs => by
    rw [stmt]
    exact (expr_replays hguarded e hscope (hcomplete.resolve_left Stmt.noConfusion) h
      hs.of_cons).imp fun _ _ h => h.1
  | .assign m dst src, scope, scope', s, ty, hscope, hcomplete,
      ⟨⟨dstTy, srcTy, hdst, hsrc, hlocated, hscalar, hfit⟩, hty⟩, hs => by
    rw [stmt]
    replace hs := hs.of_cons
    replace hcomplete := hcomplete.resolve_left Stmt.noConfusion
    refine .bind hs (expr_resolves dst hscope hs.of_append_left.awaits).runs
      (expr_replays hguarded dst hscope hcomplete.1 hdst hs.of_append_left)
        fun r s₁ hs₁ _ hnames hr => ?_
    refine .bind_last hs₁ (expr_resolves src hscope hs₁.awaits).runs
      (expr_replays hguarded src hscope hcomplete.2 hsrc hs₁) fun r' s₂ hs₂ hext hnames' hr' => ?_
    obtain ⟨⟨dstTy', rfl, halike⟩, hplace⟩ := hr.mono hext
    obtain ⟨⟨srcTy', rfl, halike'⟩, -⟩ := hr'
    -- What the check asks of the types is the same for types that are alike.
    have hdefs := hs₂.corresponds hguarded
    have hdstNames := hnames.mono hext.typeDefs dstTy' rfl
    refine .of_judges ((judges_checkAssign m dst (some dstTy') (some srcTy')).bind fun _ => .pure)
      ⟨⟨hplace hlocated, ?_⟩, trivial⟩ hs₂.tracks ⟨.void, rfl, hty ▸ .void⟩
    rintro _ _ ⟨⟩ ⟨⟩
    exact ⟨(hdefs.isScalar_eq halike hdstNames).symm.trans hscalar,
      (hdefs.assignable_eq halike halike' hdstNames (hnames' srcTy' rfl)).symm.trans hfit⟩
  | .cond m test yes no, scope, scope', s, ty, hscope, hcomplete,
      ⟨⟨testTy, yesTy, noTy, htest, hbool, hyes, hno⟩, hty⟩, hs => by
    rw [stmt]
    replace hs := hs.of_cons
    replace hcomplete := hcomplete.resolve_left Stmt.noConfusion
    refine .bind hs (expr_resolves test hscope hs.of_append_left.awaits).runs
      (expr_replays hguarded test hscope hcomplete.1 htest hs.of_append_left)
        fun r s₁ hs₁ _ hnames hr => ?_
    -- Only the condition is judged. The types of the branches are dropped.
    refine .check_bind (judges_checkCondition test r)
      (hr.isBool (hs₁.corresponds hguarded) hnames hbool) ?_
    refine .bind hs₁ (stmt_resolves yes hscope hs₁.of_append_left.awaits).runs
      (stmt_replays hguarded yes hscope (.inr hcomplete.2.1) hyes hs₁.of_append_left)
        fun _ s₂ hs₂ _ _ _ => ?_
    exact .bind_last hs₂ (stmt_resolves no hscope hs₂.awaits).runs
      (stmt_replays hguarded no hscope hcomplete.2.2 hno hs₂) fun _ s₃ hs₃ _ _ _ =>
      .pure hs₃.tracks ⟨.void, rfl, hty ▸ .void⟩
  | .loop m test body, scope, scope', s, ty, hscope, hcomplete,
      ⟨⟨testTy, bodyTy, htest, hbool, hbody⟩, hty⟩, hs => by
    rw [stmt]
    replace hs := hs.of_cons
    replace hcomplete := hcomplete.resolve_left Stmt.noConfusion
    refine .bind hs (expr_resolves test hscope hs.of_append_left.awaits).runs
      (expr_replays hguarded test hscope hcomplete.1 htest hs.of_append_left)
        fun r s₁ hs₁ _ hnames hr => ?_
    refine .check_bind (judges_checkCondition test r)
      (hr.isBool (hs₁.corresponds hguarded) hnames hbool) ?_
    exact .bind_last hs₁ (stmt_resolves body hscope hs₁.awaits).runs
      (stmt_replays hguarded body hscope (.inr hcomplete.2) hbody hs₁) fun _ s₂ hs₂ _ _ _ =>
      .pure hs₂.tracks ⟨.void, rfl, hty ▸ .void⟩

theorem stmtList_replays (hguarded : t.typeDefs.Guarded) :
    ∀ (ss : List Stmt) {scope scope' : Scope} {s : Resolving}
    {ty : Ty}, scope.find? = scope'.find? → Stmt.CompleteAll ss → Stmt.HaveType t scope' ss ty →
    s.Follows base t scope (Stmt.idsAll ss) →
    Replays base t s (stmtList scope ss) fun r s' => ∃ ty', r = some ty' ∧ t.Alike s'.attrs ty ty'
  | [], scope, scope', s, ty, _, _, h, hs => by
    rw [stmtList]
    cases h
    exact .pure hs.tracks ⟨.void, rfl, .void⟩
  | [st], scope, scope', s, ty, hscope, hcomplete, h, hs => by
    rw [Stmt.idsAll, Stmt.idsAll, List.append_nil] at hs
    rw [stmtList]
    exact stmt_replays hguarded st hscope (.inr hcomplete.1) h hs
  | st :: st' :: ss, scope, scope', s, ty, hscope, hcomplete, ⟨⟨stTy, hst⟩, hrest⟩, hs => by
    rw [stmtList]
    · exact .bind hs (stmt_resolves st hscope hs.of_append_left.awaits).runs
        (stmt_replays hguarded st hscope (.inr hcomplete.1) hst hs.of_append_left)
          fun _ s₁ hs₁ _ _ _ =>
        stmtList_replays hguarded (st' :: ss) hscope hcomplete.2 hrest hs₁
    · simp

theorem bodies_replays (hguarded : t.typeDefs.Guarded) :
    ∀ (ds : List Decl) {scope scope' : Scope} {s : Resolving},
    scope.find? = scope'.find? → Decl.CompleteAll ds → Decl.BodiesTyped t scope' ds →
    s.Follows base t scope (ds.flatMap Decl.bodyIds) →
    (∀ d ∈ ds, ∀ id ∈ d.ownIds, (s.attrs.declType[id]?).isSome ∧ id < base) →
    Replays base t s (bodies scope ds) fun _ _ => True
  | [], scope, scope', s, _, _, _, hs, _ => by
    rw [bodies]
    exact .pure hs.tracks trivial
  | .fn m name params type body :: ds, scope, scope', s, hscope, hcomplete, ⟨hbody, hbodies⟩,
      hs, hall => by
    rw [bodies]
    have hrest (d : Decl) (hd : d ∈ ds) := hall d (List.mem_cons_of_mem _ hd)
    cases habsent : body.isAbsent with
    | true =>
      cases body with
      | absent => exact bodies_replays hguarded ds hscope hcomplete.2 hbodies hs hrest
      | _ => cases habsent
    | false =>
      -- The names of the parameters are distinct in the first run, so the second reports none.
      obtain ⟨hdistinct, got, want, hgot, hwant, hfit⟩ := hbody habsent
      have hfind := find?_paramNames params scope
      refine .check_bind (judges_paramNames params) hdistinct ?_
      generalize params.foldl (addName Param.name Param.decl) [] = names at hfind
      have hinner := hfind.trans (Scope.find?_cons_congr hscope _)
      have hparams (p : Param) (hp : p ∈ params) := hall _ List.mem_cons_self p.mark.id
        (List.mem_cons_of_mem _ (List.mem_map.mpr ⟨p, hp, rfl⟩))
      have hpresent : body.Complete := hcomplete.1.resolve_left fun h => by subst h; cases habsent
      refine .bind hs (expr_resolves body hinner (hs.of_append_left.awaits.params hfind)).runs
        (expr_replays hguarded body hinner hpresent hgot (hs.of_append_left.params hfind hparams))
        fun r s₁ hs₁ hext hnames hr => ?_
      refine .check_bind (judges_checkBody m name body r) (fun got' want' hgot' hwant' => ?_) ?_
      -- The declared result and the type of the body are alike to those of the first run, where
      -- they fit.
      · obtain ⟨want₀, hwant₀, halike⟩ := hs₁.tracks.mirrors.declType m.id
          (hall _ List.mem_cons_self m.id
          List.mem_cons_self).2 want' hwant'
        cases hwant.symm.trans hwant₀
        obtain ⟨_, hgot₀, halike'⟩ := hr.1
        cases hgot'.symm.trans hgot₀
        have hdefs := hs₁.corresponds hguarded
        have hwantNames := hs₁.awaits.admits.sound.names want' (.declType hwant')
        rw [← hdefs.isVoid_eq halike hwantNames, ← hdefs.assignable_eq halike halike' hwantNames
          (hnames got' hgot')]
        exact hfit
      · refine bodies_replays hguarded ds hscope hcomplete.2 hbodies hs₁ fun d hd id hid =>
          ⟨?_, (hrest d hd id hid).2⟩
        obtain ⟨ty, hty⟩ := Option.isSome_iff_exists.mp (hrest d hd id hid).1
        exact Option.isSome_of_eq_some (hext.declType id ty hty)
  | .var .. :: ds, scope, scope', s, hscope, hcomplete, hbodies, hs, hall
  | .typ .. :: ds, scope, scope', s, hscope, hcomplete, hbodies, hs, hall
  | .par .. :: ds, scope, scope', s, hscope, hcomplete, hbodies, hs, hall
  | .comp .. :: ds, scope, scope', s, hscope, hcomplete, hbodies, hs, hall => by
    rw [bodies]
    · exact bodies_replays hguarded ds hscope hcomplete.2 hbodies hs fun d hd =>
        hall d (List.mem_cons_of_mem _ hd)
    · simp

end

/-! ## §5 Programs -/

/-- **A typed program is resolved without errors.** -/
theorem program_replays {p : Program} (hp : p.WellNumbered) (hcomplete : Decl.CompleteAll p.decls)
    (hguarded : t.typeDefs.Guarded) (htyped : p.Typed t) :
    ((program p).run { nextId := p.nextId }).2.Tracks p.nextId t := by
  obtain ⟨hpermitted, hblock, hbodies⟩ := htyped
  have hs : Resolving.Follows p.nextId t [] p.ids { nextId := p.nextId } :=
    ⟨awaits_of_wellNumbered hp, ⟨rfl, Nat.le_refl _, .empty⟩, (fun _ _ h => by cases h),
      (fun _ _ h => by cases h),
      hp.lt_nextId⟩
  replace hs := hs.perm (Decl.idsAll_perm p.decls)
  have hlt := hs.of_append_left.lt
  suffices h : Replays p.nextId t { nextId := p.nextId } (program p) fun _ _ => True from h.tracks
  unfold program
  refine .check_bind (Judges.forM p.decls fun d _ _ => judges_checkReserved d) hpermitted ?_
  refine .bind hs (declare_resolves rfl hs.of_append_left.awaits).runs
    (declare_replays hguarded rfl hs.of_append_left hblock)
      fun inner s₁ hs₁ _ ⟨hinner, hds, hdeclared⟩ _ => ?_
  have hall := (hdeclared hs₁.tracks.errors).declaresAll hcomplete
  exact bodies_replays hguarded p.decls hinner hcomplete hbodies (hs₁.inner hinner hds hall hlt)
    (hall.with_lt hlt)

end Resolve

/-- **A typed program is accepted**, and resolution comes to tables with the same entries. -/
theorem Program.exists_mirror_of_typed {p : Program} {t : Attributes} (hp : p.WellNumbered)
    (hcomplete : Decl.CompleteAll p.decls) (hguarded : t.typeDefs.Guarded) (htyped : p.Typed t) :
    ∃ t', p.resolve = .ok t' ∧ t.Mirrors p.nextId t' := by
  obtain ⟨herrors, -, hmirrors⟩ := Resolve.program_replays hp hcomplete hguarded htyped
  refine ⟨_, ?_, hmirrors⟩
  show (if ((Resolve.program p).run { nextId := p.nextId }).2.errors.isEmpty then _ else _) =
    Except.ok _
  rw [herrors]
  rfl

end MmixBackend.Source
