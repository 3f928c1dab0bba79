import MmixBackend.Proofs.Source.BlockTypes
import MmixBackend.Proofs.Source.Mirroring

/-!
# Declaring a block again

A block that is typed, with the types in some tables, is declared without errors. `Resolving.Tracks`
describes the states on the way: there are no errors, and the tables of the state have no entries
but those of the given tables. Each sweep over the declarations keeps this.

## Main statements

- `Resolving.Checks.eq_of_guarded`: definitions without a cycle pass the check.
- `Resolve.declare_tracks`: a typed block is declared without errors.
-/

namespace MmixBackend.Source

namespace Resolving

/-! ## §1 Single steps -/

/-- There are no errors, and all entries are, up to the numbers of records, those of the tables `t`. -/
structure Tracks (base : NodeId) (t : Attributes) (s : Resolving) : Prop where
  errors : s.errors = []
  base_le : base ≤ s.nextId
  mirrors : t.Mirrors base s.attrs

variable {base : NodeId} {t : Attributes} {P : NodeId → Prop} {s s' : Resolving} {scope : Scope}
  {te : TypeExpr} {ty : Ty} {ds : List Decl}

theorem Tracks.reading (h : s.Tracks base t) (hs : s.Sound P) (hnew : s.attrs.isType[te.mark.id]? = none)
    (hty : te.Denotes t scope ty) : ∃ r, readTypeExpr scope.find? s.nextId te = .ok r ∧
      (s.reading te r).Tracks base t ∧ t.Alike (s.reading te r).attrs ty r.type := by
  obtain ⟨r, hread, hmirrors, halike⟩ := h.mirrors.reading hs h.base_le hnew hty
  exact ⟨r, hread, ⟨h.errors, Nat.le_trans h.base_le (readTypeExpr_spec hread).1, hmirrors⟩, halike⟩

theorem Defines.of_typeDefs_eq {d : NodeId} (hd : s.Defines d)
    (hdefs : s'.attrs.typeDefs = s.attrs.typeDefs) :
    s'.Defines d := by
  rw [Defines, hdefs]
  exact hd

/-- Without a cycle among the definitions the check changes nothing. -/
theorem Checks.eq_of_guarded (h : s.Checks ds s') (hguarded : s.attrs.typeDefs.Guarded)
    (hdefined : ∀ d ∈ Decl.typeIds ds, s.Defines d) : s' = s := by
  obtain ⟨es, hes, -, -, hsame, hcycle⟩ := h.errors
  have hnil : es = [] := by
    by_contra hne
    exact hcycle hne hguarded
  have hattrs := h.attrs
  rw [hsame hnil hdefined] at hattrs
  have hnext := h.nextId
  subst hnil
  cases s
  cases s'
  simp_all

end Resolving

namespace Resolve

variable {α : Type} {base : NodeId} {t : Attributes} {P : NodeId → Prop} {s : Resolving} {scope : Scope}
  {ds : List Decl}

/-- Steps for all elements of a list, each with type expressions of its own that have not been read
yet. What all of these steps keep holds behind them. -/
theorem forM_keeps {f : α → Resolve PUnit} {own : α → List NodeId} {T : Resolving → Prop} :
    ∀ (xs : List α)
    {s : Resolving}, s.Opened P (xs.flatMap own) → (xs.flatMap own).Nodup →
    (∀ id ∈ xs.flatMap own, s.attrs.isType[id]? = none) → T s →
    (∀ a ∈ xs, ∀ s, s.Opened P (own a) → (own a).Nodup →
      (∀ id ∈ own a, s.attrs.isType[id]? = none) → T s →
      (s.Touches (own a) ((f a).run s).2 ∧ ((f a).run s).2.Sound P) ∧ T ((f a).run s).2) →
      T ((xs.forM f).run s).2
  | [], _, _, _, _, hT, _ => hT
  | a :: xs, s, hs, hnodup, hnew, hT, hstep => by
    rw [List.flatMap_cons] at hs hnodup hnew
    obtain ⟨hown, hrest, hdisjoint⟩ := List.nodup_append'.mp hnodup
    obtain ⟨hnewA, hnewRest⟩ := List.forall_mem_append.mp hnew
    obtain ⟨⟨htouches, hsound⟩, hT'⟩ := hstep a List.mem_cons_self s
      (hs.mono (List.subset_append_left _ _)) hown
      hnewA hT
    refine forM_keeps xs ((hs.mono (List.subset_append_right _ _)).after htouches hsound) hrest
      (fun id hid => ?_) hT'
      fun b hb => hstep b (List.mem_cons_of_mem _ hb)
    exact (htouches.isType id fun hid' => hdisjoint hid' hid).trans (hnewRest id hid)

/-! ## §2 Sweeps -/

/-- Every declared type gets its name. -/
theorem nameTypes_tracks (hs : s.Tracks base t) (hds : ∀ d ∈ ds, d.HasType t scope) :
    ((nameTypes ds).run s).2.Tracks base t ∧ ((nameTypes ds).run s).2.attrs.isType = s.attrs.isType := by
  rw [nameTypes_eq]
  induction ds generalizing s with
  | nil => exact ⟨hs, rfl⟩
  | cons d ds ih =>
    obtain ⟨hd, hds⟩ := List.forall_mem_cons.mp hds
    have hstep : ((nameDecl d).run s).2.Tracks base t ∧
        ((nameDecl d).run s).2.attrs.isType = s.attrs.isType := by
      cases d with
      | typ m name te => exact ⟨⟨hs.errors, hs.base_le, hs.mirrors.declaring hd.1 .named⟩, rfl⟩
      | _ => exact ⟨hs, rfl⟩
    obtain ⟨htracks, hisType⟩ := ih hstep.1 hds
    exact ⟨htracks, hisType.trans hstep.2⟩

/-- The definitions are read. -/
theorem defineTypes_tracks (hscope : scope.TypesIn P) (hs : s.Opened P (ds.flatMap Decl.typeHeadIds))
    (hnodup : (ds.flatMap Decl.typeHeadIds).Nodup)
    (hnew : ∀ id ∈ ds.flatMap Decl.typeHeadIds, s.attrs.isType[id]? = none) (htracks : s.Tracks base t)
    (hds : ∀ d ∈ ds, d.HasType t scope) : ((defineTypes scope ds).run s).2.Tracks base t := by
  rw [defineTypes_eq]
  refine forM_keeps ds hs hnodup hnew htracks fun d hd s hs _ hnew htracks => ?_
  cases d with
  | typ m name te =>
    obtain ⟨-, ty, hty, hdef⟩ := hds _ hd
    have hte : te.mark.id ∈ (Decl.typ m name te).typeHeadIds := List.mem_cons_of_mem _ List.mem_cons_self
    obtain ⟨r, hread, hafter, halike⟩ := htracks.reading hs.sound (hnew _ hte) hty
    rw [(judges_defineDecl hread).run_eq trivial]
    have hsound := hs.sound.reading hread hscope
    refine ⟨⟨?_, ?_⟩, hafter.errors, hafter.base_le, hafter.mirrors.defining hdef halike⟩
    · exact (Resolving.touches_reading hread hs.sound hte).trans
        (Resolving.touches_defining hsound List.mem_cons_self)
    · exact hsound.defining (r.type.namesIn_mono hscope (readTypeExpr_sound hread).names)
        (Resolving.hasRecords_reading hread)
  | _ => exact ⟨⟨hs.sound.touches_refl, hs.sound⟩, htracks⟩

section

variable (hguarded : t.typeDefs.Guarded) (hscope : scope.TypesIn P)
include hguarded hscope

/-- The type of a declaration is read that is allowed in the tables `t`. -/
theorem declareType_tracks {id : NodeId} {te : TypeExpr} {pos : Pos} {refused : TypeDefs → Ty → Bool}
    {cause : Ty → Cause} (hcause : ∀ ty, ¬(cause ty).IsInfinite)
    (hrefused : ∀ {R : NodeId → NodeId → Prop} {defs defs' : TypeDefs} {ty ty' : Ty},
      TypeDefs.Corresponds R defs defs' → ty.Renumbered R ty' →
        (ty'.NamesIn fun d => (defs'[d]?).isSome) → refused defs ty = refused defs' ty')
        (hs : s.Sound P) (hP : ∀ d, P d → s.Defines d) (hnew : s.attrs.isType[te.mark.id]? = none)
        (htracks : s.Tracks base t) (hty : te.Declares t scope id refused) :
    ((declareType scope id te pos refused cause).run s).2.Tracks base t := by
  obtain ⟨ty, hdenotes, hallowed, hdecl⟩ := hty
  obtain ⟨r, hread, hafter, halike⟩ := htracks.reading hs hnew hdenotes
  have hsound := hs.reading hread hscope
  have hnames : r.type.NamesIn s.Defines :=
    r.type.namesIn_mono (fun d hd => hP d (hscope d hd)) (readTypeExpr_sound hread).names
  have hallowed' : refused s.attrs.typeDefs r.type = false := by
    have hdefs := hafter.mirrors.corresponds hguarded
      (hsound.mono (Q := (s.reading te r).Defines) hP).closed
    exact (hrefused hdefs halike hnames).symm.trans hallowed
  rw [(judges_declareType hcause hread).run_eq hallowed']
  exact ⟨hafter.errors, hafter.base_le, hafter.mirrors.declaring hdecl halike⟩

theorem paramTypes_tracks {ps : List Param} (hs : s.Opened P (Param.idsAll ps))
    (hnodup : (Param.idsAll ps).Nodup) (hP : ∀ d, P d → s.Defines d)
    (hnew : ∀ id ∈ Param.idsAll ps, s.attrs.isType[id]? = none) (htracks : s.Tracks base t)
    (hps : ∀ p ∈ ps, p.HasType t scope) :
    ((paramTypes scope ps).run s).2.Tracks base t := by
  rw [paramTypes_eq]
  refine (forM_keeps (T := fun s => s.Tracks base t ∧ ∀ d, P d → s.Defines d) ps hs hnodup
    hnew ⟨htracks, hP⟩
    fun p hp s hs hnodup hnew ⟨htracks, hP⟩ => ?_).1
  have hcause (ty : Ty) : ¬(Cause.parameterType p.name ty).IsInfinite := id
  obtain ⟨htouches, hsound, -, hdefs, -⟩ := declareType_sweeps hscope hs p.mark.pos (fun defs ty =>
    !ty.isScalar defs)
    hcause
  refine ⟨⟨htouches, hsound⟩, ?_, fun d hd => (hP d hd).of_typeDefs_eq hdefs⟩
  refine declareType_tracks hguarded hscope (fun _ => id) (fun h hab hnames => ?_) hs.sound hP
    (hnew _ (List.mem_cons_of_mem _ List.mem_cons_self)) htracks (hps p hp)
  rw [h.isScalar_eq hab hnames]

/-- The types of the variables and functions are read. -/
theorem signatures_tracks (hs : s.Opened P (ds.flatMap Decl.valueHeadIds))
    (hnodup : (ds.flatMap Decl.valueHeadIds).Nodup) (hP : ∀ d, P d → s.Defines d)
    (hnew : ∀ id ∈ ds.flatMap Decl.valueHeadIds, s.attrs.isType[id]? = none) (htracks : s.Tracks base t)
    (hds : ∀ d ∈ ds, d.HasType t scope) : ((signatures scope ds).run s).2.Tracks base t := by
  rw [signatures_eq]
  refine (forM_keeps (T := fun s => s.Tracks base t ∧ ∀ d, P d → s.Defines d) ds hs hnodup
    hnew ⟨htracks, hP⟩
    fun d hd s hs hnodup hnew ⟨htracks, hP⟩ => ?_).1
  obtain ⟨htouches, hsound, -, hdefs, -⟩ := signature_sweeps hscope hs hnodup
  refine ⟨⟨htouches, hsound⟩, ?_, fun d hd => (hP d hd).of_typeDefs_eq hdefs⟩
  have htyped := hds d hd
  cases d with
  | var m name te =>
    exact declareType_tracks hguarded hscope (fun _ => id) (fun h hab hnames =>
      h.isVoid_eq hab hnames) hs.sound hP
      (hnew _ (List.mem_cons_of_mem _ List.mem_cons_self)) htracks htyped
  | fn m name params te body =>
    have hids : (Decl.fn m name params te body).valueHeadIds = m.id ::
      (Param.idsAll params ++ [te.mark.id]) := rfl
    rw [hids] at hs hnodup hnew
    obtain ⟨hparams, -, hdisjoint⟩ := List.nodup_append'.mp hnodup.of_cons
    have hsub : Param.idsAll params ⊆ m.id :: (Param.idsAll params ++ [te.mark.id]) :=
      List.Subset.trans (List.subset_append_left _ _) (List.subset_cons_self _ _)
    have hte : te.mark.id ∈ m.id :: (Param.idsAll params ++ [te.mark.id]) :=
      List.mem_cons_of_mem _ (List.mem_append_right _ List.mem_cons_self)
    -- The parameters are declared before the result, and their nodes are others than those of the result.
    have hmid := paramTypes_tracks hguarded hscope (hs.mono hsub) hparams hP (fun id hid =>
      hnew id (hsub hid)) htracks
      htyped.1
    obtain ⟨htouches, hsound, -, hdefs, -⟩ := paramTypes_sweeps hscope (hs.mono hsub) hparams
    have hcause (ty : Ty) : ¬(Cause.resultType name ty).IsInfinite := id
    rw [signature, run_bind_state]
    refine declareType_tracks hguarded hscope hcause (fun h hab hnames => ?_) hsound
      (fun d hd => (hP d hd).of_typeDefs_eq hdefs) ?_ hmid htyped.2
    · rw [h.isScalar_eq hab hnames, h.isVoid_eq hab hnames]
    · exact (htouches.isType _ fun hmem => hdisjoint hmem List.mem_cons_self).trans (hnew _ hte)
  | _ => exact htracks

end

/-! ## §3 All sweeps together -/

/-- **A typed block is declared without errors.** -/
theorem declare_tracks {outer : Scope} (hguarded : t.typeDefs.Guarded)
    (hs : s.Admits outer (ds.flatMap Decl.headIds)) (hnodup : (ds.flatMap Decl.headIds).Nodup)
    (htracks : s.Tracks base t) (hds : Block.Typed t outer ds) :
    ((declare outer ds).run s).2.Tracks base t := by
  have hperm := Decl.headIds_perm ds
  obtain ⟨hnodupT, hnodupV, hdisjoint⟩ := List.nodup_append'.mp (hperm.nodup_iff.mp hnodup)
  have hsubT : ds.flatMap Decl.typeHeadIds ⊆ ds.flatMap Decl.headIds :=
    List.Subset.trans (List.subset_append_left _ _) hperm.symm.subset
  have hsubV : ds.flatMap Decl.valueHeadIds ⊆ ds.flatMap Decl.headIds :=
    List.Subset.trans (List.subset_append_right _ _) hperm.symm.subset
  -- The names of a typed block are distinct, so naming them reports nothing.
  have hfind := find?_blockNames ds outer
  have hnames := (judges_blockNames ds (s := s)).run_eq hds.names
  generalize ds.foldl (addName Decl.name id) [] = names at hfind hnames
  have htyped : ∀ d ∈ ds, d.HasType t (names :: outer) := fun d hd => (hds.types d hd).congr hfind.symm
  have hscope : Scope.TypesIn (fun d => s.Defines d ∨ d ∈ Decl.typeIds ds) (names :: outer) := by
    rw [Scope.TypesIn, hfind]
    refine typesIn_block ?_
    rintro _ ⟨ident, m, name, te, hfind, rfl⟩
    exact hs.scope ident m name te hfind
  have hrun : ((declare outer ds).run s).2 = ((signatures (names :: outer) ds).run ((checkTypes ds).run
      ((defineTypes (names :: outer) ds).run ((nameTypes ds).run s).2).2).2).2 := by
    rw [declare, run_bind_state, hnames]
    rfl
  rw [hrun]
  have hs₀ : s.Opened (fun d => s.Defines d ∨ d ∈ Decl.typeIds ds) (ds.flatMap Decl.headIds) :=
    ⟨hs.sound.mono fun _ => .inl, hs.apart, hs.below⟩
  -- One sweep after the other; behind each one the tables still follow `t`.
  obtain ⟨htouches₁, hsound₁, -, hdefs₁, -⟩ := nameTypes_sweeps (hs₀.mono hsubT) hnodupT fun _ => .inr
  obtain ⟨htracks₁, hisType₁⟩ := nameTypes_tracks htracks htyped
  generalize ((nameTypes ds).run s).2 = s₁ at htouches₁ hsound₁ hdefs₁ htracks₁ hisType₁
  have hs₁ := hs₀.after htouches₁ hsound₁
  have hnew₁ (id : NodeId) (hid : id ∈ ds.flatMap Decl.headIds) : s₁.attrs.isType[id]? = none :=
    hisType₁ ▸ hs.isType id hid
  have hfresh₁ (id : NodeId) (hid : id ∈ Decl.typeIds ds) : s₁.attrs.typeDefs[id]? = none :=
    hdefs₁ ▸ hs.typeDefs id ((Decl.typeIds_sublist ds).subset hid)
  obtain ⟨htouches₂, hsound₂, -, ⟨-, -, hother⟩, hdefined⟩ :=
    defineTypes_sweeps hscope (hs₁.mono hsubT) hnodupT hfresh₁
  have htracks₂ := defineTypes_tracks hscope (hs₁.mono hsubT) hnodupT (fun id hid =>
    hnew₁ id (hsubT hid)) htracks₁
    htyped
  generalize ((defineTypes (names :: outer) ds).run s₁).2 = s₂
    at htouches₂ hsound₂ hother hdefined htracks₂
  have hown (d : NodeId) (hd : d ∈ Decl.typeIds ds) : s₂.Defines d := by
    obtain ⟨m, name, te, hmem, rfl⟩ := Decl.exists_of_mem_typeIds hd
    obtain ⟨ty, -, hty⟩ := (hdefined _ hmem m name te rfl).2.2 htracks₂.errors
    exact Option.isSome_of_eq_some hty
  -- As in the tables `t`, the definitions have no cycle.
  rw [(checkTypes_checks ds).eq_of_guarded (htracks₂.mirrors.guarded hguarded) hown]
  refine signatures_tracks hguarded hscope ((hs₁.after htouches₂ hsound₂).mono hsubV) hnodupV
    (fun d hd => ?_)
    (fun id hid => ?_) htracks₂ htyped
  -- A name outside the block was defined before, one of the block is by now.
  · rcases hd with hd | hd
    · by_cases hmem : d ∈ Decl.typeIds ds
      · exact hown d hmem
      · rw [Resolving.Defines, hother d hmem, hdefs₁]
        exact hd
    · exact hown d hd
  · exact (htouches₂.isType id fun hmem => hdisjoint hmem hid).trans (hnew₁ id (hsubV hid))

end Resolve

end MmixBackend.Source
