import MmixBackend.Proofs.Source.Typing

/-!
# The types that a block declares

A block is resolved in sweeps over its declarations. First every declared type gets its name, then
the definitions are read, then those that are erroneous or infinite are replaced by `void`, and then
the types of variables, parameters and functions are read. In between there are names without a
definition, and cycles of definitions.

Only the third sweep reports infinite types. It replaces definitions while it goes, so a later name
on a cycle may be found finite. Still it reports something exactly if there is a cycle: replacing a
definition by `void` removes needs and adds none, and as long as nothing has been reported no need
has been removed.

## Main statements

- `checkTypes_checks`: what the check of the definitions does.
- `Scope.Adds.guarded_iff`: the definitions that have been read have a cycle iff the block has one
  as it is written.
- `Resolve.declare_runs`: all sweeps together, for every block, and when an infinite type is
  reported.
-/

namespace MmixBackend.Source

/-! ## §1 Sweeps -/

namespace Resolving

/-- A state between two sweeps of a block whose declarations have the numbers `ids`. The names in
all types are among `P`. -/
structure Opened (P : NodeId → Prop) (ids : List NodeId) (s : Resolving) : Prop where
  sound : s.Sound P
  apart : s.Apart ids
  below : ∀ id ∈ ids, id < s.nextId

variable {P : NodeId → Prop} {ids : List NodeId} {s s' : Resolving}

theorem Opened.mono {ids' : List NodeId} (h : s.Opened P ids) (hsub : ids' ⊆ ids) :
    s.Opened P ids' where
  sound := h.sound
  apart id info hinfo d hd hmem := h.apart id info hinfo d hd (hsub hmem)
  below id hid := h.below id (hsub hid)

theorem Opened.after {ids' : List NodeId} (h : s.Opened P ids) (hstep : s.Touches ids' s')
    (hsound : s'.Sound P) :
    s'.Opened P ids where
  sound := hsound
  apart id info hinfo d hd hmem := by
    by_cases hlt : id < s.nextId
    · exact h.apart id info ((hstep.records id hlt).symm.trans hinfo) d hd hmem
    · have hle := hstep.comps id info (Nat.le_of_not_lt hlt) hinfo d hd
      exact absurd (h.below d.id hmem) (Nat.not_lt.mpr hle)
  below id hid := Nat.lt_of_lt_of_le (h.below id hid) hstep.nextId

/-- No infinite types are reported on the way. -/
def Quiet (s s' : Resolving) : Prop := ∃ es, s'.errors = es ++ s.errors ∧
    ∀ e ∈ es, ¬e.cause.IsInfinite

theorem Quiet.trans {s'' : Resolving} (h : s.Quiet s') (h' : s'.Quiet s'') : s.Quiet s'' := by
  obtain ⟨es, hes, hquiet⟩ := h
  obtain ⟨es', hes', hquiet'⟩ := h'
  exact ⟨es' ++ es, by rw [hes', hes, List.append_assoc], List.forall_mem_append.mpr ⟨hquiet', hquiet⟩⟩

theorem Quiet.errors_eq_nil (h : s.Quiet s') (hs' : s'.errors = []) : s.errors = [] := by
  obtain ⟨es, hes, -⟩ := h
  rw [hs'] at hes
  exact (List.append_eq_nil_iff.mp hes.symm).2

end Resolving

namespace Resolve

variable {α β : Type} {P : NodeId → Prop} {ids : List NodeId} {s : Resolving} {x : Resolve α}
  {Q R : α → Resolving → Prop}

/-- The step `x` is a part of a sweep: it records types with names among `P`, reports no infinite
types, and its result and the state behind it satisfy `Q`. -/
structure Sweeps (P : NodeId → Prop) (ids : List NodeId) (s : Resolving) (x : Resolve α)
    (Q : α → Resolving → Prop) : Prop where
  touches : s.Touches ids (x.run s).2
  sound : (x.run s).2.Sound P
  quiet : s.Quiet (x.run s).2
  result : Q (x.run s).1 (x.run s).2

namespace Sweeps

theorem pure {a : α} (hs : s.Sound P) (h : Q a s) : Sweeps P ids s (pure a) Q :=
  ⟨hs.touches_refl, hs, ⟨[], rfl, List.forall_mem_nil _⟩, h⟩

theorem imp (h : Sweeps P ids s x Q) (hQ : ∀ a s', Q a s' → R a s') : Sweeps P ids s x R :=
  ⟨h.1, h.2, h.3, hQ _ _ h.4⟩

/-- A step with a known outcome. -/
theorem of_judges {a : α} {s' : Resolving} {ok : Prop} (h : Judges s x a s' ok)
    (hstep : s.Touches ids s') (hs : s'.Sound P) (herrors : s'.errors = s.errors)
    (hQ : ∀ es, (es = [] → ok) → Q a (s'.adding es)) : Sweeps P ids s x Q := by
  obtain ⟨es, hrun, hok, hquiet⟩ := h
  refine ⟨?_, ?_, ?_, ?_⟩ <;> rw [hrun]
  · exact hstep.trans (.of_attrs_eq rfl rfl fun id info h => (hs.records id info h).id_lt)
  · exact hs.adding es
  · exact ⟨es, by rw [Resolving.errors_adding, herrors], hquiet⟩
  · exact hQ es hok.mp

/-- Steps for all elements of a list, each with nodes of its own. What holds of an element behind
its step holds behind all steps, if steps for other nodes keep it; the same is so of what holds
before. Every step satisfies `K`. -/
theorem forM_each {f : α → Resolve PUnit} {own : α → List NodeId} {G F : α → Resolving → Prop}
    {K : Resolving → Resolving → Prop} (hrefl : ∀ s, K s s)
    (htrans : ∀ {s s' s''}, K s s' → K s' s'' → K s s'')
    (hG : ∀ a ids s s', G a s → s.Touches ids s' → (own a).Disjoint ids → G a s')
    (hF : ∀ a ids s s', F a s → s.Sound P → s.Touches ids s' → s.Quiet s' → K s s' →
      (own a).Disjoint ids → F a s') :
    ∀ (xs : List α) {s : Resolving}, s.Opened P (xs.flatMap own) → (xs.flatMap own).Nodup →
      (∀ a ∈ xs, G a s) →
    (∀ a ∈ xs, ∀ s, s.Opened P (own a) → (own a).Nodup → G a s →
      Sweeps P (own a) s (f a) fun _ s' => K s s' ∧ F a s') →
    Sweeps P (xs.flatMap own) s (xs.forM f) fun _ s' => K s s' ∧ ∀ a ∈ xs, F a s'
  | [], s, hs, _, _, _ => .pure hs.sound ⟨hrefl s, List.forall_mem_nil _⟩
  | a :: xs, s, hs, hnodup, hpre, hstep => by
    rw [List.flatMap_cons] at hs hnodup ⊢
    obtain ⟨hown, hrest, hdisjoint⟩ := List.nodup_append'.mp hnodup
    obtain ⟨htouches, hsound, hquiet, hK, hFa⟩ := hstep a List.mem_cons_self s
      (hs.mono (List.subset_append_left _ _)) hown (hpre a List.mem_cons_self)
    have hpre' (b : α) (hb : b ∈ xs) : G b ((f a).run s).2 := by
      refine hG b _ s _ (hpre b (List.mem_cons_of_mem _ hb)) htouches fun id hid hid' => ?_
      exact hdisjoint hid' (List.mem_flatMap.mpr ⟨b, hb, hid⟩)
    obtain ⟨htouches', hsound', hquiet', hK', hFxs⟩ := forM_each hrefl htrans hG hF xs
      ((hs.mono (List.subset_append_right _ _)).after htouches hsound) hrest hpre'
      fun b hb => hstep b (List.mem_cons_of_mem _ hb)
    refine ⟨(htouches.mono (List.subset_append_left _ _)).trans
      (htouches'.mono (List.subset_append_right _ _)), hsound',
      hquiet.trans hquiet', htrans hK hK', List.forall_mem_cons.mpr ⟨?_, hFxs⟩⟩
    exact hF a _ _ _ hFa hsound htouches' hquiet' hK' hdisjoint

end Sweeps

end Resolve

/-- What the text of a type expression means in a scope, up to the numbers of records. -/
def Scope.Reads (scope : Scope) (te : TypeExpr) (ty : Ty) : Prop :=
  ∃ n r, readTypeExpr scope.find? n te = .ok r ∧ r.type = ty

theorem Scope.reads_of_eq {scope : Scope} {te : TypeExpr} {ty : Ty}
    (h : (readTypeExpr scope.find? 0 te).toOption.map TypeResult.type = some ty) :
    scope.Reads te ty := by
  cases hread : readTypeExpr scope.find? 0 te with
  | error e =>
    rw [hread] at h
    cases h
  | ok r =>
    rw [hread] at h
    exact ⟨0, r, hread, Option.some.inj h⟩

/-- Two meanings of a text contain the same names. -/
theorem Scope.Reads.exposes_iff {scope : Scope} {te : TypeExpr} {ty ty' : Ty}
    (h : scope.Reads te ty) (h' : scope.Reads te ty') {d : NodeId} : ty.Exposes d ↔
    ty'.Exposes d := by
  obtain ⟨n, r, hread, rfl⟩ := h
  obtain ⟨n', r', hread', rfl⟩ := h'
  obtain ⟨r₀, hbase, rfl⟩ := exists_base_of_readTypeExpr hread
  obtain ⟨r₀', hbase', rfl⟩ := exists_base_of_readTypeExpr hread'
  rw [hbase] at hbase'
  cases hbase'
  exact (Ty.exposes_shift n r₀.type).trans (Ty.exposes_shift n' r₀.type).symm

/-- A text that cannot be read at one counter has no meaning. -/
theorem Scope.not_reads_of_error {scope : Scope} {te : TypeExpr} {n : NodeId} {e : TypeFailure}
    (h : readTypeExpr scope.find? n te = .error e) (ty : Ty) : ¬scope.Reads te ty := by
  rintro ⟨n', r, hread, rfl⟩
  obtain ⟨r₀, hbase, rfl⟩ := exists_base_of_readTypeExpr hread
  rw [readTypeExpr_of_base hbase] at h
  cases h

/-- All declared types in the scope are among `P`. -/
def Scope.TypesIn (P : NodeId → Prop) (scope : Scope) : Prop := ∀ d, IsTypeName scope.find? d → P d

/-- The type expression has been read. -/
theorem TypeExpr.denotes_reading {s : Resolving} {scope : Scope} {te : TypeExpr} {r : TypeResult}
    (h : readTypeExpr scope.find? s.nextId te = .ok r) :
    te.Denotes (s.reading te r).attrs scope r.type := by
  refine ⟨Resolving.isType_reading s, _, r, h, rfl, fun d hd => ?_,
    fun id info => Resolving.records_keeping_of_mem (.ok h)⟩
  show (r.lastNamed.elim s.attrs.declaredAt (s.attrs.declaredAt.insert te.mark.id))[te.mark.id]? = _
  rw [hd]
  exact Std.TreeMap.getElem?_insert_self

theorem TypeExpr.Declares.touched {P : NodeId → Prop} {s s' : Resolving} {scope : Scope}
    {te : TypeExpr} {id : NodeId} {refused : TypeDefs → Ty → Bool} {ids : List NodeId}
    (h : te.Declares s.attrs scope id refused) (hs : s.Sound P) (hstep : s.Touches ids s')
    (hdefs : s'.attrs.typeDefs = s.attrs.typeDefs) (hte : te.mark.id ∉ ids) (hid : id ∉ ids) :
    te.Declares s'.attrs scope id refused := by
  obtain ⟨ty, hdenotes, hallowed, hty⟩ := h
  exact ⟨ty, hdenotes.touched hs hstep hte, hdefs ▸ hallowed,
    (hstep.declType id hid (hs.declType id ty hty)).trans hty⟩

namespace Resolve

variable {P : NodeId → Prop} {ids : List NodeId} {s : Resolving} {scope : Scope} {ds : List Decl}

/-! ## §2 Names and definitions -/

/-- The declaration, if it is a type, has its name for its type. -/
def Named (d : Decl) (s : Resolving) : Prop :=
  ∀ m name te, d = .typ m name te → s.attrs.declType[m.id]? = some (.named m.id name)

/-- Behind the first sweep all declared types have names. -/
theorem nameTypes_sweeps (hs : s.Opened P (ds.flatMap Decl.typeHeadIds))
    (hnodup : (ds.flatMap Decl.typeHeadIds).Nodup) (hP : ∀ d ∈ Decl.typeIds ds, P d) :
    Sweeps P (ds.flatMap Decl.typeHeadIds) s (nameTypes ds) fun _ s' =>
      s'.attrs.typeDefs = s.attrs.typeDefs ∧ ∀ d ∈ ds, Named d s' := by
  rw [nameTypes_eq]
  refine .forM_each (G := fun _ _ => True) (K := fun s s' => s'.attrs.typeDefs = s.attrs.typeDefs)
    (fun _ => rfl)
    (fun h h' => h'.trans h) (fun _ _ _ _ _ _ _ => trivial) ?_ ds hs hnodup (fun _ _ => trivial)
      fun d hd s hs _ _ => ?_
  · rintro _ ids s s' hnamed hs hstep - - hdisjoint m name te rfl
    have hold := hnamed m name te rfl
    exact (hstep.declType m.id (hdisjoint List.mem_cons_self) (hs.declType m.id _ hold)).trans hold
  · cases d with
    | typ m name te =>
      have hrun : Judges s (nameDecl (.typ m name te)) () (s.declaring m.id (.named m.id name))
        True := .of_run rfl
      have hmem : m.id ∈ (Decl.typ m name te).typeHeadIds := List.mem_cons_self
      refine .of_judges hrun (Resolving.touches_declaring hs.sound hmem) ?_ rfl fun _ _ => ⟨rfl, ?_⟩
      · exact hs.sound.declaring (hs.below m.id hmem) hmem hs.apart (hP m.id (Decl.mem_typeIds hd))
          (List.forall_mem_nil _)
      · rintro m' name' te' ⟨⟩
        exact Std.TreeMap.getElem?_insert_self
    | _ => exact .pure hs.sound ⟨rfl, fun _ _ _ h => by cases h⟩

/-- The definition of the declaration, if it is a type, is what its text means. It has one without
errors. -/
def Defined (scope : Scope) (d : Decl) (s : Resolving) : Prop :=
  ∀ m name te, d = .typ m name te → (∀ ty, s.attrs.typeDefs[m.id]? = some ty → scope.Reads te ty) ∧
    (∀ ty, scope.Reads te ty → s.Defines m.id) ∧
      (s.errors = [] → ∃ ty, te.Denotes s.attrs scope ty ∧ s.attrs.typeDefs[m.id]? = some ty)

/-- Behind the second sweep the definitions are what the texts mean. -/
theorem defineTypes_sweeps (hscope : scope.TypesIn P)
    (hs : s.Opened P (ds.flatMap Decl.typeHeadIds)) (hnodup : (ds.flatMap Decl.typeHeadIds).Nodup)
    (hfresh : ∀ id ∈ Decl.typeIds ds, s.attrs.typeDefs[id]? = none) :
    Sweeps P (ds.flatMap Decl.typeHeadIds) s (defineTypes scope ds) fun _ s' =>
      (s.nextId ≤ s'.nextId ∧ (∀ id < s.nextId, s'.attrs.declType[id]? = s.attrs.declType[id]?) ∧
        ∀ id ∉ Decl.typeIds ds, s'.attrs.typeDefs[id]? = s.attrs.typeDefs[id]?) ∧
            ∀ d ∈ ds, Defined scope d s' := by
  rw [defineTypes_eq]
  -- Ahead of its turn a name has no definition; behind it the definition is what its text means.
  refine .forM_each (G := fun d s => ∀ m name te, d = .typ m name te →
    s.attrs.typeDefs[m.id]? = none)
    (K := fun s s' => s.nextId ≤ s'.nextId ∧
      (∀ id < s.nextId, s'.attrs.declType[id]? = s.attrs.declType[id]?) ∧
      ∀ id ∉ Decl.typeIds ds, s'.attrs.typeDefs[id]? = s.attrs.typeDefs[id]?)
    (fun s => ⟨Nat.le_refl _, fun _ _ => rfl, fun _ _ => rfl⟩) ?_ ?_ ?_ ds hs hnodup ?_
      fun d hd s hs _ hfresh => ?_
  · exact fun h h' => ⟨Nat.le_trans h.1 h'.1,
      fun id hid => (h'.2.1 id (Nat.lt_of_lt_of_le hid h.1)).trans (h.2.1 id hid),
      fun id hid => (h'.2.2 id hid).trans (h.2.2 id hid)⟩
  · rintro _ ids s s' hfresh hstep hdisjoint m name te rfl
    exact (hstep.typeDefs m.id (hdisjoint List.mem_cons_self)).trans (hfresh m name te rfl)
  -- Later steps write at other numbers, and errors are never taken back.
  · rintro _ ids s s' hdefined hs hstep hquiet - hdisjoint m name te rfl
    obtain ⟨hreads, hdefines, hdenotes⟩ := hdefined m name te rfl
    have hdefs := hstep.typeDefs m.id (hdisjoint List.mem_cons_self)
    rw [Resolving.Defines, hdefs]
    refine ⟨hreads, hdefines, fun herrors => ?_⟩
    obtain ⟨ty, hty, hdef⟩ := hdenotes (hquiet.errors_eq_nil herrors)
    exact ⟨ty, hty.touched hs hstep (hdisjoint (List.mem_cons_of_mem _ List.mem_cons_self)), hdef⟩
  · rintro d hd m name te rfl
    exact hfresh m.id (Decl.mem_typeIds hd)
  · cases d with
    | typ m name te =>
      have hm : m.id ∈ (Decl.typ m name te).typeHeadIds := List.mem_cons_self
      have hte : te.mark.id ∈ (Decl.typ m name te).typeHeadIds :=
        List.mem_cons_of_mem _ List.mem_cons_self
      -- A type that cannot be read leaves its name without a definition, and reports an error.
      cases hread : readTypeExpr scope.find? s.nextId te with
      | error e =>
        have htouches := Resolving.touches_keeping (.error hread) hs.sound hte
        refine .of_judges (judges_defineDecl_error hread) htouches
          (hs.sound.keeping (.error hread) hscope) rfl
          fun es hes => ⟨⟨htouches.nextId, fun id hid => Resolving.declType_keeping_of_lt
            (.error hread) hid,
            fun _ _ => rfl⟩, ?_⟩
        rintro m' name' te' ⟨⟩
        refine ⟨fun ty hty => ?_, fun ty hty => (Scope.not_reads_of_error hread ty hty).elim,
          fun herrors => ?_⟩
        · rw [Resolving.attrs_adding, show (s.keeping te e.toTypeParts).attrs.typeDefs =
            s.attrs.typeDefs from rfl,
            hfresh m name te rfl] at hty
          cases hty
        -- The definition is promised only if no error has been reported.
        · exact (hes (List.append_eq_nil_iff.mp herrors).1).elim
      | ok r =>
        have htouches := Resolving.touches_reading hread hs.sound hte
        have hsound := hs.sound.reading hread hscope
        have hdef : ((s.reading te r).attrs.typeDefs.insert m.id r.type)[m.id]? = some r.type :=
          Std.TreeMap.getElem?_insert_self
        refine .of_judges (judges_defineDecl hread)
          (htouches.trans (Resolving.touches_defining hsound hm))
          (hsound.defining (r.type.namesIn_mono hscope (readTypeExpr_sound hread).names)
            (Resolving.hasRecords_reading hread)) rfl fun es _ =>
          ⟨⟨htouches.nextId, fun id hid => Resolving.declType_keeping_of_lt (.ok hread) hid,
            fun id hid => Resolving.getElem?_insert_of_not_mem (Decl.mem_typeIds hd) hid⟩, ?_⟩
        rintro m' name' te' ⟨⟩
        refine ⟨fun ty hty => ?_, fun _ _ => Option.isSome_of_eq_some hdef, fun _ =>
          ⟨r.type, ?_, hdef⟩⟩
        · cases hdef.symm.trans hty
          exact ⟨_, r, hread, rfl⟩
        · obtain ⟨hty, hreads⟩ := TypeExpr.denotes_reading hread
          exact ⟨hty, hreads⟩
    | _ =>
      exact .pure hs.sound ⟨⟨Nat.le_refl _, fun _ _ => rfl, fun _ _ => rfl⟩,
        fun _ _ _ h => by cases h⟩

/-- The check of the definition of one declared type of the block `all`. -/
def checkType (all : List Decl) : Decl → Resolve PUnit
  | .typ m name _ => do
    let defs ← defs
    let void := update fun t => { t with typeDefs := t.typeDefs.insert m.id .void }
    if !defs.contains m.id then void
    else if !defs.isFinite m.id then do
      report (typePos all name) (.infiniteType name)
      void
  | _ => pure ()

theorem checkTypes_eq (ds : List Decl) : checkTypes ds = ds.forM (checkType ds) := by
  unfold checkTypes
  congr 1

end Resolve

/-! ## §3 The check of the definitions -/

/-- The cause tells that one of the types declared among `ds` is infinite. -/
def Cause.Blames (ds : List Decl) (cause : Cause) : Prop :=
  ∃ m name te, .typ m name te ∈ ds ∧ cause = .infiniteType name

theorem Cause.Blames.mono {ds ds' : List Decl} {cause : Cause} (h : cause.Blames ds)
    (hsub : ds ⊆ ds') :
    cause.Blames ds' := by
  obtain ⟨m, name, te, hmem, hcause⟩ := h
  exact ⟨m, name, te, hsub hmem, hcause⟩

theorem Cause.Blames.isInfinite {ds : List Decl} {cause : Cause} (h : cause.Blames ds) :
    cause.IsInfinite := by
  obtain ⟨m, name, te, -, rfl⟩ := h
  trivial

namespace Resolving

/-- What checking the definitions of the declared types among `ds` does: some of them become `void`.
Errors tell that one of these types is infinite. If there are none, then no need of a name has gone;
if there are some, then a name has needed itself. -/
structure Checks (ds : List Decl) (s s' : Resolving) : Prop where
  attrs : s'.attrs = { s.attrs with typeDefs := s'.attrs.typeDefs }
  nextId : s'.nextId = s.nextId
  other : ∀ id ∉ Decl.typeIds ds, s'.attrs.typeDefs[id]? = s.attrs.typeDefs[id]?
  void : ∀ (d : NodeId) t, s'.attrs.typeDefs[d]? = some t → s.attrs.typeDefs[d]? = some t ∨
    t = .void
  defines : ∀ d, s.Defines d → s'.Defines d
  founded : ∀ d ∈ Decl.typeIds ds, s'.Defines d ∧ s'.attrs.typeDefs.Founded d
  errors : ∃ es, s'.errors = es ++ s.errors ∧ (∀ e ∈ es, e.cause.Blames ds) ∧
    (es = [] → ∀ d d', s.attrs.typeDefs.Needs d d' → s'.attrs.typeDefs.Needs d d') ∧
    (es = [] → (∀ d ∈ Decl.typeIds ds, s.Defines d) → s'.attrs.typeDefs = s.attrs.typeDefs) ∧
    (es ≠ [] → ¬s.attrs.typeDefs.Guarded)

namespace Checks

variable {ds ds' : List Decl} {s s' s'' : Resolving}

theorem needs (h : s.Checks ds s') {d d' : NodeId} (hneeds : s'.attrs.typeDefs.Needs d d') :
    s.attrs.typeDefs.Needs d d' := by
  obtain ⟨t, ht, hd'⟩ := hneeds
  rcases h.void d t ht with ht | rfl
  · exact ⟨t, ht, hd'⟩
  · exact hd'.elim

/-- A name from which all chains of needs end stays one. -/
theorem founded_of_founded (h : s.Checks ds s') {d : NodeId} (hd : s.attrs.typeDefs.Founded d) :
    s'.attrs.typeDefs.Founded d := by
  induction hd with
  | intro d _ ih => exact ⟨d, fun d' hneeds => ih d' (h.needs hneeds)⟩

theorem guarded_of_guarded (h : s.Checks ds s') (hs : s.attrs.typeDefs.Guarded) :
    s'.attrs.typeDefs.Guarded :=
  TypeDefs.guarded_iff_founded.mpr fun d => h.founded_of_founded (hs.founded d)

theorem refl (s : Resolving) : s.Checks [] s where
  attrs := rfl
  nextId := rfl
  other _ _ := rfl
  void _ _ h := .inl h
  defines _ h := h
  founded _ h := (List.not_mem_nil h).elim
  errors := ⟨[], rfl, List.forall_mem_nil _, fun _ _ _ h => h, fun _ _ => rfl, fun h =>
    (h rfl).elim⟩

theorem trans (h : s.Checks ds s') (h' : s'.Checks ds' s'') : s.Checks (ds ++ ds') s'' where
  attrs := by
    rw [h'.attrs, h.attrs]
  nextId := h'.nextId.trans h.nextId
  other id hid :=
    (h'.other id fun hmem => hid (Decl.typeIds_append ds ds' ▸ List.mem_append_right _ hmem)).trans
      (h.other id fun hmem => hid (Decl.typeIds_append ds ds' ▸ List.mem_append_left _ hmem))
  void d t ht := by
    rcases h'.void d t ht with ht | rfl
    · exact h.void d t ht
    · exact .inr rfl
  defines d hd := h'.defines d (h.defines d hd)
  founded d hd := by
    rcases List.mem_append.mp (Decl.typeIds_append ds ds' ▸ hd) with hd | hd
    · exact ⟨h'.defines d (h.founded d hd).1, h'.founded_of_founded (h.founded d hd).2⟩
    · exact h'.founded d hd
  errors := by
    obtain ⟨es, hes, hblames, hkept, hsame, hcycle⟩ := h.errors
    obtain ⟨es', hes', hblames', hkept', hsame', hcycle'⟩ := h'.errors
    refine ⟨es' ++ es, by rw [hes', hes, List.append_assoc], List.forall_mem_append.mpr ⟨?_, ?_⟩,
      fun hnil d d' hneeds => ?_, fun hnil hdefines => ?_, fun hne hguarded => ?_⟩
    · exact fun e he => (hblames' e he).mono (List.subset_append_right _ _)
    · exact fun e he => (hblames e he).mono (List.subset_append_left _ _)
    · obtain ⟨hnil', hnil⟩ := List.append_eq_nil_iff.mp hnil
      exact hkept' hnil' d d' (hkept hnil d d' hneeds)
    · obtain ⟨hnil', hnil⟩ := List.append_eq_nil_iff.mp hnil
      rw [Decl.typeIds_append, List.forall_mem_append] at hdefines
      exact (hsame' hnil' fun d hd => h.defines d (hdefines.2 d hd)).trans (hsame hnil hdefines.1)
    -- Whichever check reports, its type needed itself before the first of them.
    · by_cases hnil : es = []
      · subst hnil
        exact hcycle' (by simpa using hne) (h.guarded_of_guarded hguarded)
      · exact hcycle hnil hguarded

/-- A definition becomes `void`. Either there has been none, or it is reported. -/
theorem defining_void {m : Mark} {name : String} {te : TypeExpr} {es : List Diagnostic}
    (hblames : ∀ e ∈ es, e.cause = .infiniteType name)
    (hnil : es = [] → s.attrs.typeDefs[m.id]? = none) (hne : es ≠ [] → ¬s.attrs.typeDefs.Guarded) :
    s.Checks [.typ m name te] ((s.defining m.id .void).adding es) where
  attrs := rfl
  nextId := rfl
  other _ hid' := getElem?_insert_of_not_mem List.mem_cons_self hid'
  void d t ht := by
    rcases eq_or_of_getElem?_insert ht with ⟨-, rfl⟩ | ht
    · exact .inr rfl
    · exact .inl ht
  defines d hd := by
    show ((s.attrs.typeDefs.insert m.id .void)[d]?).isSome
    rw [Std.TreeMap.getElem?_insert]
    split
    · rfl
    · exact hd
  founded d hd := by
    have hvoid : (s.attrs.typeDefs.insert m.id .void)[m.id]? = some .void :=
      Std.TreeMap.getElem?_insert_self
    rw [List.mem_singleton.mp hd]
    -- `void` mentions no name, so the chain of names ends here.
    refine ⟨Option.isSome_of_eq_some hvoid, m.id, fun d' ⟨t, ht, hd'⟩ => ?_⟩
    cases hvoid.symm.trans ht
    exact hd'.elim
  errors := by
    refine ⟨es, rfl, fun e he => ⟨m, name, te, List.mem_cons_self, hblames e he⟩,
      fun h d d' ⟨t, ht, hd'⟩ => ⟨t, ?_, hd'⟩, fun h hdefines => ?_, hne⟩
    -- Without an error there was no definition, so none has been overwritten.
    · refine (getElem?_insert_of_not_mem (List.mem_singleton.mpr rfl) fun hd => ?_).trans ht
      rw [List.mem_singleton.mp hd, hnil h] at ht
      cases ht
    · have hdefined := hdefines m.id List.mem_cons_self
      rw [Resolving.Defines, hnil h] at hdefined
      cases hdefined

end Checks

end Resolving

namespace Resolve

variable {P : NodeId → Prop} {ids : List NodeId} {s : Resolving} {scope : Scope}

theorem checkType_run (all : List Decl) (m : Mark) (name : String) (te : TypeExpr) (s : Resolving) :
    (checkType all (.typ m name te)).run s =
      if !s.attrs.typeDefs.contains m.id then ((), s.defining m.id .void)
      else if !s.attrs.typeDefs.isFinite m.id then
        ((), (s.defining m.id .void).adding [⟨typePos all name, .infiniteType name⟩])
      else ((), s) := by
  show StateT.run (if !s.attrs.typeDefs.contains m.id then _
    else if !s.attrs.typeDefs.isFinite m.id then _ else _ : Resolve PUnit) s = _
  split
  · rfl
  · split <;> rfl

theorem checkType_checks (all : List Decl) (d : Decl) :
    s.Checks [d] ((checkType all d).run s).2 := by
  cases d with
  | typ m name te =>
    -- No definition, an infinite one, or one that stays as it is.
    cases hcontains : s.attrs.typeDefs.contains m.id with
    | false =>
      have hrun : ((checkType all (.typ m name te)).run s).2 = (s.defining m.id .void).adding
          [] := by
        rw [checkType_run, hcontains]
        rfl
      rw [hrun]
      refine .defining_void (List.forall_mem_nil _) (fun _ => ?_) fun h => (h rfl).elim
      rwa [← Option.not_isSome_iff_eq_none, ← Std.TreeMap.mem_iff_isSome_getElem?,
        ← Std.TreeMap.contains_iff_mem, Bool.not_eq_true]
    | true =>
      cases hfinite : s.attrs.typeDefs.isFinite m.id with
      | false =>
        have hrun : ((checkType all (.typ m name te)).run s).2 =
            (s.defining m.id .void).adding [⟨typePos all name, .infiniteType name⟩] := by
          rw [checkType_run, hcontains, hfinite]
          rfl
        rw [hrun]
        refine .defining_void (List.forall_mem_singleton.mpr rfl) (fun h => by cases h)
          fun _ hguarded => ?_
        -- Guarded definitions have no infinite type, so this one was not guarded.
        rw [TypeDefs.isFinite_iff.mpr (hguarded.founded m.id)] at hfinite
        cases hfinite
      | true =>
        have hrun : ((checkType all (.typ m name te)).run s).2 = s := by
          rw [checkType_run, hcontains, hfinite]
          rfl
        rw [hrun]
        -- A finite type stays, and its definition is founded as it is.
        refine { Resolving.Checks.refl s with
          other := fun _ _ => rfl
          founded := fun d hd => ?_
          errors := ⟨[], rfl, List.forall_mem_nil _, fun _ _ _ h => h, fun _ _ => rfl, fun h =>
            (h rfl).elim⟩ }
        rw [List.mem_singleton.mp hd]
        refine ⟨?_, TypeDefs.isFinite_iff.mp hfinite⟩
        rwa [Resolving.Defines, ← Std.TreeMap.mem_iff_isSome_getElem?,
          ← Std.TreeMap.contains_iff_mem]
  | _ => exact { Resolving.Checks.refl s with
      other := fun _ _ => rfl
      founded := fun _ hd => (List.not_mem_nil hd).elim
      errors := ⟨[], rfl, List.forall_mem_nil _, fun _ _ _ h => h, fun _ _ => rfl, fun h =>
        (h rfl).elim⟩ }

theorem checkTypes_checks (ds : List Decl) : s.Checks ds ((checkTypes ds).run s).2 := by
  rw [checkTypes_eq]
  generalize hall : checkType ds = check
  have hcheck (s : Resolving) (d : Decl) : s.Checks [d] ((check d).run s).2 :=
    hall ▸ checkType_checks ds d
  clear hall
  induction ds generalizing s with
  | nil => exact .refl s
  | cons d ds ih =>
    exact (hcheck s d).trans ih

/-! ## §4 Signatures -/

theorem declareType_sweeps (hscope : scope.TypesIn P) {id : NodeId} {te : TypeExpr}
    (hs : s.Opened P [id, te.mark.id]) (pos : Pos) (refused : TypeDefs → Ty → Bool)
    {cause : Ty → Cause} (hcause : ∀ ty, ¬(cause ty).IsInfinite) :
    Sweeps P [id, te.mark.id] s (declareType scope id te pos refused cause) fun _ s' =>
      s'.attrs.typeDefs = s.attrs.typeDefs ∧
          (s'.errors = [] → te.Declares s'.attrs scope id refused) := by
  have hte : te.mark.id ∈ [id, te.mark.id] := List.mem_cons_of_mem id List.mem_cons_self
  cases hread : readTypeExpr scope.find? s.nextId te with
  | error e =>
    refine .of_judges (judges_declareType_error hread)
      (Resolving.touches_keeping (.error hread) hs.sound hte)
      (hs.sound.keeping (.error hread) hscope) rfl fun es hes => ⟨rfl, fun h => ?_⟩
    exact (hes (List.append_eq_nil_iff.mp h).1).elim
  | ok r =>
    have hid : id ∈ [id, te.mark.id] := List.mem_cons_self
    have htouches := Resolving.touches_reading hread hs.sound hte
    have hsound := hs.sound.reading hread hscope
    have hopened := hs.after htouches hsound
    refine .of_judges (judges_declareType hcause hread)
      (htouches.trans (Resolving.touches_declaring hsound hid)) ?_ rfl fun es hes =>
        ⟨rfl, fun h => ?_⟩
    · refine hsound.declaring (hopened.below id hid) hid hopened.apart ?_
        (Resolving.hasRecords_reading hread)
      exact r.type.namesIn_mono hscope (readTypeExpr_sound hread).names
    · obtain ⟨hty, hreads⟩ := TypeExpr.denotes_reading hread
      exact ⟨r.type, ⟨hty, hreads⟩, hes (List.append_eq_nil_iff.mp h).1,
        Std.TreeMap.getElem?_insert_self⟩

theorem paramTypes_sweeps (hscope : scope.TypesIn P) {ps : List Param}
    (hs : s.Opened P (Param.idsAll ps)) (hnodup : (Param.idsAll ps).Nodup) :
    Sweeps P (Param.idsAll ps) s (paramTypes scope ps) fun _ s' =>
      s'.attrs.typeDefs = s.attrs.typeDefs ∧ ∀ p ∈ ps, s'.errors = [] →
          p.HasType s'.attrs scope := by
  rw [paramTypes_eq]
  refine .forM_each (G := fun _ _ => True) (K := fun s s' => s'.attrs.typeDefs = s.attrs.typeDefs)
    (fun _ => rfl)
    (fun h h' => h'.trans h) (fun _ _ _ _ _ _ _ => trivial) ?_ ps hs hnodup (fun _ _ => trivial)
    fun p _ s hs _ _ => declareType_sweeps hscope hs _ _ fun _ => id
  intro p ids s s' htyped hs hstep hquiet hdefs hdisjoint herrors
  exact (htyped (hquiet.errors_eq_nil herrors)).touched hs hstep hdefs
    (hdisjoint (List.mem_cons_of_mem _ List.mem_cons_self)) (hdisjoint List.mem_cons_self)

theorem Param.HasType.touched_all {P : NodeId → Prop} {s s' : Resolving} {scope : Scope}
    {ps : List Param} {ids : List NodeId} (h : ∀ p ∈ ps, p.HasType s.attrs scope) (hs : s.Sound P)
    (hstep : s.Touches ids s') (hdefs : s'.attrs.typeDefs = s.attrs.typeDefs)
    (hdisjoint : (Param.idsAll ps).Disjoint ids) :
    ∀ p ∈ ps, p.HasType s'.attrs scope := by
  intro p hp
  have hown {id : NodeId} (hid : id ∈ [p.mark.id, p.type.mark.id]) : id ∉ ids :=
    hdisjoint (List.mem_flatMap.mpr ⟨p, hp, hid⟩)
  exact (h p hp).touched hs hstep hdefs (hown (List.mem_cons_of_mem _ List.mem_cons_self))
    (hown List.mem_cons_self)

/-- The declaration, if it is no type, is typed. -/
def Signed (scope : Scope) (d : Decl) (s : Resolving) : Prop :=
  (∀ m name te, d ≠ .typ m name te) → s.errors = [] → d.HasType s.attrs scope

theorem signature_sweeps (hscope : scope.TypesIn P) {d : Decl} (hs : s.Opened P d.valueHeadIds)
    (hnodup : d.valueHeadIds.Nodup) : Sweeps P d.valueHeadIds s (signature scope d) fun _ s' =>
      s'.attrs.typeDefs = s.attrs.typeDefs ∧ Signed scope d s' := by
  cases d with
  | var m name type =>
    exact (declareType_sweeps hscope hs _ _ fun _ => id).imp fun _ s' h => ⟨h.1, fun _ => h.2⟩
  | fn m name params type body =>
    have hids : (Decl.fn m name params type body).valueHeadIds = m.id ::
      (Param.idsAll params ++ [type.mark.id]) := rfl
    have hperm : (m.id :: (Param.idsAll params ++ [type.mark.id])).Perm
        (Param.idsAll params ++ [m.id, type.mark.id]) :=
      List.perm_middle.symm
    rw [hids] at hs hnodup ⊢
    obtain ⟨hparams, -, hdisjoint⟩ := List.nodup_append'.mp (hperm.nodup_iff.mp hnodup)
    have hleft : Param.idsAll params ⊆ m.id :: (Param.idsAll params ++ [type.mark.id]) :=
      List.Subset.trans (List.subset_append_left _ _) hperm.symm.subset
    have hright : [m.id, type.mark.id] ⊆ m.id :: (Param.idsAll params ++ [type.mark.id]) :=
      List.Subset.trans (List.subset_append_right _ _) hperm.symm.subset
    -- The types of the parameters come first, and declaring the result touches none of their nodes.
    obtain ⟨htouches, hsound, hquiet, hdefs, htyped⟩ :=
      paramTypes_sweeps hscope (hs.mono hleft) hparams
    have hcause (ty : Ty) : ¬(Cause.resultType name ty).IsInfinite := id
    obtain ⟨htouches', hsound', hquiet', hdefs', hdeclares⟩ := declareType_sweeps hscope
      ((hs.mono hright).after htouches hsound) m.pos (fun defs ty =>
        !ty.isScalar defs && !ty.isVoid defs) hcause
    refine ⟨(htouches.mono hleft).trans (htouches'.mono hright), hsound', hquiet.trans hquiet',
      hdefs'.trans hdefs,
      fun _ herrors => ⟨?_, hdeclares herrors⟩⟩
    exact Param.HasType.touched_all (fun p hp => htyped p hp (hquiet'.errors_eq_nil herrors)) hsound
      htouches' hdefs'
      hdisjoint
  | typ m name te => exact .pure hs.sound ⟨rfl, fun h => (h m name te rfl).elim⟩
  | _ => exact .pure hs.sound ⟨rfl, fun _ _ => trivial⟩

theorem Signed.touched {s s' : Resolving} {scope : Scope} {d : Decl} {ids : List NodeId}
    (h : Signed scope d s) (hs : s.Sound P) (hstep : s.Touches ids s') (hquiet : s.Quiet s')
    (hdefs : s'.attrs.typeDefs = s.attrs.typeDefs) (hdisjoint : d.valueHeadIds.Disjoint ids) :
    Signed scope d s' := by
  intro hd herrors
  have htyped := h hd (hquiet.errors_eq_nil herrors)
  cases d with
  | var m name type =>
    exact htyped.touched hs hstep hdefs (hdisjoint (List.mem_cons_of_mem _ List.mem_cons_self))
      (hdisjoint List.mem_cons_self)
  | fn m name params type body =>
    have hparams : (Param.idsAll params).Disjoint ids := fun id hid =>
      hdisjoint (List.mem_cons_of_mem _ (List.mem_append_left _ hid))
    refine ⟨Param.HasType.touched_all htyped.1 hs hstep hdefs hparams, htyped.2.touched hs
      hstep hdefs ?_ ?_⟩
    · exact hdisjoint (List.mem_cons_of_mem _ (List.mem_append_right _ List.mem_cons_self))
    · exact hdisjoint List.mem_cons_self
  | typ m name te => exact (hd m name te rfl).elim
  | _ => trivial

/-- Behind the last sweep everything has types. -/
theorem signatures_sweeps (hscope : scope.TypesIn P)
    (hs : s.Opened P (ds.flatMap Decl.valueHeadIds))
    (hnodup : (ds.flatMap Decl.valueHeadIds).Nodup) :
    Sweeps P (ds.flatMap Decl.valueHeadIds) s (signatures scope ds) fun _ s' =>
      s'.attrs.typeDefs = s.attrs.typeDefs ∧ ∀ d ∈ ds, Signed scope d s' := by
  rw [signatures_eq]
  exact .forM_each (G := fun _ _ => True) (K := fun s s' => s'.attrs.typeDefs = s.attrs.typeDefs)
    (fun _ => rfl)
    (fun h h' => h'.trans h) (fun _ _ _ _ _ _ _ => trivial)
    (fun _ _ _ _ h hs hstep hquiet hdefs hdisjoint => h.touched hs hstep hquiet hdefs hdisjoint) ds
      hs hnodup
    (fun _ _ => trivial) fun d _ s hs hnodup _ => signature_sweeps hscope hs hnodup

end Resolve

/-! ## §5 Cycles -/

/-- The definition of the type name `d` of a block contains the name `d'` outside of pointers, as it
is written. -/
def Scope.Needs (scope : Scope) (ds : List Decl) (d d' : NodeId) : Prop :=
  ∃ m name te ty, .typ m name te ∈ ds ∧ m.id = d ∧ scope.Reads te ty ∧ ty.Exposes d'

/-- The second table has the definitions of a block in addition, as far as they could be read. -/
structure Scope.Adds (scope : Scope) (ds : List Decl) (defs defs' : TypeDefs) : Prop where
  fresh : ∀ id ∈ Decl.typeIds ds, defs[id]? = none
  other : ∀ id ∉ Decl.typeIds ds, defs'[id]? = defs[id]?
  reads : ∀ m name te, .typ m name te ∈ ds → ∀ ty, defs'[m.id]? = some ty → scope.Reads te ty
  all : ∀ m name te, .typ m name te ∈ ds → ∀ ty, scope.Reads te ty → (defs'[m.id]?).isSome

namespace Scope.Adds

variable {scope : Scope} {ds : List Decl} {defs defs' : TypeDefs} {d d' : NodeId}

theorem needs_of_needs (h : scope.Adds ds defs defs') (hneeds : scope.Needs ds d d') :
    defs'.Needs d d' := by
  obtain ⟨m, name, te, ty, hmem, rfl, hreads, hexposes⟩ := hneeds
  obtain ⟨ty', hty'⟩ := Option.isSome_iff_exists.mp (h.all m name te hmem ty hreads)
  exact ⟨ty', hty', (hreads.exposes_iff (h.reads m name te hmem ty' hty')).mp hexposes⟩

/-- What is defined outside of the block needs nothing from it. -/
theorem needs_other (h : scope.Adds ds defs defs') (hclosed : defs.Closed)
    (hd : d ∉ Decl.typeIds ds) (hneeds : defs'.Needs d d') : defs.Needs d d' ∧
    d' ∉ Decl.typeIds ds := by
  obtain ⟨t, ht, hexposes⟩ := hneeds
  rw [h.other d hd] at ht
  refine ⟨⟨t, ht, hexposes⟩, fun hd' => ?_⟩
  have hdefined := t.of_exposes (hclosed d t ht) hexposes
  rw [h.fresh d' hd'] at hdefined
  cases hdefined

theorem needs_own (h : scope.Adds ds defs defs') (hd : d ∈ Decl.typeIds ds)
    (hneeds : defs'.Needs d d') :
    scope.Needs ds d d' := by
  obtain ⟨t, ht, hexposes⟩ := hneeds
  obtain ⟨m, name, te, hmem, rfl⟩ := Decl.exists_of_mem_typeIds hd
  exact ⟨m, name, te, t, hmem, rfl, h.reads m name te hmem t ht, hexposes⟩

/-- **There are new cycles of definitions iff the block has one as it is written.** -/
theorem guarded_iff (h : scope.Adds ds defs defs') (hguarded : defs.Guarded)
    (hclosed : defs.Closed) :
    defs'.Guarded ↔ ∀ d, ¬Relation.TransGen (scope.Needs ds) d d := by
  refine ⟨fun h' d hcycle => ?_, fun hacyclic d hcycle => ?_⟩
  · exact h' d (Relation.TransGen.mono (fun _ _ => h.needs_of_needs) _ _ hcycle)
  by_cases hd : d ∈ Decl.typeIds ds
  · -- All names on the cycle lead to `d`, so they belong to the block.
    refine hacyclic d ?_
    have hback (x y : NodeId) (hxy : defs'.Needs x y) (hy : y ∈ Decl.typeIds ds) :
        scope.Needs ds x y ∧ x ∈ Decl.typeIds ds := by
      by_cases hx : x ∈ Decl.typeIds ds
      · exact ⟨h.needs_own hx hxy, hx⟩
      · exact ((h.needs_other hclosed hx hxy).2 hy).elim
    have hpath (x : NodeId) (hx : Relation.TransGen defs'.Needs x d) :
        Relation.TransGen (scope.Needs ds) x d ∧ x ∈ Decl.typeIds ds := by
      induction hx using Relation.TransGen.head_induction_on with
      | single hneeds => exact (hback _ _ hneeds hd).imp_left .single
      | head hneeds _ ih => exact (hback _ _ hneeds ih.2).imp_left (.head · ih.1)
    exact (hpath d hcycle).1
  · refine hguarded d ?_
    have hpath (x : NodeId) (hx : Relation.TransGen defs'.Needs d x) :
        Relation.TransGen defs.Needs d x ∧ x ∉ Decl.typeIds ds := by
      induction hx with
      | single hneeds => exact (h.needs_other hclosed hd hneeds).imp_left .single
      | tail _ hneeds ih => exact (h.needs_other hclosed ih.2 hneeds).imp_left ih.1.tail
    exact (hpath d hcycle).1

end Scope.Adds

/-- The type names that a block in the scope `outer` declares have a cycle that passes no pointer,
as they are written. -/
def Scope.Cyclic (outer : Scope) (ds : List Decl) : Prop :=
  ∃ d, Relation.TransGen (Scope.Needs (blockScope ds :: outer) ds) d d

/-- The new errors tell of infinite types block by block: of a block exactly if it has a cycle. -/
def Resolving.Reports (blocks : List (Scope × List Decl)) (s s' : Resolving) : Prop :=
  ∃ es groups, s'.errors = es ++ s.errors ∧
    es.reverse.filter (fun e => e.cause.IsInfinite) = groups.flatten ∧
    List.Forall₂ (fun block group => (group ≠ [] ↔ block.1.Cyclic block.2) ∧
      ∀ e ∈ group, e.cause.Blames block.2) blocks groups

namespace Resolving.Reports

variable {blocks blocks' : List (Scope × List Decl)} {s s' s'' : Resolving} {outer : Scope}
  {ds : List Decl}

theorem of_quiet (h : s.Quiet s') : s.Reports [] s' := by
  obtain ⟨es, hes, hquiet⟩ := h
  refine ⟨es, [], hes, List.filter_eq_nil_iff.mpr fun e he => ?_, .nil⟩
  simpa using hquiet e (List.mem_reverse.mp he)

theorem refl (s : Resolving) : s.Reports [] s := of_quiet ⟨[], rfl, List.forall_mem_nil _⟩

theorem trans (h : s.Reports blocks s') (h' : s'.Reports blocks' s'') :
    s.Reports (blocks ++ blocks') s'' := by
  obtain ⟨es, groups, hes, hgroups, hblocks⟩ := h
  obtain ⟨es', groups', hes', hgroups', hblocks'⟩ := h'
  refine ⟨es' ++ es, groups ++
    groups', by rw [hes', hes, List.append_assoc], ?_, List.rel_append hblocks hblocks'⟩
  rw [List.reverse_append, List.filter_append, hgroups, hgroups', List.flatten_append]

theorem errors_eq_nil (h : s.Reports blocks s') (hs' : s'.errors = []) : s.errors = [] := by
  obtain ⟨es, groups, hes, -⟩ := h
  exact (List.append_eq_nil_iff.mp (hes.symm.trans hs')).2

/-- One block. -/
theorem block (h : ∃ es, s'.errors = es ++ s.errors ∧
      (∀ e ∈ es, e.cause.IsInfinite → e.cause.Blames ds) ∧
    ((∃ e ∈ es, e.cause.IsInfinite) ↔ outer.Cyclic ds)) : s.Reports [(outer, ds)] s' := by
  obtain ⟨es, hes, hblames, hiff⟩ := h
  refine ⟨es, [es.reverse.filter fun e => e.cause.IsInfinite],
    hes, by simp, .cons ⟨?_, fun e he => ?_⟩ .nil⟩
  · rw [← hiff, Ne, List.filter_eq_nil_iff]
    simp
  · obtain ⟨he, hcause⟩ := List.mem_filter.mp he
    exact hblames e (List.mem_reverse.mp he) (of_decide_eq_true hcause)

theorem block_iff : s.Reports [(outer, ds)] s' ↔ ∃ es, s'.errors = es ++ s.errors ∧
    (∀ e ∈ es, e.cause.IsInfinite → e.cause.Blames ds) ∧
      ((∃ e ∈ es, e.cause.IsInfinite) ↔ outer.Cyclic ds) := by
  refine ⟨fun h => ?_, block⟩
  obtain ⟨es, groups, hes, hgroups, hblocks⟩ := h
  obtain ⟨group, rest, ⟨hiff, hblames⟩, hrest, rfl⟩ := List.forall₂_cons_left_iff.mp hblocks
  cases hrest
  rw [List.flatten_singleton] at hgroups
  subst hgroups
  refine ⟨es, hes, fun e he hcause => hblames e ?_, ?_⟩
  · exact List.mem_filter.mpr ⟨List.mem_reverse.mpr he, decide_eq_true hcause⟩
  · rw [← hiff, Ne, List.filter_eq_nil_iff]
    simp

end Resolving.Reports

/-! ## §6 All sweeps together -/

namespace Resolving.Checks

variable {P : NodeId → Prop} {ids : List NodeId} {ds : List Decl} {s s' : Resolving}

theorem mentions (h : s.Checks ds s') {ty : Ty} (hty : s'.attrs.Mentions ty) :
    s.attrs.Mentions ty ∨ ty = .void := by
  have hattrs := h.attrs
  cases hty with
  | ofType hty => rw [hattrs] at hty; exact .inl (.ofType hty)
  | isType hty => rw [hattrs] at hty; exact .inl (.isType hty)
  | declType hty => rw [hattrs] at hty; exact .inl (.declType hty)
  | typeDefs hty => exact (h.void _ _ hty).imp_left .typeDefs
  | record hty => rw [hattrs] at hty; exact .inl (.record hty)

theorem sound (h : s.Checks ds s') (hs : s.Sound P) : s'.Sound P where
  names ty hty := by
    rcases h.mentions hty with hty | rfl
    · exact hs.names ty hty
    · trivial
  declType id ty hty := by
    rw [h.attrs] at hty
    exact h.nextId ▸ hs.declType id ty hty
  records id info hinfo := by
    have hattrs := h.attrs
    rw [hattrs] at hinfo
    obtain ⟨hlt, hcomps, hnames, hdistinct, htyped, hcomp⟩ := hs.records id info hinfo
    refine ⟨h.nextId ▸ hlt, h.nextId ▸ hcomps, hnames, hdistinct, fun c hc => ?_, hcomp⟩
    rw [hattrs]
    exact htyped c hc
  recorded ty hty := by
    have hattrs := h.attrs
    have hold : ∀ ty', s.attrs.Denoted ty' → s'.attrs.HasRecords ty' := fun ty' hty' => by
      rw [hattrs]
      exact hs.recorded ty' hty'
    cases hty with
    | isType hty => rw [hattrs] at hty; exact hold ty (.isType hty)
    | declType hty => rw [hattrs] at hty; exact hold ty (.declType hty)
    | typeDefs hty =>
      rcases h.void _ _ hty with hty | rfl
      · exact hold ty (.typeDefs hty)
      · exact List.forall_mem_nil _

theorem touches (h : s.Checks ds s') (hs : s.Sound P) (hsub : Decl.typeIds ds ⊆ ids) :
    s.Touches ids s' where
  nextId := Nat.le_of_eq h.nextId.symm
  declaredAt _ _ := by rw [h.attrs]
  ofType _ _ := by rw [h.attrs]
  isType _ _ := by rw [h.attrs]
  declType _ _ _ := by rw [h.attrs]
  typeDefs id hid := h.other id fun hmem => hid (hsub hmem)
  records _ _ := by rw [h.attrs]
  comps id info hid hinfo := by
    rw [h.attrs] at hinfo
    exact absurd (hs.records id info hinfo).id_lt (Nat.not_lt.mpr hid)
  distinct hdistinct := by
    rw [h.attrs]
    exact hdistinct

/-- Behind the check there are no cycles: those of the block are gone, and outside of it there have
been none. -/
theorem guarded (h : s.Checks ds s') {scope : Scope} {defs : TypeDefs}
    (hadds : scope.Adds ds defs s.attrs.typeDefs) (hguarded : defs.Guarded)
    (hclosed : defs.Closed) : s'.attrs.typeDefs.Guarded := by
  refine TypeDefs.guarded_iff_founded.mpr fun d => ?_
  by_cases hd : d ∈ Decl.typeIds ds
  · exact (h.founded d hd).2
  · induction hguarded.founded d with
    | intro d _ ih =>
      refine ⟨d, fun d' hneeds => ?_⟩
      obtain ⟨hneeds, hd'⟩ := hadds.needs_other hclosed hd (h.needs hneeds)
      exact ih d' hneeds hd'

/-- Without errors there is a definition for every name, and the check changes nothing. -/
theorem defined (h : s.Checks ds s') {scope : Scope}
    (hdefined : ∀ d ∈ ds, Resolve.Defined scope d s) (herrors : s'.errors = []) : s.errors = [] ∧
    ∀ d ∈ ds, Resolve.Defined scope d s' := by
  obtain ⟨es, hes, -, -, hsame, -⟩ := h.errors
  obtain ⟨hnil, herrors'⟩ := List.append_eq_nil_iff.mp (hes.symm.trans herrors)
  have hdefs : s'.attrs.typeDefs = s.attrs.typeDefs := hsame hnil fun d hd => by
    obtain ⟨m, name, te, hmem, rfl⟩ := Decl.exists_of_mem_typeIds hd
    obtain ⟨ty, -, hty⟩ := (hdefined _ hmem m name te rfl).2.2 herrors'
    exact Option.isSome_of_eq_some hty
  have hattrs : s'.attrs = s.attrs := by rw [h.attrs, hdefs]
  refine ⟨herrors', fun d hd m name te heq => ?_⟩
  obtain ⟨hreads, hdefines, hdenotes⟩ := hdefined d hd m name te heq
  rw [Resolving.Defines, hattrs]
  exact ⟨hreads, hdefines, fun _ => hdenotes herrors'⟩

/-- Infinite types are reported by the check alone, and exactly if the block has a cycle as it is
written. -/
theorem reports (h : s.Checks ds s') {s₀ : Resolving} (hquiet : s₀.Quiet s) {scope : Scope}
    {defs : TypeDefs} (hadds : scope.Adds ds defs s.attrs.typeDefs) (hguarded : defs.Guarded)
    (hclosed : defs.Closed) :
    ∃ es, s'.errors = es ++ s₀.errors ∧ (∀ e ∈ es, e.cause.IsInfinite → e.cause.Blames ds) ∧
      ((∃ e ∈ es, e.cause.IsInfinite) ↔ ∃ d, Relation.TransGen (scope.Needs ds) d d) := by
  obtain ⟨es, hes, hblames, hkept, -, hcycle⟩ := h.errors
  obtain ⟨es₀, hes₀, hquiet⟩ := hquiet
  refine ⟨es ++ es₀, by rw [hes, hes₀, List.append_assoc], fun e he hcause => ?_, ?_⟩
  · exact (List.mem_append.mp he).elim (hblames e) fun he => (hquiet e he hcause).elim
  have hexists : (∃ e ∈ es ++ es₀, e.cause.IsInfinite) ↔ es ≠ [] := by
    refine ⟨?_, fun hne => ?_⟩
    · rintro ⟨e, he, hcause⟩ rfl
      exact hquiet e he hcause
    · obtain ⟨e, rest, rfl⟩ := List.exists_cons_of_ne_nil hne
      exact ⟨e, List.mem_cons_self, (hblames e List.mem_cons_self).isInfinite⟩
  rw [hexists, ← not_forall_not, ← hadds.guarded_iff hguarded hclosed]
  refine ⟨hcycle, fun hnot hnil => hnot fun d hd => ?_⟩
  exact h.guarded hadds hguarded hclosed d
    (Relation.TransGen.mono (fun _ _ => hkept hnil _ _) _ _ hd)

end Resolving.Checks

namespace Resolve

variable {ids : List NodeId} {s : Resolving} {outer : Scope} {ds : List Decl}

theorem typesIn_block {P : NodeId → Prop} (houter : outer.TypesIn P) :
    Scope.TypesIn (fun d => P d ∨ d ∈ Decl.typeIds ds) (blockScope ds :: outer) := by
  rintro _ ⟨ident, m, name, te, hfind, rfl⟩
  rcases Scope.mem_of_find?_cons hfind with hmem | hfind
  · obtain ⟨d, hd, heq⟩ := List.mem_map.mp hmem
    cases heq
    exact .inr (Decl.mem_typeIds hd)
  · exact .inl (houter _ ⟨ident, m, name, te, hfind, rfl⟩)

/-- What reading the definitions of a block and checking them does. -/
structure Settles (P : NodeId → Prop) (scope : Scope) (ds : List Decl) (s s' : Resolving) :
    Prop where
  touches : s.Touches (ds.flatMap Decl.typeHeadIds) s'
  sound : s'.Sound P
  guarded : s'.attrs.typeDefs.Guarded
  keeps : ∀ d, s.Defines d → s'.Defines d
  defines : ∀ d ∈ Decl.typeIds ds, s'.Defines d
  declType : ∀ id < s.nextId, s'.attrs.declType[id]? = s.attrs.declType[id]?
  defined : s'.errors = [] → s.errors = [] ∧ ∀ d ∈ ds, Defined scope d s'
  reports : ∃ es, s'.errors = es ++ s.errors ∧ (∀ e ∈ es, e.cause.IsInfinite → e.cause.Blames ds) ∧
    ((∃ e ∈ es, e.cause.IsInfinite) ↔ ∃ d, Relation.TransGen (scope.Needs ds) d d)

/-- Reading the definitions of a block and checking them. -/
theorem defineTypes_checkTypes {P : NodeId → Prop} {scope : Scope} (hscope : scope.TypesIn P)
    (hs : s.Opened P (ds.flatMap Decl.typeHeadIds)) (hnodup : (ds.flatMap Decl.typeHeadIds).Nodup)
    (hguarded : s.attrs.typeDefs.Guarded) (hclosed : s.attrs.typeDefs.Closed)
    (hfresh : ∀ id ∈ Decl.typeIds ds, s.attrs.typeDefs[id]? = none) {s' : Resolving}
    (hrun : (do defineTypes scope ds; checkTypes ds : Resolve Unit).run s = ((), s')) :
    Settles P scope ds s s' := by
  obtain ⟨htouches, hsound, hquiet, ⟨-, hdeclType, hother⟩, hdefined⟩ :=
    defineTypes_sweeps hscope hs hnodup hfresh
  have hchecks := checkTypes_checks ds (s := ((defineTypes scope ds).run s).2)
  have hs' : ((checkTypes ds).run ((defineTypes scope ds).run s).2).2 = s' := congrArg Prod.snd hrun
  rw [hs'] at hchecks
  generalize ((defineTypes scope ds).run s).2 = s₁
    at htouches hsound hquiet hdeclType hother hdefined hchecks
  -- Before the check the table has the definitions as they are written.
  have hadds : scope.Adds ds s.attrs.typeDefs s₁.attrs.typeDefs :=
    ⟨hfresh, hother, fun m name te hmem => (hdefined _ hmem m name te rfl).1,
      fun m name te hmem => (hdefined _ hmem m name te rfl).2.1⟩
  have hsub : Decl.typeIds ds ⊆ ds.flatMap Decl.typeHeadIds := fun id hid => by
    obtain ⟨m, name, te, hmem, rfl⟩ := Decl.exists_of_mem_typeIds hid
    exact List.mem_flatMap.mpr ⟨_, hmem, List.mem_cons_self⟩
  have hkeeps (d : NodeId) (hd : s.Defines d) : s'.Defines d := by
    refine hchecks.defines d ((congrArg Option.isSome (hother d fun hmem => ?_)).trans hd)
    rw [Resolving.Defines, hfresh d hmem] at hd
    cases hd
  exact {
    touches := htouches.trans (hchecks.touches hsound hsub)
    sound := hchecks.sound hsound
    guarded := hchecks.guarded hadds hguarded hclosed
    keeps := hkeeps
    defines := fun d hd => (hchecks.founded d hd).1
    declType := fun id hid => by rw [hchecks.attrs]; exact hdeclType id hid
    defined := fun herrors => (hchecks.defined hdefined herrors).imp_left hquiet.errors_eq_nil
    reports := hchecks.reports hquiet hadds hguarded hclosed }

/-- **Declaring a block**, whatever is wrong with it. Behind it all type names are defined without a
cycle. An infinite type is reported iff the type names of the block, as they are written, have a
cycle. Without errors the block is typed. -/
theorem declare_runs (hs : s.Admits outer (ds.flatMap Decl.headIds))
    (hnodup : (ds.flatMap Decl.headIds).Nodup) :
    Runs (ds.flatMap Decl.headIds) s (declare outer ds) fun inner s' =>
      (inner.find? = Scope.find? (blockScope ds :: outer) ∧ (∀ d ∈ Decl.typeIds ds, s'.Defines d) ∧
        s.Reports [(outer, ds)] s') ∧ (s'.errors = [] → Block.Typed s'.attrs outer ds) := by
  have hperm := Decl.headIds_perm ds
  -- Each sweep writes at the head numbers of its declarations, types or values.
  obtain ⟨hnodupT, hnodupV, hdisjoint⟩ := List.nodup_append'.mp (hperm.nodup_iff.mp hnodup)
  have hsubT : ds.flatMap Decl.typeHeadIds ⊆ ds.flatMap Decl.headIds :=
    List.Subset.trans (List.subset_append_left _ _) hperm.symm.subset
  have hsubV : ds.flatMap Decl.valueHeadIds ⊆ ds.flatMap Decl.headIds :=
    List.Subset.trans (List.subset_append_right _ _) hperm.symm.subset
  have hfind := find?_blockNames ds outer
  obtain ⟨es, hnames, hdistinct, hquiet⟩ := judges_blockNames ds (s := s)
  generalize ds.foldl (addName Decl.name id) [] = names at hfind hnames
  -- A type name of the scope is one of the block or one from outside, which has a definition.
  have hscope : Scope.TypesIn (fun d => s.Defines d ∨ d ∈ Decl.typeIds ds) (names :: outer) := by
    rw [Scope.TypesIn, hfind]
    refine typesIn_block ?_
    rintro _ ⟨ident, m, name, te, hfind, rfl⟩
    exact hs.scope ident m name te hfind
  -- The pass as the sweeps it consists of, each one from the state that the one before has left.
  have hrun : (declare outer ds).run s = (names :: outer, ((signatures (names :: outer) ds).run
      ((do defineTypes (names :: outer) ds; checkTypes ds : Resolve Unit).run
        ((nameTypes ds).run (s.adding es)).2).2).2) := by
    rw [declare, run_bind_state, hnames]
    rfl
  rw [Runs, hrun]
  have hs₀ : (s.adding es).Opened (fun d => s.Defines d ∨ d ∈ Decl.typeIds ds)
      (ds.flatMap Decl.headIds) :=
    ⟨(hs.sound.mono fun _ => .inl).adding es, hs.apart, hs.below⟩
  obtain ⟨htouches₁, hsound₁, hquiet₁, hdefs₁, hnamed₁⟩ :=
    nameTypes_sweeps (hs₀.mono hsubT) hnodupT fun _ => .inr
  generalize ((nameTypes ds).run (s.adding es)).2 = s₁ at htouches₁ hsound₁ hquiet₁ hdefs₁ hnamed₁
  have hs₁ := hs₀.after htouches₁ hsound₁
  generalize hrun₂ : (do defineTypes (names :: outer) ds; checkTypes ds : Resolve Unit).run s₁ = r
  obtain ⟨⟨⟩, s₂⟩ := r
  have hsettles := defineTypes_checkTypes hscope (hs₁.mono hsubT) hnodupT (hdefs₁ ▸ hs.guarded)
    (hdefs₁ ▸ hs.sound.closed) (fun id hid =>
      hdefs₁ ▸ hs.typeDefs id ((Decl.typeIds_sublist ds).subset hid)) hrun₂
  obtain ⟨htouches₃, hsound₃, hquiet₃, hdefs₃, hsigned₃⟩ := signatures_sweeps hscope
    ((hs₁.after hsettles.touches hsettles.sound).mono hsubV) hnodupV
  generalize ((signatures (names :: outer) ds).run s₂).2 = s₃
    at htouches₃ hsound₃ hquiet₃ hdefs₃ hsigned₃
  -- Names outside the block keep their definitions through all the sweeps.
  have hdefines : ∀ d, s.Defines d ∨ d ∈ Decl.typeIds ds → s₃.Defines d := by
    intro d hd
    rw [Resolving.Defines, hdefs₃]
    rcases hd with hd | hd
    · exact hsettles.keeps d (by rwa [Resolving.Defines, hdefs₁])
    · exact hsettles.defines d hd
  have htouches₀ : s.Touches (ds.flatMap Decl.headIds) (s.adding es) :=
    .of_attrs_eq rfl rfl fun id info h => (hs.sound.records id info h).id_lt
  refine ⟨⟨((htouches₀.trans (htouches₁.mono hsubT)).trans (hsettles.touches.mono hsubT)).trans
    (htouches₃.mono hsubV),
    hsound₃.mono hdefines, hdefs₃ ▸ hsettles.guarded⟩,
      ⟨hfind, fun d hd => hdefines d (.inr hd), ?_⟩, fun herrors => ?_⟩
  · -- Only the check of the definitions reports infinite types.
    have hnew : s.Quiet (s.adding es) := ⟨es, rfl, hquiet⟩
    have hbefore : s.Reports [] s₁ := .of_quiet (hnew.trans hquiet₁)
    have hneeds : Scope.Needs (names :: outer) ds = Scope.Needs (blockScope ds :: outer) ds := by
      unfold Scope.Needs Scope.Reads
      rw [hfind]
    have hcycles := hsettles.reports
    rw [hneeds] at hcycles
    exact hbefore.trans ((Resolving.Reports.block hcycles).trans (.of_quiet hquiet₃))
  -- Without errors in the end there were none after any of the sweeps.
  · obtain ⟨herrors₁, hdefined⟩ := hsettles.defined (hquiet₃.errors_eq_nil herrors)
    have hnil : es = [] := (List.append_eq_nil_iff.mp (hquiet₁.errors_eq_nil herrors₁)).1
    refine ⟨hdistinct.mp hnil, fun d hd => ?_⟩
    have hscope' (t : Attributes) (h : d.HasType t (names :: outer)) :
        d.HasType t (blockScope ds :: outer) :=
      h.congr hfind
    refine hscope' _ ?_
    by_cases htyp : ∃ m name te, d = .typ m name te
    · obtain ⟨m, name, te, rfl⟩ := htyp
      -- The signatures touch the nodes of values only.
      have hnot {id : NodeId} (hid : id ∈ (Decl.typ m name te).typeHeadIds) :
          id ∉ ds.flatMap Decl.valueHeadIds :=
        hdisjoint (List.mem_flatMap.mpr ⟨_, hd, hid⟩)
      -- The name got its type in the first sweep and its definition in the second.
      have hname := hnamed₁ _ hd m name te rfl
      have hname₂ := (hsettles.declType m.id (hsound₁.declType m.id _ hname)).trans hname
      obtain ⟨-, -, hdenotes⟩ := hdefined _ hd m name te rfl
      obtain ⟨ty, hty, hdef⟩ := hdenotes (hquiet₃.errors_eq_nil herrors)
      refine ⟨?_, ty, ?_, hdefs₃ ▸ hdef⟩
      · exact (htouches₃.declType m.id (hnot List.mem_cons_self)
          (hsettles.sound.declType m.id _ hname₂)).trans hname₂
      · exact hty.touched hsettles.sound htouches₃
          (hnot (List.mem_cons_of_mem _ List.mem_cons_self))
    · exact hsigned₃ d hd (fun m name te heq => htyp ⟨m, name, te, heq⟩) herrors

end Resolve

end MmixBackend.Source
