import MmixBackend.Proofs.ExactSizes
import MmixBackend.Proofs.Source.Attribution

/-!
# Components lie inside of their records

The tables have all records that occur in types, with the components that the types have, and no two
components share a number. The layout goes through the records and gives each component its offset;
it does not give another one to any of them later. So what is selected from a record lies inside of
it, just as an element with an index below the length lies inside of its array.

## Main statements

- `Expr.HasType.hasRecords`: the records in the type of an expression are in the tables.
- `Layout.program_components`: where components lie.
- `Attributes.component_inside`: a component lies inside of its record.
-/

namespace MmixBackend

namespace Source

/-! ## §1 Records in types -/

/-- The tables have the records in all types that have been read, and components have different
numbers. -/
structure Attributes.Recorded (t : Attributes) : Prop where
  denoted : ∀ ty, t.Denoted ty → t.HasRecords ty
  distinct : t.CompsDistinct

theorem Program.recorded_of_resolve {p : Program} {t : Attributes} (h : p.number.resolve = .ok t) :
    t.Recorded := by
  obtain ⟨s, hrun, -, rfl⟩ := Program.exists_run_of_resolve h
  obtain ⟨⟨hgo, -⟩, -⟩ := Resolve.program_resolves p
  rw [hrun] at hgo
  refine ⟨hgo.sound.recorded, hgo.touches.distinct fun id id' info info' hinfo => ?_⟩
  rw [Std.TreeMap.getElem?_emptyc] at hinfo
  cases hinfo

namespace Attributes.HasRecords

variable {t : Attributes} {ty ty' : Ty}

theorem of_subset (h : t.HasRecords ty) (hsub : ty'.records ⊆ ty.records) : t.HasRecords ty' :=
  fun r hr => h r (hsub hr)

/-- Stripping names leads to types that have been read. -/
theorem of_unfolds (ht : t.Recorded) (h : t.HasRecords ty) (hunfolds : ty.Unfolds t.typeDefs ty') :
    t.HasRecords ty' := by
  induction hunfolds with
  | stop => exact h
  | step hdef _ ih => exact ih (ht.denoted _ (.typeDefs hdef))

theorem actual (ht : t.Recorded) (hguarded : t.typeDefs.Guarded) (h : t.HasRecords ty) :
    t.HasRecords (ty.actual t.typeDefs) :=
  h.of_unfolds ht (Ty.unfolds_actual fun d _ => hguarded.founded d)

end Attributes.HasRecords

section

variable {t : Attributes} {ty ty' : Ty}

/-- The elements of an array are of a type that is part of its own. -/
theorem Attributes.HasRecords.elem? (ht : t.Recorded) (hguarded : t.typeDefs.Guarded)
    (h : t.HasRecords ty) (helem : ty.elem? t.typeDefs = some ty') : t.HasRecords ty' := by
  have hactual := h.actual ht hguarded
  rw [Ty.elem?] at helem
  split at helem
  · next heq =>
    cases helem
    rw [heq] at hactual
    exact hactual
  · cases helem

/-- The components of a record are of types that are parts of its own. -/
theorem Attributes.HasRecords.component? (ht : t.Recorded) (hguarded : t.typeDefs.Guarded)
    (h : t.HasRecords ty) {ident : String} {d : Decl}
    (hcomp : t.component? ty ident = some (d, ty')) : t.HasRecords ty' := by
  have hactual := h.actual ht hguarded
  rw [Attributes.component?] at hcomp
  split at hcomp
  · next heq =>
    rw [heq] at hactual
    obtain ⟨_, hfound, hd⟩ := Option.map_eq_some_iff.mp hcomp
    cases hd
    have hmem := (List.of_mem_zip (List.mem_of_find?_eq_some hfound)).2
    exact hactual.of_subset (List.subset_cons_of_subset _ (Fields.records_subset hmem))
  · cases hcomp

mutual

/-- **The records in the type of an expression** are in the tables. -/
theorem Expr.hasRecords_of_hasType (ht : t.Recorded) (hguarded : t.typeDefs.Guarded) :
    ∀ (e : Expr) {sc : Scope} {ty : Ty}, e.HasType t sc ty → t.HasRecords ty
  | .absent, _, _, h => h.elim
  | .atom _ kind _, _, ty, h => by
    obtain ⟨hkind, -⟩ := h
    -- The type of an atom has no records at all.
    have hnone : ty.records = [] := by cases kind <;> cases hkind <;> rfl
    rw [Attributes.HasRecords, hnone]
    exact List.forall_mem_nil _
  | .name .., _, _, ⟨⟨_, _, _, _, hty⟩, _⟩ => ht.denoted _ (.declType hty)
  | .unary _ op arg, _, _, ⟨⟨argTy, harg, hty⟩, _⟩ => by
    have harg : t.HasRecords argTy := arg.hasRecords_of_hasType ht hguarded harg
    -- By the rules the type is that of the operand, a pointer to it, or one without records.
    cases op with
    | unknown code => cases hty
    | _ =>
      rw [UnaryOp.type?] at hty
      split at hty
      · cases hty
        first | exact harg | exact List.forall_mem_nil _
      · cases hty
  | .deref _ arg, _, _, ⟨⟨argTy, harg, hty⟩, _⟩ => by
    obtain ⟨hpointee, -⟩ := Option.filter_eq_some_iff.mp hty
    -- Following the names of a type does not lead out of the tables.
    have hactual := (arg.hasRecords_of_hasType ht hguarded harg).actual ht hguarded
    rw [Ty.pointee?_eq_some_iff.mp hpointee] at hactual
    exact hactual
  | .binary _ op _ _, _, ty, ⟨⟨_, _, _, _, hty⟩, _⟩ => by
    have hnone : ty.records = [] := by
      unfold BinaryOp.type? at hty
      split at hty <;> split at hty <;> cases hty <;> rfl
    rw [Attributes.HasRecords, hnone]
    exact List.forall_mem_nil _
  | .index _ array _, _, _, ⟨⟨_, _, harray, _, hty, _⟩, _⟩ =>
    (array.hasRecords_of_hasType ht hguarded harray).elem? ht hguarded hty
  | .select _ record _, _, _, ⟨⟨_, _, hrecord, hty, _⟩, _⟩ =>
    (record.hasRecords_of_hasType ht hguarded hrecord).component? ht hguarded hty
  | .call .., _, _, ⟨⟨_, _, _, _, _, _, _, _, _, _, _, hty⟩, _⟩ => ht.denoted _ (.declType hty)
  | .block _ ss, _, _, h => Stmt.hasRecords_of_haveType ht hguarded ss h.1
  | .cast .., _, _, ⟨⟨_, _, _, hdenotes, hty⟩, _⟩ => by
    rw [Ty.cast?] at hty
    split at hty
    · cases hty
      exact ht.denoted _ (.isType hdenotes.isType)
    · cases hty
  | .scope _ _ body, _, _, h => body.hasRecords_of_hasType ht hguarded h.1.2.2

theorem Stmt.hasRecords_of_haveType (ht : t.Recorded) (hguarded : t.typeDefs.Guarded) :
    ∀ (ss : List Stmt) {sc : Scope} {ty : Ty}, Stmt.HaveType t sc ss ty → t.HasRecords ty
  | [], _, _, h | [.absent], _, _, h => by
    rw [show _ = Ty.void from h]
    exact List.forall_mem_nil _
  | [.eval _ e], _, _, h => e.hasRecords_of_hasType ht hguarded h
  | [.assign ..], _, _, h | [.cond ..], _, _, h | [.loop ..], _, _, h => by
    rw [h.2]
    exact List.forall_mem_nil _
  | _ :: s :: ss, _, _, h => Stmt.hasRecords_of_haveType ht hguarded (s :: ss) h.2

end

end

/-! ## §2 Where components lie -/

namespace Layout

/-- The number of a component with its place. -/
def componentAccess (c : Decl × Word × Word) : NodeId × Access := (c.1.id, .relative c.2.2 c.2.1 0)

/-- The places of the components of a record. -/
def recordAccesses (t : Attributes) (info : RecordInfo) : List (NodeId × Access) :=
  (compOffsets t 0 info.typed).map componentAccess

/-- The workspace with places recorded one after the other. -/
def placing (w : Workspace) (xs : List (NodeId × Access)) : Workspace :=
  { w with attrs := { w.attrs with accesses := xs.foldl (fun m x => m.insert x.1 x.2) w.attrs.accesses } }

theorem placing_append (w : Workspace) (xs ys : List (NodeId × Access)) :
    placing w (xs ++ ys) = placing (placing w xs) ys := by
  rw [placing, List.foldl_append]
  rfl

/-- Only the definitions of type names matter for the offsets in a record. -/
theorem compOffsets_congr {t t' : Attributes} (h : t.typeDefs = t'.typeDefs) : ∀ (offset : Word)
    (comps : List (Decl × String × Ty)), compOffsets t offset comps = compOffsets t' offset comps
  | _, [] => rfl
  | offset, (d, _, ty) :: comps => by
    have hsize : t.sizeOf ty = t'.sizeOf ty := by rw [Attributes.sizeOf, Attributes.sizeOf, h]
    rw [compOffsets, compOffsets, hsize, compOffsets_congr h _ comps]

theorem setComponents_spec : ∀ (cs : List (Decl × Word × Word)) (w : Workspace),
    Succeeds (cs.forM fun c => setAccess c.1.id (.relative c.2.2 c.2.1 0)) w fun _ w' =>
      w' = placing w (cs.map componentAccess)
  | [], w => .pure rfl
  | c :: cs, w => by
    have hfirst : Succeeds (setAccess c.1.id (.relative c.2.2 c.2.1 0)) w fun _ w' =>
        w' = placing w [componentAccess c] := ⟨_, _, rfl, rfl⟩
    refine hfirst.bind fun _ w₁ hw₁ => (setComponents_spec cs w₁).imp fun _ w₂ hw₂ => ?_
    rw [hw₂, hw₁, ← placing_append]
    rfl

/-- The components of all records get their places. -/
theorem records_placing : ∀ (rs : List (NodeId × RecordInfo)) (w : Workspace),
    Succeeds (rs.forM fun r => record r.2) w fun _ w' =>
      w' = placing w (rs.flatMap fun r => recordAccesses w.attrs r.2)
  | [], w => .pure rfl
  | r :: rs, w => by
    have hfirst := setComponents_spec (compOffsets w.attrs 0 r.2.typed) w
    refine Succeeds.bind (Pass.attrs_spec hfirst) fun _ w₁ hw₁ =>
      (records_placing rs w₁).imp fun _ w₂ hw₂ => ?_
    have hdefs : w₁.attrs.typeDefs = w.attrs.typeDefs := by
      rw [hw₁]
      rfl
    have hsame : ∀ r : NodeId × RecordInfo, recordAccesses w₁.attrs r.2 = recordAccesses w.attrs
        r.2 := fun r =>
      congrArg (List.map componentAccess) (compOffsets_congr hdefs 0 _)
    simp only [hsame] at hw₂
    rw [hw₂, hw₁, List.flatMap_cons, placing_append]
    rfl

theorem map_fst_recordAccesses (t : Attributes) {info : RecordInfo}
    (h : info.comps.length = info.fields.toList.length) :
    (recordAccesses t info).map Prod.fst = info.comps.map Decl.id := by
  rw [recordAccesses, List.map_map, ← List.map_fst_zip (Nat.le_of_eq h), ← map_fst_compOffsets t 0,
    List.map_map]
  rfl

end Layout

/-- The numbers of all components are different. -/
theorem Attributes.CompsDistinct.nodup {t : Attributes} (h : t.CompsDistinct)
    (hlength : ∀ (id : NodeId) info, t.records[id]? = some info →
      info.comps.length = info.fields.toList.length) :
    ((t.records.toList.flatMap fun r => Layout.recordAccesses t r.2).map Prod.fst).Nodup := by
  have hget : ∀ {r : NodeId × RecordInfo}, r ∈ t.records.toList → t.records[r.1]? = some r.2 := fun hr =>
    Std.TreeMap.mem_toList_iff_getElem?_eq_some.mp hr
  have hids : ∀ {r : NodeId × RecordInfo}, r ∈ t.records.toList →
      (Layout.recordAccesses t r.2).map Prod.fst = r.2.comps.map Decl.id := fun hr =>
    Layout.map_fst_recordAccesses t (hlength _ _ (hget hr))
  rw [List.map_flatMap, List.nodup_flatMap]
  refine ⟨fun r hr => ?_, Std.TreeMap.distinct_keys_toList.imp_of_mem fun {r r'} hr hr' hne => ?_⟩
  · rw [hids hr]
    refine List.nodup_iff_getElem?_ne_getElem?.mpr fun i j hij hj heq => ?_
    rw [List.length_map] at hj
    rw [List.getElem?_map, List.getElem?_map, List.getElem?_eq_getElem hj,
      List.getElem?_eq_getElem (Nat.lt_trans hij hj)] at heq
    have hsame := h r.1 r.1 r.2 r.2 (hget hr) (hget hr) i j _ _
      (List.getElem?_eq_getElem (Nat.lt_trans hij hj))
      (List.getElem?_eq_getElem hj) (Option.some.inj heq)
    omega
  · rw [Function.onFun, hids hr, hids hr']
    intro id hid hid'
    obtain ⟨d, hd, rfl⟩ := List.mem_map.mp hid
    obtain ⟨d', hd', heq⟩ := List.mem_map.mp hid'
    obtain ⟨i, hi⟩ := List.getElem?_of_mem hd
    obtain ⟨j, hj⟩ := List.getElem?_of_mem hd'
    have hsame := (h r.1 r'.1 r.2 r'.2 (hget hr) (hget hr') i j d d' hi hj heq.symm).1
    exact hne (by rw [hsame]; exact Std.ReflCmp.compare_self)

/-- All components lie at the offsets that are computed for their records. -/
def Attributes.PlacesComponents (t t' : Attributes) : Prop :=
  ∀ (id : NodeId) info, t.records[id]? = some info → ∀ c ∈ Layout.compOffsets t 0 info.typed,
    t'.accesses[c.1.id]? = some (.relative c.2.2 c.2.1 0)

/-- **Where components lie**: at the offsets that the layout computes for the records. -/
theorem Layout.program_components {p : Program} {w : Workspace} {scope : Scope} {hi : Nat}
    (hcomplete : Decl.CompleteAll p.decls) (hnum : Decl.NumberedAll p.decls 1 hi)
    (hresolved : Decl.ResolvedAll w.attrs scope p.decls)
    (hrecords : ∀ (id : NodeId) info, w.attrs.records[id]? = some info → info.WellFormed hi)
    (hdistinct : w.attrs.CompsDistinct) :
    Succeeds (program p) w fun _ w' => w.attrs.PlacesComponents w'.attrs := by
  refine Pass.attrs_spec ?_
  refine (records_placing w.attrs.records.toList w).bind fun _ w₁ hw₁ => ?_
  have hresolves : w₁.attrs.Resolves w.attrs := by
    rw [hw₁]
    exact ⟨rfl, rfl, rfl, rfl, rfl, rfl⟩
  refine (decls_spec p.decls hcomplete hnum hresolved hresolves).bind fun _ w₂ hdecls => .pure ?_
  intro id info hinfo c hc
  have hmem : (id, info) ∈ w.attrs.records.toList := Std.TreeMap.mem_toList_iff_getElem?_eq_some.mpr hinfo
  have hplaced : w₁.attrs.accesses[c.1.id]? = some (.relative c.2.2 c.2.1 0) := by
    rw [hw₁]
    have hnodup := hdistinct.nodup fun id info hinfo => (hrecords id info hinfo).length
    exact getElem?_foldl_insert_of_mem Prod.fst Prod.snd _ _
      (List.mem_flatMap.mpr ⟨_, hmem, List.mem_map_of_mem (f := componentAccess) hc⟩) hnodup
  -- The numbers of components lie behind those of the program.
  have hcomp : c.1 ∈ info.comps := by
    have hmap := List.mem_map_of_mem (f := Prod.fst) hc
    rw [map_fst_compOffsets] at hmap
    obtain ⟨⟨d, field⟩, hx, heq⟩ := List.mem_map.mp hmap
    exact heq ▸ (List.of_mem_zip hx).1
  obtain ⟨m, name, type, hd, hm⟩ := (hrecords id info hinfo).comp c.1 hcomp
  refine (hdecls.grows.accesses c.1.id (.inr ?_)).trans hplaced
  rw [hd]
  exact hm

/-! ## §3 Parts of a value -/

/-- A component lies below the end of what is counted from a start offset on. -/
theorem Attributes.exists_exactOffset {t : Attributes} {d : Decl} {name : String} {ty : Ty} :
    ∀ {ds : List Decl} {fields : Fields} {b : Nat}, (d, name, ty) ∈ ds.zip fields.toList →
      ∃ o, (d, o, ty.exactSize t.typeDefs) ∈ t.exactOffsets b (ds.zip fields.toList) ∧
        o + ty.exactSize t.typeDefs ≤ b + fields.exactSizeWith
          (t.typeDefs.exactNameSize (t.typeDefs.size + 1))
  | [], _, _, h => by
    rw [List.zip_nil_left] at h
    cases h
  | _ :: _, .nil, _, h => by cases h
  | d' :: ds, .cons name' ty' fields, b, h => by
    rw [Fields.exactSizeWith]
    rcases List.mem_cons.mp h with heq | h
    · cases heq
      exact ⟨b, List.mem_cons_self, Nat.add_le_add_left (Nat.le_add_right _ _) b⟩
    · obtain ⟨o, ho, hle⟩ := exists_exactOffset (b := b + ty'.exactSize t.typeDefs) h
      refine ⟨o, List.mem_cons_of_mem _ ho, ?_⟩
      rwa [← Nat.add_assoc]

/-- **A component lies inside of its record.** -/
theorem Attributes.component_inside {t t' : Attributes} (ht : t.Recorded) (hguarded : t.typeDefs.Guarded)
    (hdefs : t.typeDefs.Positive) (hpositive : ∀ (id : NodeId) info, t.records[id]? = some info →
      info.fields.Positive)
    (hplaces : t.PlacesComponents t') {recordTy ty : Ty} (hrecord : t.HasRecords recordTy)
    {ident : String} {d : Decl} (hcomp : t.component? recordTy ident = some (d, ty)) {offset : Word}
    (hoffset : t'.OffsetAt d.id offset) :
    ∃ o : Nat, offset = .ofNat o ∧ o + ty.exactSize t.typeDefs ≤ recordTy.exactSize t.typeDefs := by
  have hactual := hrecord.actual ht hguarded
  rw [← recordTy.exactSize_actual hguarded]
  rw [Attributes.component?] at hcomp
  split at hcomp
  · next id fields heq =>
    rw [heq] at hactual ⊢
    obtain ⟨info, hinfo, rfl⟩ := hactual _ List.mem_cons_self
    obtain ⟨⟨d', name, ty'⟩, hfound, hd⟩ := Option.map_eq_some_iff.mp hcomp
    cases hd
    rw [hinfo] at hfound
    have hmem : (d, name, ty) ∈ info.typed := List.mem_of_find?_eq_some hfound
    -- The offset that has been recorded is the one that is computed.
    obtain ⟨o, ho, hle⟩ := Attributes.exists_exactOffset (t := t) (b := 0) hmem
    have hfields : ∀ c ∈ info.typed, c.2.2.Positive := fun c hc =>
      Fields.positive_of_mem (hpositive id info hinfo) _ (List.of_mem_zip hc).2
    have hoffsets := compOffsets_eq hdefs hfields 0
    have hplaced := hplaces id info hinfo (d, .ofNat o, .ofNat (ty.exactSize t.typeDefs)) (by
      rw [show (0 : Word) = .ofNat 0 from rfl, hoffsets]
      exact List.mem_map_of_mem (f := fun c : Decl × Nat × Nat =>
        (c.1, Int64.ofNat c.2.1, Int64.ofNat c.2.2)) ho)
    obtain ⟨size, depth, hoffset⟩ := hoffset
    cases hoffset.symm.trans hplaced
    rw [Nat.zero_add] at hle
    exact ⟨o, rfl, hle⟩
  · cases hcomp

/-- **An element lies inside of its array.** -/
theorem Attributes.element_inside {t : Attributes} (hguarded : t.typeDefs.Guarded) {arrayTy ty : Ty}
    {len : Word} (hactual : arrayTy.actual t.typeDefs = .arr len ty) {i : Nat}
    (hi : (i : Int) < len.toInt) :
    i * ty.exactSize t.typeDefs + ty.exactSize t.typeDefs ≤ arrayTy.exactSize t.typeDefs := by
  rw [← arrayTy.exactSize_actual hguarded, hactual, ← Nat.succ_mul]
  exact Nat.mul_le_mul_right _ (Int.lt_toNat.mpr hi)

end Source

end MmixBackend
