import MmixBackend.Proofs.Types.Equality

/-!
# Types with other record numbers

The number of a record tells it apart from other records with the same components and means nothing
else. Types that differ in these numbers only have the same text. If the definitions of their names
differ in the same way, then they have the same unfolding and the same size, and every question that
the checker asks has the same answer for both.

The second table of definitions may have fewer entries than the first one, as it has while a program is
being resolved. All names in the types and in the definitions must be among them.

## Main statements

- `TypeDefs.Corresponds.actual`: types that differ in record numbers still do so without outer names.
- `TypeDefs.Corresponds.at_iff`: they have the same unfolding.
- `TypeDefs.Corresponds.assignable_eq`: the same assignments are possible.
- `TypeDefs.Corresponds.size_eq`: they have the same size.
-/

namespace MmixBackend

open Source (NodeId)

/-! ## §1 Numbers of records -/

mutual

/-- The numbers of the records in a type, outer ones first. -/
def Ty.recordIds : Ty → List NodeId
  | .void | .char | .int | .bool | .named _ _ => []
  | .ptr base => base.recordIds
  | .arr _ elem => elem.recordIds
  | .record id fields => id :: fields.recordIds

/-- The numbers of the records in the components of a record. -/
def Fields.recordIds : Fields → List NodeId
  | .nil => []
  | .cons _ type rest => type.recordIds ++ rest.recordIds

end

mutual

/-- The records in a type with their numbers and components, outer ones first. -/
def Ty.records : Ty → List (NodeId × Fields)
  | .void | .char | .int | .bool | .named _ _ => []
  | .ptr base => base.records
  | .arr _ elem => elem.records
  | .record id fields => (id, fields) :: fields.records

/-- The records in the components of a record. -/
def Fields.records : Fields → List (NodeId × Fields)
  | .nil => []
  | .cons _ type rest => type.records ++ rest.records

end

mutual

theorem Ty.map_fst_records : ∀ t : Ty, t.records.map Prod.fst = t.recordIds
  | .void | .char | .int | .bool | .named _ _ => rfl
  | .ptr base => base.map_fst_records
  | .arr _ elem => elem.map_fst_records
  | .record id fields => congrArg (id :: ·) fields.map_fst_records

theorem Fields.map_fst_records : ∀ fields : Fields, fields.records.map Prod.fst = fields.recordIds
  | .nil => rfl
  | .cons _ type rest => by
    rw [Fields.records, Fields.recordIds, List.map_append, type.map_fst_records, rest.map_fst_records]

end

/-- The records in the type of a component are among those in the components. -/
theorem Fields.records_subset : ∀ {fields : Fields} {c : String × Ty}, c ∈ fields.toList →
    c.2.records ⊆ fields.records
  | .cons _ _ _, _, h => by
    rcases List.mem_cons.mp h with rfl | h
    · exact List.subset_append_left _ _
    · exact List.subset_append_of_subset_right _ (Fields.records_subset h)

mutual

/-- The type with all record numbers increased. -/
def Ty.shift (k : Nat) : Ty → Ty
  | .void => .void
  | .char => .char
  | .int => .int
  | .bool => .bool
  | .ptr base => .ptr (base.shift k)
  | .arr len elem => .arr len (elem.shift k)
  | .record id fields => .record (id + k) (fields.shift k)
  | .named decl ident => .named decl ident

/-- The same for the components of a record. -/
def Fields.shift (k : Nat) : Fields → Fields
  | .nil => .nil
  | .cons name type rest => .cons name (type.shift k) (rest.shift k)

end

mutual

theorem Ty.recordIds_shift (k : Nat) : ∀ t : Ty, (t.shift k).recordIds = t.recordIds.map (· + k)
  | .void | .char | .int | .bool | .named _ _ => rfl
  | .ptr base => base.recordIds_shift k
  | .arr _ elem => elem.recordIds_shift k
  | .record id fields => congrArg ((id + k) :: ·) (fields.recordIds_shift k)

theorem Fields.recordIds_shift (k : Nat) :
    ∀ fields : Fields, (fields.shift k).recordIds = fields.recordIds.map (· + k)
  | .nil => rfl
  | .cons _ type rest => by
    rw [Fields.shift, Fields.recordIds, Fields.recordIds, List.map_append, type.recordIds_shift k,
      rest.recordIds_shift k]

end

mutual

theorem Ty.exposes_shift {d : NodeId} (k : Nat) : ∀ t : Ty, (t.shift k).Exposes d ↔ t.Exposes d
  | .void | .char | .int | .bool | .ptr _ | .named _ _ => Iff.rfl
  | .arr _ elem => elem.exposes_shift k
  | .record _ fields => fields.exposes_shift k

theorem Fields.exposes_shift {d : NodeId} (k : Nat) : ∀ fields : Fields,
    (fields.shift k).Exposes d ↔ fields.Exposes d
  | .nil => Iff.rfl
  | .cons _ type rest => or_congr (type.exposes_shift k) (rest.exposes_shift k)

end

theorem Fields.toList_shift (k : Nat) : ∀ fields : Fields,
    (fields.shift k).toList = fields.toList.map fun f => (f.1, f.2.shift k)
  | .nil => rfl
  | .cons name type rest => congrArg ((name, type.shift k) :: ·) (rest.toList_shift k)

/-! ## §2 Types that differ in record numbers -/

mutual

/-- The second type is the first one with other record numbers; `R` relates the numbers. -/
inductive Ty.Renumbered (R : NodeId → NodeId → Prop) : Ty → Ty → Prop
  | void : Ty.Renumbered R .void .void
  | char : Ty.Renumbered R .char .char
  | int : Ty.Renumbered R .int .int
  | bool : Ty.Renumbered R .bool .bool
  | ptr {a b : Ty} : Ty.Renumbered R a b → Ty.Renumbered R (.ptr a) (.ptr b)
  | arr {len : Word} {a b : Ty} : Ty.Renumbered R a b → Ty.Renumbered R (.arr len a) (.arr len b)
  | record {i j : NodeId} {fs gs : Fields} :
    R i j → Fields.Renumbered R fs gs → Ty.Renumbered R (.record i fs) (.record j gs)
  | named {d : NodeId} {ident : String} : Ty.Renumbered R (.named d ident) (.named d ident)

/-- The same for the components of a record. -/
inductive Fields.Renumbered (R : NodeId → NodeId → Prop) : Fields → Fields → Prop
  | nil : Fields.Renumbered R .nil .nil
  | cons {name : String} {a b : Ty} {fs gs : Fields} : Ty.Renumbered R a b → Fields.Renumbered R fs gs →
    Fields.Renumbered R (.cons name a fs) (.cons name b gs)

end

section

variable {R S : NodeId → NodeId → Prop}

mutual

theorem Ty.Renumbered.refl (hR : ∀ i, R i i) : ∀ t : Ty, t.Renumbered R t
  | .void => .void
  | .char => .char
  | .int => .int
  | .bool => .bool
  | .ptr base => .ptr (.refl hR base)
  | .arr _ elem => .arr (.refl hR elem)
  | .record id fields => .record (hR id) (.refl hR fields)
  | .named _ _ => .named

theorem Fields.Renumbered.refl (hR : ∀ i, R i i) : ∀ fields : Fields, fields.Renumbered R fields
  | .nil => .nil
  | .cons _ type rest => .cons (.refl hR type) (.refl hR rest)

end

mutual

theorem Ty.Renumbered.mono (hRS : ∀ i j, R i j → S i j) : ∀ {a b : Ty}, a.Renumbered R b →
    a.Renumbered S b
  | _, _, .void => .void
  | _, _, .char => .char
  | _, _, .int => .int
  | _, _, .bool => .bool
  | _, _, .ptr h => .ptr (h.mono hRS)
  | _, _, .arr h => .arr (h.mono hRS)
  | _, _, .record hid h => .record (hRS _ _ hid) (h.mono hRS)
  | _, _, .named => .named

theorem Fields.Renumbered.mono (hRS : ∀ i j, R i j → S i j) :
    ∀ {fs gs : Fields}, fs.Renumbered R gs → fs.Renumbered S gs
  | _, _, .nil => .nil
  | _, _, .cons h hrest => .cons (h.mono hRS) (hrest.mono hRS)

end

mutual

theorem Ty.Renumbered.eq : ∀ {a b : Ty}, a.Renumbered Eq b → a = b
  | _, _, .void => rfl
  | _, _, .char => rfl
  | _, _, .int => rfl
  | _, _, .bool => rfl
  | _, _, .ptr h => congrArg Ty.ptr h.eq
  | _, _, .arr h => congrArg (Ty.arr _) h.eq
  | _, _, .record hid h => by rw [hid, h.eq]
  | _, _, .named => rfl

theorem Fields.Renumbered.eq : ∀ {fs gs : Fields}, fs.Renumbered Eq gs → fs = gs
  | _, _, .nil => rfl
  | _, _, .cons h hrest => by rw [h.eq, hrest.eq]

end

mutual

/-- Increasing all numbers by one amount or by another one. -/
theorem Ty.renumbered_shift {m n : Nat} : ∀ {t : Ty}, (∀ i ∈ t.recordIds, R (i + m) (i + n)) →
    (t.shift m).Renumbered R (t.shift n)
  | .void, _ => .void
  | .char, _ => .char
  | .int, _ => .int
  | .bool, _ => .bool
  | .ptr _, h => .ptr (Ty.renumbered_shift h)
  | .arr _ _, h => .arr (Ty.renumbered_shift h)
  | .record _ _, h =>
    .record (h _ List.mem_cons_self) (Fields.renumbered_shift fun i hi => h i (List.mem_cons_of_mem _ hi))
  | .named _ _, _ => .named

theorem Fields.renumbered_shift {m n : Nat} : ∀ {fields : Fields},
    (∀ i ∈ fields.recordIds, R (i + m) (i + n)) → (fields.shift m).Renumbered R (fields.shift n)
  | .nil, _ => .nil
  | .cons _ _ _, h => .cons (Ty.renumbered_shift fun i hi => h i (List.mem_append_left _ hi))
    (Fields.renumbered_shift fun i hi => h i (List.mem_append_right _ hi))

end

mutual

theorem Ty.Renumbered.text_eq : ∀ {a b : Ty}, a.Renumbered R b → a.text = b.text
  | _, _, .void | _, _, .char | _, _, .int | _, _, .bool | _, _, .named => rfl
  | _, _, .ptr h => congrArg ("^" ++ ·) h.text_eq
  | _, _, .arr h => congrArg (_ ++ ·) h.text_eq
  | _, _, .record _ h => by rw [Ty.text, Ty.text, h.texts_eq]

theorem Fields.Renumbered.texts_eq : ∀ {fs gs : Fields}, fs.Renumbered R gs → fs.texts = gs.texts
  | _, _, .nil => rfl
  | _, _, .cons h hrest => by rw [Fields.texts, Fields.texts, h.text_eq, hrest.texts_eq]

end

mutual

theorem Ty.Renumbered.namesIn_iff {P : NodeId → Prop} :
    ∀ {a b : Ty}, a.Renumbered R b → (a.NamesIn P ↔ b.NamesIn P)
  | _, _, .void | _, _, .char | _, _, .int | _, _, .bool | _, _, .named => Iff.rfl
  | _, _, .ptr h | _, _, .arr h => h.namesIn_iff
  | _, _, .record _ h => h.namesIn_iff

theorem Fields.Renumbered.namesIn_iff {P : NodeId → Prop} :
    ∀ {fs gs : Fields}, fs.Renumbered R gs → (fs.NamesIn P ↔ gs.NamesIn P)
  | _, _, .nil => Iff.rfl
  | _, _, .cons h hrest => and_congr h.namesIn_iff hrest.namesIn_iff

end

mutual

theorem Ty.Renumbered.exposes_iff {d : NodeId} :
    ∀ {a b : Ty}, a.Renumbered R b → (a.Exposes d ↔ b.Exposes d)
  | _, _, .void | _, _, .char | _, _, .int | _, _, .bool | _, _, .named | _, _, .ptr _ => Iff.rfl
  | _, _, .arr h => h.exposes_iff
  | _, _, .record _ h => h.exposes_iff

theorem Fields.Renumbered.exposes_iff {d : NodeId} :
    ∀ {fs gs : Fields}, fs.Renumbered R gs → (fs.Exposes d ↔ gs.Exposes d)
  | _, _, .nil => Iff.rfl
  | _, _, .cons h hrest => or_congr h.exposes_iff hrest.exposes_iff

end

/-- The components of the two records correspond one by one. -/
theorem Fields.Renumbered.toList : ∀ {fs gs : Fields}, fs.Renumbered R gs →
    List.Forall₂ (fun f g => f.1 = g.1 ∧ f.2.Renumbered R g.2) fs.toList gs.toList
  | _, _, .nil => .nil
  | _, _, .cons h hrest => .cons ⟨rfl, h⟩ hrest.toList

theorem Ty.Renumbered.head_eq {a b : Ty} (h : a.Renumbered R b) : a.head = b.head := by
  cases h with
  | record _ h =>
    refine congrArg Ty.Head.record ?_
    exact List.forall₂_eq_eq_eq ▸ List.forall₂_map_left_iff.mpr (List.forall₂_map_right_iff.mpr
      (h.toList.imp fun _ _ hfg => hfg.1))
  | _ => rfl

theorem Ty.Renumbered.parts {a b : Ty} (h : a.Renumbered R b) :
    List.Forall₂ (Ty.Renumbered R) a.parts b.parts := by
  cases h with
  | ptr h => exact .cons h .nil
  | arr h => exact .cons h .nil
  | record _ h =>
    exact List.forall₂_map_left_iff.mpr
      (List.forall₂_map_right_iff.mpr (h.toList.imp fun _ _ hfg => hfg.2))
  | _ => exact .nil

theorem Ty.Renumbered.eq_void_iff {a b : Ty} (h : a.Renumbered R b) : a = .void ↔ b = .void := by
  cases h <;> simp

theorem Ty.Renumbered.eq_char_iff {a b : Ty} (h : a.Renumbered R b) : a = .char ↔ b = .char := by
  cases h <;> simp

theorem Ty.Renumbered.eq_int_iff {a b : Ty} (h : a.Renumbered R b) : a = .int ↔ b = .int := by
  cases h <;> simp

theorem Ty.Renumbered.eq_bool_iff {a b : Ty} (h : a.Renumbered R b) : a = .bool ↔ b = .bool := by
  cases h <;> simp

end

theorem Fields.namesIn_of_mem {P : NodeId → Prop} : ∀ {fields : Fields}, fields.NamesIn P →
    ∀ f ∈ fields.toList, f.2.NamesIn P
  | .nil, _, _, hf => (List.not_mem_nil hf).elim
  | .cons _ _ _, h, f, hf => by
    rcases List.mem_cons.mp hf with rfl | hf
    · exact h.1
    · exact Fields.namesIn_of_mem h.2 f hf

/-- All names in a part of a type are in the type. -/
theorem Ty.namesIn_part {P : NodeId → Prop} {t part : Ty} (ht : t.NamesIn P) (hpart : part ∈ t.parts) :
    part.NamesIn P := by
  cases t with
  | ptr base => exact List.mem_singleton.mp hpart ▸ ht
  | arr len elem => exact List.mem_singleton.mp hpart ▸ ht
  | record id fields =>
    obtain ⟨f, hf, rfl⟩ := List.mem_map.mp hpart
    exact Fields.namesIn_of_mem ht f hf
  | _ => exact (List.not_mem_nil hpart).elim

/-! ## §3 Corresponding definitions -/

/-- Every definition in the second table is that of the first one with other record numbers. The first
table has no cycle that a size depends on, and the second one defines all names that it uses. -/
structure TypeDefs.Corresponds (R : NodeId → NodeId → Prop) (defs defs' : TypeDefs) : Prop where
  guarded : defs.Guarded
  closed : defs'.Closed
  image : ∀ (d : NodeId) t', defs'[d]? = some t' → ∃ t, defs[d]? = some t ∧ t.Renumbered R t'

namespace TypeDefs.Corresponds

variable {R : NodeId → NodeId → Prop} {defs defs' : TypeDefs} {a b a₁ a₂ b₁ b₂ : Ty}

theorem guarded_right (h : Corresponds R defs defs') : defs'.Guarded := by
  have hneeds : ∀ d d', defs'.Needs d d' → defs.Needs d d' := by
    rintro d d' ⟨t', ht', hd'⟩
    obtain ⟨t, ht, htt'⟩ := h.image d t' ht'
    exact ⟨t, ht, htt'.exposes_iff.mpr hd'⟩
  exact fun d hcycle => h.guarded d (Relation.TransGen.mono hneeds d d hcycle)

theorem actual_unfolds (h : Corresponds R defs defs') (t : Ty) : t.Unfolds defs' (t.actual defs') :=
  t.unfolds_actual fun d _ => h.guarded_right.founded d

/-- What the second type unfolds to, the first one unfolds to with other numbers. -/
theorem unfolds (h : Corresponds R defs defs') {b' : Ty} (hb : b.Unfolds defs' b')
    (hab : a.Renumbered R b) (hnames : b.NamesIn fun d => (defs'[d]?).isSome) :
    ∃ a', a.Unfolds defs a' ∧ a'.Renumbered R b' ∧ b'.NamesIn fun d => (defs'[d]?).isSome := by
  induction hb generalizing a with
  | @stop b hhead =>
    cases hab with
    | named =>
      rw [Ty.IsHead] at hhead
      rw [Ty.NamesIn, hhead] at hnames
      cases hnames
    | ptr hbase => exact ⟨_, .stop trivial, .ptr hbase, hnames⟩
    | arr helem => exact ⟨_, .stop trivial, .arr helem, hnames⟩
    | record hid hfields => exact ⟨_, .stop trivial, .record hid hfields, hnames⟩
    | void => exact ⟨_, .stop trivial, .void, hnames⟩
    | char => exact ⟨_, .stop trivial, .char, hnames⟩
    | int => exact ⟨_, .stop trivial, .int, hnames⟩
    | bool => exact ⟨_, .stop trivial, .bool, hnames⟩
  | step hdef _ ih =>
    cases hab with
    | named =>
      obtain ⟨t, ht, htt'⟩ := h.image _ _ hdef
      obtain ⟨a', ha', hab', hnames'⟩ := ih htt' (h.closed _ _ hdef)
      exact ⟨a', .step ht ha', hab', hnames'⟩

/-- **Without outer names the types still differ in record numbers only.** -/
theorem actual (h : Corresponds R defs defs') (hab : a.Renumbered R b)
    (hnames : b.NamesIn fun d => (defs'[d]?).isSome) :
    (a.actual defs).Renumbered R (b.actual defs') ∧
      (b.actual defs').NamesIn fun d => (defs'[d]?).isSome := by
  obtain ⟨a', ha', hab', hnames'⟩ := h.unfolds (h.actual_unfolds b) hab hnames
  rw [(a.unfolds_actual fun d _ => h.guarded.founded d).unique ha']
  exact ⟨hab', hnames'⟩

/-- **The types have the same unfolding.** -/
theorem at_iff (h : Corresponds R defs defs') (hab : a.Renumbered R b)
    (hnames : b.NamesIn fun d => (defs'[d]?).isSome) (path : List Nat) (n : Ty.Head) :
    a.At defs path n ↔ b.At defs' path n := by
  have ha := a.unfolds_actual fun d _ => h.guarded.founded d
  have hb := h.actual_unfolds b
  obtain ⟨hab', hnames'⟩ := h.actual hab hnames
  induction path generalizing a b with
  | nil => rw [ha.at_nil_iff, hb.at_nil_iff, hab'.head_eq]
  | cons i path ih =>
    rw [ha.at_cons_iff, hb.at_cons_iff]
    have hparts := hab'.parts
    -- The parts correspond like the types themselves, so the induction applies to them.
    have hpart {x y : Ty} (hy : (b.actual defs').parts[i]? = some y) (hxy : x.Renumbered R y) :
        x.At defs path n ↔ y.At defs' path n := by
      have hynames := Ty.namesIn_part hnames' (List.mem_of_getElem? hy)
      obtain ⟨hxy', hynames'⟩ := h.actual hxy hynames
      exact ih hxy hynames (x.unfolds_actual fun d _ => h.guarded.founded d)
        (h.actual_unfolds y) hxy' hynames'
    have hrel := List.forall₂_iff_get.mp hparts
    by_cases hi : i < (b.actual defs').parts.length
    · have hi' : i < (a.actual defs).parts.length := hrel.1 ▸ hi
      have hx := List.getElem?_eq_getElem hi'
      have hy := List.getElem?_eq_getElem hi
      rw [hx, hy]
      simpa using hpart hy (hrel.2 i hi' hi)
    · rw [List.getElem?_eq_none (Nat.le_of_not_lt hi), List.getElem?_eq_none
        (hrel.1 ▸ Nat.le_of_not_lt hi)]
      simp

/-! ## §4 Questions of the checker -/

section

variable (h : Corresponds R defs defs') (hab : a.Renumbered R b)
  (hnames : b.NamesIn fun d => (defs'[d]?).isSome)
include h hab hnames

theorem isInt_eq : a.isInt defs = b.isInt defs' :=
  decide_eq_decide.mpr (h.actual hab hnames).1.eq_int_iff

theorem isChar_eq : a.isChar defs = b.isChar defs' :=
  decide_eq_decide.mpr (h.actual hab hnames).1.eq_char_iff

theorem isBool_eq : a.isBool defs = b.isBool defs' :=
  decide_eq_decide.mpr (h.actual hab hnames).1.eq_bool_iff

theorem isVoid_eq : a.isVoid defs = b.isVoid defs' :=
  decide_eq_decide.mpr (h.actual hab hnames).1.eq_void_iff

theorem pointee? : Option.Rel (Ty.Renumbered R) (a.pointee? defs) (b.pointee? defs') ∧
    ∀ base, b.pointee? defs' = some base → base.NamesIn fun d => (defs'[d]?).isSome := by
  obtain ⟨hactual, hnames'⟩ := h.actual hab hnames
  rw [Ty.pointee?, Ty.pointee?]
  generalize a.actual defs = a' at hactual
  generalize b.actual defs' = b' at hactual hnames'
  cases hactual with
  | ptr hbase => exact ⟨.some hbase, fun base hb => Option.some.inj hb ▸ hnames'⟩
  | _ => exact ⟨.none, fun base hb => by cases hb⟩

theorem isPtr_eq : a.isPtr defs = b.isPtr defs' := by
  have hbase := (h.pointee? hab hnames).1
  rw [Ty.isPtr, Ty.isPtr]
  generalize a.pointee? defs = p at hbase
  generalize b.pointee? defs' = q at hbase
  cases hbase <;> rfl

theorem isScalar_eq : a.isScalar defs = b.isScalar defs' := by
  rw [Ty.isScalar, Ty.isScalar, h.isInt_eq hab hnames, h.isChar_eq hab hnames, h.isBool_eq hab hnames,
    h.isPtr_eq hab hnames]

theorem isCastable_eq : a.isCastable defs = b.isCastable defs' := by
  rw [Ty.isCastable, Ty.isCastable, h.isInt_eq hab hnames, h.isChar_eq hab hnames, h.isPtr_eq hab hnames]

end

/-- **The same assignments are possible.** -/
theorem assignable_eq (h : Corresponds R defs defs') (hab₁ : a₁.Renumbered R b₁)
    (hab₂ : a₂.Renumbered R b₂) (hnames₁ : b₁.NamesIn fun d => (defs'[d]?).isSome)
    (hnames₂ : b₂.NamesIn fun d => (defs'[d]?).isSome) :
    a₁.assignable defs a₂ = b₁.assignable defs' b₂ := by
  have hequal : Ty.equal defs a₁ a₂ = Ty.equal defs' b₁ b₂ := by
    rw [Bool.eq_iff_iff, Ty.equal_iff_sameUnfolding h.guarded, Ty.equal_iff_sameUnfolding h.guarded_right]
    exact forall₂_congr fun path n => iff_congr (h.at_iff hab₁ hnames₁ path n)
      (h.at_iff hab₂ hnames₂ path n)
  obtain ⟨hrel₁, hbase₁⟩ := h.pointee? hab₁ hnames₁
  obtain ⟨hrel₂, hbase₂⟩ := h.pointee? hab₂ hnames₂
  rw [Ty.assignable, Ty.assignable, hequal]
  generalize a₁.pointee? defs = p₁ at hrel₁
  generalize b₁.pointee? defs' = q₁ at hrel₁ hbase₁
  generalize a₂.pointee? defs = p₂ at hrel₂
  generalize b₂.pointee? defs' = q₂ at hrel₂ hbase₂
  cases hrel₁ with
  | none => rfl
  | some h₁ =>
    cases hrel₂ with
    | none => rfl
    | some h₂ => simp only [h.isVoid_eq h₁ (hbase₁ _ rfl), h.isVoid_eq h₂ (hbase₂ _ rfl)]

end TypeDefs.Corresponds

/-! ## §5 Sizes -/

mutual

/-- Computing the size of a type gives the same for a type with other record numbers. -/
theorem Ty.HasSize.renumbered {R : NodeId → NodeId → Prop} {defs defs' : TypeDefs}
    (hdefs : ∀ (d : NodeId) t', defs'[d]? = some t' → ∃ t, defs[d]? = some t ∧ t.Renumbered R t') :
    ∀ {a b : Ty} {n : Word}, b.HasSize defs' n → a.Renumbered R b → a.HasSize defs n
  | _, _, _, .void, .void => .void
  | _, _, _, .char, .char => .char
  | _, _, _, .int, .int => .int
  | _, _, _, .bool, .bool => .bool
  | _, _, _, .ptr, .ptr _ => .ptr
  | _, _, _, .arr h, .arr hab => .arr (h.renumbered hdefs hab)
  | _, _, _, .record h, .record _ hab => .record (h.renumbered hdefs hab)
  | _, _, _, .named hdef h, .named => by
    obtain ⟨t, ht, htt'⟩ := hdefs _ _ hdef
    exact .named ht (h.renumbered hdefs htt')

theorem Fields.HaveSize.renumbered {R : NodeId → NodeId → Prop} {defs defs' : TypeDefs}
    (hdefs : ∀ (d : NodeId) t', defs'[d]? = some t' → ∃ t, defs[d]? = some t ∧ t.Renumbered R t') :
    ∀ {fs gs : Fields} {n : Word}, gs.HaveSize defs' n → fs.Renumbered R gs → fs.HaveSize defs n
  | _, _, _, .nil, .nil => .nil
  | _, _, _, .cons h hrest, .cons hab hrest' =>
    .cons (h.renumbered hdefs hab) (hrest.renumbered hdefs hrest')

end

mutual

theorem Ty.HasSize.unique {defs : TypeDefs} : ∀ {t : Ty} {m n : Word},
    t.HasSize defs m → t.HasSize defs n → m = n
  | _, _, _, .void, .void | _, _, _, .char, .char | _, _, _, .int, .int | _, _, _, .bool, .bool
  | _, _, _, .ptr, .ptr => rfl
  | _, _, _, .arr h, .arr h' => congrArg _ (h.unique h')
  | _, _, _, .record h, .record h' => h.unique h'
  | _, _, _, .named hdef h, .named hdef' h' => by
    rw [hdef] at hdef'
    cases hdef'
    exact h.unique h'

theorem Fields.HaveSize.unique {defs : TypeDefs} : ∀ {fields : Fields} {m n : Word},
    fields.HaveSize defs m → fields.HaveSize defs n → m = n
  | _, _, _, .nil, .nil => rfl
  | _, _, _, .cons h hrest, .cons h' hrest' => by rw [h.unique h', hrest.unique hrest']

end

/-- **The types have the same size**, if the first table defines all names that are used, too. -/
theorem TypeDefs.Corresponds.size_eq {R : NodeId → NodeId → Prop} {defs defs' : TypeDefs}
    (h : Corresponds R defs defs') (hclosed : defs.Closed) {a b : Ty} (hab : a.Renumbered R b)
    (ha : a.NamesIn fun d => (defs[d]?).isSome) (hb : b.NamesIn fun d => (defs'[d]?).isSome) :
    a.size defs = b.size defs' :=
  (Ty.hasSize_size h.guarded hclosed ha).unique
    ((Ty.hasSize_size h.guarded_right h.closed hb).renumbered h.image hab)

end MmixBackend
