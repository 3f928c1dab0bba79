import Mathlib.Data.List.Perm.Subperm
import MmixBackend.Types.Equality

/-!
# Sizes of types

The size of a type is computed in words and wraps around when it gets too large. `Ty.exactSize` is
the size without bounds; the computed one is its remainder as long as the lengths of arrays are
positive, which the reader sees to. A scalar takes one word, whatever names it goes by and whatever
names are defined later.

## Main statements

- `Ty.size_eq_exactSize`: the computed size is the exact one modulo the range of words.
- `Ty.size_of_isScalar`: scalars take one word.
- `Ty.isScalar_of_assignable`: only scalars can be assigned to scalars.
-/

namespace MmixBackend

open Source (NodeId)

/-! ## §1 Exact sizes -/

mutual

/-- All arrays in the type have positive lengths, and all records have components. Behind pointers
nothing is asked for. -/
def Ty.Positive : Ty → Prop
  | .void | .char | .int | .bool | .ptr _ | .named _ _ => True
  | .arr len elem => 0 < len ∧ elem.Positive
  | .record _ fields => fields ≠ .nil ∧ fields.Positive

/-- The same for the components of a record. -/
def Fields.Positive : Fields → Prop
  | .nil => True
  | .cons _ type rest => type.Positive ∧ rest.Positive

end

mutual

/-- The bytes of a type without bounds, given those of the names in it. -/
def Ty.exactSizeWith (nameSize : NodeId → Nat) : Ty → Nat
  | .void | .char | .int | .bool | .ptr _ => 8
  | .arr len elem => len.toInt.toNat * elem.exactSizeWith nameSize
  | .record _ fields => fields.exactSizeWith nameSize
  | .named decl _ => nameSize decl

/-- The same for the components of a record together. -/
def Fields.exactSizeWith (nameSize : NodeId → Nat) : Fields → Nat
  | .nil => 0
  | .cons _ type rest => type.exactSizeWith nameSize + rest.exactSizeWith nameSize

end

/-- The bytes of a name without bounds, following at most `fuel` definitions. -/
def TypeDefs.exactNameSize (defs : TypeDefs) : (fuel : Nat) → NodeId → Nat
  | 0, _ => 0
  | fuel + 1, decl =>
    match defs[decl]? with
    | some t => t.exactSizeWith (defs.exactNameSize fuel)
    | none => 0

/-- The bytes of a type without bounds. -/
def Ty.exactSize (defs : TypeDefs) (t : Ty) : Nat := t.exactSizeWith (defs.exactNameSize (defs.size + 1))

/-- All definitions have positive array lengths. -/
def TypeDefs.Positive (defs : TypeDefs) : Prop := ∀ (decl : NodeId) t, defs[decl]? = some t → t.Positive

theorem Word.ofNat_toInt_toNat {len : Word} (h : 0 < len) : Int64.ofNat len.toInt.toNat = len := by
  have hlen : 0 < len.toInt := by simpa using Int64.lt_iff_toInt_lt.mp h
  rw [← Int64.ofInt_eq_ofNat, Int.toNat_of_nonneg (Int.le_of_lt hlen), Int64.ofInt_toInt]

mutual

theorem Ty.sizeWith_eq_exactSizeWith {nameSize : NodeId → Word} {exact : NodeId → Nat}
    (hnames : ∀ decl, nameSize decl = Int64.ofNat (exact decl)) : ∀ {t : Ty}, t.Positive →
    t.sizeWith nameSize = Int64.ofNat (t.exactSizeWith exact)
  | .void, _ | .char, _ | .int, _ | .bool, _ | .ptr _, _ => rfl
  | .named decl _, _ => hnames decl
  | .arr len elem, h => by
    rw [Ty.sizeWith, Ty.exactSizeWith, Ty.sizeWith_eq_exactSizeWith hnames h.2, Int64.ofNat_mul,
      Word.ofNat_toInt_toNat h.1]
  | .record _ fields, h => Fields.sizeWith_eq_exactSizeWith hnames h.2

theorem Fields.sizeWith_eq_exactSizeWith {nameSize : NodeId → Word} {exact : NodeId → Nat}
    (hnames : ∀ decl, nameSize decl = Int64.ofNat (exact decl)) : ∀ {fields : Fields}, fields.Positive →
    fields.sizeWith nameSize = Int64.ofNat (fields.exactSizeWith exact)
  | .nil, _ => rfl
  | .cons _ type rest, h => by
    rw [Fields.sizeWith, Fields.exactSizeWith, Ty.sizeWith_eq_exactSizeWith hnames h.1,
      Fields.sizeWith_eq_exactSizeWith hnames h.2, Int64.ofNat_add]

end

mutual

theorem Ty.dvd_exactSizeWith {exact : NodeId → Nat} (hnames : ∀ decl, 8 ∣ exact decl) : ∀ t : Ty,
    8 ∣ t.exactSizeWith exact
  | .void | .char | .int | .bool | .ptr _ => Nat.dvd_refl 8
  | .named decl _ => hnames decl
  | .arr _ elem => Nat.dvd_mul_left_of_dvd (Ty.dvd_exactSizeWith hnames elem) _
  | .record _ fields => Fields.dvd_exactSizeWith hnames fields

theorem Fields.dvd_exactSizeWith {exact : NodeId → Nat} (hnames : ∀ decl, 8 ∣ exact decl) :
    ∀ fields : Fields,
    8 ∣ fields.exactSizeWith exact
  | .nil => Nat.dvd_zero 8
  | .cons _ type rest =>
    Nat.dvd_add (Ty.dvd_exactSizeWith hnames type) (Fields.dvd_exactSizeWith hnames rest)

end

theorem TypeDefs.dvd_exactNameSize (defs : TypeDefs) (fuel : Nat) (decl : NodeId) :
    8 ∣ defs.exactNameSize fuel decl := by
  induction fuel generalizing decl with
  | zero => exact Nat.dvd_zero 8
  | succ fuel ih =>
    rw [exactNameSize]
    split
    · exact Ty.dvd_exactSizeWith ih _
    · exact Nat.dvd_zero 8

/-- Types take whole words. -/
theorem Ty.dvd_exactSize (defs : TypeDefs) (t : Ty) : 8 ∣ t.exactSize defs :=
  Ty.dvd_exactSizeWith (defs.dvd_exactNameSize _) t

theorem TypeDefs.nameSize_eq_exactNameSize {defs : TypeDefs} (h : defs.Positive) (fuel : Nat)
    (decl : NodeId) : defs.nameSize fuel decl = Int64.ofNat (defs.exactNameSize fuel decl) := by
  induction fuel generalizing decl with
  | zero => rfl
  | succ fuel ih =>
    rw [nameSize, exactNameSize]
    cases hdef : defs[decl]? with
    | none => rfl
    | some t => exact Ty.sizeWith_eq_exactSizeWith ih (h decl t hdef)

/-- **The computed size is the exact one** modulo the range of words. -/
theorem Ty.size_eq_exactSize {defs : TypeDefs} (hdefs : defs.Positive) {t : Ty} (h : t.Positive) :
    t.size defs = Int64.ofNat (t.exactSize defs) :=
  Ty.sizeWith_eq_exactSizeWith (defs.nameSize_eq_exactNameSize hdefs _) h

/-! ## §2 More definitions -/

/-- Definitions are added, and none is changed. -/
def TypeDefs.Grows (defs defs' : TypeDefs) : Prop :=
  ∀ (decl : NodeId) t, defs[decl]? = some t → defs'[decl]? = some t

namespace TypeDefs.Grows

variable {defs defs' defs'' : TypeDefs}

theorem refl (defs : TypeDefs) : defs.Grows defs := fun _ _ h => h

theorem trans (h : defs.Grows defs') (h' : defs'.Grows defs'') : defs.Grows defs'' :=
  fun decl t hdef => h' decl t (h decl t hdef)

theorem size_le (h : defs.Grows defs') : defs.size ≤ defs'.size := by
  rw [← Std.TreeMap.length_keys, ← Std.TreeMap.length_keys]
  refine (List.subperm_of_subset Std.TreeMap.nodup_keys fun decl hdecl => ?_).length_le
  rw [Std.TreeMap.mem_keys] at hdecl ⊢
  have hsome := Std.TreeMap.getElem?_eq_some_getElem hdecl
  rw [Std.TreeMap.mem_iff_isSome_getElem?, h decl _ hsome]
  rfl

end TypeDefs.Grows

/-- The outermost constructor of the type is not a name. -/
def Ty.IsActual : Ty → Prop
  | .named .. => False
  | _ => True

/-- What a type stands for stays when definitions are added. -/
theorem Ty.unfold_of_grows {defs defs' : TypeDefs} (h : defs.Grows defs') {fuel fuel' : Nat}
    (hfuel : fuel ≤ fuel') {t : Ty} (ht : (t.unfold defs fuel).IsActual) :
    t.unfold defs' fuel' = t.unfold defs fuel := by
  induction fuel generalizing fuel' t with
  | zero =>
    cases t with
    | named decl ident => exact ht.elim
    | _ => cases fuel' <;> rfl
  | succ fuel ih =>
    obtain ⟨fuel', rfl⟩ : ∃ n, fuel' = n + 1 := ⟨fuel' - 1, by omega⟩
    cases t with
    | named decl ident =>
      rw [Ty.unfold] at ht ⊢
      cases hdef : defs[decl]? with
      | none =>
        rw [hdef] at ht
        exact ht.elim
      | some t =>
        rw [hdef] at ht
        rw [h decl t hdef, Ty.unfold, hdef]
        exact ih (Nat.le_of_succ_le_succ hfuel) ht
    | _ => rfl

theorem Ty.actual_of_grows {defs defs' : TypeDefs} (h : defs.Grows defs') {t : Ty}
    (ht : (t.actual defs).IsActual) : t.actual defs' = t.actual defs :=
  Ty.unfold_of_grows h (Nat.succ_le_succ h.size_le) ht

/-! ## §3 Scalars -/

/-- The type is that of a scalar, without names around it. -/
def Ty.IsWord : Ty → Prop
  | .int | .char | .bool | .ptr _ => True
  | _ => False

theorem Ty.isScalar_iff {defs : TypeDefs} {t : Ty} : t.isScalar defs = true ↔ (t.actual defs).IsWord := by
  cases h : t.actual defs <;>
    simp [Ty.isScalar, Ty.isInt, Ty.isChar, Ty.isBool, Ty.isPtr, Ty.pointee?, Ty.IsWord, h]

/-- A scalar stays one when definitions are added. -/
theorem Ty.isScalar_of_grows {defs defs' : TypeDefs} (h : defs.Grows defs') {t : Ty}
    (ht : t.isScalar defs = true) : t.isScalar defs' = true := by
  rw [Ty.isScalar_iff] at ht ⊢
  rw [Ty.actual_of_grows h]
  · exact ht
  · cases hactual : t.actual defs <;> rw [hactual] at ht <;> trivial

theorem Ty.sizesWith_of_isWord {defs : TypeDefs} (fuel : Nat) {t : Ty} (h : (t.unfold defs fuel).IsWord) :
    t.sizeWith (defs.nameSize fuel) = Word.byteSize ∧ t.exactSizeWith (defs.exactNameSize fuel) = 8 := by
  induction fuel generalizing t with
  | zero => cases t <;> first | exact ⟨rfl, rfl⟩ | exact h.elim
  | succ fuel ih =>
    cases t with
    | named decl ident =>
      rw [Ty.unfold] at h
      rw [Ty.sizeWith, Ty.exactSizeWith, TypeDefs.nameSize, TypeDefs.exactNameSize]
      cases hdef : defs[decl]? with
      | none =>
        rw [hdef] at h
        exact h.elim
      | some t =>
        rw [hdef] at h
        exact ih h
    | int | char | bool | ptr base => exact ⟨rfl, rfl⟩
    | _ => exact h.elim

/-- **A scalar takes one word.** -/
theorem Ty.size_of_isScalar {defs : TypeDefs} {t : Ty} (h : t.isScalar defs = true) :
    t.size defs = Word.byteSize := (Ty.sizesWith_of_isWord _ (Ty.isScalar_iff.mp h)).1

theorem Ty.exactSize_of_isScalar {defs : TypeDefs} {t : Ty} (h : t.isScalar defs = true) :
    t.exactSize defs = 8 := (Ty.sizesWith_of_isWord _ (Ty.isScalar_iff.mp h)).2

theorem Ty.isWord_of_matchTop {a b : Ty} {parts : List (Ty × Ty)} (h : Ty.matchTop a b = some parts)
    (ha : a.IsWord) : b.IsWord := by
  cases a <;> first | exact ha.elim | (cases b <;> trivial)

/-- **Only scalars can be assigned to scalars.** -/
theorem Ty.isScalar_of_assignable {defs : TypeDefs} {dst src : Ty} (h : dst.assignable defs src = true)
    (hdst : dst.isScalar defs = true) : src.isScalar defs = true := by
  rw [Ty.assignable, Bool.or_eq_true] at h
  rcases h with h | h
  · rw [Ty.equal, Ty.equalPairs, if_neg (by simp)] at h
    split at h
    · next parts hmatch =>
      exact Ty.isScalar_iff.mpr (Ty.isWord_of_matchTop hmatch (Ty.isScalar_iff.mp hdst))
    · cases h
  · -- Otherwise both are pointers.
    cases hsrc : src.pointee? defs with
    | none =>
      rw [hsrc] at h
      cases hp : dst.pointee? defs <;> rw [hp] at h <;> cases h
    | some base => simp [Ty.isScalar, Ty.isPtr, hsrc]

end MmixBackend
