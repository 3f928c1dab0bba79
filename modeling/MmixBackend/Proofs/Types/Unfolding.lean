import Mathlib.Logic.Relation
import MmixBackend.Proofs.Types.Sizes

/-!
# Following type names

Three functions follow the definitions of type names: stripping the names around a type, computing
its size, and the test whether it has a size. Each of them is a recursion along the definitions, and
this module says when the recursion comes to an end. `Ty.Unfolds`, `Ty.HasSize` and `Ty.FiniteRun`
are the three recursions as derivations, without any bound on their depth.

A definition *needs* the names that it contains outside of pointers. If no name needs itself, in one
step or in many, then no chain of needs is longer than there are definitions, and the recursions
end. The test ends in any case, since it remembers the names that it is inside of.

## Main statements

- `TypeDefs.Guarded.founded`: without cycles all chains of needs end.
- `Ty.unfolds_actual`, `Ty.hasSize_size`: names are stripped and sizes computed in finitely many steps.
- `Ty.exactSize_pos`: every type takes some bytes.
- `Ty.finiteRun_finiteWith`: the test for a finite size always ends.
- `TypeDefs.isFinite_iff`: it accepts exactly the names from which all chains of needs end.
-/

namespace MmixBackend

open Source (NodeId)

/-! ## §1 Names that a type needs -/

mutual

/-- The type contains the name outside of pointers. -/
def Ty.Exposes (decl : NodeId) : Ty → Prop
  | .void | .char | .int | .bool | .ptr _ => False
  | .arr _ elem => elem.Exposes decl
  | .record _ fields => fields.Exposes decl
  | .named d _ => d = decl

/-- The same for the components of a record. -/
def Fields.Exposes (decl : NodeId) : Fields → Prop
  | .nil => False
  | .cons _ type rest => type.Exposes decl ∨ rest.Exposes decl

end

mutual

/-- All names in the type satisfy `P`, those behind pointers too. -/
def Ty.NamesIn (P : NodeId → Prop) : Ty → Prop
  | .void | .char | .int | .bool => True
  | .ptr base => base.NamesIn P
  | .arr _ elem => elem.NamesIn P
  | .record _ fields => fields.NamesIn P
  | .named d _ => P d

/-- The same for the components of a record. -/
def Fields.NamesIn (P : NodeId → Prop) : Fields → Prop
  | .nil => True
  | .cons _ type rest => type.NamesIn P ∧ rest.NamesIn P

end

mutual

theorem Ty.namesIn_mono {P Q : NodeId → Prop} (hPQ : ∀ d, P d → Q d) :
    ∀ (t : Ty), t.NamesIn P → t.NamesIn Q
  | .void, _ | .char, _ | .int, _ | .bool, _ => trivial
  | .ptr t, h | .arr _ t, h => t.namesIn_mono hPQ h
  | .record _ fields, h => fields.namesIn_mono hPQ h
  | .named d _, h => hPQ d h

theorem Fields.namesIn_mono {P Q : NodeId → Prop} (hPQ : ∀ d, P d → Q d) :
    ∀ (fields : Fields), fields.NamesIn P → fields.NamesIn Q
  | .nil, _ => trivial
  | .cons _ type rest, h => ⟨type.namesIn_mono hPQ h.1, rest.namesIn_mono hPQ h.2⟩

end

mutual

theorem Ty.of_exposes {P : NodeId → Prop} {decl : NodeId} : ∀ (t : Ty), t.NamesIn P →
    t.Exposes decl → P decl
  | .arr _ elem, h, he => elem.of_exposes h he
  | .record _ fields, h, he => fields.of_exposes h he
  | .named _ _, h, he => he ▸ h

theorem Fields.of_exposes {P : NodeId → Prop} {decl : NodeId} :
    ∀ (fields : Fields), fields.NamesIn P → fields.Exposes decl → P decl
  | .cons _ type _, h, .inl he => type.of_exposes h.1 he
  | .cons _ _ rest, h, .inr he => rest.of_exposes h.2 he

end

namespace TypeDefs

variable {defs : TypeDefs}

/-- The definition of `d` contains `d'` outside of pointers. -/
def Needs (defs : TypeDefs) (d d' : NodeId) : Prop := ∃ t, defs[d]? = some t ∧ t.Exposes d'

/-- Every cycle of type names passes a pointer. -/
def Guarded (defs : TypeDefs) : Prop := ∀ d, ¬Relation.TransGen defs.Needs d d

/-- All chains of needs from `d` on end. -/
def Founded (defs : TypeDefs) (d : NodeId) : Prop := Acc (fun x y => defs.Needs y x) d

/-- Chains of needs from `d` on contain at most `n` names with definitions. -/
def Within (defs : TypeDefs) : Nat → NodeId → Prop
  | 0, d => defs[d]? = none
  | n + 1, d => ∀ d', defs.Needs d d' → defs.Within n d'

/-! ## §2 Chains of needs -/

theorem Founded.not_transGen {d : NodeId} (h : defs.Founded d) : ¬Relation.TransGen defs.Needs d d := by
  induction h with
  | intro d _ ih =>
    intro hcycle
    -- The cycle through `d` also goes through the name that `d` needs first.
    obtain ⟨d', hneeds, hback⟩ := Relation.TransGen.head'_iff.mp hcycle
    exact ih d' hneeds (Relation.TransGen.tail' hback hneeds)

/-- As many different names with definitions as there are definitions, and not more. -/
theorem length_le_size {defs : TypeDefs} (names : List NodeId) (hnodup : names.Nodup)
    (hdefined : ∀ d ∈ names, (defs[d]?).isSome) : names.length ≤ defs.size := by
  rw [← Std.TreeMap.length_keys]
  refine (List.subperm_of_subset hnodup fun d hd => ?_).length_le
  rw [Std.TreeMap.mem_keys, Std.TreeMap.mem_iff_isSome_getElem?]
  exact hdefined d hd

/-- If no cycle can be reached from `d`, then chains from `d` on contain each definition at most once.
`before` are the names on the way to `d`. -/
theorem within_of_acyclic (n : Nat) (before : List NodeId) {d : NodeId}
    (hacyclic : ∀ x, Relation.ReflTransGen defs.Needs d x → ¬Relation.TransGen defs.Needs x x)
    (hnodup : before.Nodup) (hdefined : ∀ x ∈ before, (defs[x]?).isSome)
    (hpath : ∀ x ∈ before, Relation.TransGen defs.Needs x d) (hn : defs.size ≤ n + before.length) :
    defs.Within n d := by
  have hnew : d ∉ before := fun hd => hacyclic d .refl (hpath d hd)
  -- The names on the way are distinct and defined, so there are at most as many as definitions.
  induction n generalizing before d with
  | zero =>
    rw [Within, Option.eq_none_iff_forall_ne_some]
    intro t ht
    have hlength := length_le_size (d :: before) (List.nodup_cons.mpr ⟨hnew, hnodup⟩)
      (List.forall_mem_cons.mpr ⟨Option.isSome_of_eq_some ht, hdefined⟩)
    rw [List.length_cons] at hlength
    omega
  | succ n ih =>
    intro d' hneeds
    obtain ⟨t, ht, -⟩ := id hneeds
    refine ih (d :: before) (fun x hx => hacyclic x (.head hneeds hx))
      (List.nodup_cons.mpr ⟨hnew, hnodup⟩)
      (List.forall_mem_cons.mpr ⟨Option.isSome_of_eq_some ht, hdefined⟩)
      (List.forall_mem_cons.mpr ⟨.single hneeds, fun x hx => (hpath x hx).tail hneeds⟩)
      (by rw [List.length_cons]; omega) fun hd' => ?_
    rcases List.mem_cons.mp hd' with rfl | hd'
    · exact hacyclic d' .refl (.single hneeds)
    · exact hacyclic d' (.single hneeds) ((hpath d' hd').tail hneeds)

theorem Within.founded {n : Nat} {d : NodeId} (h : defs.Within n d) : defs.Founded d := by
  induction n generalizing d with
  | zero =>
    refine ⟨d, fun d' ⟨t, ht, _⟩ => ?_⟩
    rw [Within] at h
    rw [h] at ht
    cases ht
  | succ n ih => exact ⟨d, fun d' hneeds => ih (h d' hneeds)⟩

theorem Founded.of_reflTransGen {d d' : NodeId} (h : defs.Founded d)
    (hreach : Relation.ReflTransGen defs.Needs d d') : defs.Founded d' := by
  induction hreach with
  | refl => exact h
  | tail _ hneeds ih => exact ih.inv hneeds

theorem Founded.within {d : NodeId} (h : defs.Founded d) : defs.Within defs.size d :=
  within_of_acyclic _ [] (fun _ hx => (h.of_reflTransGen hx).not_transGen) .nil
    (List.forall_mem_nil _) (List.forall_mem_nil _) (Nat.le_add_right _ _)

/-- **Without cycles all chains of needs end.** -/
theorem Guarded.founded (h : defs.Guarded) (d : NodeId) : defs.Founded d :=
  (within_of_acyclic defs.size [] (fun x _ => h x) .nil (List.forall_mem_nil _)
    (List.forall_mem_nil _) (Nat.le_add_right _ _)).founded

theorem guarded_iff_founded : defs.Guarded ↔ ∀ d, defs.Founded d :=
  ⟨Guarded.founded, fun h d => (h d).not_transGen⟩

end TypeDefs

/-! ## §3 Stripping names -/

namespace Ty

variable {defs : TypeDefs}

/-- The type is not a name with a definition. -/
def IsHead (defs : TypeDefs) : Ty → Prop
  | named d _ => defs[d]? = none
  | _ => True

/-- Stripping the names around a type ends with `t'`. -/
inductive Unfolds (defs : TypeDefs) : Ty → Ty → Prop
  | stop {t : Ty} : t.IsHead defs → Unfolds defs t t
  | step {d : NodeId} {ident : String} {t t' : Ty} :
    defs[d]? = some t → Unfolds defs t t' → Unfolds defs (named d ident) t'

theorem Unfolds.unique {t a b : Ty} (ha : t.Unfolds defs a) (hb : t.Unfolds defs b) : a = b := by
  induction ha with
  | stop hhead =>
    cases hb with
    | stop => rfl
    | step hdef => rw [IsHead, hdef] at hhead; cases hhead
  | step hdef _ ih =>
    cases hb with
    | stop hhead => rw [IsHead, hdef] at hhead; cases hhead
    | step hdef' hb =>
      rw [hdef] at hdef'
      cases hdef'
      exact ih hb

theorem unfolds_unfold {n : Nat} {t : Ty} (h : ∀ d, t.Exposes d → defs.Within n d) :
    t.Unfolds defs (t.unfold defs (n + 1)) := by
  induction n generalizing t with
  | zero =>
    cases t with
    | named d ident =>
      have hdef := h d rfl
      rw [TypeDefs.Within] at hdef
      rw [unfold, hdef]
      exact .stop hdef
    | _ => exact .stop trivial
  | succ n ih =>
    cases t with
    | named d ident =>
      rw [unfold]
      cases hdef : defs[d]? with
      | none => exact .stop hdef
      | some t => exact .step hdef (ih fun d' hd' => h d rfl d' ⟨t, hdef, hd'⟩)
    | _ => exact .stop trivial

/-- **Names are stripped in finitely many steps** from a type that only needs names with an end. -/
theorem unfolds_actual {t : Ty} (h : ∀ d, t.Exposes d → defs.Founded d) :
    t.Unfolds defs (t.actual defs) :=
  unfolds_unfold fun d hd => (h d hd).within

theorem Unfolds.namesIn {P : NodeId → Prop} (hdefs : ∀ (d : NodeId) t, defs[d]? = some t → t.NamesIn P)
    {t t' : Ty} (h : t.Unfolds defs t') (ht : t.NamesIn P) : t'.NamesIn P := by
  induction h with
  | stop => exact ht
  | step hdef _ ih => exact ih (hdefs _ _ hdef)

end Ty

/-! ## §4 Sizes -/

mutual

/-- Computing the size of a type ends with `n`. -/
inductive Ty.HasSize (defs : TypeDefs) : Ty → Word → Prop
  | void : Ty.HasSize defs .void Word.byteSize
  | char : Ty.HasSize defs .char Word.byteSize
  | int : Ty.HasSize defs .int Word.byteSize
  | bool : Ty.HasSize defs .bool Word.byteSize
  | ptr {base : Ty} : Ty.HasSize defs (.ptr base) Word.byteSize
  | arr {len n : Word} {elem : Ty} : Ty.HasSize defs elem n → Ty.HasSize defs (.arr len elem) (len * n)
  | record {id : NodeId} {fields : Fields} {n : Word} :
    Fields.HaveSize defs fields n → Ty.HasSize defs (.record id fields) n
  | named {d : NodeId} {ident : String} {t : Ty} {n : Word} :
    defs[d]? = some t → Ty.HasSize defs t n → Ty.HasSize defs (.named d ident) n

/-- The same for the components of a record together. -/
inductive Fields.HaveSize (defs : TypeDefs) : Fields → Word → Prop
  | nil : Fields.HaveSize defs .nil 0
  | cons {name : String} {type : Ty} {rest : Fields} {n m : Word} :
    Ty.HasSize defs type n → Fields.HaveSize defs rest m →
      Fields.HaveSize defs (.cons name type rest) (n + m)

end

mutual

theorem Ty.hasSize_sizeWith {defs : TypeDefs} {nameSize : NodeId → Word} : ∀ {t : Ty},
    (∀ d ident, t.Exposes d → (Ty.named d ident).HasSize defs (nameSize d)) →
    t.HasSize defs (t.sizeWith nameSize)
  | .void, _ => .void
  | .char, _ => .char
  | .int, _ => .int
  | .bool, _ => .bool
  | .ptr _, _ => .ptr
  | .arr _ _, h => .arr (Ty.hasSize_sizeWith h)
  | .record _ _, h => .record (Fields.haveSize_sizeWith h)
  | .named d ident, h => h d ident rfl

theorem Fields.haveSize_sizeWith {defs : TypeDefs} {nameSize : NodeId → Word} : ∀ {fields : Fields},
    (∀ d ident, fields.Exposes d → (Ty.named d ident).HasSize defs (nameSize d)) →
    fields.HaveSize defs (fields.sizeWith nameSize)
  | .nil, _ => .nil
  | .cons _ _ _, h =>
    .cons (Ty.hasSize_sizeWith fun d ident hd => h d ident (.inl hd))
      (Fields.haveSize_sizeWith fun d ident hd => h d ident (.inr hd))

end

namespace TypeDefs

variable {defs : TypeDefs}

/-- All names in definitions have definitions themselves. -/
def Closed (defs : TypeDefs) : Prop :=
  ∀ (d : NodeId) t, defs[d]? = some t → t.NamesIn fun d' => (defs[d']?).isSome

theorem hasSize_nameSize (hclosed : defs.Closed) {n : Nat} {d : NodeId} (ident : String)
    (hdefined : (defs[d]?).isSome) (h : defs.Within n d) :
    (Ty.named d ident).HasSize defs (defs.nameSize n d) := by
  obtain ⟨t, ht⟩ := Option.isSome_iff_exists.mp hdefined
  induction n generalizing d ident t with
  | zero =>
    rw [Within, ht] at h
    cases h
  | succ n ih =>
    rw [nameSize, ht]
    refine .named ht (Ty.hasSize_sizeWith fun d' ident' hd' => ?_)
    have hdefined' := t.of_exposes (hclosed d t ht) hd'
    obtain ⟨t', ht'⟩ := Option.isSome_iff_exists.mp hdefined'
    exact ih ident' hdefined' (h d' ⟨t, ht, hd'⟩) t' ht'

end TypeDefs

theorem TypeDefs.Within.succ {defs : TypeDefs} {n : Nat} {d : NodeId} (h : defs.Within n d) :
    defs.Within (n + 1) d := by
  induction n generalizing d with
  | zero =>
    rintro d' ⟨t, ht, -⟩
    rw [Within] at h
    rw [h] at ht
    cases ht
  | succ n ih => exact fun d' hneeds => ih (h d' hneeds)

/-- **Sizes are computed in finitely many steps** for types in which all names are defined, if there
are no cycles. -/
theorem Ty.hasSize_size {defs : TypeDefs} (hguarded : defs.Guarded) (hclosed : defs.Closed) {t : Ty}
    (ht : t.NamesIn fun d => (defs[d]?).isSome) : t.HasSize defs (t.size defs) :=
  Ty.hasSize_sizeWith fun d ident hd =>
    TypeDefs.hasSize_nameSize hclosed ident (t.of_exposes ht hd) (hguarded.founded d).within.succ

mutual

/-- A type whose arrays and records have elements and components takes some bytes, if the names that
it needs do. -/
theorem Ty.exactSizeWith_pos {exact : NodeId → Nat} : ∀ {t : Ty}, t.Positive →
    (∀ d, t.Exposes d → 0 < exact d) → 0 < t.exactSizeWith exact
  | .void, _, _ | .char, _, _ | .int, _, _ | .bool, _, _ | .ptr _, _, _ => Nat.succ_pos 7
  | .arr len elem, h, hnames => by
    have hlen : 0 < len.toInt := by simpa using Int64.lt_iff_toInt_lt.mp h.1
    exact Nat.mul_pos (Int.pos_iff_toNat_pos.mp hlen) (Ty.exactSizeWith_pos h.2 hnames)
  | .record _ .nil, h, _ => absurd rfl h.1
  | .record _ (.cons name type rest), h, hnames =>
    Nat.add_pos_left (Ty.exactSizeWith_pos h.2.1 fun d hd => hnames d (.inl hd)) _
  | .named d _, _, hnames => hnames d rfl

end

theorem TypeDefs.exactNameSize_pos {defs : TypeDefs} (hpositive : defs.Positive)
    (hclosed : defs.Closed) {n : Nat} {d : NodeId} (hdefined : (defs[d]?).isSome)
    (h : defs.Within n d) : 0 < defs.exactNameSize n d := by
  obtain ⟨t, ht⟩ := Option.isSome_iff_exists.mp hdefined
  induction n generalizing d t with
  | zero =>
    rw [Within, ht] at h
    cases h
  | succ n ih =>
    rw [exactNameSize, ht]
    refine Ty.exactSizeWith_pos (hpositive d t ht) fun d' hd' => ?_
    have hdefined' := t.of_exposes (hclosed d t ht) hd'
    obtain ⟨t', ht'⟩ := Option.isSome_iff_exists.mp hdefined'
    exact ih hdefined' (h d' ⟨t, ht, hd'⟩) t' ht'

/-- **Every type takes some bytes**, if its arrays and records have elements and components and
there are no cycles. -/
theorem Ty.exactSize_pos {defs : TypeDefs} (hguarded : defs.Guarded) (hclosed : defs.Closed)
    (hpositive : defs.Positive) {t : Ty} (ht : t.NamesIn fun d => (defs[d]?).isSome)
    (htpos : t.Positive) :
    0 < t.exactSize defs :=
  Ty.exactSizeWith_pos htpos fun _ hd =>
    TypeDefs.exactNameSize_pos hpositive hclosed (t.of_exposes ht hd) (hguarded.founded _).within.succ

mutual

/-- Only the names that a type needs matter for its size. -/
theorem Ty.exactSizeWith_congr {f g : NodeId → Nat} : ∀ {t : Ty}, (∀ d, t.Exposes d → f d = g d) →
    t.exactSizeWith f = t.exactSizeWith g
  | .void, _ | .char, _ | .int, _ | .bool, _ | .ptr _, _ => rfl
  | .arr len _, h => congrArg (len.toInt.toNat * ·) (Ty.exactSizeWith_congr h)
  | .record _ _, h => Fields.exactSizeWith_congr h
  | .named d _, h => h d rfl

theorem Fields.exactSizeWith_congr {f g : NodeId → Nat} :
    ∀ {fields : Fields}, (∀ d, fields.Exposes d → f d = g d) →
    fields.exactSizeWith f = fields.exactSizeWith g
  | .nil, _ => rfl
  | .cons _ _ _, h => by
    rw [Fields.exactSizeWith, Fields.exactSizeWith, Ty.exactSizeWith_congr fun d hd => h d (.inl hd),
      Fields.exactSizeWith_congr fun d hd => h d (.inr hd)]

end

/-- Following more definitions does not change the size of a name whose chains have ended. -/
theorem TypeDefs.Within.exactNameSize_succ {defs : TypeDefs} {n : Nat} {d : NodeId}
    (h : defs.Within n d) :
    defs.exactNameSize (n + 1) d = defs.exactNameSize n d := by
  induction n generalizing d with
  | zero =>
    rw [Within] at h
    rw [exactNameSize, exactNameSize, h]
  | succ n ih =>
    rw [exactNameSize, exactNameSize]
    cases hdef : defs[d]? with
    | none => rfl
    | some t => exact Ty.exactSizeWith_congr fun d' hd' => ih (h d' ⟨t, hdef, hd'⟩)

/-- **A name takes as many bytes as what it stands for.** -/
theorem Ty.Unfolds.exactSize_eq {defs : TypeDefs} (hguarded : defs.Guarded) {t t' : Ty}
    (h : t.Unfolds defs t') :
    t'.exactSize defs = t.exactSize defs := by
  induction h with
  | stop => rfl
  | @step d ident t t' hdef _ ih =>
    rw [ih, exactSize, exactSize, exactSizeWith, TypeDefs.exactNameSize, hdef]
    exact exactSizeWith_congr fun d' _ => (hguarded.founded d').within.exactNameSize_succ

theorem Ty.exactSize_actual {defs : TypeDefs} (hguarded : defs.Guarded) (t : Ty) :
    (t.actual defs).exactSize defs = t.exactSize defs :=
  (unfolds_actual fun d _ => hguarded.founded d).exactSize_eq hguarded

/-! ## §5 The test for a finite size -/

mutual

/-- The test whether a type has a finite size, inside of the names in `visiting`, ends with the answer. -/
inductive Ty.FiniteRun (defs : TypeDefs) : List NodeId → Ty → Bool → Prop
  | void {visiting : List NodeId} : Ty.FiniteRun defs visiting .void true
  | char {visiting : List NodeId} : Ty.FiniteRun defs visiting .char true
  | int {visiting : List NodeId} : Ty.FiniteRun defs visiting .int true
  | bool {visiting : List NodeId} : Ty.FiniteRun defs visiting .bool true
  | ptr {visiting : List NodeId} {base : Ty} : Ty.FiniteRun defs visiting (.ptr base) true
  | arr {visiting : List NodeId} {len : Word} {elem : Ty} {b : Bool} :
    Ty.FiniteRun defs visiting elem b → Ty.FiniteRun defs visiting (.arr len elem) b
  | record {visiting : List NodeId} {id : NodeId} {fields : Fields} {b : Bool} :
    Fields.FiniteRun defs visiting fields b → Ty.FiniteRun defs visiting (.record id fields) b
  /-- The test has come back to a name that it is inside of. -/
  | back {visiting : List NodeId} {d : NodeId} {ident : String} :
    d ∈ visiting → Ty.FiniteRun defs visiting (.named d ident) false
  | undefined {visiting : List NodeId} {d : NodeId} {ident : String} :
    d ∉ visiting → defs[d]? = none → Ty.FiniteRun defs visiting (.named d ident) true
  | enter {visiting : List NodeId} {d : NodeId} {ident : String} {t : Ty} {b : Bool} :
    d ∉ visiting → defs[d]? = some t → Ty.FiniteRun defs (d :: visiting) t b →
      Ty.FiniteRun defs visiting (.named d ident) b

/-- The same for all components of a record; the first one without a finite size ends it. -/
inductive Fields.FiniteRun (defs : TypeDefs) : List NodeId → Fields → Bool → Prop
  | nil {visiting : List NodeId} : Fields.FiniteRun defs visiting .nil true
  | fail {visiting : List NodeId} {name : String} {type : Ty} {rest : Fields} :
    Ty.FiniteRun defs visiting type false → Fields.FiniteRun defs visiting (.cons name type rest) false
  | next {visiting : List NodeId} {name : String} {type : Ty} {rest : Fields} {b : Bool} :
    Ty.FiniteRun defs visiting type true → Fields.FiniteRun defs visiting rest b →
      Fields.FiniteRun defs visiting (.cons name type rest) b

end

mutual

theorem Ty.finiteRun_of_names {defs : TypeDefs} {visiting : List NodeId} {nameFinite : NodeId → Bool}
    (h : ∀ d ident, (Ty.named d ident).FiniteRun defs visiting (nameFinite d)) :
    ∀ t : Ty, t.FiniteRun defs visiting (t.finiteWith nameFinite)
  | .void => .void
  | .char => .char
  | .int => .int
  | .bool => .bool
  | .ptr _ => .ptr
  | .arr _ elem => .arr (Ty.finiteRun_of_names h elem)
  | .record _ fields => .record (Fields.finiteRun_of_names h fields)
  | .named d ident => h d ident

theorem Fields.finiteRun_of_names {defs : TypeDefs} {visiting : List NodeId} {nameFinite : NodeId → Bool}
    (h : ∀ d ident, (Ty.named d ident).FiniteRun defs visiting (nameFinite d)) :
    ∀ fields : Fields, fields.FiniteRun defs visiting (fields.finiteWith nameFinite)
  | .nil => .nil
  | .cons name type rest => by
    have htype := Ty.finiteRun_of_names h type
    rw [Fields.finiteWith]
    cases hfinite : type.finiteWith nameFinite with
    | false =>
      rw [hfinite] at htype
      exact .fail htype
    | true =>
      rw [hfinite] at htype
      exact .next htype (Fields.finiteRun_of_names h rest)

end

/-- **The test always ends**: the names that it is inside of are different and have definitions, so it is
never inside of more names than there are definitions. -/
theorem TypeDefs.finiteRun_nameFinite {defs : TypeDefs} (fuel : Nat) {visiting : List NodeId}
    (hnodup : visiting.Nodup) (hdefined : ∀ d ∈ visiting, (defs[d]?).isSome)
    (hfuel : defs.size + 1 ≤ fuel + visiting.length) (d : NodeId) (ident : String) :
    (Ty.named d ident).FiniteRun defs visiting (defs.nameFinite fuel visiting d) := by
  induction fuel generalizing visiting d ident with
  | zero =>
    have := length_le_size visiting hnodup hdefined
    omega
  | succ fuel ih =>
    rw [nameFinite]
    by_cases hback : d ∈ visiting
    · rw [if_pos (List.contains_iff_mem.mpr hback)]
      exact .back hback
    · rw [if_neg (by rwa [List.contains_iff_mem])]
      cases hdef : defs[d]? with
      | none => exact .undefined hback hdef
      | some t =>
        refine .enter hback hdef (Ty.finiteRun_of_names (fun d' ident' => ?_) t)
        exact ih (List.nodup_cons.mpr ⟨hback, hnodup⟩)
          (List.forall_mem_cons.mpr ⟨Option.isSome_of_eq_some hdef, hdefined⟩)
          (by rw [List.length_cons]; omega) d' ident'

theorem TypeDefs.finiteRun_isFinite (defs : TypeDefs) (d : NodeId) (ident : String) :
    (Ty.named d ident).FiniteRun defs [] (defs.isFinite d) :=
  finiteRun_nameFinite _ .nil (List.forall_mem_nil _) (Nat.le_succ _) d ident

mutual

theorem Ty.finiteWith_iff {nameFinite : NodeId → Bool} : ∀ (t : Ty),
    t.finiteWith nameFinite = true ↔ ∀ d, t.Exposes d → nameFinite d = true
  | .void | .char | .int | .bool | .ptr _ => by simp [Ty.finiteWith, Ty.Exposes]
  | .arr _ elem => elem.finiteWith_iff
  | .record _ fields => fields.finiteWith_iff
  | .named d _ => by simp [Ty.finiteWith, Ty.Exposes]

theorem Fields.finiteWith_iff {nameFinite : NodeId → Bool} : ∀ (fields : Fields),
    fields.finiteWith nameFinite = true ↔ ∀ d, fields.Exposes d → nameFinite d = true
  | .nil => by simp [Fields.finiteWith, Fields.Exposes]
  | .cons _ type rest => by
    simp only [Fields.finiteWith, Fields.Exposes, Bool.and_eq_true, or_imp, forall_and,
      type.finiteWith_iff, rest.finiteWith_iff]

end

namespace TypeDefs

variable {defs : TypeDefs}

theorem founded_of_nameFinite {fuel : Nat} {visiting : List NodeId} {d : NodeId}
    (h : defs.nameFinite fuel visiting d = true) : defs.Founded d := by
  induction fuel generalizing visiting d with
  | zero => cases h
  | succ fuel ih =>
    rw [nameFinite] at h
    split at h
    · cases h
    · refine ⟨d, fun d' ⟨t, ht, hd'⟩ => ?_⟩
      rw [ht] at h
      exact ih (t.finiteWith_iff.mp h d' hd')

theorem nameFinite_of_within {n fuel : Nat} {visiting : List NodeId} {d : NodeId} (h : defs.Within n d)
    (hpath : ∀ x ∈ visiting, Relation.TransGen defs.Needs x d) (hfuel : n + 1 ≤ fuel) :
    defs.nameFinite fuel visiting d = true := by
  induction n generalizing fuel visiting d with
  | zero =>
    obtain ⟨fuel, rfl⟩ : ∃ k, fuel = k + 1 := ⟨fuel - 1, by omega⟩
    have hnew : d ∉ visiting := fun hd => h.founded.not_transGen (hpath d hd)
    rw [Within] at h
    rw [nameFinite, if_neg (by rwa [List.contains_iff_mem]), h]
  | succ n ih =>
    obtain ⟨fuel, rfl⟩ : ∃ k, fuel = k + 1 := ⟨fuel - 1, by omega⟩
    have hnew : d ∉ visiting := fun hd => h.founded.not_transGen (hpath d hd)
    rw [nameFinite, if_neg (by rwa [List.contains_iff_mem])]
    cases hdef : defs[d]? with
    | none => rfl
    | some t =>
      refine t.finiteWith_iff.mpr fun d' hd' => ?_
      have hneeds : defs.Needs d d' := ⟨t, hdef, hd'⟩
      exact ih (h d' hneeds)
        (List.forall_mem_cons.mpr ⟨.single hneeds, fun x hx => (hpath x hx).tail hneeds⟩) (by omega)

/-- **The test accepts a name iff all chains of needs from it end.** -/
theorem isFinite_iff {d : NodeId} : defs.isFinite d = true ↔ defs.Founded d :=
  ⟨founded_of_nameFinite, fun h => nameFinite_of_within h.within (List.forall_mem_nil _) (Nat.le_succ _)⟩

end TypeDefs

end MmixBackend
