import MmixBackend.Proofs.Source.Outcomes

/-!
# Rules for types in other tables

The rules for the types of expressions look at the definitions of type names and at nothing else.
This module says what their results have in common with the types that they are applied to: the
names in them are the same, and types that differ in record numbers only, with definitions that do
so, give results that do so.

## Main statements

- `UnaryOp.type?_rel` to `ArgsFit.rel`: the rules, applied to types with other record numbers.
- `Attributes.component?_rel`: the components of two records that have been read from the same text.
-/

namespace MmixBackend

open Source (NodeId)

/-! ## §1 Names -/

section

variable {P : NodeId → Prop} {defs : TypeDefs} {ty ty' : Ty}

theorem Ty.namesIn_actual (hguarded : defs.Guarded)
    (hdefs : ∀ (d : NodeId) t, defs[d]? = some t → t.NamesIn P) (h : ty.NamesIn P) :
    (ty.actual defs).NamesIn P :=
  (ty.unfolds_actual fun d _ => hguarded.founded d).namesIn hdefs h

theorem Source.AtomKind.namesIn_of_type? {kind : Source.AtomKind} (hty : kind.type? = some ty) :
    ty.NamesIn P := by
  cases kind <;> cases hty <;> trivial

theorem Source.UnaryOp.namesIn_of_type? {op : Source.UnaryOp} {located : Bool}
    (hty : op.type? defs located ty = some ty') (h : ty.NamesIn P) : ty'.NamesIn P := by
  cases op <;> simp only [Source.UnaryOp.type?, Option.ite_none_right_eq_some, Option.some.injEq,
    reduceCtorEq] at hty
    <;> obtain ⟨-, rfl⟩ := hty <;> first | exact h | trivial

theorem Source.BinaryOp.namesIn_of_type? {op : Source.BinaryOp} {fst snd : Ty}
    (hty : op.type? defs fst snd = some ty) : ty.NamesIn P := by
  cases op <;> simp only [Source.BinaryOp.type?, Option.ite_none_right_eq_some, Option.some.injEq] at hty
    <;> obtain ⟨-, rfl⟩ := hty <;> trivial

section

variable (hguarded : defs.Guarded) (hdefs : ∀ (d : NodeId) t, defs[d]? = some t → t.NamesIn P)
include hguarded hdefs

theorem Ty.namesIn_of_target? (hty : ty.target? defs = some ty') (h : ty.NamesIn P) : ty'.NamesIn P := by
  have hactual := Ty.namesIn_actual hguarded hdefs h
  obtain ⟨hbase, -⟩ := Option.filter_eq_some_iff.mp hty
  rw [Ty.pointee?_eq_some_iff.mp hbase] at hactual
  exact hactual

theorem Ty.namesIn_of_elem? (hty : ty.elem? defs = some ty') (h : ty.NamesIn P) : ty'.NamesIn P := by
  have hactual := Ty.namesIn_actual hguarded hdefs h
  rw [Ty.elem?] at hty
  split at hty
  · next heq =>
    cases hty
    rw [heq] at hactual
    exact hactual
  · cases hty

end

theorem Ty.namesIn_of_cast? {src dst : Ty} (hty : src.cast? defs dst = some ty) (h : dst.NamesIn P) :
    ty.NamesIn P := by
  obtain ⟨-, ⟨⟩⟩ := Option.ite_none_right_eq_some.mp hty
  exact h

end

theorem Source.Attributes.namesIn_of_component? {P : NodeId → Prop} {t : Source.Attributes}
    {ty : Ty} {ident : String} {c : Source.Decl × Ty} (hguarded : t.typeDefs.Guarded)
    (hdefs : ∀ (d : NodeId) t', t.typeDefs[d]? = some t' → t'.NamesIn P)
    (hc : t.component? ty ident = some c) (h : ty.NamesIn P) : c.2.NamesIn P := by
  have hactual := Ty.namesIn_actual hguarded hdefs h
  rw [Source.Attributes.component?] at hc
  split at hc
  · next heq =>
    obtain ⟨found, hfound, rfl⟩ := Option.map_eq_some_iff.mp hc
    rw [heq] at hactual
    exact Fields.namesIn_of_mem hactual _ (List.of_mem_zip (List.mem_of_find?_eq_some hfound)).2
  · cases hc

/-! ## §2 Other record numbers -/

section

variable {R : NodeId → NodeId → Prop} {defs defs' : TypeDefs} {a b a₁ a₂ b₁ b₂ : Ty}

/-- There is a type in the first place iff there is one in the second place, and the types differ in
record numbers. -/
abbrev Ty.RenumberedIf (R : NodeId → NodeId → Prop) : Option Ty → Option Ty → Prop :=
    Option.Rel (Ty.Renumbered R)

theorem Ty.renumberedIf_eq {x y : Option Ty} (h : Ty.RenumberedIf Eq x y) : x = y := by
  cases h with
  | none => rfl
  | some h => rw [h.eq]

theorem Ty.renumberedIf_ite {c c' : Bool} (hc : c = c') (h : a.Renumbered R b) :
    Ty.RenumberedIf R (if c then some a else none) (if c' then some b else none) := by
  subst hc
  cases c with
  | true => exact .some h
  | false => exact .none

section

variable (h : TypeDefs.Corresponds R defs defs') (hab : a.Renumbered R b)
  (hnames : b.NamesIn fun d => (defs'[d]?).isSome)
include h hab hnames

theorem Source.UnaryOp.type?_rel (op : Source.UnaryOp) (located : Bool) :
    Ty.RenumberedIf R (op.type? defs located a) (op.type? defs' located b) := by
  cases op with
  | pos | neg => exact Ty.renumberedIf_ite (h.isInt_eq hab hnames) .int
  | not => exact Ty.renumberedIf_ite (h.isBool_eq hab hnames) .bool
  | addr => exact Ty.renumberedIf_ite rfl (.ptr hab)
  | new => exact Ty.renumberedIf_ite (h.isInt_eq hab hnames) (.ptr .void)
  | del => exact Ty.renumberedIf_ite (h.isPtr_eq hab hnames) .void
  | unknown code => exact .none

theorem Ty.target?_rel : Ty.RenumberedIf R (a.target? defs) (b.target? defs') := by
  obtain ⟨hrel, hbase⟩ := h.pointee? hab hnames
  rw [Ty.target?, Ty.target?]
  generalize a.pointee? defs = p at hrel
  generalize b.pointee? defs' = q at hrel hbase
  cases hrel with
  | none => exact .none
  | some hpq =>
    rw [Option.filter_some, Option.filter_some, h.isVoid_eq hpq (hbase _ rfl)]
    exact Ty.renumberedIf_ite rfl hpq

theorem Ty.elem?_rel : Ty.RenumberedIf R (a.elem? defs) (b.elem? defs') := by
  have hactual := (h.actual hab hnames).1
  rw [Ty.elem?, Ty.elem?]
  generalize a.actual defs = a' at hactual
  generalize b.actual defs' = b' at hactual
  cases hactual with
  | arr helem => exact .some helem
  | _ => exact .none

end

section

variable (h : TypeDefs.Corresponds R defs defs') (hab₁ : a₁.Renumbered R b₁) (hab₂ : a₂.Renumbered R b₂)
  (hnames₁ : b₁.NamesIn fun d => (defs'[d]?).isSome) (hnames₂ : b₂.NamesIn fun d => (defs'[d]?).isSome)
include h hab₁ hab₂ hnames₁ hnames₂

theorem Source.BinaryOp.type?_eq (op : Source.BinaryOp) : op.type? defs a₁ a₂ = op.type? defs' b₁ b₂ := by
  cases op <;> simp only [Source.BinaryOp.type?, h.isInt_eq hab₁ hnames₁, h.isInt_eq hab₂ hnames₂,
    h.isBool_eq hab₁ hnames₁, h.isBool_eq hab₂ hnames₂, h.isChar_eq hab₁ hnames₁,
      h.isChar_eq hab₂ hnames₂,
    h.isScalar_eq hab₁ hnames₁, h.assignable_eq hab₁ hab₂ hnames₁ hnames₂,
    h.assignable_eq hab₂ hab₁ hnames₂ hnames₁]

theorem Ty.cast?_rel : Ty.RenumberedIf R (a₁.cast? defs a₂) (b₁.cast? defs' b₂) := by
  refine Ty.renumberedIf_ite ?_ hab₂
  rw [h.isCastable_eq hab₁ hnames₁, h.isCastable_eq hab₂ hnames₂]

end

/-- Only taking an address asks whether the operand is a place in memory. -/
theorem Source.UnaryOp.type?_of_located {op : Source.UnaryOp} {located located' : Bool}
    (h : located = true → located' = true) (hty : op.type? defs located a = some b) :
    op.type? defs located' a = some b := by
  cases op with
  | addr =>
    obtain ⟨hlocated, hty⟩ := Option.ite_none_right_eq_some.mp hty
    exact (if_pos (h hlocated)).trans hty
  | _ => exact hty

/-! ## §3 Arguments and components -/

/-- Arguments fit in both places, if their types and those of the parameters differ in record numbers. -/
theorem Source.ArgsFit.rel {t t' : Source.Attributes} (h : TypeDefs.Corresponds R t.typeDefs t'.typeDefs)
    {tys tys' : List (Option Ty)} {ps ps' : List Source.Param}
    (htys : List.Forall₂ (fun ty ty' => Ty.RenumberedIf R ty ty' ∧
      ∀ b, ty' = some b → b.NamesIn fun d => (t'.typeDefs[d]?).isSome) tys tys')
    (hps : List.Forall₂ (fun p p' => Ty.RenumberedIf R t.declType[p.mark.id]? t'.declType[p'.mark.id]? ∧
      ∀ b, t'.declType[p'.mark.id]? = some b → b.NamesIn fun d => (t'.typeDefs[d]?).isSome) ps ps') :
    Source.ArgsFit t tys ps ↔ Source.ArgsFit t' tys' ps' := by
  induction htys generalizing ps ps' with
  | nil => exact Iff.rfl
  | @cons ty ty' _ _ hty _ ih =>
    cases hps with
    | nil => exact Iff.rfl
    | @cons p p' _ _ hp hps =>
      rw [Source.ArgsFit, Source.ArgsFit]
      refine and_congr ?_ (ih hps)
      obtain ⟨hty, hnames⟩ := hty
      obtain ⟨hp, hpnames⟩ := hp
      generalize t.declType[p.mark.id]? = want at hp
      generalize t'.declType[p'.mark.id]? = want' at hp hpnames
      cases hty with
      | none => simp
      | some hgot =>
        cases hp with
        | none => simp
        | some hwant => simp [h.assignable_eq hwant hgot (hpnames _ rfl) (hnames _ rfl)]

end

theorem find?_rel {α β : Type} {P : α → β → Prop} {p : α → Bool} {q : β → Bool}
    (h : ∀ a b, P a b → p a = q b) :
    ∀ {xs : List α} {ys : List β}, List.Forall₂ P xs ys → Option.Rel P (xs.find? p) (ys.find? q)
  | _, _, .nil => .none
  | _, _, .cons (a := a) (b := b) hab hrest => by
    rw [List.find?_cons, List.find?_cons, h a b hab]
    cases q b with
    | true => exact .some hab
    | false => exact find?_rel h hrest

theorem forall₂_zip {α β γ δ : Type} {P : α → β → Prop} {Q : γ → δ → Prop} :
    ∀ {as : List α} {bs : List β} {cs : List γ} {ds : List δ}, List.Forall₂ P as bs →
      List.Forall₂ Q cs ds →
    List.Forall₂ (fun x y => P x.1 y.1 ∧ Q x.2 y.2) (as.zip cs) (bs.zip ds)
  | _, _, _, _, .nil, _ => .nil
  | _, _, _, _, .cons _ _, .nil => .nil
  | _, _, _, _, .cons hab h, .cons hcd h' => .cons ⟨hab, hcd⟩ (forall₂_zip h h')

namespace Source.Attributes

variable {t t' : Attributes} {a b : Ty}

/-- The declarations of the components of a record, if it is there. -/
def comps (t : Attributes) (id : NodeId) : List Decl := (t.records[id]?.map RecordInfo.comps).getD []

/-- **Components of two types** that differ in record numbers. `C` relates the declarations of
components. -/
theorem component?_rel {R : NodeId → NodeId → Prop} (h : TypeDefs.Corresponds R t.typeDefs t'.typeDefs)
    (hab : a.Renumbered R b) (hnames : b.NamesIn fun d => (t'.typeDefs[d]?).isSome)
    {C : Decl → Decl → Prop} (hC : ∀ d d', C d d' → d.name = d'.name)
    (hcomps : ∀ i j, R i j → List.Forall₂ C (t.comps i) (t'.comps j)) (ident : String) :
    Option.Rel (fun c c' => C c.1 c'.1 ∧ c.2.Renumbered R c'.2) (t.component? a ident)
      (t'.component? b ident) := by
  have hactual := (h.actual hab hnames).1
  rw [component?, component?]
  generalize a.actual t.typeDefs = a' at hactual
  generalize b.actual t'.typeDefs = b' at hactual
  cases hactual with
  | record hid hfields =>
    have hfound := find?_rel (p := fun c => c.1.name = ident) (q := fun c => c.1.name = ident)
      (fun c c' hc => by rw [hC _ _ hc.1]) (forall₂_zip (hcomps _ _ hid) hfields.toList)
    rw [comps, comps] at hfound
    dsimp only
    generalize List.find? _ _ = x at hfound ⊢
    generalize List.find? _ _ = y at hfound ⊢
    cases hfound with
    | none => exact .none
    | some hc => exact .some ⟨hc.1, hc.2.2⟩
  | _ => exact .none

/-- A component that is found is found in tables with more records, too. -/
theorem component?_mono (h : TypeDefs.Corresponds Eq t.typeDefs t'.typeDefs)
    (hrecords : ∀ (id : NodeId) info, t'.records[id]? = some info → t.records[id]? = some info)
    (hnames : a.NamesIn fun d => (t'.typeDefs[d]?).isSome) {ident : String} {c : Decl × Ty}
    (hc : t'.component? a ident = some c) : t.component? a ident = some c := by
  have hactual := (h.actual (.refl (fun _ => rfl) a) hnames).1.eq
  rw [component?] at hc ⊢
  rw [hactual]
  split at hc
  · next id fields heq =>
    cases hinfo : t'.records[id]? with
    | none =>
      rw [hinfo] at hc
      simp at hc
    | some info =>
      rw [hinfo] at hc
      rw [hrecords id info hinfo]
      exact hc
  · cases hc

end Source.Attributes

end MmixBackend
