import MmixBackend.Proofs.Types.Grammar

/-!
# The text of a type denotes the type

`Ty.text` writes a type without blanks, with the shortest spelling of every number and with every
name that stands for a declared type. This text derives from the grammar of types again, whatever
text the type has been read from, as long as names stand for declarations of these names.

Reading it gives a type with other record numbers. Under any definitions, complete or not, such a
type is equal to the first one and has the same size.

## Main statements

- `Ty.Spelled.text`: the text of a type that has been read denotes the type.
- `Ty.Renumbered.equal`: types that differ in record numbers only are equal.
-/

namespace MmixBackend

open Source (NodeId Decl TypeExpr)
open Text (Blanks Numbers)

/-! ## §1 Texts -/

theorem Text.Numbers.text {digits : List Char} {n : Word} (h : Numbers digits n) :
    Numbers n.text.toList n := by
  have hint : n.toInt = (Nat.ofDigitChars 10 digits 0 : Nat) := by
    rw [h.value]
    exact Int64.toInt_ofNat_of_lt h.lt
  have htext : n.text.toList = Nat.toDigits 10 (Nat.ofDigitChars 10 digits 0) := by
    rw [Word.text, hint]
    exact Nat.toList_repr
  have hvalue : Nat.ofDigitChars 10 n.text.toList 0 = Nat.ofDigitChars 10 digits 0 := by
    rw [htext, Nat.ofDigitChars_toDigits (by decide) (by decide)]
  constructor
  · intro c hc
    rw [htext] at hc
    exact Nat.isDigit_of_mem_toDigits (by decide) (by decide) hc
  · rw [hvalue]
    exact h.pos
  · rw [hvalue]
    exact h.lt
  · rw [hvalue]
    exact h.value

theorem Fields.toList_intercalate_texts (name : String) (t : Ty) (fields : Fields) :
    (String.intercalate "," (Fields.cons name t fields).texts).toList = name.toList ++ ':' ::
    (t.text.toList ++
      match fields with
      | .nil => []
      | .cons .. => ',' :: (String.intercalate "," fields.texts).toList) := by
  cases fields <;> simp [Fields.texts, String.toList_intercalate]

/-- Names are looked up as declarations of these names. -/
def NamesItself (lookup : String → Option Decl) : Prop := ∀ name d, lookup name = some d → d.name = name

section

variable {lookup : String → Option Decl}

theorem TypeNamed.text (hlookup : NamesItself lookup) {name : String} {t : Ty}
    (h : TypeNamed lookup name t) :
    t.text = name := by
  cases h with
  | declared _ hfind => exact hlookup name _ hfind
  | _ => rfl

mutual

/-- **The text of a type denotes the type**, if the type has any text. -/
theorem Ty.Spelled.text (hlookup : NamesItself lookup) :
    ∀ {cs : List Char} {t : Ty}, t.Spelled lookup cs → t.Spelled lookup t.text.toList
  | _, _, .ptr _ hbase => by
    rw [Ty.text, String.toList_append]
    exact .ptr .nil (hbase.text hlookup)
  | _, _, .arr _ _ hlen _ helem => by
    rw [Ty.text, String.toList_append, String.toList_append, String.toList_append, List.append_assoc,
      List.append_assoc]
    exact .arr .nil .nil hlen.text .nil (helem.text hlookup)
  | _, .record id fields, .record _ hfields hnodup _ => by
    have hrecord : (Ty.record id fields).Spelled lookup _ :=
      .record .nil (hfields.texts hlookup) hnodup .nil
    rw [Ty.text, String.toList_append, String.toList_append, List.append_assoc]
    exact hrecord
  | _, _, .name _ hident hname => by
    rw [hname.text hlookup]
    exact .name .nil hident hname

theorem Fields.Spelled.texts (hlookup : NamesItself lookup) :
    ∀ {cs : List Char} {fields : Fields}, fields.Spelled lookup cs →
      fields.Spelled lookup (String.intercalate "," fields.texts).toList
  | _, _, .last _ hident _ ht => by
    rw [Fields.toList_intercalate_texts, List.append_nil]
    exact .last .nil hident .nil (ht.text hlookup)
  | _, _, .more _ hident _ ht _ hfields => by
    have hrest := hfields.texts hlookup
    rw [Fields.toList_intercalate_texts]
    cases hfields with
    | last => exact .more .nil hident .nil (ht.text hlookup) .nil hrest
    | more => exact .more .nil hident .nil (ht.text hlookup) .nil hrest

end

end

/-! ## §2 Equality and sizes under the same definitions -/

namespace Ty

variable {defs : TypeDefs} {R : NodeId → NodeId → Prop} {a b : Ty}

theorem unfold_mem_reach (fuel : Nat) {x : Ty} (hx : x ∈ reach defs a b) :
    x.unfold defs fuel ∈ reach defs a b := by
  fun_induction x.unfold defs fuel with
  | case1 fuel d ident t hdef ih =>
    exact ih (mem_reach_iff.mpr (.inr (.inr ⟨d, t, hdef, t.mem_subterms_self⟩)))
  | case2 => exact hx
  | case3 => exact hx

/-- The test accepts pairs of a bisimulation whose outermost constructors agree as far as names are
unfolded. -/
theorem equalPairs_of_bisimulation {E : Ty → Ty → Prop}
    (hE : ∀ x y, E x y → (x.actual defs).head = (y.actual defs).head ∧
      ∀ p ∈ (x.actual defs).parts.zip (y.actual defs).parts, E p.1 p.2)
    (fuel : Nat) {seen pending : List (Ty × Ty)} (hnodup : seen.Nodup)
    (hseen : ∀ p ∈ seen, p.1 ∈ reach defs a b ∧ p.2 ∈ reach defs a b)
    (hpending : ∀ p ∈ pending, E p.1 p.2 ∧ p.1 ∈ reach defs a b ∧ p.2 ∈ reach defs a b)
    (hfuel : ((reach defs a b).length * (reach defs a b).length - seen.length)
      * (reach defs a b).length + pending.length ≤ fuel) : equalPairs defs fuel seen pending = true := by
  fun_induction equalPairs defs fuel seen pending with
  | case1 => rfl
  | case2 => simp at hfuel
  | case3 fuel seen x y pending hmet ih =>
    rw [List.length_cons] at hfuel
    exact ih hnodup hseen (List.forall_mem_cons.mp hpending).2 (by omega)
  | case4 fuel seen x y pending hmet parts hmatch ih =>
    obtain ⟨⟨hxy, hx, hy⟩, hpending⟩ := List.forall_mem_cons.mp hpending
    obtain ⟨-, rfl⟩ := matchTop_eq_some_iff.mp hmatch
    have hxs : x.actual defs ∈ reach defs a b := unfold_mem_reach _ hx
    have hys : y.actual defs ∈ reach defs a b := unfold_mem_reach _ hy
    have hnodup' : ((x, y) :: seen).Nodup :=
      List.nodup_cons.mpr ⟨fun hmem => hmet (List.contains_iff_mem.mpr hmem), hnodup⟩
    have hseen' : ∀ p ∈ (x, y) :: seen, p.1 ∈ reach defs a b ∧ p.2 ∈ reach defs a b :=
      List.forall_mem_cons.mpr ⟨⟨hx, hy⟩, hseen⟩
    -- A new pair joins the ones that were met, and there are finitely many, which pays for its parts.
    refine ih hnodup' hseen' (List.forall_mem_append.mpr ⟨fun p hp => ?_, hpending⟩) ?_
    · exact ⟨(hE x y hxy).2 p hp, mem_reach_of_part (List.of_mem_zip hp).1 hxs,
        mem_reach_of_part (List.of_mem_zip hp).2 hys⟩
    · rw [List.length_cons] at hfuel
      rw [List.length_append, List.length_zip]
      refine fuel_of_met (length_le_of_met hnodup' hseen') ?_ (by omega)
      exact Nat.le_trans (Nat.min_le_left _ _) (length_parts_le_reach hxs)
  | case5 fuel seen x y pending hmet hmatch =>
    have hhead := (hE x y (hpending _ List.mem_cons_self).1).1
    rw [matchTop_eq, if_pos hhead] at hmatch
    cases hmatch

theorem Renumbered.actual (h : a.Renumbered R b) (hR : ∀ i, R i i) :
    (a.actual defs).Renumbered R (b.actual defs) := by
  cases h with
  | named => exact .refl hR _
  | ptr h => exact .ptr h
  | arr h => exact .arr h
  | record hid h => exact .record hid h
  | void => exact .void
  | char => exact .char
  | int => exact .int
  | bool => exact .bool

/-- **Types that differ in record numbers only are equal**, whatever the names in them stand for. -/
theorem Renumbered.equal (h : a.Renumbered R b) (hR : ∀ i, R i i) : Ty.equal defs a b = true := by
  refine equalPairs_of_bisimulation (E := Ty.Renumbered R) (a := a) (b := b) (fun x y hxy => ?_) _ .nil
    (List.forall_mem_nil _) (List.forall_mem_singleton.mpr ⟨h, ?_, ?_⟩) ?_
  · have hxy' : (x.actual defs).Renumbered R (y.actual defs) := hxy.actual hR
    exact ⟨hxy'.head_eq, fun p hp => (List.forall₂_iff_zip.mp hxy'.parts).2 hp⟩
  · exact mem_reach_iff.mpr (.inl a.mem_subterms_self)
  · exact mem_reach_iff.mpr (.inr (.inl b.mem_subterms_self))
  · exact fuel_of_equal a b

end Ty

mutual

theorem Ty.Renumbered.sizeWith_eq {R : NodeId → NodeId → Prop} (nameSize : NodeId → Word) :
    ∀ {a b : Ty}, a.Renumbered R b → a.sizeWith nameSize = b.sizeWith nameSize
  | _, _, .void | _, _, .char | _, _, .int | _, _, .bool | _, _, .ptr _ | _, _, .named => rfl
  | _, _, .arr h => congrArg (_ * ·) (h.sizeWith_eq nameSize)
  | _, _, .record _ h => h.sizeWith_eq nameSize

theorem Fields.Renumbered.sizeWith_eq {R : NodeId → NodeId → Prop} (nameSize : NodeId → Word) :
    ∀ {fs gs : Fields}, fs.Renumbered R gs → fs.sizeWith nameSize = gs.sizeWith nameSize
  | _, _, .nil => rfl
  | _, _, .cons h hrest => congrArg₂ (· + ·) (h.sizeWith_eq nameSize) (hrest.sizeWith_eq nameSize)

end

end MmixBackend
