import MmixBackend.Proofs.Source.Errors
import MmixBackend.Proofs.Source.Numbering
import MmixBackend.Proofs.Source.Scoping
import MmixBackend.Proofs.Types.Reader

/-!
# Resolution without errors

A program on which resolution reports no error is lexically resolved, and every expression, declaration
and argument in it has a type. The proof goes along the run: resolving the nodes numbered from `lo` to
`hi` binds and types these nodes only, and whatever it has recorded stays as it is.

## Main statements

- `Resolve.expr_spec`: what resolving an expression without errors has recorded.
- `Program.resolved_of_resolve`: a program that resolves is lexically resolved.
-/

namespace MmixBackend.Source

/-! ## §1 How the tables grow -/

/-- A global declaration has the name of a runtime routine only if it is a function without a body, or a
type. -/
def Decl.Permitted : Decl → Prop
  | .fn _ name _ _ body => name ∈ Resolve.runtimeNames → body = .absent
  | .var _ name _ => name ∉ Resolve.runtimeNames
  | _ => True

/-- The global declarations of a program have different names, none of them taken from a runtime
routine. -/
structure Program.WellNamed (p : Program) : Prop where
  distinct : (p.decls.map Decl.name).Nodup
  permitted : ∀ d ∈ p.decls, d.Permitted

/-- The records have numbers that the counter has handed out, their components numbers from `base`
on. The same counter is above all declarations that have a type, and the types have positive array
lengths. -/
structure Resolving.Inv (base : Nat) (s : Resolving) : Prop where
  base_le : base ≤ s.nextId
  records : ∀ (id : Nat) info, s.attrs.records[id]? = some info →
    id < s.nextId ∧ info.WellFormed base
  declType : ∀ (id : Nat) ty, s.attrs.declType[id]? = some ty → id < s.nextId ∧ ty.Positive
  typeDefs : s.attrs.typeDefs.Positive

/-- The numbers from `lo` up to `hi`. -/
abbrev Between (lo hi id : Nat) : Prop := lo ≤ id ∧ id < hi

/-- Declarations with numbers that are not among `ids` keep their types and what they stand for. -/
structure Resolving.Keeps (base : Nat) (ids : Nat → Prop) (s s' : Resolving) : Prop where
  declType : ∀ (id : Nat) ty, ¬ids id → s.attrs.declType[id]? = some ty →
    s'.attrs.declType[id]? = some ty
  untyped : ∀ id : Nat, id < base → ¬ids id → s.attrs.declType[id]? = none →
    s'.attrs.declType[id]? = none
  typeDefs : ∀ id : Nat, ¬ids id → s'.attrs.typeDefs[id]? = s.attrs.typeDefs[id]?

/-- What a step does to the state that resolves nodes with numbers from `lo` up to `hi` and gives types
to declarations with numbers among `ids`. -/
structure Resolving.Changes (base lo hi : Nat) (ids : Nat → Prop) (s s' : Resolving) : Prop where
  inv : s.Inv base → s'.Inv base
  declaredAt : ∀ id : Nat, id < lo ∨ hi ≤ id →
    s'.attrs.declaredAt[id]? = s.attrs.declaredAt[id]?
  ofType : ∀ id : Nat, id < lo ∨ hi ≤ id → s'.attrs.ofType[id]? = s.attrs.ofType[id]?
  records : ∀ (id : Nat) info, s.attrs.records[id]? = some info → s'.attrs.records[id]? = some info
  keeps : s.Keeps base ids s'
  strings : s'.attrs.strings = s.attrs.strings

/-- What resolving the nodes with numbers from `lo` up to `hi` does to the state. The types of
declarations that are there stay. -/
structure Resolving.Extends (base lo hi : Nat) (s s' : Resolving) : Prop extends
    Resolving.Changes base lo hi (Between lo hi) s s' where
  declType : ∀ (id : Nat) ty, s.attrs.declType[id]? = some ty → s'.attrs.declType[id]? = some ty
  typeDefs : s.attrs.typeDefs.Grows s'.attrs.typeDefs

/-- The tables `t` have what the state `s` has recorded for the nodes with numbers from `lo` up to
`hi`. -/
structure Resolving.Settled (lo hi : Nat) (s : Resolving) (t : Attributes) : Prop where
  declaredAt : ∀ id : Nat, lo ≤ id → id < hi → t.declaredAt[id]? = s.attrs.declaredAt[id]?
  ofType : ∀ id : Nat, lo ≤ id → id < hi → t.ofType[id]? = s.attrs.ofType[id]?
  records : ∀ (id : Nat) info, s.attrs.records[id]? = some info → t.records[id]? = some info
  declType : ∀ (id : Nat) ty, s.attrs.declType[id]? = some ty → t.declType[id]? = some ty
  typeDefs : s.attrs.typeDefs.Grows t.typeDefs

/-- None of the declarations with numbers among `ids` has a type. -/
def Resolving.Fresh (s : Resolving) (ids : Nat → Prop) : Prop :=
  ∀ id : Nat, ids id → s.attrs.declType[id]? = none ∧ s.attrs.typeDefs[id]? = none

namespace Resolving

variable {base lo hi lo₁ hi₁ lo₂ hi₂ : Nat} {ids ids' : Nat → Prop} {s s' s'' : Resolving}
  {t : Attributes}

theorem Keeps.of_eq (hdecl : s'.attrs.declType = s.attrs.declType)
    (hdefs : s'.attrs.typeDefs = s.attrs.typeDefs) : s.Keeps base ids s' :=
  ⟨fun _ _ _ h => hdecl ▸ h, fun _ _ _ h => hdecl ▸ h, fun _ _ => by rw [hdefs]⟩

theorem Keeps.widen (h : s.Keeps base ids s') (hids : ∀ id, ids id → ids' id) : s.Keeps base ids' s' where
  declType id ty hid := h.declType id ty fun h' => hid (hids id h')
  untyped id hbase hid := h.untyped id hbase fun h' => hid (hids id h')
  typeDefs id hid := h.typeDefs id fun h' => hid (hids id h')

theorem Keeps.trans (h : s.Keeps base ids s') (h' : s'.Keeps base ids s'') : s.Keeps base ids s'' where
  declType id ty hid hty := h'.declType id ty hid (h.declType id ty hid hty)
  untyped id hbase hid hty := h'.untyped id hbase hid (h.untyped id hbase hid hty)
  typeDefs id hid := (h'.typeDefs id hid).trans (h.typeDefs id hid)

theorem Changes.refl (base lo hi : Nat) (ids : Nat → Prop) (s : Resolving) : s.Changes base lo hi ids s :=
  ⟨id, fun _ _ => rfl, fun _ _ => rfl, fun _ _ h => h, .of_eq rfl rfl, rfl⟩

theorem Changes.widen (h : s.Changes base lo₁ hi₁ ids s') (hlo : lo ≤ lo₁) (hhi : hi₁ ≤ hi)
    (hids : ∀ id, ids id → ids' id) : s.Changes base lo hi ids' s' where
  inv := h.inv
  declaredAt id hid := h.declaredAt id (by omega)
  ofType id hid := h.ofType id (by omega)
  records := h.records
  keeps := h.keeps.widen hids
  strings := h.strings

theorem Changes.trans (h : s.Changes base lo hi ids s') (h' : s'.Changes base lo hi ids s'') :
    s.Changes base lo hi ids s'' where
  inv hs := h'.inv (h.inv hs)
  declaredAt id hid := (h'.declaredAt id hid).trans (h.declaredAt id hid)
  ofType id hid := (h'.ofType id hid).trans (h.ofType id hid)
  records id info hid := h'.records id info (h.records id info hid)
  keeps := h.keeps.trans h'.keeps
  strings := h'.strings.trans h.strings

theorem Changes.among (h : s.Changes base lo hi (fun _ => False) s') (ids : Nat → Prop) :
    s.Changes base lo hi ids s' :=
  h.widen (Nat.le_refl lo) (Nat.le_refl hi) fun _ h => h.elim

/-- A step that gives no types to declarations of the program. -/
theorem Changes.extends (h : s.Changes base lo hi (fun _ => False) s') : s.Extends base lo hi s' where
  toChanges := h.among _
  declType id ty hty := h.keeps.declType id ty (fun h => h) hty
  typeDefs id _ hdef := (h.keeps.typeDefs id fun h => h).trans hdef

theorem Extends.refl (base lo hi : Nat) (s : Resolving) : s.Extends base lo hi s :=
  (Changes.refl base lo hi _ s).extends

theorem Extends.widen (h : s.Extends base lo₁ hi₁ s') (hlo : lo ≤ lo₁) (hhi : hi₁ ≤ hi) :
    s.Extends base lo hi s' where
  toChanges := h.toChanges.widen hlo hhi fun id hid => ⟨by omega, by omega⟩
  declType := h.declType
  typeDefs := h.typeDefs

theorem Extends.trans (h : s.Extends base lo hi s') (h' : s'.Extends base lo hi s'') :
    s.Extends base lo hi s'' where
  toChanges := h.toChanges.trans h'.toChanges
  declType id ty hty := h'.declType id ty (h.declType id ty hty)
  typeDefs := h.typeDefs.trans h'.typeDefs

/-- A step gives types to declarations that have had none, so all types stay. -/
theorem Changes.extends_of_fresh (h : s.Changes base lo hi ids s') (hfresh : s.Fresh ids)
    (hids : ∀ id, ids id → Between lo hi id) : s.Extends base lo hi s' where
  toChanges := h.widen (Nat.le_refl lo) (Nat.le_refl hi) hids
  declType id ty hty := by
    refine h.keeps.declType id ty (fun hid => ?_) hty
    rw [(hfresh id hid).1] at hty
    cases hty
  typeDefs id ty hty := by
    refine (h.keeps.typeDefs id fun hid => ?_).trans hty
    rw [(hfresh id hid).2] at hty
    cases hty

/-- What has no types stays so while others get theirs. -/
theorem Fresh.keep (h : s.Fresh ids) (hkeeps : s.Keeps base ids' s') (hbase : ∀ id, ids id → id < base)
    (hids : ∀ id, ids id → ¬ids' id) : s'.Fresh ids := fun id hid =>
  ⟨hkeeps.untyped id (hbase id hid) (hids id hid) (h id hid).1,
    (hkeeps.typeDefs id (hids id hid)).trans (h id hid).2⟩

/-- What has been recorded for some nodes stays while others are resolved. -/
theorem Settled.before (h : s'.Settled lo hi t) (hstep : s.Extends base lo₂ hi₂ s') (hlo : lo ≤ lo₁)
    (hhi : hi₁ ≤ hi) (hapart : hi₁ ≤ lo₂ ∨ hi₂ ≤ lo₁) : s.Settled lo₁ hi₁ t where
  declaredAt id h₁ h₂ :=
    (h.declaredAt id (by omega) (by omega)).trans (hstep.declaredAt id (by omega))
  ofType id h₁ h₂ := (h.ofType id (by omega) (by omega)).trans (hstep.ofType id (by omega))
  records id info hid := h.records id info (hstep.records id info hid)
  declType id ty hty := h.declType id ty (hstep.declType id ty hty)
  typeDefs := hstep.typeDefs.trans h.typeDefs

theorem Settled.narrow (h : s.Settled lo hi t) (hlo : lo ≤ lo₁) (hhi : hi₁ ≤ hi) :
    s.Settled lo₁ hi₁ t where
  declaredAt id h₁ h₂ := h.declaredAt id (by omega) (by omega)
  ofType id h₁ h₂ := h.ofType id (by omega) (by omega)
  records := h.records
  declType := h.declType
  typeDefs := h.typeDefs

end Resolving

/-- Resolving nodes with numbers from `lo` up to `hi` establishes what `P` says about the tables: it
holds as soon as these have what has been recorded for the nodes. -/
structure Resolving.Establishes (base lo hi : Nat) (s s' : Resolving) (P : Attributes → Prop) :
    Prop where
  grows : s.Extends base lo hi s'
  holds : ∀ t, s'.Settled lo hi t → P t

namespace Resolving.Establishes

variable {base lo hi lo₁ hi₁ lo₂ hi₂ : Nat} {s s' s'' : Resolving} {P Q : Attributes → Prop}

theorem imp (h : s.Establishes base lo hi s' P) (hPQ : ∀ t, P t → Q t) :
    s.Establishes base lo hi s' Q := ⟨h.grows, fun t ht => hPQ t (h.holds t ht)⟩

theorem widen (h : s.Establishes base lo₁ hi₁ s' P) (hlo : lo ≤ lo₁) (hhi : hi₁ ≤ hi) :
    s.Establishes base lo hi s' P :=
  ⟨h.grows.widen hlo hhi, fun t ht => h.holds t (ht.narrow hlo hhi)⟩

/-- A step that establishes nothing. -/
theorem of_true (h : ∀ t, P t) : s.Establishes base lo hi s P := ⟨.refl .., fun t _ => h t⟩

/-- One part after another: what the first one has established stays. -/
theorem seq (h : s.Establishes base lo₁ hi₁ s' P) (h' : s'.Establishes base lo₂ hi₂ s'' Q)
    (hapart : hi₁ ≤ lo₂ ∨ hi₂ ≤ lo₁) (hlo₁ : lo ≤ lo₁) (hhi₁ : hi₁ ≤ hi)
    (hlo₂ : lo ≤ lo₂) (hhi₂ : hi₂ ≤ hi) :
    s.Establishes base lo hi s'' fun t => P t ∧ Q t where
  grows := (h.grows.widen hlo₁ hhi₁).trans (h'.grows.widen hlo₂ hhi₂)
  holds t ht :=
    ⟨h.holds t (ht.before h'.grows hlo₁ hhi₁ hapart), h'.holds t (ht.narrow hlo₂ hhi₂)⟩

/-- Parts with adjacent intervals, from left to right. -/
theorem next {k : Nat} (h : s.Establishes base lo k s' P) (h' : s'.Establishes base k hi s'' Q)
    (hlo : lo ≤ k) (hhi : k ≤ hi) : s.Establishes base lo hi s'' fun t => P t ∧ Q t :=
  h.seq h' (.inl (Nat.le_refl k)) (Nat.le_refl lo) hhi hlo (Nat.le_refl hi)

end Resolving.Establishes

/-- Tables with more types of declarations. -/
structure Attributes.MoreTyped (t t' : Attributes) : Prop where
  declType : ∀ (id : Nat) ty, t.declType[id]? = some ty → t'.declType[id]? = some ty
  typeDefs : t.typeDefs.Grows t'.typeDefs

theorem Resolving.Extends.moreTyped {base lo hi : Nat} {s s' : Resolving} (h : s.Extends base lo hi s') :
    s.attrs.MoreTyped s'.attrs := ⟨h.declType, h.typeDefs⟩

theorem Resolving.Settled.moreTyped {lo hi : Nat} {s : Resolving} {t : Attributes}
    (h : s.Settled lo hi t) : s.attrs.MoreTyped t := ⟨h.declType, h.typeDefs⟩

theorem Attributes.MoreTyped.isSome {t t' : Attributes} (h : t.MoreTyped t') {id : Nat}
    (hid : (t.declType[id]?).isSome) : (t'.declType[id]?).isSome := by
  obtain ⟨ty, hty⟩ := Option.isSome_iff_exists.mp hid
  exact Option.isSome_iff_exists.mpr ⟨ty, h.declType id ty hty⟩

theorem Param.IsScalar.mono {t t' : Attributes} (h : t.MoreTyped t') {p : Param} (hp : p.IsScalar t) :
    p.IsScalar t' := by
  obtain ⟨ty, hty, hscalar⟩ := hp
  exact ⟨ty, h.declType _ ty hty, Ty.isScalar_of_grows h.typeDefs hscalar⟩

theorem Decl.Typed.mono {t t' : Attributes} (h : t.MoreTyped t') {d : Decl} (hd : d.Typed t) :
    d.Typed t' := by
  cases d with
  | fn m name params type body => exact ⟨h.isSome hd.1, fun p hp => (hd.2 p hp).mono h⟩
  | var m name type => exact h.isSome hd
  | par m name type => exact h.isSome hd
  | typ m name type => trivial
  | comp m name type => trivial

theorem Scope.Typed.mono {t t' : Attributes} (h : t.MoreTyped t') {scope : Scope} (hs : scope.Typed t) :
    scope.Typed t' :=
  fun ident d hd => (hs ident d hd).mono h

theorem Expr.IsLocation.settled {lo hi : Nat} {s : Resolving} {t : Attributes} {e : Expr}
    (h : e.IsLocation s.attrs) (hnum : e.Numbered lo hi) (hs : s.Settled lo hi t) :
    e.IsLocation t := by
  cases e with
  | name m ident =>
    obtain ⟨d, hd, hvar⟩ := h
    obtain ⟨rfl, rfl⟩ := hnum
    exact ⟨d, (hs.declaredAt _ (Nat.le_refl _) (Nat.lt_succ_self _)).trans hd, hvar⟩
  | _ => exact h

/-- The types of declarations stay. -/
theorem Resolving.Establishes.typed {base lo hi : Nat} {s s' : Resolving} {P : Attributes → Prop}
    {d : Decl} (h : s.Establishes base lo hi s' P) (hd : d.Typed s.attrs) :
    s.Establishes base lo hi s' fun t => d.Typed t ∧ P t :=
  ⟨h.grows, fun t ht => ⟨(hd.mono h.grows.moreTyped).mono ht.moreTyped, h.holds t ht⟩⟩

theorem Resolving.Establishes.location {base lo hi lo₁ hi₁ : Nat} {s s' : Resolving}
    {P : Attributes → Prop} {e : Expr} (h : s.Establishes base lo hi s' P)
    (hloc : e.IsLocation s'.attrs) (hnum : e.Numbered lo₁ hi₁) (hlo : lo ≤ lo₁) (hhi : hi₁ ≤ hi) :
    s.Establishes base lo hi s' fun t => P t ∧ e.IsLocation t :=
  ⟨h.grows, fun t ht => ⟨h.holds t ht, hloc.settled hnum (ht.narrow hlo hhi)⟩⟩

/-- The state in which the nodes with numbers from `lo` up to `hi` can be resolved: the declarations in
scope have types, those among the nodes have none yet. -/
structure Resolving.Ready (base lo hi : Nat) (scope : Scope) (s : Resolving) : Prop where
  inv : s.Inv base
  typed : scope.Typed s.attrs
  fresh : s.Fresh (Between lo hi)
  le_base : hi ≤ base

namespace Resolving.Ready

variable {base lo hi lo₁ hi₁ k : Nat} {scope : Scope} {s s' : Resolving}

/-- A part of the nodes. -/
theorem part (h : s.Ready base lo hi scope) (hlo : lo ≤ lo₁) (hhi : hi₁ ≤ hi) :
    s.Ready base lo₁ hi₁ scope where
  inv := h.inv
  typed := h.typed
  fresh id hid := h.fresh id ⟨by omega, by omega⟩
  le_base := Nat.le_trans hhi h.le_base

/-- A part of the nodes, behind another part that has been resolved. -/
theorem behind (h : s.Ready base lo hi scope) (hext : s.Extends base lo₁ k s') (hlo : lo ≤ k)
    (hhi : hi₁ ≤ hi) : s'.Ready base k hi₁ scope where
  inv := hext.inv h.inv
  typed := h.typed.mono hext.moreTyped
  fresh := by
    have hpart : s.Fresh (Between k hi₁) := fun id hid => h.fresh id ⟨by omega, by omega⟩
    have := h.le_base
    exact hpart.keep hext.keeps (fun id hid => by omega) fun id hid => by omega
  le_base := Nat.le_trans hhi h.le_base

end Resolving.Ready

/-- The numbers that a declaration gives types to: its own, and those of its parameters. -/
def Decl.declares : Decl → List NodeId
  | .fn m _ params _ _ => m.id :: params.map fun p => p.mark.id
  | d => [d.id]

/-- The same for all declarations of a block. -/
def DeclaredBy (ds : List Decl) (id : Nat) : Prop := ∃ d ∈ ds, id ∈ d.declares

theorem between_of_param : ∀ {ps : List Param} {lo hi : Nat}, Param.NumberedAll ps lo hi →
    ∀ p ∈ ps, Between lo hi p.mark.id
  | [], _, _, _, _, hp => (List.not_mem_nil hp).elim
  | q :: ps, lo, hi, ⟨hid, _, hps⟩, p, hp => by
    have hle := Param.le_of_numberedAll hps
    rcases List.mem_cons.mp hp with heq | hp
    · rw [heq, hid]
      omega
    · have := between_of_param hps p hp
      omega

theorem between_of_declares {lo hi : Nat} {d : Decl} (hnum : d.Numbered lo hi) {id : Nat}
    (h : id ∈ d.declares) :
    Between lo hi id := by
  have hle := d.le_of_numbered hnum
  cases d with
  | fn m name params type body =>
    obtain ⟨hid, k, hparams, -, hbody⟩ := hnum
    have hk := body.le_of_numbered hbody
    rcases List.mem_cons.mp h with heq | h
    · have := Param.le_of_numberedAll hparams
      rw [heq, hid]
      omega
    · obtain ⟨p, hp, rfl⟩ := List.mem_map.mp h
      have := between_of_param hparams p hp
      omega
  | _ =>
    obtain ⟨hid, -, rfl⟩ := hnum
    rw [List.mem_singleton.mp h]
    exact ⟨Nat.le_of_eq hid.symm, Nat.lt_succ_of_le (hid ▸ Nat.le_succ _)⟩

theorem between_of_declaredBy {lo hi : Nat} {ds : List Decl} (hnum : Decl.NumberedAll ds lo hi) {id : Nat}
    (h : DeclaredBy ds id) : Between lo hi id := by
  obtain ⟨d, hd, hid⟩ := h
  obtain ⟨lo', hi', hlo, hhi, hd⟩ := hnum.of_mem hd
  have := between_of_declares hd hid
  omega

namespace Resolve

open Resolving

variable {base lo hi : Nat} {s : Resolving} {scope : Scope}

/-! ## §2 Primitive steps -/

theorem changes_bind {id : Nat} {d : Decl} (hlo : lo ≤ id) (hhi : id < hi) :
    s.Changes base lo hi (fun _ => False)
      { s with attrs := { s.attrs with declaredAt := s.attrs.declaredAt.insert id d } } := by
  refine ⟨fun h => ⟨h.base_le, h.records, h.declType, h.typeDefs⟩, fun id' hid' => ?_,
    fun _ _ => rfl, fun _ _ h => h, .of_eq rfl rfl, rfl⟩
  have hne : id ≠ id' := by omega
  simp [Std.TreeMap.getElem?_insert, hne]

theorem extends_bind {id : Nat} {d : Decl} (hlo : lo ≤ id) (hhi : id < hi) :
    s.Extends base lo hi
      { s with attrs := { s.attrs with declaredAt := s.attrs.declaredAt.insert id d } } :=
  (changes_bind hlo hhi).extends

theorem extends_setType {id : Nat} (ty : Ty) (hlo : lo ≤ id) (hhi : id < hi) :
    s.Extends base lo hi
      { s with attrs := { s.attrs with ofType := s.attrs.ofType.insert id ty } } := by
  refine Changes.extends ⟨fun h => ⟨h.base_le, h.records, h.declType, h.typeDefs⟩, fun _ _ => rfl,
    fun id' hid' => ?_, fun _ _ h => h, .of_eq rfl rfl, rfl⟩
  have hne : id ≠ id' := by omega
  simp [Std.TreeMap.getElem?_insert, hne]

/-- A declaration of the program gets a type. -/
theorem changes_setDeclType {ids : Nat → Prop} {id : NodeId} {ty : Ty} (hid : ids id) (hbase : id < base)
    (hty : ty.Positive) : s.Changes base lo hi ids
      { s with attrs := { s.attrs with declType := s.attrs.declType.insert id ty } } where
  inv h := by
    refine ⟨h.base_le, h.records, fun id' ty' hty' => ?_, h.typeDefs⟩
    replace hty' : (s.attrs.declType.insert id ty)[id']? = some ty' := hty'
    rw [Std.TreeMap.getElem?_insert] at hty'
    split at hty'
    · next heq =>
      cases hty'
      rw [← Std.LawfulEqCmp.eq_of_compare heq]
      exact ⟨Nat.lt_of_lt_of_le hbase h.base_le, hty⟩
    · exact h.declType id' ty' hty'
  declaredAt _ _ := rfl
  ofType _ _ := rfl
  records _ _ h := h
  keeps := by
    have hother : ∀ id', ¬ids id' → (s.attrs.declType.insert id ty)[id']? = s.attrs.declType[id']? := by
      intro id' hid'
      have hne : id ≠ id' := fun h => hid' (h ▸ hid)
      rw [Std.TreeMap.getElem?_insert, if_neg (by simpa using hne)]
    exact ⟨fun id' _ hid' h => (hother id' hid').trans h, fun id' _ hid' h => (hother id' hid').trans h,
      fun _ _ => rfl⟩
  strings := rfl

/-- A type name gets what it stands for. -/
theorem changes_define {ids : Nat → Prop} {id : NodeId} {ty : Ty} (hid : ids id) (hty : ty.Positive) :
    s.Changes base lo hi ids
      { s with attrs := { s.attrs with typeDefs := s.attrs.typeDefs.insert id ty } } where
  inv h := by
    refine ⟨h.base_le, h.records, h.declType, fun id' ty' hty' => ?_⟩
    replace hty' : (s.attrs.typeDefs.insert id ty)[id']? = some ty' := hty'
    rw [Std.TreeMap.getElem?_insert] at hty'
    split at hty'
    · cases hty'
      exact hty
    · exact h.typeDefs id' ty' hty'
  declaredAt _ _ := rfl
  ofType _ _ := rfl
  records _ _ h := h
  keeps := by
    refine ⟨fun _ _ _ h => h, fun _ _ _ h => h, fun id' hid' => ?_⟩
    have hne : id ≠ id' := fun h => hid' (h ▸ hid)
    show (s.attrs.typeDefs.insert id ty)[id']? = _
    rw [Std.TreeMap.getElem?_insert, if_neg (by simpa using hne)]
  strings := rfl

/-! ## §3 Checks -/

/-- Without errors the type that has been asked for is returned, since the condition holds. -/
theorem ends_typeIf {ok : Bool} {ty : Ty} {pos : Pos} {cause : Cause}
    {Q : Option Ty → Resolving → Prop} (h : ok = true → Q (some ty) s) :
    Ends s (typeIf ok ty pos cause) Q :=
  .ite (fun hok => .pure (h hok)) fun _ => .report_bind

/-- Without errors the condition that is reported does not hold. -/
theorem ends_reportIf {c : Prop} [Decidable c] {pos : Pos} {cause : Cause}
    {Q : Unit → Resolving → Prop} (h : ¬c → Q () s) :
    Ends s (if c then report pos cause else pure ()) Q :=
  .ite (fun _ => .report) fun hc => .pure (h hc)

theorem run_isLocation (s : Resolving) (e : Expr) :
    ∃ b, (isLocation e).run s = (b, s) ∧ (b = true → e.IsLocation s.attrs) := by
  cases e with
  | name m ident =>
    unfold isLocation
    simp only [run_bind_state]
    split
    · next hd => exact ⟨true, rfl, fun _ => ⟨_, hd, True.intro⟩⟩
    · next hd => exact ⟨true, rfl, fun _ => ⟨_, hd, True.intro⟩⟩
    · exact ⟨false, rfl, fun h => by cases h⟩
  | deref | index | select => exact ⟨true, rfl, fun _ => True.intro⟩
  | _ => exact ⟨false, rfl, fun h => by cases h⟩

theorem atomType_spec (m : Mark) (kind : AtomKind) :
    Ends s (atomType m kind) fun ty s' => s' = s ∧ ty.isSome := by
  cases kind with
  | unknown code => exact .report_bind
  | _ => exact .pure ⟨rfl, rfl⟩

theorem unaryType_spec (m : Mark) (op : UnaryOp) (arg : Expr) (ty : Ty) :
    Ends s (unaryType m op arg ty) fun ty' s' =>
      s' = s ∧ ty'.isSome ∧ (op = .addr → arg.IsLocation s.attrs) := by
  refine .step (a := s.attrs.typeDefs) rfl ?_
  cases op with
  | addr =>
    obtain ⟨b, hrun, hloc⟩ := run_isLocation s arg
    refine .step hrun ?_
    exact ends_typeIf fun hb => ⟨rfl, rfl, fun _ => hloc hb⟩
  | _ => exact ends_typeIf fun _ => ⟨rfl, rfl, fun h => by cases h⟩

theorem derefType_spec (m : Mark) (ty : Ty) :
    Ends s (derefType m ty) fun ty' s' => s' = s ∧ ty'.isSome := by
  refine .step (a := s.attrs.typeDefs) rfl ?_
  cases ty.pointee? s.attrs.typeDefs with
  | none => exact ends_typeIf fun h => by cases h
  | some base => exact ends_typeIf fun _ => ⟨rfl, rfl⟩

theorem binaryType_spec (m : Mark) (op : BinaryOp) (fst snd : Ty) :
    Ends s (binaryType m op fst snd) fun ty s' => s' = s ∧ ty.isSome := by
  refine .step (a := s.attrs.typeDefs) rfl ?_
  cases op <;> exact ends_typeIf fun _ => ⟨rfl, rfl⟩

theorem indexType_spec (m : Mark) (array idx : Expr) (arrayTy : Ty) (idxTy : Option Ty) :
    Ends s (indexType m array idx arrayTy idxTy) fun ty s' =>
      s' = s ∧ ty.isSome ∧ array.IsLocation s.attrs := by
  refine .step (a := s.attrs.typeDefs) rfl ?_
  split
  · obtain ⟨b, hrun, hloc⟩ := run_isLocation s array
    refine .step hrun ?_
    refine .ite (fun _ => by cases idxTy <;> exact .report_bind) fun hb => ?_
    have hb : b = true := by simpa using hb
    cases idxTy with
    | none => exact .pure ⟨rfl, rfl, hloc hb⟩
    | some ty => exact .ite (fun _ => .report_bind) fun _ => .pure ⟨rfl, rfl, hloc hb⟩
  · exact ends_typeIf fun h => by cases h

theorem castType_spec (m : Mark) (src dst : Ty) :
    Ends s (castType m (some src) (some dst)) fun ty s' => s' = s ∧ ty.isSome := by
  refine .step (a := s.attrs.typeDefs) rfl ?_
  exact ends_typeIf fun _ => ⟨rfl, rfl⟩

theorem checkAssign_spec (m : Mark) (target : Expr) (dst src : Option Ty) :
    Ends s (checkAssign m target dst src) fun _ s' => s' = s ∧ target.IsLocation s.attrs := by
  obtain ⟨b, hrun, hloc⟩ := run_isLocation s target
  refine .step hrun ?_
  cases b with
  | false => cases dst <;> cases src <;> exact .report_bind
  | true =>
    cases dst with
    | none => exact .pure ⟨rfl, hloc rfl⟩
    | some dst =>
      cases src with
      | none => exact .pure ⟨rfl, hloc rfl⟩
      | some src =>
        refine .step (a := s.attrs.typeDefs) rfl ?_
        exact .ite (fun _ => .report) fun _ => ends_reportIf fun _ => ⟨rfl, hloc rfl⟩

theorem checkCondition_spec (test : Expr) (ty : Option Ty) :
    Ends s (checkCondition test ty) fun _ s' => s' = s := by
  cases ty with
  | none => exact .pure rfl
  | some ty =>
    refine .step (a := s.attrs.typeDefs) rfl ?_
    exact ends_reportIf fun _ => rfl

theorem checkBody_spec (m : Mark) (name : String) (body : Expr) (got : Option Ty) :
    Ends s (checkBody m name body got) fun _ s' => s' = s := by
  refine .step (a := s.attrs.declType[m.id]?) rfl ?_
  cases got with
  | none => exact .pure rfl
  | some got =>
    cases s.attrs.declType[m.id]? with
    | none => exact .pure rfl
    | some want =>
      refine .step (a := s.attrs.typeDefs) rfl ?_
      exact ends_reportIf fun _ => rfl

/-- Arguments for scalar parameters are scalars. -/
theorem checkArgs_spec (ident : String) (n : Nat) (args : List Expr) (tys : List (Option Ty))
    (ps : List Param) (hargs : args.length = tys.length) (hps : ps.length = tys.length)
    (hscalar : ∀ p ∈ ps, p.IsScalar s.attrs) :
    Ends s (checkArgs ident n args tys ps) fun _ s' =>
      s' = s ∧ ∀ ty, some ty ∈ tys → ty.isScalar s.attrs.typeDefs = true := by
  fun_induction checkArgs ident n args tys ps with
  | case1 n arg args ty tys p ps ih =>
    -- The parameter is a scalar, so only a scalar can be assigned to it.
    obtain ⟨⟨want, hwant, hscalar⟩, hps'⟩ := List.forall_mem_cons.mp hscalar
    replace ih := ih (Nat.succ.inj hargs) (Nat.succ.inj hps) hps'
    refine .step (congrArg (·, s) hwant) ?_
    cases ty with
    | none => exact ih.imp fun _ _ h => ⟨h.1, fun ty hty => h.2 ty (by simpa using hty)⟩
    | some got =>
      refine .step (a := s.attrs.typeDefs) rfl ?_
      refine .ite (fun _ => .report_bind) fun hassignable => ih.imp fun _ _ h => ⟨h.1, fun ty hty => ?_⟩
      rcases List.mem_cons.mp hty with heq | hty
      · cases heq
        exact Ty.isScalar_of_assignable (by simpa using hassignable) hscalar
      · exact h.2 ty hty
  | case2 args n tys ps hnot =>
    refine .pure ⟨rfl, fun ty hty => ?_⟩
    cases tys with
    | nil => exact (List.not_mem_nil hty).elim
    | cons ty tys =>
      cases args with
      | nil => cases hargs
      | cons arg args =>
        cases ps with
        | nil => cases hps
        | cons p ps => exact (hnot _ _ _ _ _ _ rfl rfl rfl).elim

theorem checkReserved_spec (d : Decl) : Ends s (checkReserved d) fun _ s' => s' = s ∧ d.Permitted := by
  unfold checkReserved
  refine .ite (fun _ => ?_) fun hname => .pure ⟨rfl, ?_⟩
  · cases d with
    | fn m name params type body =>
      refine ends_reportIf fun hbody => ⟨rfl, fun _ => ?_⟩
      cases body with
      | absent => rfl
      | _ => exact absurd rfl hbody
    | var m name type => exact .report
    | _ => exact .pure ⟨rfl, trivial⟩
  · rw [List.contains_iff_mem] at hname
    cases d with
    | fn m name params type body => exact fun h => absurd h hname
    | var m name type => exact hname
    | _ => trivial

/-- What has been checked for each element of a list. -/
theorem ends_forM {α : Type} {f : α → Resolve PUnit} {R : α → Prop}
    (hpersist : ∀ xs : List α, Persistent (xs.forM f))
    (h : ∀ a s, Ends s (f a) fun _ s' => s' = s ∧ R a) :
    ∀ (xs : List α) {s : Resolving}, Ends s (xs.forM f) fun _ s' => s' = s ∧ ∀ a ∈ xs, R a
  | [], s => .pure ⟨rfl, fun _ h => (List.not_mem_nil h).elim⟩
  | a :: xs, s => by
    have := hpersist xs
    refine Ends.bind (h a s) fun _ s' ⟨hs', ha⟩ => ?_
    subst hs'
    refine (ends_forM hpersist h xs).imp fun _ s'' ⟨hs'', hxs⟩ => ⟨hs'', ?_⟩
    exact List.forall_mem_cons.mpr ⟨ha, hxs⟩

/-! ## §4 Names, calls and components -/

theorem establishes_setType {m : Mark} (ty : Ty) (hid : m.id = lo) : s.Establishes base lo (lo + 1)
    { s with attrs := { s.attrs with ofType := s.attrs.ofType.insert m.id ty } }
    fun t => t.ofType[m.id]? = some ty := by
  have hlo : lo ≤ m.id := Nat.le_of_eq hid.symm
  have hhi : m.id < lo + 1 := Nat.lt_succ_of_le (Nat.le_of_eq hid)
  refine ⟨extends_setType ty hlo hhi, fun t ht => ?_⟩
  rw [ht.ofType m.id hlo hhi, Std.TreeMap.getElem?_insert_self]

/-- At last an expression gets its type, under the first number of its interval. -/
theorem setType_spec {s₀ : Resolving} {P : Attributes → Prop} {m : Mark} {ty : Option Ty}
    (h : s₀.Establishes base (lo + 1) hi s P) (hle : lo + 1 ≤ hi) (hid : m.id = lo) (hty : ty.isSome) :
    Ends s (setType m ty) fun ty s' =>
      s₀.Establishes base lo hi s' (fun t => P t ∧ t.ofType[m.id]? = ty) ∧ ty.isSome := by
  obtain ⟨ty, rfl⟩ := Option.isSome_iff_exists.mp hty
  refine fun _ => ⟨?_, rfl⟩
  exact h.seq (establishes_setType ty hid) (.inr (Nat.le_refl _)) (Nat.le_succ lo)
    (Nat.le_refl _) (Nat.le_refl _) hle

/-- A node may be bound and get its type under one number. -/
theorem bind_setType_spec {x : Resolve (Option Ty)} {R : Option Decl → Prop} {m : Mark}
    (hid : m.id = lo) (hx : Ends s x fun ty s' =>
      s.Extends base lo (lo + 1) s' ∧ ty.isSome ∧ R s'.attrs.declaredAt[m.id]?) :
    Ends s (x >>= setType m) fun ty s' => s.Establishes base lo (lo + 1) s'
      (fun t => R t.declaredAt[m.id]? ∧ t.ofType[m.id]? = ty) ∧ ty.isSome := by
  refine hx.bind fun ty s' ⟨hext, hty, hR⟩ => ?_
  obtain ⟨ty, rfl⟩ := Option.isSome_iff_exists.mp hty
  have htype : s'.Establishes base _ _ _ _ := establishes_setType ty hid
  refine fun _ => ⟨⟨hext.trans htype.grows, fun t ht => ⟨?_, htype.holds t ht⟩⟩, rfl⟩
  rw [ht.declaredAt m.id (Nat.le_of_eq hid.symm) (Nat.lt_succ_of_le (Nat.le_of_eq hid))]
  exact hR

theorem getElem?_bind {id : NodeId} {d : Decl} :
    ((bind id d).run s).2.attrs.declaredAt[id]? = some d := Std.TreeMap.getElem?_insert_self

theorem nameType_spec (base : Nat) (htyped : scope.Typed s.attrs) {m : Mark} (hlo : lo ≤ m.id)
    (hhi : m.id < hi) (ident : String) : Ends s (nameType scope m ident) fun ty s' =>
      s.Extends base lo hi s' ∧ ty.isSome ∧
        ∃ d, scope.find? ident = some d ∧ s'.attrs.declaredAt[m.id]? = some d ∧ d.IsValue := by
  unfold nameType
  cases hfind : scope.find? ident with
  | none => exact .report_bind
  | some d =>
    have hd := htyped ident d hfind
    refine .step rfl ?_
    cases d with
    | var dm name type => exact fun _ => ⟨extends_bind hlo hhi, hd, _, rfl, getElem?_bind, True.intro⟩
    | par dm name type => exact fun _ => ⟨extends_bind hlo hhi, hd, _, rfl, getElem?_bind, True.intro⟩
    | fn dm name params type body =>
      refine .ite (fun hparams => ?_) fun _ => .report_bind
      exact fun _ => ⟨extends_bind hlo hhi, hd.1, _, rfl, getElem?_bind, List.isEmpty_iff.mp hparams⟩
    | typ dm name type => exact .report_bind
    | comp dm name type => exact .report_bind

theorem callType_spec (base : Nat) (htyped : scope.Typed s.attrs) {m : Mark} (hlo : lo ≤ m.id)
    (hhi : m.id < hi) (ident : String) {args : List Expr} {tys : List (Option Ty)}
    (hargs : args.length = tys.length) :
    Ends s (callType scope m ident args tys) fun ty s' =>
      s.Extends base lo hi s' ∧ ty.isSome ∧ ∃ fm name params type body,
        scope.find? ident = some (.fn fm name params type body) ∧
          s'.attrs.declaredAt[m.id]? = some (.fn fm name params type body) ∧
            params.length = tys.length ∧ ∀ ty, some ty ∈ tys → ty.isScalar s.attrs.typeDefs = true := by
  unfold callType
  split
  · next fm name params type body hfind =>
    have hd := htyped ident _ hfind
    refine .step rfl ?_
    refine .ite (fun _ => ends_typeIf fun h => by cases h) fun hlen => ?_
    have hlen : params.length = tys.length := (Classical.not_not.mp hlen).symm
    refine Ends.bind (checkArgs_spec ident 1 args tys params hargs hlen (by exact hd.2)) fun _ s' h => ?_
    obtain ⟨hs', hscalar⟩ := h
    subst hs'
    exact fun _ => ⟨extends_bind hlo hhi, hd.1, fm, name, params, type, body, hfind, getElem?_bind, hlen,
      hscalar⟩
  · exact ends_typeIf fun h => by cases h

theorem selectType_spec (base : Nat) (m : Mark) (record : Expr) {comp : CompName}
    (hlo : lo ≤ comp.mark.id) (hhi : comp.mark.id < hi) (ty : Ty) :
    Ends s (selectType m record comp ty) fun ty s' =>
      s.Extends base lo hi s' ∧ ty.isSome ∧ record.IsLocation s.attrs ∧
        ∃ (id : NodeId) (info : RecordInfo) (d : Decl), s'.attrs.records[id]? = some info ∧
          d ∈ info.comps ∧ s'.attrs.declaredAt[comp.mark.id]? = some d := by
  refine .step (a := s.attrs.typeDefs) rfl ?_
  split
  · next id fields _ =>
    obtain ⟨b, hrun, hloc⟩ := run_isLocation s record
    refine .step hrun ?_
    cases b with
    | false =>
      refine @Ends.report_bind _ _ _ _ _ _ fun _ => .bind inferInstance fun _ => ?_
      dsimp only
      split <;> infer_instance
    | true =>
      refine .step (a := s) rfl ?_
      dsimp only
      split
      · -- A component that is found stands in a record that is in the tables.
        next d name compTy hfind =>
        have hmem := List.mem_of_find?_eq_some hfind
        have hd := (List.of_mem_zip hmem).1
        cases hrecord : s.attrs.records[id]? with
        | none =>
          rw [hrecord] at hd
          exact (List.not_mem_nil hd).elim
        | some info =>
          rw [hrecord] at hd
          exact fun _ => ⟨extends_bind hlo hhi, rfl, hloc rfl, id, info, d, hrecord, hd, getElem?_bind⟩
      · exact ends_typeIf fun h => by cases h
  · exact ends_typeIf fun h => by cases h

/-! ## §5 Types and declarations -/

/-- Steps one after the other for the elements of a list. -/
theorem changes_forM {α : Type} {f : α → Resolve PUnit} {ids : Nat → Prop}
    (hpersist : ∀ xs : List α, Persistent (xs.forM f)) :
    ∀ (xs : List α) {s : Resolving}, s.Inv base →
      (∀ a ∈ xs, ∀ s, s.Inv base → Ends s (f a) fun _ s' => s.Changes base lo hi ids s') →
      Ends s (xs.forM f) fun _ s' => s.Changes base lo hi ids s'
  | [], s, _, _ => .pure (.refl ..)
  | a :: xs, s, hinv, h => by
    have := hpersist xs
    refine Ends.bind (h a List.mem_cons_self s hinv) fun _ s' hstep => ?_
    refine (changes_forM hpersist xs (hstep.inv hinv) fun b hb => h b (List.mem_cons_of_mem _ hb)).imp ?_
    exact fun _ s'' hrest => hstep.trans hrest

/-- The types of the components of a record are added to those of the declarations. -/
theorem run_setDeclTypes : ∀ (cs : List (Decl × String × Ty)) (s : Resolving),
    ∃ types, (cs.forM fun (d, _, ty) => setDeclType d.id (some ty)).run s =
        ((), { s with attrs := { s.attrs with declType := types } }) ∧
      (∀ id : Nat, (∀ c ∈ cs, c.1.id ≠ id) → types[id]? = s.attrs.declType[id]?) ∧
      ∀ (id : Nat) ty, types[id]? = some ty →
        s.attrs.declType[id]? = some ty ∨ ∃ c ∈ cs, c.1.id = id ∧ c.2.2 = ty
  | [], s => ⟨_, rfl, fun _ _ => rfl, fun _ _ h => .inl h⟩
  | (d, name, ty) :: cs, s => by
    obtain ⟨types, hrun, hother, hmem⟩ := run_setDeclTypes cs
      { s with attrs := { s.attrs with declType := s.attrs.declType.insert d.id ty } }
    refine ⟨types, hrun, fun id hid => ?_, fun id ty' hty' => ?_⟩
    · obtain ⟨hd, hcs⟩ := List.forall_mem_cons.mp hid
      rw [hother id hcs]
      show (s.attrs.declType.insert d.id ty)[id]? = _
      rw [Std.TreeMap.getElem?_insert, if_neg (by simpa using hd)]
    · rcases hmem id ty' hty' with hty' | ⟨c, hc, hid, hty'⟩
      · replace hty' : (s.attrs.declType.insert d.id ty)[id]? = some ty' := hty'
        rw [Std.TreeMap.getElem?_insert] at hty'
        split at hty'
        · next heq =>
          exact .inr ⟨_, List.mem_cons_self, Std.LawfulEqCmp.eq_of_compare heq, Option.some.inj hty'⟩
        · exact .inl hty'
      · exact .inr ⟨c, List.mem_cons_of_mem _ hc, hid, hty'⟩

/-- A record is added under a number that has not been in use before. -/
theorem changes_addRecord {s₀ : Resolving} (hinv : s₀.Inv base)
    (h : s₀.Changes base lo hi (fun _ => False) s) {id : Nat} {info : RecordInfo}
    (hfresh : s₀.nextId ≤ id) (hid : id < s.nextId) (hwf : info.WellFormed s₀.nextId)
    (hcomps : ∀ d ∈ info.comps, d.id < s.nextId) :
    s₀.Changes base lo hi (fun _ => False) ((addRecord id info).run s).2 ∧
      ((addRecord id info).run s).2.nextId = s.nextId ∧
      ((addRecord id info).run s).2.attrs.typeDefs = s.attrs.typeDefs := by
  obtain ⟨types, hrun, hother, hmem⟩ := run_setDeclTypes (info.comps.zip info.fields.toList)
    { s with attrs := { s.attrs with records := s.attrs.records.insert id info } }
  have hadd : (addRecord id info).run s = _ := hrun
  -- The components have numbers that no declaration has had before.
  have hbelow : ∀ id' : Nat, id' < s₀.nextId → types[id']? = s.attrs.declType[id']? := by
    intro id' hlt
    refine hother id' fun c hc heq => ?_
    obtain ⟨m, name, type, hd, hm⟩ := hwf.comp c.1 (List.of_mem_zip hc).1
    rw [hd] at heq
    exact absurd hlt (Nat.not_lt.mpr (heq ▸ hm))
  rw [hadd]
  refine ⟨⟨fun _ => ?_, h.declaredAt, h.ofType, fun id' info' hinfo => ?_, ?_, h.strings⟩, rfl, rfl⟩
  · have hs := h.inv hinv
    refine ⟨hs.base_le, fun id' info' hinfo => ?_, fun id' ty hty => ?_, hs.typeDefs⟩
    · replace hinfo : (s.attrs.records.insert id info)[id']? = some info' := hinfo
      rw [Std.TreeMap.getElem?_insert] at hinfo
      split at hinfo
      · next heq =>
        cases hinfo
        rw [← Std.LawfulEqCmp.eq_of_compare heq]
        exact ⟨hid, hwf.mono hinv.base_le⟩
      · exact hs.records id' info' hinfo
    · rcases hmem id' ty hty with hty | ⟨c, hc, rfl, rfl⟩
      · exact hs.declType id' ty hty
      · have hzip := List.of_mem_zip hc
        exact ⟨hcomps _ hzip.1, Fields.positive_of_mem hwf.positive _ hzip.2⟩
  · have hne : id ≠ id' := by
      rintro rfl
      exact absurd (hinv.records id info' hinfo).1 (Nat.not_lt.mpr hfresh)
    show (s.attrs.records.insert id info)[id']? = some info'
    rw [Std.TreeMap.getElem?_insert, if_neg (by simpa using hne)]
    exact h.records id' info' hinfo
  · refine ⟨fun id' ty hids hty => ?_, fun id' hbase hids hty => ?_, h.keeps.typeDefs⟩
    · exact (hbelow id' (hinv.declType id' ty hty).1).trans (h.keeps.declType id' ty hids hty)
    · exact (hbelow id' (Nat.lt_of_lt_of_le hbase hinv.base_le)).trans
        (h.keeps.untyped id' hbase hids hty)

theorem changes_addRecords {s₀ : Resolving} (hinv : s₀.Inv base) :
    ∀ (rs : List (NodeId × RecordInfo)) {s : Resolving}, s₀.Changes base lo hi (fun _ => False) s →
    (∀ id info, (id, info) ∈ rs → s₀.nextId ≤ id ∧ id < s.nextId ∧ info.WellFormed s₀.nextId ∧
      ∀ d ∈ info.comps, d.id < s.nextId) →
    s₀.Changes base lo hi (fun _ => False) ((rs.forM fun (id, info) => addRecord id info).run s).2 ∧
      ((rs.forM fun (id, info) => addRecord id info).run s).2.attrs.typeDefs = s.attrs.typeDefs
  | [], _, h, _ => ⟨h, rfl⟩
  | (id, info) :: rs, s, h, hrs => by
    obtain ⟨hfresh, hid, hwf, hcomps⟩ := hrs id info List.mem_cons_self
    obtain ⟨hchanges, hnext, hdefs⟩ := changes_addRecord hinv h hfresh hid hwf hcomps
    obtain ⟨hall, hdefs'⟩ := changes_addRecords hinv rs hchanges (by
      intro id' info' hmem
      rw [hnext]
      exact hrs id' info' (List.mem_cons_of_mem _ hmem))
    exact ⟨hall, hdefs'.trans hdefs⟩

/-- Reading a type binds the type expression and changes no definitions. -/
theorem typeExpr_spec (hinv : s.Inv base) (scope : Scope) {te : TypeExpr} (hlo : lo ≤ te.mark.id)
    (hhi : te.mark.id < hi) :
    Ends s (typeExpr scope te) fun ty s' => s.Changes base lo hi (fun _ => False) s' ∧
      s'.attrs.typeDefs = s.attrs.typeDefs ∧ ∃ ty', ty = some ty' ∧ ty'.Positive := by
  refine .step (a := s) rfl ?_
  split
  · exact .report_bind
  · next r hread =>
    obtain ⟨hnext, hrecords, hpositive⟩ := readTypeExpr_spec hread
    have hcount : s.Changes base lo hi (fun _ => False) { s with nextId := r.nextId } :=
      { Changes.refl base lo hi (fun _ => False) s with
        keeps := .of_eq rfl rfl
        inv := fun h => ⟨Nat.le_trans h.base_le hnext, fun id info hinfo =>
          ⟨Nat.lt_of_lt_of_le (h.records id info hinfo).1 hnext, (h.records id info hinfo).2⟩,
          fun id ty hty => ⟨Nat.lt_of_lt_of_le (h.declType id ty hty).1 hnext, (h.declType id ty hty).2⟩,
          h.typeDefs⟩ }
    obtain ⟨hadd, hdefs⟩ := changes_addRecords hinv r.records hcount hrecords
    refine .step rfl (.step rfl ?_)
    have htype (s' : Resolving) : s'.Changes base lo hi (fun _ => False)
        { s' with attrs := { s'.attrs with isType := s'.attrs.isType.insert te.mark.id r.type } } :=
      ⟨fun h => ⟨h.base_le, h.records, h.declType, h.typeDefs⟩, fun _ _ => rfl, fun _ _ => rfl,
        fun _ _ h => h, .of_eq rfl rfl, rfl⟩
    cases r.lastNamed with
    | none => exact fun _ => ⟨hadd.trans (htype _), hdefs, r.type, rfl, hpositive⟩
    | some d =>
      have hbind := (hadd.trans (changes_bind (d := d) hlo hhi)).trans (htype _)
      exact fun _ => ⟨hbind, hdefs, r.type, rfl, hpositive⟩

theorem not_mem_of_lookup {name : String} {names : List (String × Decl)}
    (h : (names.lookup name).isSome = false) : name ∉ names.map Prod.fst := by
  intro hmem
  obtain ⟨⟨_, d⟩, hd, rfl⟩ := List.mem_map.mp hmem
  rw [Option.isSome_eq_false_iff, Option.isNone_iff_eq_none, List.lookup_eq_none_iff] at h
  exact absurd (h _ hd) (by simp)

/-- Names that are collected without errors are those of all elements, and no name comes twice. -/
theorem ends_foldlM_names {α : Type} {key : α → String} {decl : α → Decl} {pos : α → Pos}
    {cause : String → Cause} : ∀ (xs : List α) (names : List (String × Decl)) {s : Resolving},
    Ends s (xs.foldlM (fun names x => do
      if (names.lookup (key x)).isSome then
        report (pos x) (cause (key x))
        return names
      else return names ++ [(key x, decl x)]) names) fun names' s' =>
        s' = s ∧ names' = (names ++ xs.map fun x => (key x, decl x)) ∧
          ((names.map Prod.fst).Nodup → (names.map Prod.fst ++ xs.map key).Nodup)
  | [], names, _ => .pure ⟨rfl, (List.append_nil names).symm, by simp⟩
  | x :: xs, names, s => by
    rw [List.foldlM_cons]
    have (names : List (String × Decl)) : Persistent (xs.foldlM (fun names x => do
      if (names.lookup (key x)).isSome then
        report (pos x) (cause (key x))
        return names
      else return names ++ [(key x, decl x)]) names) := .foldlM (fun _ _ => inferInstance) _ _
    refine Ends.bind (R := fun names' s' => s' = s ∧ names' = names ++ [(key x, decl x)] ∧
      (names.lookup (key x)).isSome = false) (.ite (fun _ => .report_bind) fun hnew =>
        .pure ⟨rfl, rfl, Bool.not_eq_true _ ▸ hnew⟩) fun names' s' ⟨hs', hnames, hnew⟩ => ?_
    subst hs' hnames
    refine (ends_foldlM_names xs _).imp fun names' s' ⟨hs', hnames, hnodup⟩ => ⟨hs', ?_, fun h => ?_⟩
    · rw [hnames, List.append_assoc, List.map_cons]
      rfl
    · have hnew := not_mem_of_lookup hnew
      have hmore : ((names ++ [(key x, decl x)]).map Prod.fst).Nodup := by
        rw [List.map_append]
        refine List.nodup_append.mpr ⟨h, by simp, fun a ha b hb hab => ?_⟩
        rw [hab, List.mem_singleton.mp hb] at ha
        exact hnew ha
      simpa using hnodup hmore

/-- A block without errors declares every name once. -/
theorem blockNames_spec (ds : List Decl) : Ends s (blockNames ds) fun names s' =>
    s' = s ∧ names = blockScope ds ∧ (ds.map Decl.name).Nodup :=
  (ends_foldlM_names ds []).imp fun _ _ ⟨hs, hnames, hnodup⟩ => ⟨hs, hnames, hnodup .nil⟩

theorem paramNames_spec (ps : List Param) : Ends s (paramNames ps) fun names s' =>
    s' = s ∧ names = paramScope ps ∧ (ps.map Param.name).Nodup :=
  (ends_foldlM_names ps []).imp fun _ _ ⟨hs, hnames, hnodup⟩ => ⟨hs, hnames, hnodup .nil⟩

theorem declaredBy_self {ds : List Decl} {d : Decl} (hd : d ∈ ds) : DeclaredBy ds d.id := by
  refine ⟨d, hd, ?_⟩
  cases d <;> exact List.mem_cons_self

/-- Reading the type of a declaration of a block. -/
theorem typeExpr_decl_spec (hinv : s.Inv base) (scope : Scope) {ds : List Decl}
    (hnum : Decl.NumberedAll ds lo hi) {d : Decl} (hd : d ∈ ds) :
    Ends s (typeExpr scope d.type) fun ty s' => s.Changes base lo hi (fun _ => False) s' ∧
      ∃ ty', ty = some ty' ∧ ty'.Positive := by
  obtain ⟨lo', hi', hlo, hhi, hd⟩ := hnum.of_mem hd
  have htype := hd.type_mem
  exact (typeExpr_spec hinv scope (Nat.le_trans hlo htype.1) (Nat.lt_of_lt_of_le htype.2 hhi)).imp
    fun _ _ h => ⟨h.1, h.2.2⟩

theorem nameTypes_spec (hinv : s.Inv base) {ds : List Decl} (hnum : Decl.NumberedAll ds lo hi)
    (hbase : hi ≤ base) : Ends s (nameTypes ds) fun _ s' => s.Changes base lo hi (DeclaredBy ds) s' := by
  refine changes_forM (fun ds => inferInstanceAs (Persistent (nameTypes ds))) ds hinv ?_
  intro d hd s _
  cases d with
  | typ m name type =>
    have hbetween := between_of_declaredBy hnum (declaredBy_self hd)
    exact fun _ => changes_setDeclType (declaredBy_self hd) (Nat.lt_of_lt_of_le hbetween.2 hbase) trivial
  | _ => exact .pure (.refl ..)

theorem defineTypes_spec (hinv : s.Inv base) (scope : Scope) {ds : List Decl}
    (hnum : Decl.NumberedAll ds lo hi) :
    Ends s (defineTypes scope ds) fun _ s' => s.Changes base lo hi (DeclaredBy ds) s' := by
  refine changes_forM (fun ds => inferInstanceAs (Persistent (defineTypes scope ds))) ds hinv ?_
  intro d hd s hinv
  have htype := typeExpr_decl_spec hinv scope hnum hd
  cases d with
  | typ m name type =>
    refine .bind_of_persistent (fun ty => by cases ty <;> infer_instance) htype fun ty s' h => ?_
    obtain ⟨hchanges, ty, rfl, hpositive⟩ := h
    exact fun _ => (hchanges.among _).trans (changes_define (declaredBy_self hd) hpositive)
  | _ => exact .pure (.refl ..)

theorem checkTypes_spec (lo hi : Nat) (hinv : s.Inv base) (ds : List Decl) :
    Ends s (checkTypes ds) fun _ s' => s.Changes base lo hi (DeclaredBy ds) s' := by
  refine changes_forM (fun ds' => .forM (fun d => by cases d <;> infer_instance) ds') ds hinv ?_
  intro d hd s _
  cases d with
  | typ m name type =>
    refine .step (a := s.attrs.typeDefs) rfl ?_
    refine .ite (fun _ => fun _ => changes_define (declaredBy_self hd) trivial) fun _ => ?_
    exact .ite (fun _ => .report_bind) fun _ => .pure (.refl ..)
  | _ => exact .pure (.refl ..)

/-- The type of a declaration is recorded. -/
theorem setDeclType_spec (lo hi : Nat) (ids : Nat → Prop) {id : NodeId} (hid : ids id) (hbase : id < base)
    {ty : Ty} (hty : ty.Positive) :
    Ends s (setDeclType id (some ty)) fun _ s' => s.Changes base lo hi ids s' ∧
      s'.attrs.typeDefs = s.attrs.typeDefs ∧ s'.attrs.declType[id]? = some ty :=
  fun _ => ⟨changes_setDeclType hid hbase hty, rfl, Std.TreeMap.getElem?_insert_self⟩

/-- What later declarations do not change in the tables. -/
theorem isScalar_of_keeps {ids : Nat → Prop} {s s' : Resolving} (h : s.Keeps base ids s')
    (hdefs : s'.attrs.typeDefs = s.attrs.typeDefs) {p : Param} (hid : ¬ids p.mark.id)
    (hp : p.IsScalar s.attrs) : p.IsScalar s'.attrs := by
  obtain ⟨ty, hty, hscalar⟩ := hp
  exact ⟨ty, h.declType _ ty hid hty, hdefs ▸ hscalar⟩

/-- Without errors all parameters are scalars. -/
theorem paramTypes_spec (scope : Scope) : ∀ {ps : List Param} {s : Resolving} {lo hi : Nat},
    Param.NumberedAll ps lo hi → s.Inv base → hi ≤ base →
    Ends s (paramTypes scope ps) fun _ s' =>
      s.Changes base lo hi (fun id => ∃ p ∈ ps, id = p.mark.id) s' ∧
        s'.attrs.typeDefs = s.attrs.typeDefs ∧ ∀ p ∈ ps, p.IsScalar s'.attrs
  | [], _, _, _, _, _, _ => .pure ⟨.refl .., rfl, fun _ h => (List.not_mem_nil h).elim⟩
  | p :: ps, s, lo, hi, ⟨hid, htype, hps⟩, hinv, hbase => by
    have hle := Param.le_of_numberedAll hps
    have hrest : Persistent (paramTypes scope ps) := inferInstance
    have hown : p.mark.id < lo + 2 := hid ▸ Nat.lt_succ_of_le (Nat.le_succ _)
    have htype₁ : lo ≤ p.type.mark.id := htype ▸ Nat.le_succ lo
    have htype₂ : p.type.mark.id < lo + 2 := htype ▸ Nat.lt_succ_self _
    refine .bind_of_persistent (R := fun _ s' => s.Changes base lo (lo + 2) (· = p.mark.id) s' ∧
      s'.attrs.typeDefs = s.attrs.typeDefs ∧ p.IsScalar s'.attrs) (fun _ => hrest) ?_ fun _ s₁ h => ?_
    · refine .bind_of_persistent (fun ty => by cases ty <;> infer_instance)
        (typeExpr_spec hinv scope htype₁ htype₂) fun ty s₁ h => ?_
      obtain ⟨hread, hdefs, ty, rfl, hpositive⟩ := h
      refine .step (a := s₁.attrs.typeDefs) rfl ?_
      refine .ite (fun _ => .report_bind) fun hscalar => ?_
      refine (setDeclType_spec lo (lo + 2) (· = p.mark.id) rfl
        (Nat.lt_of_lt_of_le hown (Nat.le_trans hle hbase)) hpositive).imp
        fun _ s₂ h => ⟨(hread.among _).trans h.1, h.2.1.trans hdefs, ty, h.2.2, ?_⟩
      rw [h.2.1]
      simpa using hscalar
    obtain ⟨hchanges, hdefs, hscalar⟩ := h
    refine (paramTypes_spec scope hps (hchanges.inv hinv) hbase).imp fun _ s₂ h => ?_
    obtain ⟨hchanges', hdefs', hscalars⟩ := h
    refine ⟨?_, hdefs'.trans hdefs,
      List.forall_mem_cons.mpr ⟨isScalar_of_keeps hchanges'.keeps hdefs' ?_ hscalar, hscalars⟩⟩
    · refine (hchanges.widen (Nat.le_refl _) hle fun id h => ?_).trans
        (hchanges'.widen (by omega) (Nat.le_refl _) fun id h => ?_)
      · exact ⟨p, List.mem_cons_self, h⟩
      · obtain ⟨q, hq, rfl⟩ := h
        exact ⟨q, List.mem_cons_of_mem _ hq, rfl⟩
    -- No later parameter has the number of this one, so its type stays.
    · rintro ⟨q, hq, heq⟩
      have := between_of_param hps q hq
      exact absurd (heq ▸ hown) (Nat.not_lt.mpr this.1)

theorem signatures_cons (scope : Scope) (d : Decl) (ds : List Decl) :
    signatures scope (d :: ds) = signatures scope [d] >>= fun _ => signatures scope ds := by
  simp only [signatures, List.forM_eq_forM, List.forM_cons, List.forM_nil, bind_assoc, pure_bind]

/-- Without errors a variable or a function has a type, and the parameters of a function are scalars. -/
theorem signature_spec (scope : Scope) {d : Decl} (hcomplete : d.Complete) (hnum : d.Numbered lo hi)
    (hinv : s.Inv base) (hbase : hi ≤ base) :
    Ends s (signatures scope [d]) fun _ s' =>
      s.Changes base lo hi (· ∈ d.declares) s' ∧ s'.attrs.typeDefs = s.attrs.typeDefs ∧
        d.Typed s'.attrs := by
  have hown : d.id < base := by
    have hself : d.id ∈ d.declares := by cases d <;> exact List.mem_cons_self
    exact Nat.lt_of_lt_of_le (between_of_declares hnum hself).2 hbase
  have htype (s : Resolving) (hinv : s.Inv base) := typeExpr_spec hinv scope hnum.type_mem.1
    hnum.type_mem.2
  refine .bind_of_persistent (R := fun _ s' => s.Changes base lo hi (· ∈ d.declares) s' ∧
    s'.attrs.typeDefs = s.attrs.typeDefs ∧ d.Typed s'.attrs)
    (fun _ => (inferInstance : Persistent (signatures scope []))) ?_ fun _ s' h => .pure h
  -- The types of the parts are written first, and the entry of the declaration itself last.
  cases d with
  | var m name type =>
    refine .bind_of_persistent (fun ty => by cases ty <;> infer_instance) (htype s hinv) fun ty s₁ h => ?_
    obtain ⟨hread, hdefs, ty, rfl, hpositive⟩ := h
    refine .step (a := s₁.attrs.typeDefs) rfl ?_
    -- The check may report an error; then nothing is left to be shown.
    refine .ite (fun _ => .report_bind) fun _ => ?_
    refine (setDeclType_spec lo hi (· ∈ (Decl.var m name type).declares) List.mem_cons_self hown
      hpositive).imp fun _ s₂ h => ?_
    exact ⟨(hread.among _).trans h.1, h.2.1.trans hdefs, Option.isSome_iff_exists.mpr ⟨ty, h.2.2⟩⟩
  | fn m name params type body =>
    obtain ⟨hid, k, hparams, htypeId, hbody⟩ := hnum
    have hk := body.le_of_numbered hbody
    refine .bind_of_persistent (fun _ => .bind inferInstance fun ty => by cases ty <;> infer_instance)
      (paramTypes_spec scope hparams hinv (by omega)) fun _ s₁ h => ?_
    obtain ⟨hchanges₁, hdefs₁, hscalars⟩ := h
    refine .bind_of_persistent (fun ty => by cases ty <;> infer_instance)
      (htype s₁ (hchanges₁.inv hinv)) fun ty s₂ h => ?_
    obtain ⟨hchanges₂, hdefs₂, ty, rfl, hpositive⟩ := h
    refine .step (a := s₂.attrs.typeDefs) rfl (.step (a := s₂.attrs.typeDefs) rfl ?_)
    refine .ite (fun _ => .report_bind) fun _ => ?_
    refine (setDeclType_spec lo hi (· = m.id) rfl hown hpositive).imp fun _ s₃ h => ?_
    obtain ⟨hchanges₃, hdefs₃, hfn⟩ := h
    refine ⟨(hchanges₁.widen (Nat.le_succ lo) (by omega) ?_).trans ((hchanges₂.among _).trans
      (hchanges₃.widen (Nat.le_refl lo) (Nat.le_refl hi) ?_)), hdefs₃.trans (hdefs₂.trans hdefs₁),
      Option.isSome_iff_exists.mpr ⟨ty, hfn⟩, fun p hp => ?_⟩
    · rintro id ⟨p, hp, rfl⟩
      exact List.mem_cons_of_mem _ (List.mem_map.mpr ⟨p, hp, rfl⟩)
    · rintro id rfl
      exact List.mem_cons_self
    · -- The number of the function is below those of its parameters.
      have hlater : ¬p.mark.id = m.id := by
        intro heq
        have := (between_of_param hparams p hp).1
        rw [heq, hid] at this
        omega
      exact isScalar_of_keeps hchanges₃.keeps hdefs₃ hlater
        (isScalar_of_keeps hchanges₂.keeps hdefs₂ (fun h => h) (hscalars p hp))
  | typ m name type => exact .pure ⟨.refl .., rfl, True.intro⟩
  | par m name type => exact hcomplete.elim
  | comp m name type => exact hcomplete.elim

theorem typed_of_keeps {ids : Nat → Prop} {s s' : Resolving} (h : s.Keeps base ids s')
    (hdefs : s'.attrs.typeDefs = s.attrs.typeDefs) {d : Decl} (hids : ∀ id ∈ d.declares, ¬ids id)
    (hd : d.Typed s.attrs) : d.Typed s'.attrs := by
  have hsome : ∀ id ∈ d.declares, (s.attrs.declType[id]?).isSome → (s'.attrs.declType[id]?).isSome := by
    intro id hid hsome
    obtain ⟨ty, hty⟩ := Option.isSome_iff_exists.mp hsome
    exact Option.isSome_iff_exists.mpr ⟨ty, h.declType id ty (hids id hid) hty⟩
  cases d with
  | fn m name params type body =>
    refine ⟨hsome _ List.mem_cons_self hd.1, fun p hp =>
      isScalar_of_keeps h hdefs (hids _ ?_) (hd.2 p hp)⟩
    exact List.mem_cons_of_mem _ (List.mem_map.mpr ⟨p, hp, rfl⟩)
  | var m name type | par m name type => exact hsome _ List.mem_cons_self hd
  | typ m name type | comp m name type => exact True.intro

/-- The same for all declarations of a block. -/
theorem signatures_spec (scope : Scope) : ∀ {ds : List Decl} {s : Resolving} {lo hi : Nat},
    Decl.CompleteAll ds → Decl.NumberedAll ds lo hi → s.Inv base → hi ≤ base →
    Ends s (signatures scope ds) fun _ s' =>
      s.Changes base lo hi (DeclaredBy ds) s' ∧ s'.attrs.typeDefs = s.attrs.typeDefs ∧
        ∀ d ∈ ds, d.Typed s'.attrs
  | [], _, _, _, _, _, _, _ => .pure ⟨.refl .., rfl, fun _ h => (List.not_mem_nil h).elim⟩
  | d :: ds, s, lo, hi, ⟨hc₁, hc₂⟩, ⟨k, hnum₁, hnum₂⟩, hinv, hbase => by
    have hk := d.le_of_numbered hnum₁
    have hhi := Decl.le_of_numberedAll ds hnum₂
    rw [signatures_cons]
    refine (signature_spec scope hc₁ hnum₁ hinv (Nat.le_trans hhi hbase)).bind fun _ s₁ h => ?_
    obtain ⟨hchanges₁, hdefs₁, hd⟩ := h
    refine (signatures_spec scope hc₂ hnum₂ (hchanges₁.inv hinv) hbase).imp fun _ s₂ h => ?_
    obtain ⟨hchanges₂, hdefs₂, hds⟩ := h
    refine ⟨(hchanges₁.widen (Nat.le_refl lo) hhi fun id h => ⟨d, List.mem_cons_self, h⟩).trans
      (hchanges₂.widen hk (Nat.le_refl hi) ?_), hdefs₂.trans hdefs₁, List.forall_mem_cons.mpr ⟨?_, hds⟩⟩
    · rintro id ⟨d', hd', hid⟩
      exact ⟨d', List.mem_cons_of_mem _ hd', hid⟩
    · refine typed_of_keeps hchanges₂.keeps hdefs₂ (fun id hid hlater => ?_) hd
      have := between_of_declares hnum₁ hid
      have := between_of_declaredBy hnum₂ hlater
      omega

/-- **Declaring a block** without errors makes exactly its declarations visible, and gives them
types. -/
theorem declare_spec (hinv : s.Inv base) (hfresh : s.Fresh (Between lo hi)) (hbase : hi ≤ base)
    (outer : Scope) {ds : List Decl} (hcomplete : Decl.CompleteAll ds)
    (hnum : Decl.NumberedAll ds lo hi) :
    Ends s (declare outer ds) fun scope s' =>
      scope = blockScope ds :: outer ∧ s.Extends base lo hi s' ∧ (∀ d ∈ ds, d.Typed s'.attrs) ∧
        (s'.Fresh fun id => Between lo hi id ∧ ¬DeclaredBy ds id) ∧ (ds.map Decl.name).Nodup := by
  refine (blockNames_spec ds).bind fun names s' ⟨hs', hnames, hnodup⟩ => ?_
  subst hs' hnames
  refine (nameTypes_spec hinv hnum hbase).bind fun _ s₁ h₁ => ?_
  have hinv₁ := h₁.inv hinv
  refine (defineTypes_spec hinv₁ _ hnum).bind fun _ s₂ h₂ => ?_
  have hinv₂ := h₂.inv hinv₁
  refine (checkTypes_spec lo hi hinv₂ ds).bind fun _ s₃ h₃ => ?_
  refine (signatures_spec _ hcomplete hnum (h₃.inv hinv₂) hbase).bind fun _ s₄ ⟨h₄, _, htyped⟩ => ?_
  have hall := ((h₁.trans h₂).trans h₃).trans h₄
  refine .pure ⟨rfl, hall.extends_of_fresh (fun id hid => hfresh id (between_of_declaredBy hnum hid))
    fun id hid => between_of_declaredBy hnum hid, htyped, ?_, hnodup⟩
  have hrest : s'.Fresh fun id => Between lo hi id ∧ ¬DeclaredBy ds id := fun id hid => hfresh id hid.1
  exact hrest.keep hall.keeps (fun id hid => Nat.lt_of_lt_of_le hid.1.2 hbase) fun id hid => hid.2

/-! ## §6 Expressions, statements and bodies -/

/-- What has no types behind a declaration. -/
theorem fresh_behind {d : Decl} {ds : List Decl} {k : Nat} (hnum : d.Numbered lo k)
    (hfresh : s.Fresh fun id => Between lo hi id ∧ ¬DeclaredBy (d :: ds) id) :
    s.Fresh fun id => Between k hi id ∧ ¬DeclaredBy ds id := by
  have hk := d.le_of_numbered hnum
  rintro id ⟨hbetween, hnot⟩
  refine hfresh id ⟨⟨by omega, by omega⟩, ?_⟩
  rintro ⟨d', hd', hid⟩
  rcases List.mem_cons.mp hd' with rfl | hd'
  · have := between_of_declares hnum hid
    omega
  · exact hnot ⟨d', hd', hid⟩

/-- The body of a function has no types, since its parameters stand before it. -/
theorem fresh_body {m : Mark} {name : String} {params : List Param} {type : TypeExpr} {body : Expr}
    {ds : List Decl} {j k : Nat} (hnum : (Decl.fn m name params type body).Numbered lo k)
    (hparams : Param.NumberedAll params (lo + 1) j)
    (hnum' : Decl.NumberedAll ds k hi)
    (hfresh : s.Fresh fun id => Between lo hi id ∧ ¬DeclaredBy (.fn m name params type body :: ds) id) :
    s.Fresh (Between (j + 1) k) := by
  have hj := Param.le_of_numberedAll hparams
  have hhi := Decl.le_of_numberedAll ds hnum'
  intro id hbetween
  refine hfresh id ⟨⟨by omega, by omega⟩, ?_⟩
  rintro ⟨d, hd, hid⟩
  rcases List.mem_cons.mp hd with rfl | hd
  · rcases List.mem_cons.mp hid with heq | hid
    · rw [hnum.1] at heq
      omega
    · obtain ⟨p, hp, rfl⟩ := List.mem_map.mp hid
      have := between_of_param hparams p hp
      omega
  · have := between_of_declaredBy hnum' ⟨d, hd, hid⟩
    omega

mutual

/-- **Resolving an expression** without errors binds its names as lexical scoping does and gives it a
type; nodes outside of it are left alone. -/
theorem expr_spec : ∀ (e : Expr) {scope : Scope} {s : Resolving} {lo hi : Nat}, e.Complete →
    e.Numbered lo hi → s.Ready base lo hi scope →
    Ends s (expr scope e) fun ty s' =>
      s.Establishes base lo hi s' (fun t => e.Resolved t scope ∧ t.typeOf? e = ty) ∧ ty.isSome
  | .absent, _, _, _, _, hc, _, _ => hc.elim
  | .atom m kind value, scope, s, lo, hi, _, ⟨hid, hhi⟩, _ => by
    rw [expr]
    refine (atomType_spec m kind).bind fun ty s' ⟨hs', hty⟩ => ?_
    subst hs' hhi
    have hnothing : s'.Establishes base (lo + 1) (lo + 1) s' fun _ => True := .of_true fun _ => True.intro
    refine (setType_spec hnothing (Nat.le_refl _) hid hty).imp ?_
    exact fun _ _ ⟨h, hty⟩ => ⟨h, hty⟩
  | .name m ident, scope, s, lo, hi, _, ⟨hid, hhi⟩, hready => by
    subst hhi
    rw [expr]
    have hbind := bind_setType_spec (s := s) (m := m) (R := fun o => ∃ d, scope.find? ident = some d ∧
      o = some d ∧ d.IsValue) hid
      (nameType_spec base hready.typed (Nat.le_of_eq hid.symm)
        (Nat.lt_succ_of_le (Nat.le_of_eq hid)) ident)
    exact hbind
  | .unary m op arg, scope, s, lo, hi, ⟨_, hc⟩, ⟨hid, hnum⟩, hready => by
    rw [expr]
    -- The rest of the step keeps an error once there is one, so a run without errors has an
    -- operand that was resolved without errors.
    refine .bind_of_persistent (fun ty => by cases ty <;> infer_instance)
      (expr_spec arg hc hnum (hready.part (Nat.le_succ lo) (Nat.le_refl hi))) fun ty s₁ ⟨harg, hty⟩ => ?_
    obtain ⟨ty, rfl⟩ := Option.isSome_iff_exists.mp hty
    refine (unaryType_spec m op arg ty).bind fun ty' s' ⟨hs', hty', hloc⟩ => ?_
    subst hs'
    -- Whether the operand is a location is settled at its own nodes, which no later step writes.
    have hunary : s.Establishes base (lo + 1) hi s' fun t =>
        arg.Resolved t scope ∧ (op = .addr → arg.IsLocation t) :=
      ⟨harg.grows, fun t ht => ⟨(harg.holds t ht).1, fun h => (hloc h).settled hnum ht⟩⟩
    exact setType_spec hunary (arg.le_of_numbered hnum) hid hty'
  | .deref m arg, scope, s, lo, hi, hc, ⟨hid, hnum⟩, hready => by
    rw [expr]
    refine .bind_of_persistent (fun ty => by cases ty <;> infer_instance)
      (expr_spec arg hc hnum (hready.part (Nat.le_succ lo) (Nat.le_refl hi))) fun ty s₁ ⟨harg, hty⟩ => ?_
    obtain ⟨ty, rfl⟩ := Option.isSome_iff_exists.mp hty
    refine (derefType_spec m ty).bind fun ty' s' ⟨hs', hty'⟩ => ?_
    subst hs'
    exact setType_spec (harg.imp fun _ h => h.1) (arg.le_of_numbered hnum) hid hty'
  | .binary m op fst snd, scope, s, lo, hi, ⟨_, hc₁, hc₂⟩, ⟨hid, k, hnum₁, hnum₂⟩, hready => by
    rw [expr]
    have hk := fst.le_of_numbered hnum₁
    have hhi := snd.le_of_numbered hnum₂
    refine .bind_of_persistent
      (fun ty => .bind inferInstance fun ty' => by cases ty <;> cases ty' <;> infer_instance)
      (expr_spec fst hc₁ hnum₁ (hready.part (Nat.le_succ lo) hhi)) fun fstTy s₁ ⟨hfst, hfstTy⟩ => ?_
    obtain ⟨fstTy, rfl⟩ := Option.isSome_iff_exists.mp hfstTy
    refine .bind_of_persistent (fun ty' => by cases ty' <;> infer_instance)
      (expr_spec snd hc₂ hnum₂ (hready.behind hfst.grows (by omega) (Nat.le_refl hi)))
      fun sndTy s₂ ⟨hsnd, hsndTy⟩ => ?_
    obtain ⟨sndTy, rfl⟩ := Option.isSome_iff_exists.mp hsndTy
    refine (binaryType_spec m op fstTy sndTy).bind fun ty s' ⟨hs', hty⟩ => ?_
    subst hs'
    -- The numbers of the operands follow each other, so neither touches the entries of the other.
    have hboth := hfst.next hsnd hk hhi
    exact setType_spec (hboth.imp fun _ h => ⟨h.1.1, h.2.1⟩) (Nat.le_trans hk hhi) hid hty
  | .index m array idx, scope, s, lo, hi, ⟨hc₁, hc₂⟩, ⟨hid, k, hnum₁, hnum₂⟩, hready => by
    rw [expr]
    have hk := array.le_of_numbered hnum₁
    have hhi := idx.le_of_numbered hnum₂
    refine .bind_of_persistent
      (fun ty => .bind inferInstance fun _ => by cases ty <;> infer_instance)
      (expr_spec array hc₁ hnum₁ (hready.part (Nat.le_succ lo) hhi))
        fun arrayTy s₁ ⟨harray, harrayTy⟩ => ?_
    obtain ⟨arrayTy, rfl⟩ := Option.isSome_iff_exists.mp harrayTy
    refine (expr_spec idx hc₂ hnum₂ (hready.behind harray.grows (by omega) (Nat.le_refl hi))).bind
      fun idxTy s₂ ⟨hidx, _⟩ => ?_
    refine (indexType_spec m array idx arrayTy idxTy).bind fun ty s' ⟨hs', hty, hloc⟩ => ?_
    subst hs'
    have hparts := (harray.next hidx hk hhi).location hloc hnum₁ (Nat.le_refl _) hhi
    refine (setType_spec hparts (Nat.le_trans hk hhi) hid hty).imp fun _ _ ⟨h, hty⟩ => ⟨?_, hty⟩
    refine h.imp fun t ⟨⟨⟨harray, hidx⟩, hloc⟩, htype⟩ => ⟨⟨harray.1, hidx.1, hloc, ?_⟩, htype⟩
    rw [htype]
    exact hty
  | .select m record comp, scope, s, lo, hi, hc, ⟨hid, k, hnum, hcomp, hhi⟩, hready => by
    rw [expr]
    subst hhi
    have hk := record.le_of_numbered hnum
    refine .bind_of_persistent (fun ty => by cases ty <;> infer_instance)
      (expr_spec record hc hnum (hready.part (Nat.le_succ lo) (Nat.le_succ k)))
        fun ty s₁ ⟨hrecord, hty⟩ => ?_
    obtain ⟨ty, rfl⟩ := Option.isSome_iff_exists.mp hty
    refine (selectType_spec base m record (Nat.le_of_eq hcomp.symm)
      (Nat.lt_succ_of_le (Nat.le_of_eq hcomp))
      ty).bind fun ty' s₂ ⟨hext, hty', hloc, id, info, d, hinfo, hd, hbound⟩ => ?_
    -- The component is bound at its own number; the record that lists it stays in the table.
    have hselected : s₁.Establishes base k (k + 1) s₂ fun t =>
        ∃ (id : NodeId) (info : RecordInfo) (d : Decl), t.records[id]? = some info ∧ d ∈ info.comps ∧
          t.declaredAt[comp.mark.id]? = some d := by
      refine ⟨hext, fun t ht => ⟨id, info, d, ht.records id info hinfo, hd, ?_⟩⟩
      rw [ht.declaredAt comp.mark.id (Nat.le_of_eq hcomp.symm) (Nat.lt_succ_of_le (Nat.le_of_eq hcomp))]
      exact hbound
    have hparts := (hrecord.location hloc hnum (Nat.le_refl _) (Nat.le_refl _)).next hselected hk
      (Nat.le_succ k)
    exact setType_spec (hparts.imp fun _ h => ⟨h.1.1.1, h.1.2, h.2⟩) (Nat.le_succ_of_le hk) hid hty'
  | .call m ident args, scope, s, lo, hi, hc, ⟨hid, hnum⟩, hready => by
    rw [expr]
    have hle := Expr.le_of_numberedAll args hnum
    -- The arguments come first, although the node's own number is the lowest.
    refine (exprs_spec args hc hnum (hready.part (Nat.le_succ lo) (Nat.le_refl hi))).bind
      fun tys s₁ ⟨hargs, hlen⟩ => ?_
    have hcall := bind_setType_spec (m := m) (R := fun o => ∃ fm name params type body,
      scope.find? ident = some (.fn fm name params type body) ∧
        o = some (.fn fm name params type body) ∧ params.length = tys.length ∧
          ∀ ty, some ty ∈ tys → ty.isScalar s₁.attrs.typeDefs = true) hid
      (callType_spec base (hready.typed.mono hargs.grows.moreTyped) (Nat.le_of_eq hid.symm)
        (Nat.lt_succ_of_le (Nat.le_of_eq hid)) ident hlen.symm)
    refine hcall.imp fun ty s' ⟨hcall, hty⟩ => ⟨?_, hty⟩
    -- A type that was a scalar when the call was checked is one in the end.
    have hscalar : s₁.Establishes base lo (lo + 1) s' fun t => s₁.attrs.typeDefs.Grows t.typeDefs :=
      ⟨hcall.grows, fun t ht => hcall.grows.typeDefs.trans ht.typeDefs⟩
    have hparts := hargs.seq ⟨hcall.grows, fun t ht => And.intro (hcall.holds t ht) (hscalar.holds t ht)⟩
      (.inr (Nat.le_refl _)) (Nat.le_succ lo) (Nat.le_refl _) (Nat.le_refl _) hle
    refine hparts.imp fun t
      ⟨⟨hargs, htys⟩, ⟨⟨fm, name, params, type, body, hfind, hbound, hps, hall⟩, hty⟩,
      hgrows⟩ => ⟨⟨hargs, fm, name, params, type, body, hfind, hbound, hps.trans hlen,
        fun e he => ?_⟩, hty⟩
    obtain ⟨ty, hty⟩ := Option.isSome_iff_exists.mp (hargs.typed_of_mem he)
    refine ⟨ty, hty, Ty.isScalar_of_grows hgrows (hall ty ?_)⟩
    rw [← htys, ← hty]
    exact List.mem_map.mpr ⟨e, he, rfl⟩
  | .block m stmts, scope, s, lo, hi, hc, ⟨hid, hnum⟩, hready => by
    rw [expr]
    refine (stmtList_spec stmts hc hnum (hready.part (Nat.le_succ lo) (Nat.le_refl hi))).bind
      fun ty s' ⟨hstmts, hty⟩ => ?_
    exact setType_spec hstmts (Stmt.le_of_numberedAll stmts hnum) hid hty
  | .cast m arg type, scope, s, lo, hi, hc, ⟨hid, k, hnum, htype, hhi⟩, hready => by
    rw [expr]
    subst hhi
    have hk := arg.le_of_numbered hnum
    refine (expr_spec arg hc hnum (hready.part (Nat.le_succ lo) (Nat.le_succ k))).bind
      fun src s₁ ⟨harg, hsrc⟩ => ?_
    obtain ⟨src, rfl⟩ := Option.isSome_iff_exists.mp hsrc
    refine (typeExpr_spec (harg.grows.inv hready.inv) scope (Nat.le_of_eq htype.symm)
      (Nat.lt_succ_of_le (Nat.le_of_eq htype))).bind fun dst s₂ ⟨hread, _, hdst⟩ => ?_
    obtain ⟨dst, rfl, -⟩ := hdst
    refine (castType_spec m src dst).bind fun ty s' ⟨hs', hty⟩ => ?_
    subst hs'
    have hread : s₁.Establishes base k (k + 1) s' fun _ => True := ⟨hread.extends, fun _ _ => True.intro⟩
    have hparts := harg.next hread hk (Nat.le_succ k)
    exact setType_spec (hparts.imp fun _ h => h.1.1) (Nat.le_succ_of_le hk) hid hty
  | .scope m decls body, scope, s, lo, hi, ⟨hc₁, hc₂⟩, ⟨hid, k, hnum₁, hnum₂⟩, hready => by
    rw [expr]
    have hk := Decl.le_of_numberedAll decls hnum₁
    have hhi := body.le_of_numbered hnum₂
    have hblock := hready.part (Nat.le_succ lo) hhi
    -- After the declarations every name of the block has its type, which the bodies rely on.
    refine (declare_spec hready.inv hblock.fresh hblock.le_base scope hc₁ hnum₁).bind
      fun inner s₁ ⟨hinner, hext, hdecls, hfresh, _⟩ => ?_
    subst hinner
    have htyped := (hready.typed.mono hext.moreTyped).block hdecls
    have hbehind := hready.behind hext (by omega) (Nat.le_refl hi)
    refine (bodies_spec decls hc₁ hnum₁ hbehind.inv htyped hfresh hblock.le_base hdecls).bind
      fun _ s₂ hbodies => ?_
    have hready₂ : s₂.Ready base k hi (blockScope decls :: scope) :=
      ⟨(hbehind.behind hbodies.grows (Nat.le_refl k) (Nat.le_refl hi)).inv,
        htyped.mono hbodies.grows.moreTyped,
        (hbehind.behind hbodies.grows (Nat.le_refl k) (Nat.le_refl hi)).fresh, hready.le_base⟩
    refine (expr_spec body hc₂ hnum₂ hready₂).bind fun ty s₃ ⟨hbody, hty⟩ => ?_
    have hparts := hbodies.next hbody hk hhi
    have hscope : s.Establishes base (lo + 1) hi s₃ _ :=
      ⟨(hext.widen (Nat.le_refl _) hhi).trans hparts.grows, hparts.holds⟩
    exact setType_spec (hscope.imp fun _ h => ⟨h.1, h.2.1⟩) (Nat.le_trans hk hhi) hid hty

theorem exprs_spec : ∀ (es : List Expr) {scope : Scope} {s : Resolving} {lo hi : Nat},
    Expr.CompleteAll es → Expr.NumberedAll es lo hi → s.Ready base lo hi scope →
    Ends s (exprs scope es) fun tys s' =>
      s.Establishes base lo hi s' (fun t => Expr.ResolvedAll t scope es ∧ es.map t.typeOf? = tys) ∧
        tys.length = es.length
  | [], _, _, _, _, _, _, _ => by
    rw [exprs]
    exact .pure ⟨.of_true fun _ => ⟨True.intro, rfl⟩, rfl⟩
  | e :: es, scope, s, lo, hi, ⟨hc₁, hc₂⟩, ⟨k, hnum₁, hnum₂⟩, hready => by
    rw [exprs]
    have hk := e.le_of_numbered hnum₁
    have hhi := Expr.le_of_numberedAll es hnum₂
    refine (expr_spec e hc₁ hnum₁ (hready.part (Nat.le_refl lo) hhi)).bind fun ty s₁ ⟨he, hty⟩ => ?_
    refine (exprs_spec es hc₂ hnum₂ (hready.behind he.grows hk (Nat.le_refl hi))).bind
      fun tys s₂ ⟨hes, hlen⟩ => ?_
    refine .pure ⟨(he.next hes hk hhi).imp fun t h => ⟨⟨h.1.1, ?_, h.2.1⟩, ?_⟩, congrArg (· + 1) hlen⟩
    · rw [h.1.2]
      exact hty
    · rw [List.map_cons, h.1.2, h.2.2]

theorem stmt_spec : ∀ (st : Stmt) {scope : Scope} {s : Resolving} {lo hi : Nat}, st.Complete →
    st.Numbered lo hi → s.Ready base lo hi scope →
    Ends s (stmt scope st) fun ty s' =>
      s.Establishes base lo hi s' (st.Resolved · scope) ∧ ty.isSome
  | .absent, _, _, _, _, hc, _, _ => hc.elim
  | .eval m e, scope, s, lo, hi, hc, ⟨_, hnum⟩, hready => by
    rw [stmt]
    refine (expr_spec e hc hnum (hready.part (Nat.le_succ lo) (Nat.le_refl hi))).imp
      fun ty s' ⟨he, hty⟩ => ⟨?_, hty⟩
    exact (he.widen (Nat.le_succ lo) (Nat.le_refl _)).imp fun _ h => h.1
  | .assign m dst src, scope, s, lo, hi, ⟨hc₁, hc₂⟩, ⟨_, k, hnum₁, hnum₂⟩, hready => by
    rw [stmt]
    have hk := dst.le_of_numbered hnum₁
    have hhi := src.le_of_numbered hnum₂
    refine (expr_spec dst hc₁ hnum₁ (hready.part (Nat.le_succ lo) hhi)).bind fun dstTy s₁ ⟨hdst, _⟩ => ?_
    refine (expr_spec src hc₂ hnum₂ (hready.behind hdst.grows (by omega) (Nat.le_refl hi))).bind
      fun srcTy s₂ ⟨hsrc, _⟩ => ?_
    -- The check leaves the state as it is, so being a location is a fact about the tables so far.
    refine (checkAssign_spec m dst dstTy srcTy).bind fun _ s' ⟨hs', hloc⟩ => ?_
    subst hs'
    have hparts := (hdst.next hsrc hk hhi).location hloc hnum₁ (Nat.le_refl _) hhi
    refine .pure ⟨(hparts.widen (Nat.le_succ lo) (Nat.le_refl _)).imp ?_, rfl⟩
    exact fun _ h => ⟨h.1.1.1, h.1.2.1, h.2⟩
  | .cond m test yes no, scope, s, lo, hi, ⟨hc₁, hc₂, hc₃⟩, ⟨_, j, k, hnum₁, hnum₂, hnum₃⟩, hready => by
    rw [stmt]
    have hj := test.le_of_numbered hnum₁
    have hk := yes.le_of_numbered hnum₂
    have hhi := no.le_of_numbered hnum₃
    refine (expr_spec test hc₁ hnum₁ (hready.part (Nat.le_succ lo) (by omega))).bind
      fun ty s₁ ⟨htest, _⟩ => ?_
    have hready₁ := hready.behind htest.grows (by omega) (Nat.le_refl hi)
    refine (checkCondition_spec test ty).bind fun _ s' hs' => ?_
    subst hs'
    refine (stmt_spec yes hc₂ hnum₂ (hready₁.part (Nat.le_refl j) hhi)).bind fun _ s₂ ⟨hyes, _⟩ => ?_
    have hparts := htest.next hyes hj hk
    -- The negative branch may be missing; then there is nothing to resolve.
    have hno : Ends s₂ (stmt scope no) fun ty s₃ =>
        s₂.Establishes base k hi s₃ (no.Resolved · scope) ∧ ty.isSome := by
      rcases hc₃ with rfl | hc₃
      · rw [stmt]
        exact .pure ⟨.of_true fun _ => True.intro, rfl⟩
      · exact stmt_spec no hc₃ hnum₃ (hready₁.behind hyes.grows hk (Nat.le_refl hi))
    refine hno.bind fun _ s₃ ⟨hno, _⟩ => ?_
    have hall := hparts.next hno (Nat.le_trans hj hk) hhi
    refine .pure ⟨(hall.widen (Nat.le_succ lo) (Nat.le_refl _)).imp ?_, rfl⟩
    exact fun _ h => ⟨h.1.1.1, h.1.2, h.2⟩
  | .loop m test body, scope, s, lo, hi, ⟨hc₁, hc₂⟩, ⟨_, k, hnum₁, hnum₂⟩, hready => by
    rw [stmt]
    have hk := test.le_of_numbered hnum₁
    have hhi := body.le_of_numbered hnum₂
    refine (expr_spec test hc₁ hnum₁ (hready.part (Nat.le_succ lo) hhi)).bind fun ty s₁ ⟨htest, _⟩ => ?_
    refine (checkCondition_spec test ty).bind fun _ s' hs' => ?_
    subst hs'
    refine (stmt_spec body hc₂ hnum₂ (hready.behind htest.grows (by omega) (Nat.le_refl hi))).bind
      fun _ s₂ ⟨hbody, _⟩ => ?_
    have hparts := htest.next hbody hk hhi
    refine .pure ⟨(hparts.widen (Nat.le_succ lo) (Nat.le_refl _)).imp ?_, rfl⟩
    exact fun _ h => ⟨h.1.1, h.2⟩

theorem stmtList_spec : ∀ (ss : List Stmt) {scope : Scope} {s : Resolving} {lo hi : Nat},
    Stmt.CompleteAll ss → Stmt.NumberedAll ss lo hi → s.Ready base lo hi scope →
    Ends s (stmtList scope ss) fun ty s' =>
      s.Establishes base lo hi s' (Stmt.ResolvedAll · scope ss) ∧ ty.isSome
  | [], _, _, _, _, _, _, _ => by
    rw [stmtList]
    exact .pure ⟨.of_true fun _ => True.intro, rfl⟩
  | [st], scope, s, lo, hi, ⟨hc, _⟩, ⟨k, hnum, hhi⟩, hready => by
    rw [stmtList]
    cases hhi
    refine (stmt_spec st hc hnum hready).imp fun ty s' ⟨hst, hty⟩ => ⟨hst.imp ?_, hty⟩
    exact fun _ h => ⟨h, True.intro⟩
  | st :: st' :: ss, scope, s, lo, hi, ⟨hc₁, hc₂⟩, ⟨k, hnum₁, hnum₂⟩, hready => by
    have hk := st.le_of_numbered hnum₁
    have hhi := Stmt.le_of_numberedAll _ hnum₂
    rw [stmtList]
    · refine (stmt_spec st hc₁ hnum₁ (hready.part (Nat.le_refl lo) hhi)).bind fun _ s₁ ⟨hst, _⟩ => ?_
      refine (stmtList_spec (st' :: ss) hc₂ hnum₂ (hready.behind hst.grows hk (Nat.le_refl hi))).imp
        fun ty s₂ ⟨hss, hty⟩ => ⟨?_, hty⟩
      exact hst.next hss hk hhi
    · simp

theorem bodies_spec : ∀ (ds : List Decl) {scope : Scope} {s : Resolving} {lo hi : Nat},
    Decl.CompleteAll ds → Decl.NumberedAll ds lo hi → s.Inv base → scope.Typed s.attrs →
    (s.Fresh fun id => Between lo hi id ∧ ¬DeclaredBy ds id) → hi ≤ base → (∀ d ∈ ds, d.Typed s.attrs) →
    Ends s (bodies scope ds) fun _ s' =>
      s.Establishes base lo hi s' (Decl.ResolvedAll · scope ds)
  | [], _, _, _, _, _, _, _, _, _, _, _ => by
    rw [bodies]
    exact .pure (.of_true fun _ => True.intro)
  | .fn m name params type body :: ds, scope, s, lo, hi, ⟨hc₁, hc₂⟩,
      ⟨k, hnum, hnum₂⟩, hinv, htyped, hfresh, hbase, hds => by
    obtain ⟨_, j, hparams, _, hnum₁⟩ := id hnum
    obtain ⟨hfn, hrest⟩ := List.forall_mem_cons.mp hds
    have hj := Param.le_of_numberedAll hparams
    have hk := body.le_of_numbered hnum₁
    have hhi := Decl.le_of_numberedAll ds hnum₂
    have hlater := fresh_behind hnum hfresh
    rw [bodies]
    -- A function without a body is skipped; otherwise the body is resolved below its parameters.
    rcases hc₁ with rfl | hc₁
    · refine .ite (fun h => by cases h) fun _ => ?_
      refine (bodies_spec ds hc₂ hnum₂ hinv htyped hlater hbase hrest).imp fun _ s' hrest => ?_
      have hfn : s.Establishes base lo hi s' _ := (hrest.widen (by omega) (Nat.le_refl _)).typed hfn
      exact hfn.imp fun _ h => ⟨⟨h.1, True.intro⟩, h.2⟩
    · refine .ite (fun _ => ?_) fun h => ?_
      · refine (paramNames_spec params).bind fun names s' ⟨hs', hnames, _⟩ => ?_
        subst hs' hnames
        -- The body is ready: its numbers are fresh, and the parameters have their types.
        have hbody : s'.Ready base (j + 1) k (paramScope params :: scope) :=
          ⟨hinv, htyped.params hfn.2, fresh_body hnum hparams hnum₂ hfresh, Nat.le_trans hhi hbase⟩
        refine (expr_spec body hc₁ hnum₁ hbody).bind fun ty s₁ ⟨hbody, _⟩ => ?_
        refine (checkBody_spec m name body ty).bind fun _ s' hs' => ?_
        subst hs'
        -- The declarations behind keep their fresh numbers while the body is resolved.
        have hlater := hlater.keep hbody.grows.keeps (fun id hid => by omega) fun id hid => by omega
        refine (bodies_spec ds hc₂ hnum₂ (hbody.grows.inv hinv) (htyped.mono hbody.grows.moreTyped) hlater
          hbase fun d hd => (hrest d hd).mono hbody.grows.moreTyped).imp fun _ s₂ hrest => ?_
        have hparts := (hbody.next hrest hk hhi).typed hfn
        refine (hparts.widen (by omega) (Nat.le_refl _)).imp fun _ h => ?_
        exact ⟨⟨h.1, h.2.1.1⟩, h.2.2⟩
      · cases body <;> first | exact (h rfl).elim | exact hc₁.elim
  | .var m name type :: ds, scope, s, lo, hi, ⟨_, hc⟩, ⟨k, hnum₁, hnum₂⟩, hinv, htyped, hfresh,
      hbase, hds => by
    obtain ⟨hvar, hds⟩ := List.forall_mem_cons.mp hds
    rw [bodies]
    · have hle := (Decl.var m name type).le_of_numbered hnum₁
      refine (bodies_spec ds hc hnum₂ hinv htyped (fresh_behind hnum₁ hfresh) hbase hds).imp
        fun _ s' hbodies => (hbodies.widen hle (Nat.le_refl _)).typed hvar
    · simp
  | .typ m name type :: ds, scope, s, lo, hi, ⟨_, hc⟩, ⟨k, hnum₁, hnum₂⟩, hinv, htyped, hfresh,
      hbase, hds => by
    obtain ⟨-, hds⟩ := List.forall_mem_cons.mp hds
    rw [bodies]
    · have hle := (Decl.typ m name type).le_of_numbered hnum₁
      refine (bodies_spec ds hc hnum₂ hinv htyped (fresh_behind hnum₁ hfresh) hbase hds).imp
        fun _ s' hbodies => ?_
      refine (hbodies.widen hle (Nat.le_refl _)).imp fun _ h => ⟨True.intro, h⟩
    · simp
  | .par m name type :: ds, _, _, _, _, hc, _, _, _, _, _, _ => hc.1.elim
  | .comp m name type :: ds, _, _, _, _, hc, _, _, _, _, _, _ => hc.1.elim

end

theorem program_spec {p : Program} {hi : Nat} (hcomplete : Decl.CompleteAll p.decls)
    (hnum : Decl.NumberedAll p.decls 1 hi) (hinv : s.Inv base) (hfresh : s.Fresh (Between 1 hi))
    (hbase : hi ≤ base) :
    Ends s (program p) fun _ s' => s'.Inv base ∧
      Decl.ResolvedAll s'.attrs [blockScope p.decls] p.decls ∧ p.WellNamed ∧
      s'.attrs.strings = s.attrs.strings := by
  have hreserved := ends_forM (fun ds => .forM inferInstance ds) (fun d s => checkReserved_spec d)
    p.decls (s := s)
  refine hreserved.bind fun _ s₁ ⟨hs₁, hpermitted⟩ => ?_
  subst hs₁
  refine (declare_spec hinv hfresh hbase [] hcomplete hnum).bind fun scope s₂ h₂ => ?_
  obtain ⟨rfl, hext₂, hdecls, hfresh₂, hnames⟩ := h₂
  have hinv₂ := hext₂.inv hinv
  have hempty : Scope.Typed s₂.attrs [] := fun _ _ h => by cases h
  refine (bodies_spec p.decls hcomplete hnum hinv₂ (hempty.block hdecls) hfresh₂ hbase hdecls).imp
    fun _ s₃ hbodies => ?_
  refine ⟨hbodies.grows.inv hinv₂, hbodies.holds s₃.attrs ?_, ⟨hnames, hpermitted⟩,
    hbodies.grows.strings.trans hext₂.strings⟩
  exact ⟨fun _ _ _ => rfl, fun _ _ _ => rfl, fun _ _ h => h, fun _ _ h => h, .refl _⟩

end Resolve

/-- Resolution as it has ended for a program that resolves. -/
theorem Program.ends_of_resolve {p : Program} {t : Attributes}
    (hcomplete : Decl.CompleteAll p.number.decls) (h : p.number.resolve = .ok t) :
    ∃ s : Resolving, s.attrs = t ∧ s.Inv p.number.nextId ∧
      Decl.ResolvedAll t [blockScope p.number.decls] p.number.decls ∧ p.number.WellNamed ∧
      t.strings = ∅ := by
  have hnum := p.number_spec.1
  have hinv : Resolving.Inv p.number.nextId { nextId := p.number.nextId } :=
    ⟨Nat.le_refl _, fun id info hinfo => by simp at hinfo, fun id ty hty => by simp at hty,
      fun id ty hty => by simp at hty⟩
  have hfresh : Resolving.Fresh { nextId := p.number.nextId } (Between 1 p.number.nextId) :=
    fun id _ => by simp
  have hends := Resolve.program_spec hcomplete hnum hinv hfresh (Nat.le_refl _)
  replace h : (if ((Resolve.program p.number).run { nextId := p.number.nextId }).2.errors.isEmpty
    then _ else _) = Except.ok t := h
  split at h
  · next herrors =>
    cases h
    exact ⟨_, rfl, hends (List.isEmpty_iff.mp herrors)⟩
  · cases h

/-- **A program that resolves is lexically resolved**, and the components of its records have numbers
that no node of the program has. All array lengths are positive. -/
theorem Program.resolved_of_resolve {p : Program} {t : Attributes}
    (hcomplete : Decl.CompleteAll p.number.decls) (h : p.number.resolve = .ok t) :
    Decl.ResolvedAll t [blockScope p.number.decls] p.number.decls ∧
      (∀ (id : NodeId) info, t.records[id]? = some info → info.WellFormed p.number.nextId) ∧
      (∀ (id : NodeId) ty, t.declType[id]? = some ty → ty.Positive) ∧ t.typeDefs.Positive := by
  obtain ⟨s, rfl, hinv, hresolved, -⟩ := Program.ends_of_resolve hcomplete h
  exact ⟨hresolved, fun id info hinfo => (hinv.records id info hinfo).2,
    fun id ty hty => (hinv.declType id ty hty).2, hinv.typeDefs⟩

/-- **The global names of a program that resolves are distinct**, and those of runtime routines are
left to functions without a body. No string constant has been laid out. -/
theorem Program.wellNamed_of_resolve {p : Program} {t : Attributes}
    (hcomplete : Decl.CompleteAll p.number.decls) (h : p.number.resolve = .ok t) :
    p.number.WellNamed ∧ t.strings = ∅ := by
  obtain ⟨s, -, -, -, hnamed, hstrings⟩ := Program.ends_of_resolve hcomplete h
  exact ⟨hnamed, hstrings⟩

end MmixBackend.Source
