import MmixBackend.Proofs.Source.Nodes
import MmixBackend.Proofs.Source.Outcomes
import Mathlib.Data.List.Pairwise

/-!
# What resolution records, with or without errors

`Resolving.Touches ids` says what a step may change that resolves nodes with numbers among `ids`:
entries under these numbers, and entries under numbers that it takes from the counter.
`Resolving.Sound P` says that all types in the tables have names among `P` only and that the
components of all records have types. A step that has this form of a statement may or may not report
errors.

`Resolving.Admits scope ids` describes the states in which the nodes with the numbers `ids` can be
resolved inside of `scope`. Nothing is recorded for these nodes yet, and all type names have a
definition, none of them with a cycle.

## Main statements

- `Resolving.Touches.trans`, `Resolving.Admits.after`: one part of a tree after another one.
- `touches_keeping`, `Sound.keeping`: what is kept of a text, be it a type or not.
- `touches_reading`, `Sound.reading`: reading a type.
- `Resolve.Runs.bind`: the rule for one step after another one.
-/

namespace MmixBackend.Source

/-! ## §1 Steps -/

/-- Elements of which the lists share something are the same, if all lists together have no duplicates. -/
theorem eq_of_mem_flatMap {α β : Type} {xs : List α} {f : α → List β} (h : (xs.flatMap f).Nodup) {x y : α}
    (hx : x ∈ xs) (hy : y ∈ xs) {b : β} (hbx : b ∈ f x) (hby : b ∈ f y) : x = y := by
  by_contra hne
  have hsymm : Std.Symm (Function.onFun List.Disjoint f) := ⟨fun _ _ h _ hb ha => h ha hb⟩
  exact (List.nodup_flatMap.mp h).2.forall hx hy hne hbx hby

/-- Components have different numbers, whichever records they belong to. -/
def Attributes.CompsDistinct (t : Attributes) : Prop :=
  ∀ (id id' : NodeId) info info', t.records[id]? = some info → t.records[id']? = some info' →
    ∀ (i j : Nat) d d', info.comps[i]? = some d → info'.comps[j]? = some d' → d.id = d'.id →
      id = id' ∧ i = j

namespace Resolving

/-- What may change when nodes with numbers among `ids` are resolved. -/
structure Touches (ids : List NodeId) (s s' : Resolving) : Prop where
  nextId : s.nextId ≤ s'.nextId
  declaredAt : ∀ id ∉ ids, s'.attrs.declaredAt[id]? = s.attrs.declaredAt[id]?
  ofType : ∀ id ∉ ids, s'.attrs.ofType[id]? = s.attrs.ofType[id]?
  isType : ∀ id ∉ ids, s'.attrs.isType[id]? = s.attrs.isType[id]?
  declType : ∀ id ∉ ids, id < s.nextId → s'.attrs.declType[id]? = s.attrs.declType[id]?
  typeDefs : ∀ id ∉ ids, s'.attrs.typeDefs[id]? = s.attrs.typeDefs[id]?
  records : ∀ id < s.nextId, s'.attrs.records[id]? = s.attrs.records[id]?
  comps : ∀ (id : NodeId) info, s.nextId ≤ id → s'.attrs.records[id]? = some info →
    ∀ d ∈ info.comps, s.nextId ≤ d.id
  distinct : s.attrs.CompsDistinct → s'.attrs.CompsDistinct

variable {ids ids' : List NodeId} {s s' s'' : Resolving}

namespace Touches

/-- Nothing but the errors changes. -/
theorem of_attrs_eq (hattrs : s'.attrs = s.attrs) (hnext : s'.nextId = s.nextId)
    (hrecords : ∀ (id : NodeId) info, s.attrs.records[id]? = some info → id < s.nextId) :
    s.Touches ids s' where
  nextId := Nat.le_of_eq hnext.symm
  declaredAt _ _ := by rw [hattrs]
  ofType _ _ := by rw [hattrs]
  isType _ _ := by rw [hattrs]
  declType _ _ _ := by rw [hattrs]
  typeDefs _ _ := by rw [hattrs]
  records _ _ := by rw [hattrs]
  comps id info hid hinfo := absurd (hrecords id info (hattrs ▸ hinfo)) (Nat.not_lt.mpr hid)
  distinct h := hattrs ▸ h

theorem mono (h : s.Touches ids s') (hsub : ids ⊆ ids') : s.Touches ids' s' where
  nextId := h.nextId
  declaredAt id hid := h.declaredAt id fun hmem => hid (hsub hmem)
  ofType id hid := h.ofType id fun hmem => hid (hsub hmem)
  isType id hid := h.isType id fun hmem => hid (hsub hmem)
  declType id hid := h.declType id fun hmem => hid (hsub hmem)
  typeDefs id hid := h.typeDefs id fun hmem => hid (hsub hmem)
  records := h.records
  comps := h.comps
  distinct := h.distinct

theorem trans (h : s.Touches ids s') (h' : s'.Touches ids s'') : s.Touches ids s'' where
  nextId := Nat.le_trans h.nextId h'.nextId
  declaredAt id hid := (h'.declaredAt id hid).trans (h.declaredAt id hid)
  ofType id hid := (h'.ofType id hid).trans (h.ofType id hid)
  isType id hid := (h'.isType id hid).trans (h.isType id hid)
  declType id hid hlt :=
    (h'.declType id hid (Nat.lt_of_lt_of_le hlt h.nextId)).trans (h.declType id hid hlt)
  typeDefs id hid := (h'.typeDefs id hid).trans (h.typeDefs id hid)
  records id hlt := (h'.records id (Nat.lt_of_lt_of_le hlt h.nextId)).trans (h.records id hlt)
  comps id info hid hinfo d hd := by
    by_cases hlt : id < s'.nextId
    · exact h.comps id info hid ((h'.records id hlt).symm.trans hinfo) d hd
    · exact Nat.le_trans h.nextId (h'.comps id info (Nat.le_of_not_lt hlt) hinfo d hd)
  distinct hdistinct := h'.distinct (h.distinct hdistinct)

end Touches

end Resolving

/-- A type that the tables contain. -/
inductive Attributes.Mentions (t : Attributes) : Ty → Prop
  | ofType {id : NodeId} {ty : Ty} : t.ofType[id]? = some ty → Mentions t ty
  | isType {id : NodeId} {ty : Ty} : t.isType[id]? = some ty → Mentions t ty
  | declType {id : NodeId} {ty : Ty} : t.declType[id]? = some ty → Mentions t ty
  | typeDefs {id : NodeId} {ty : Ty} : t.typeDefs[id]? = some ty → Mentions t ty
  | record {id : NodeId} {info : RecordInfo} : t.records[id]? = some info →
      Mentions t (.record id info.fields)

/-- A type in the tables that has been read, or is part of one. -/
inductive Attributes.Denoted (t : Attributes) : Ty → Prop
  | isType {id : NodeId} {ty : Ty} : t.isType[id]? = some ty → Denoted t ty
  | declType {id : NodeId} {ty : Ty} : t.declType[id]? = some ty → Denoted t ty
  | typeDefs {id : NodeId} {ty : Ty} : t.typeDefs[id]? = some ty → Denoted t ty

/-- The tables have the records in the type, with the same components. -/
def Attributes.HasRecords (t : Attributes) (ty : Ty) : Prop :=
  ∀ r ∈ ty.records, ∃ info, t.records[r.1]? = some info ∧ info.fields = r.2

/-- A record in the tables that has been read at a counter below `n`; its components have
declarations as such, different names, and types. -/
structure Attributes.Registered (t : Attributes) (n : NodeId) (id : NodeId) (info : RecordInfo) :
    Prop where
  id_lt : id < n
  comps_lt : ∀ d ∈ info.comps, d.id < n
  names : info.comps.map Decl.name = info.fields.toList.map Prod.fst
  distinct : (info.comps.map Decl.name).Nodup
  typed : ∀ c ∈ info.typed, t.declType[c.1.id]? = some c.2.2
  comp : ∀ d ∈ info.comps, ∃ m name type, d = .comp m name type

namespace Resolving

/-- The type name has a definition. -/
def Defines (s : Resolving) (d : NodeId) : Prop := (s.attrs.typeDefs[d]?).isSome

/-- The names in all types are among `P`, and everything has numbers below the counter. -/
structure Sound (P : NodeId → Prop) (s : Resolving) : Prop where
  names : ∀ ty, s.attrs.Mentions ty → ty.NamesIn P
  declType : ∀ (id : NodeId) ty, s.attrs.declType[id]? = some ty → id < s.nextId
  records : ∀ (id : NodeId) info, s.attrs.records[id]? = some info → s.attrs.Registered s.nextId id info
  recorded : ∀ ty, s.attrs.Denoted ty → s.attrs.HasRecords ty

/-- A type, if there is one, has no names without a definition. -/
def Knows (s : Resolving) (ty : Option Ty) : Prop := ∀ ty', ty = some ty' → ty'.NamesIn s.Defines

/-- No component of a record has a number among `ids`. -/
def Apart (ids : List NodeId) (s : Resolving) : Prop :=
  ∀ (id : NodeId) info, s.attrs.records[id]? = some info → ∀ d ∈ info.comps, d.id ∉ ids

/-- A state in which nodes with numbers among `ids` can be resolved inside of `scope`. -/
structure Admits (scope : Scope) (ids : List NodeId) (s : Resolving) : Prop where
  sound : s.Sound s.Defines
  guarded : s.attrs.typeDefs.Guarded
  scope : ∀ ident m name te, scope.find? ident = some (.typ m name te) → s.Defines m.id
  below : ∀ id ∈ ids, id < s.nextId
  apart : s.Apart ids
  declaredAt : ∀ id ∈ ids, s.attrs.declaredAt[id]? = none
  ofType : ∀ id ∈ ids, s.attrs.ofType[id]? = none
  isType : ∀ id ∈ ids, s.attrs.isType[id]? = none
  declType : ∀ id ∈ ids, s.attrs.declType[id]? = none
  typeDefs : ∀ id ∈ ids, s.attrs.typeDefs[id]? = none

/-- A step that resolves nodes with numbers among `ids` and leaves all type names with a definition
without a cycle. -/
structure Goes (ids : List NodeId) (s s' : Resolving) : Prop where
  touches : s.Touches ids s'
  sound : s'.Sound s'.Defines
  guarded : s'.attrs.typeDefs.Guarded

variable {ids ids' : List NodeId} {s s' s'' : Resolving} {P Q : NodeId → Prop} {scope : Scope}

theorem Sound.mono (h : s.Sound P) (hPQ : ∀ d, P d → Q d) : s.Sound Q where
  names ty hty := ty.namesIn_mono hPQ (h.names ty hty)
  declType := h.declType
  records := h.records
  recorded := h.recorded

theorem Sound.closed (h : s.Sound s.Defines) : s.attrs.typeDefs.Closed :=
  fun _ t ht => h.names t (.typeDefs ht)

theorem Sound.adding (h : s.Sound P) (es : List Diagnostic) : (s.adding es).Sound P :=
    ⟨h.1, h.2, h.3, h.4⟩

theorem Goes.refl (hsound : s.Sound s.Defines) (hguarded : s.attrs.typeDefs.Guarded) : s.Goes ids s :=
  ⟨.of_attrs_eq rfl rfl fun id info h => (hsound.records id info h).id_lt, hsound, hguarded⟩

theorem Goes.mono (h : s.Goes ids s') (hsub : ids ⊆ ids') : s.Goes ids' s' :=
  ⟨h.touches.mono hsub, h.sound, h.guarded⟩

theorem Goes.trans (h : s.Goes ids s') (h' : s'.Goes ids s'') : s.Goes ids s'' :=
  ⟨h.touches.trans h'.touches, h'.sound, h'.guarded⟩

theorem Goes.adding (h : s.Goes ids s') (es : List Diagnostic) : s.Goes ids (s'.adding es) where
  touches := h.touches.trans (.of_attrs_eq rfl rfl fun id info h' => (h.sound.records id info h').id_lt)
  sound := h.sound.adding es
  guarded := h.guarded

theorem Admits.refl (h : s.Admits scope ids) : s.Goes ids' s := .refl h.sound h.guarded

/-- Definitions are only added. -/
theorem Admits.grows (h : s.Admits scope ids) (hstep : s.Touches ids s') :
    s.attrs.typeDefs.Grows s'.attrs.typeDefs := by
  intro d t ht
  refine (hstep.typeDefs d fun hd => ?_).trans ht
  rw [h.typeDefs d hd] at ht
  cases ht

theorem Defines.of_grows (h : s.attrs.typeDefs.Grows s'.attrs.typeDefs) {d : NodeId} (hd : s.Defines d) :
    s'.Defines d := by
  obtain ⟨t, ht⟩ := Option.isSome_iff_exists.mp hd
  exact Option.isSome_of_eq_some (h d t ht)

/-- **What remains to be resolved can be resolved** after a step for other nodes. -/
theorem Admits.after {done rest : List NodeId} (h : s.Admits scope ids) (hdone : done ⊆ ids)
    (hrest : rest ⊆ ids) (hstep : s.Goes done s') (hdisjoint : done.Disjoint rest) :
    s'.Admits scope rest where
  sound := hstep.sound
  guarded := hstep.guarded
  scope ident m name te hfind :=
    .of_grows (h.grows (hstep.touches.mono hdone)) (h.scope ident m name te hfind)
  below id hid := Nat.lt_of_lt_of_le (h.below id (hrest hid)) hstep.touches.nextId
  apart id info hinfo d hd hmem := by
    by_cases hlt : id < s.nextId
    · exact h.apart id info ((hstep.touches.records id hlt).symm.trans hinfo) d hd (hrest hmem)
    · -- A new record has components with new numbers.
      have hle := hstep.touches.comps id info (Nat.le_of_not_lt hlt) hinfo d hd
      exact absurd (h.below d.id (hrest hmem)) (Nat.not_lt.mpr hle)
  declaredAt id hid := (hstep.touches.declaredAt id fun h => hdisjoint h hid).trans
    (h.declaredAt id (hrest hid))
  ofType id hid := (hstep.touches.ofType id fun h => hdisjoint h hid).trans (h.ofType id (hrest hid))
  isType id hid := (hstep.touches.isType id fun h => hdisjoint h hid).trans (h.isType id (hrest hid))
  declType id hid := (hstep.touches.declType id (fun h => hdisjoint h hid) (h.below id (hrest hid))).trans
    (h.declType id (hrest hid))
  typeDefs id hid := (hstep.touches.typeDefs id fun h => hdisjoint h hid).trans
    (h.typeDefs id (hrest hid))

theorem Admits.mono (h : s.Admits scope ids) (hsub : ids' ⊆ ids) : s.Admits scope ids' where
  sound := h.sound
  guarded := h.guarded
  scope := h.scope
  below id hid := h.below id (hsub hid)
  apart id info hinfo d hd hmem := h.apart id info hinfo d hd (hsub hmem)
  declaredAt id hid := h.declaredAt id (hsub hid)
  ofType id hid := h.ofType id (hsub hid)
  isType id hid := h.isType id (hsub hid)
  declType id hid := h.declType id (hsub hid)
  typeDefs id hid := h.typeDefs id (hsub hid)

/-- Another scope, in which all declared types have a definition, too. -/
theorem Admits.within {inner : Scope} (h : s.Admits scope ids)
    (hinner : ∀ ident m name te, inner.find? ident = some (.typ m name te) → s.Defines m.id) :
    s.Admits inner ids := { h with scope := hinner }

/-! ## §2 Single entries -/

section

variable {id : NodeId} {ty : Ty} {d : Decl}

theorem getElem?_insert_of_not_mem {β : Type} {m : Std.TreeMap NodeId β} {b : β} {id' : NodeId}
    (hid : id ∈ ids) (hid' : id' ∉ ids) : (m.insert id b)[id']? = m[id']? := by
  have hne : id ≠ id' := fun h => hid' (h ▸ hid)
  rw [Std.TreeMap.getElem?_insert, if_neg (by simpa using hne)]

theorem eq_or_of_getElem?_insert {β : Type} {m : Std.TreeMap NodeId β} {b b' : β} {id' : NodeId}
    (h : (m.insert id b)[id']? = some b') : (id' = id ∧ b' = b) ∨ m[id']? = some b' := by
  rw [Std.TreeMap.getElem?_insert] at h
  split at h
  · next heq => exact .inl ⟨(Std.LawfulEqCmp.eq_of_compare heq).symm, (Option.some.inj h).symm⟩
  · exact .inr h

theorem Sound.touches_refl (hs : s.Sound P) : s.Touches ids s :=
  .of_attrs_eq rfl rfl fun id info h => (hs.records id info h).id_lt

variable (hs : s.Sound P) (hid : id ∈ ids)
include hs hid

theorem touches_binding : s.Touches ids (s.binding id d) :=
  { hs.touches_refl with declaredAt := fun _ => getElem?_insert_of_not_mem hid }

theorem touches_typing : s.Touches ids (s.typing id ty) :=
  { hs.touches_refl with ofType := fun _ => getElem?_insert_of_not_mem hid }

theorem touches_declaring : s.Touches ids (s.declaring id ty) :=
  { hs.touches_refl with declType := fun _ hid' _ => getElem?_insert_of_not_mem hid hid' }

theorem touches_defining : s.Touches ids (s.defining id ty) :=
  { hs.touches_refl with typeDefs := fun _ => getElem?_insert_of_not_mem hid }

end

section

variable {id : NodeId} {ty : Ty} {d : Decl} (hs : s.Sound P)
include hs

theorem Sound.binding : (s.binding id d).Sound P where
  names ty hty := hs.names ty <| by
    cases hty with
    | ofType h => exact .ofType h
    | isType h => exact .isType h
    | declType h => exact .declType h
    | typeDefs h => exact .typeDefs h
    | record h => exact .record h
  declType := hs.declType
  records id info h := ⟨(hs.records id info h).1, (hs.records id info h).2, (hs.records id info h).3,
    (hs.records id info h).4, (hs.records id info h).5, (hs.records id info h).6⟩
  recorded ty hty := hs.recorded ty <| by
    cases hty with
    | isType h => exact .isType h
    | declType h => exact .declType h
    | typeDefs h => exact .typeDefs h

theorem Sound.typing (hty : ty.NamesIn P) : (s.typing id ty).Sound P where
  names ty' hty' := by
    cases hty' with
    | ofType h =>
      rcases eq_or_of_getElem?_insert h with ⟨-, rfl⟩ | h
      · exact hty
      · exact hs.names _ (.ofType h)
    | isType h => exact hs.names _ (.isType h)
    | declType h => exact hs.names _ (.declType h)
    | typeDefs h => exact hs.names _ (.typeDefs h)
    | record h => exact hs.names _ (.record h)
  declType := hs.declType
  records id info h := ⟨(hs.records id info h).1, (hs.records id info h).2, (hs.records id info h).3,
    (hs.records id info h).4, (hs.records id info h).5, (hs.records id info h).6⟩
  recorded ty' hty' := hs.recorded ty' <| by
    cases hty' with
    | isType h => exact .isType h
    | declType h => exact .declType h
    | typeDefs h => exact .typeDefs h

theorem Sound.declaring (hid : id < s.nextId) (hids : id ∈ ids) (hapart : s.Apart ids)
    (hty : ty.NamesIn P) (hrecords : s.attrs.HasRecords ty) : (s.declaring id ty).Sound P where
  names ty' hty' := by
    cases hty' with
    | ofType h => exact hs.names _ (.ofType h)
    | isType h => exact hs.names _ (.isType h)
    | declType h =>
      rcases eq_or_of_getElem?_insert h with ⟨-, rfl⟩ | h
      · exact hty
      · exact hs.names _ (.declType h)
    | typeDefs h => exact hs.names _ (.typeDefs h)
    | record h => exact hs.names _ (.record h)
  declType id' ty' h := by
    rcases eq_or_of_getElem?_insert h with ⟨rfl, -⟩ | h
    · exact hid
    · exact hs.declType id' ty' h
  records id' info h := by
    obtain ⟨hlt, hcomps, hnames, hdistinct, htyped, hcomp⟩ := hs.records id' info h
    refine ⟨hlt, hcomps, hnames, hdistinct, fun c hc => ?_, hcomp⟩
    exact (getElem?_insert_of_not_mem hids (hapart id' info h c.1 (List.of_mem_zip hc).1)).trans
      (htyped c hc)
  recorded ty' hty' := by
    cases hty' with
    | isType h => exact hs.recorded _ (.isType h)
    | declType h =>
      rcases eq_or_of_getElem?_insert h with ⟨-, rfl⟩ | h
      · exact hrecords
      · exact hs.recorded _ (.declType h)
    | typeDefs h => exact hs.recorded _ (.typeDefs h)

theorem Sound.denoting (hty : ty.NamesIn P) (hrecords : s.attrs.HasRecords ty) :
    (s.denoting id ty).Sound P where
  names ty' hty' := by
    cases hty' with
    | ofType h => exact hs.names _ (.ofType h)
    | isType h =>
      rcases eq_or_of_getElem?_insert h with ⟨-, rfl⟩ | h
      · exact hty
      · exact hs.names _ (.isType h)
    | declType h => exact hs.names _ (.declType h)
    | typeDefs h => exact hs.names _ (.typeDefs h)
    | record h => exact hs.names _ (.record h)
  declType := hs.declType
  records id info h := ⟨(hs.records id info h).1, (hs.records id info h).2, (hs.records id info h).3,
    (hs.records id info h).4, (hs.records id info h).5, (hs.records id info h).6⟩
  recorded ty' hty' := by
    cases hty' with
    | isType h =>
      rcases eq_or_of_getElem?_insert h with ⟨-, rfl⟩ | h
      · exact hrecords
      · exact hs.recorded _ (.isType h)
    | declType h => exact hs.recorded _ (.declType h)
    | typeDefs h => exact hs.recorded _ (.typeDefs h)

theorem Sound.defining (hty : ty.NamesIn P) (hrecords : s.attrs.HasRecords ty) :
    (s.defining id ty).Sound P where
  names ty' hty' := by
    cases hty' with
    | ofType h => exact hs.names _ (.ofType h)
    | isType h => exact hs.names _ (.isType h)
    | declType h => exact hs.names _ (.declType h)
    | typeDefs h =>
      rcases eq_or_of_getElem?_insert h with ⟨-, rfl⟩ | h
      · exact hty
      · exact hs.names _ (.typeDefs h)
    | record h => exact hs.names _ (.record h)
  declType := hs.declType
  records id info h := ⟨(hs.records id info h).1, (hs.records id info h).2, (hs.records id info h).3,
    (hs.records id info h).4, (hs.records id info h).5, (hs.records id info h).6⟩
  recorded ty' hty' := by
    cases hty' with
    | isType h => exact hs.recorded _ (.isType h)
    | declType h => exact hs.recorded _ (.declType h)
    | typeDefs h =>
      rcases eq_or_of_getElem?_insert h with ⟨-, rfl⟩ | h
      · exact hrecords
      · exact hs.recorded _ (.typeDefs h)

end

/-! ## §3 Reading types

All of this holds of texts that turn out not to be types, too: what has been read of them is kept. -/

section

variable {te : TypeExpr} {p : TypeParts} {lookup : String → Option Decl}

section

variable (hread : p.ReadFrom lookup s.nextId te)
include hread

theorem records_keeping_of_mem {id : NodeId} {info : RecordInfo} (h : (id, info) ∈ p.records) :
    (s.keeping te p).attrs.records[id]? = some info := by
  obtain ⟨hnodup, -⟩ := hread.sound
  refine getElem?_foldl_insert_of_mem Prod.fst Prod.snd p.records _ h ?_
  refine hnodup.sublist ?_
  generalize p.records = rs
  induction rs with
  | nil => exact List.nil_sublist _
  | cons r rs ih => exact (List.Sublist.append (List.singleton_sublist.mpr List.mem_cons_self) ih :)

theorem records_keeping_of_lt {id : NodeId} (h : id < s.nextId) :
    (s.keeping te p).attrs.records[id]? = s.attrs.records[id]? := by
  refine getElem?_foldl_insert_of_forall_ne Prod.fst Prod.snd p.records _ fun x hx heq => ?_
  have hle := (hread.spec.2 x.1 x.2 hx).1
  exact absurd h (Nat.not_lt.mpr (heq ▸ hle))

theorem declType_keeping_of_mem {id : NodeId} {info : RecordInfo} (h : (id, info) ∈ p.records)
    {c : Decl × String × Ty} (hc : c ∈ info.typed) :
    (s.keeping te p).attrs.declType[c.1.id]? = some c.2.2 := by
  obtain ⟨hnodup, -⟩ := hread.sound
  refine getElem?_foldl_insert_of_mem (fun c : Decl × String × Ty => c.1.id) (fun c => c.2.2)
    _ _ (List.mem_flatMap.mpr ⟨_, h, hc⟩) (hnodup.sublist ?_)
  have hzip (ds : List Decl) (fs : List (String × Ty)) :
      ((ds.zip fs).map fun c => c.1.id).Sublist (ds.map Decl.id) := by
    induction ds generalizing fs with
    | nil => exact List.nil_sublist _
    | cons d ds ih =>
      cases fs with
      | nil => exact List.nil_sublist _
      | cons f fs => exact (ih fs).cons_cons _
  generalize p.records = rs
  induction rs with
  | nil => exact List.nil_sublist _
  | cons r rs ih =>
    rw [List.flatMap_cons, List.map_append, List.flatMap_cons]
    exact ((hzip r.2.comps r.2.fields.toList).cons _).append ih

theorem declType_keeping_of_lt {id : NodeId} (h : id < s.nextId) :
    (s.keeping te p).attrs.declType[id]? = s.attrs.declType[id]? := by
  refine getElem?_foldl_insert_of_forall_ne (fun c : Decl × String × Ty => c.1.id) (fun c => c.2.2)
    _ _ fun c hc heq => ?_
  obtain ⟨⟨rid, info⟩, hinfo, hc⟩ := List.mem_flatMap.mp hc
  obtain ⟨m, name, type, hd, hle⟩ := (hread.spec.2 rid info hinfo).2.2.1.comp c.1
    (List.of_mem_zip hc).1
  rw [hd] at heq
  exact absurd h (Nat.not_lt.mpr (heq ▸ hle))

/-- A record in the tables is an old one, or it has been read and so have its components. -/
theorem records_keeping {id : NodeId} {info : RecordInfo}
    (h : (s.keeping te p).attrs.records[id]? = some info) :
    s.attrs.records[id]? = some info ∨ (id, info) ∈ p.records ∧ ∀ d ∈ info.comps, s.nextId ≤ d.id := by
  rcases eq_or_of_getElem?_foldl_insert Prod.fst Prod.snd p.records _ h with h | ⟨⟨_, _⟩, hmem, rfl, rfl⟩
  · exact .inl h
  · refine .inr ⟨hmem, fun d hd => ?_⟩
    obtain ⟨m, name, type, rfl, hle⟩ := (hread.spec.2 _ _ hmem).2.2.1.comp d hd
    exact hle

/-- **Components that have been read have new numbers**, and different ones. -/
theorem compsDistinct_keeping (hs : s.Sound P) (h : s.attrs.CompsDistinct) :
    (s.keeping te p).attrs.CompsDistinct := by
  obtain ⟨hnodup, -⟩ := hread.sound
  have hapart : ∀ {id : NodeId} {info info' : RecordInfo} {d d' : Decl},
    s.attrs.records[id]? = some info →
      d ∈ info.comps → (∀ d ∈ info'.comps, s.nextId ≤ d.id) → d' ∈ info'.comps → d.id ≠ d'.id :=
    fun hinfo hd hnew hd' heq =>
      absurd ((hs.records _ _ hinfo).comps_lt _ hd) (Nat.not_lt.mpr (heq ▸ hnew _ hd'))
  intro id id' info info' hinfo hinfo' i j d d' hi hj heq
  rcases records_keeping hread hinfo with hold | ⟨hmem, hnew⟩ <;>
    rcases records_keeping hread hinfo' with hold' | ⟨hmem', hnew'⟩
  · exact h id id' info info' hold hold' i j d d' hi hj heq
  · exact absurd heq (hapart hold (List.mem_of_getElem? hi) hnew' (List.mem_of_getElem? hj))
  · exact absurd heq.symm (hapart hold' (List.mem_of_getElem? hj) hnew (List.mem_of_getElem? hi))
  · have hnumber {info : RecordInfo} {id : NodeId} {k : Nat} {d : Decl} (hk : info.comps[k]? = some d) :
        d.id ∈ info.numbers id := List.mem_cons_of_mem _ (List.mem_map_of_mem (List.mem_of_getElem? hk))
    have hsame := eq_of_mem_flatMap hnodup hmem hmem' (hnumber hi) (heq ▸ hnumber hj)
    cases hsame
    refine ⟨rfl, ?_⟩
    have hcomps := ((List.nodup_flatMap.mp hnodup).1 _ hmem).of_cons
    refine (List.getElem?_inj (l := info.comps.map Decl.id) ?_ hcomps).mp ?_
    · rw [List.length_map]
      exact (List.getElem?_eq_some_iff.mp hi).1
    · rw [List.getElem?_map, List.getElem?_map, hi, hj, Option.map_some, Option.map_some, heq]

theorem touches_keeping (hs : s.Sound P) (hid : te.mark.id ∈ ids) : s.Touches ids (s.keeping te p) where
  nextId := hread.spec.1
  declaredAt id hid' := by
    show (p.lastNamed.elim s.attrs.declaredAt (s.attrs.declaredAt.insert te.mark.id))[id]? = _
    cases p.lastNamed with
    | none => rfl
    | some d => exact getElem?_insert_of_not_mem hid hid'
  ofType _ _ := rfl
  isType _ _ := rfl
  declType _ _ := declType_keeping_of_lt hread
  typeDefs _ _ := rfl
  records _ := records_keeping_of_lt hread
  comps id info hle hinfo d hd := by
    rcases records_keeping hread hinfo with hinfo | ⟨-, hnew⟩
    · exact absurd (hs.records id info hinfo).id_lt (Nat.not_lt.mpr hle)
    · exact hnew d hd
  distinct := compsDistinct_keeping hread hs

theorem Sound.hasRecords_kept (hs : s.Sound P) {ty : Ty} (h : s.attrs.HasRecords ty) :
    (s.keeping te p).attrs.HasRecords ty := by
  intro part hpart
  obtain ⟨info, hinfo, hfields⟩ := h part hpart
  exact ⟨info, (records_keeping_of_lt hread (hs.records _ info hinfo).id_lt).trans hinfo, hfields⟩

theorem Sound.keeping (hs : s.Sound P) (hlookup : ∀ d, IsTypeName lookup d → P d) :
    (s.keeping te p).Sound P := by
  obtain ⟨-, hsound⟩ := hread.sound
  obtain ⟨hnext, hspec⟩ := hread.spec
  -- The types of components mention only names that are in scope.
  have hfields (id : NodeId) (info : RecordInfo) (h : (id, info) ∈ p.records) : info.fields.NamesIn P :=
    info.fields.namesIn_mono hlookup (hsound id info h).names
  -- Every entry is an old one, or belongs to a record that has been read.
  refine ⟨fun ty hty => ?_, fun id ty hty => ?_, fun id info hinfo => ?_, fun ty hty => ?_⟩
  · cases hty with
    | ofType h => exact hs.names _ (.ofType h)
    | isType h => exact hs.names _ (.isType h)
    | declType h =>
      rcases eq_or_of_getElem?_foldl_insert (fun c : Decl × String × Ty => c.1.id)
        (fun c => c.2.2) _ _ h with
        h | ⟨c, hc, -, rfl⟩
      · exact hs.names _ (.declType h)
      · obtain ⟨⟨rid, info⟩, hinfo, hc⟩ := List.mem_flatMap.mp hc
        exact Fields.namesIn_of_mem (hfields rid info hinfo) _ (List.of_mem_zip hc).2
    | typeDefs h => exact hs.names _ (.typeDefs h)
    | record h =>
      rcases eq_or_of_getElem?_foldl_insert Prod.fst Prod.snd p.records _ h with
        h | ⟨⟨rid, info⟩, hmem, -, rfl⟩
      · exact hs.names _ (.record h)
      · exact hfields rid info hmem
  -- The declared types: numbers in range.
  · rcases eq_or_of_getElem?_foldl_insert (fun c : Decl × String × Ty => c.1.id)
      (fun c => c.2.2) _ _ hty with
      hty | ⟨c, hc, rfl, -⟩
    · exact Nat.lt_of_lt_of_le (hs.declType id ty hty) hnext
    · obtain ⟨⟨rid, info⟩, hinfo, hc⟩ := List.mem_flatMap.mp hc
      exact (hspec rid info hinfo).2.2.2 c.1 (List.of_mem_zip hc).1
  -- The records: an old one keeps what it has, and a new one is as it has been read.
  · rcases eq_or_of_getElem?_foldl_insert Prod.fst Prod.snd p.records _ hinfo with
      hinfo | ⟨⟨rid, info⟩, hmem, rfl, rfl⟩
    · obtain ⟨hlt, hcomps, hnames, hdistinct, htyped, hcomp⟩ := hs.records id info hinfo
      refine ⟨Nat.lt_of_lt_of_le hlt hnext, fun d hd => Nat.lt_of_lt_of_le (hcomps d hd) hnext,
        hnames, hdistinct,
        fun c hc => ?_, hcomp⟩
      exact (declType_keeping_of_lt hread (hcomps c.1 (List.of_mem_zip hc).1)).trans (htyped c hc)
    · obtain ⟨-, hlt, hwf, hcomps⟩ := hspec rid info hmem
      refine ⟨hlt, hcomps, (hsound rid info hmem).comps, (hsound rid info hmem).distinct,
        fun c hc => declType_keeping_of_mem hread hmem hc, fun d hd => ?_⟩
      obtain ⟨m, name, type, hcomp, -⟩ := hwf.comp d hd
      exact ⟨m, name, type, hcomp⟩
  -- The types in the tables: all of their records are in the table of records.
  · have hold {ty : Ty} (h : s.attrs.HasRecords ty) : (s.keeping te p).attrs.HasRecords ty :=
      hs.hasRecords_kept hread h
    cases hty with
    | isType h => exact hold (hs.recorded _ (.isType h))
    | declType h =>
      rcases eq_or_of_getElem?_foldl_insert (fun c : Decl × String × Ty => c.1.id)
        (fun c => c.2.2) _ _ h with
        h | ⟨c, hc, -, rfl⟩
      · exact hold (hs.recorded _ (.declType h))
      · obtain ⟨⟨rid, info⟩, hinfo, hc⟩ := List.mem_flatMap.mp hc
        refine fun part hpart => ?_
        have hpart := Fields.records_subset (List.of_mem_zip hc).2 hpart
        obtain ⟨info', hinfo', hfields⟩ := hread.known _ hinfo part hpart
        exact ⟨info', records_keeping_of_mem hread hinfo', hfields⟩
    | typeDefs h => exact hold (hs.recorded _ (.typeDefs h))

end

section

variable {r : TypeResult}

theorem isType_reading (s : Resolving) : (s.reading te r).attrs.isType[te.mark.id]? = some r.type :=
  Std.TreeMap.getElem?_insert_self

variable (hread : readTypeExpr lookup s.nextId te = .ok r)
include hread

/-- The tables have the records of the type that has been read. -/
theorem hasRecords_reading : (s.reading te r).attrs.HasRecords r.type := by
  intro part hpart
  obtain ⟨info, hinfo, hfields⟩ := (readTypeExpr_sound hread).records part hpart
  exact ⟨info, records_keeping_of_mem (.ok hread) hinfo, hfields⟩

theorem touches_reading (hs : s.Sound P) (hid : te.mark.id ∈ ids) : s.Touches ids (s.reading te r) :=
  { touches_keeping (.ok hread) hs hid with isType := fun _ => getElem?_insert_of_not_mem hid }

theorem Sound.reading (hs : s.Sound P) (hlookup : ∀ d, IsTypeName lookup d → P d) :
    (s.reading te r).Sound P :=
  (hs.keeping (.ok hread) hlookup).denoting (r.type.namesIn_mono hlookup (readTypeExpr_sound hread).names)
    (hasRecords_reading hread)

end

end

end Resolving

/-! ## §4 Steps one after the other -/

namespace Resolve

variable {α β : Type} {ids ids' : List NodeId} {s : Resolving} {x : Resolve α}
  {Q R : α → Resolving → Prop}

/-- The step `x` resolves nodes with numbers among `ids`, and its result and the state behind it
satisfy `Q`. -/
def Runs (ids : List NodeId) (s : Resolving) (x : Resolve α) (Q : α → Resolving → Prop) : Prop :=
  s.Goes ids (x.run s).2 ∧ Q (x.run s).1 (x.run s).2

namespace Runs

theorem pure {a : α} (hs : s.Goes ids s) (h : Q a s) : Runs ids s (pure a) Q := ⟨hs, h⟩

theorem mono (h : Runs ids s x Q) (hsub : ids ⊆ ids') : Runs ids' s x Q := ⟨h.1.mono hsub, h.2⟩

theorem imp (h : Runs ids s x Q) (hQ : ∀ a s', Q a s' → R a s') : Runs ids s x R := ⟨h.1, hQ _ _ h.2⟩

/-- A step with a known outcome. -/
theorem of_judges {a : α} {s' : Resolving} {ok : Prop} (h : Judges s x a s' ok) (hgo : s.Goes ids s')
    (hQ : ∀ es, Q a (s'.adding es)) : Runs ids s x Q := by
  obtain ⟨es, hrun, -⟩ := h
  rw [Runs, hrun]
  exact ⟨hgo.adding es, hQ es⟩

end Runs

end Resolve

end MmixBackend.Source
