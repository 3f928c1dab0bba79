import Mathlib.Data.List.Nodup
import MmixBackend.Proofs.Types.Reader
import MmixBackend.Proofs.Types.Renumbering

/-!
# Reading a type at another time

What a type expression means depends on the declared types in scope only. The counter that numbers come
from decides about the numbers of records and of their components, and about nothing else: reading at a
counter that is higher by `k` gives the same result with all these numbers higher by `k`.

## Main statements

- `readTypeExpr_shift`: reading the same text at another counter.
- `readTypeExpr_congr`: only the declared types among the names in scope matter.
- `readTypeExpr_sound`: the names in a type that has been read are those of declared types in scope, and
  the records in it have been recorded.
- `TypeParts.ReadFrom.sound`: the same of the records that are left behind by any text, all numbers being
  different.
-/

namespace MmixBackend

open Source (NodeId Decl TypeExpr Mark)

/-! ## §1 Increasing numbers -/

/-- The declaration of a component with its numbers increased. -/
def Source.Decl.shift (k : Nat) : Decl → Decl
  | .comp m name type =>
    .comp { m with id := m.id + k } name { type with mark := { type.mark with id := type.mark.id + k } }
  | d => d

/-- A record with all numbers increased. -/
def RecordInfo.shift (k : Nat) (info : RecordInfo) : RecordInfo where
  fields := info.fields.shift k
  comps := info.comps.map (Decl.shift k)

/-- What has been read, with all numbers increased. -/
def TypeParts.shift (k : Nat) (p : TypeParts) : TypeParts :=
  { p with nextId := p.nextId + k, records := p.records.map fun r => (r.1 + k, r.2.shift k) }

/-- The state of the reader with all numbers increased. -/
def TypeReading.shift (k : Nat) (s : TypeReading) : TypeReading :=
    { s with toTypeParts := s.toTypeParts.shift k }

/-- A failure with all numbers increased. -/
def TypeFailure.shift (k : Nat) (e : TypeFailure) : TypeFailure :=
    { e with toTypeParts := e.toTypeParts.shift k }

/-- The type that has been read, with all numbers increased. -/
def TypeResult.shift (k : Nat) (r : TypeResult) : TypeResult :=
  { toTypeParts := r.toTypeParts.shift k, type := r.type.shift k }

theorem Source.Decl.name_shift (k : Nat) (d : Decl) : (d.shift k).name = d.name := by
  cases d <;> rfl

theorem Fields.ofList_shift (k : Nat) : ∀ fs : List (String × Ty),
    Fields.ofList (fs.map fun f => (f.1, f.2.shift k)) = (Fields.ofList fs).shift k
  | [] => rfl
  | (name, type) :: fs => congrArg (Fields.cons name (type.shift k)) (Fields.ofList_shift k fs)

namespace TypeReader

variable {α β : Type}

/-- A component with the numbers of records in its type increased. -/
def Component.shift (k : Nat) (c : Component) : Component := { c with type := c.type.shift k }

/-- The first reader does at numbers increased by `k` what the second one does without; `σ` says how the
results differ. If one of them fails then so does the other one, with the same fault. -/
def Shifts (k : Nat) (σ : α → α) (x y : TypeReader α) : Prop :=
  ∀ s, x.run (s.shift k) = ((y.run s).map fun r => (σ r.1, r.2.shift k)).mapError (TypeFailure.shift k)

namespace Shifts

variable {k : Nat} {σ : α → α} {τ : β → β} {x y : TypeReader α}

theorem pure {a a' : α} (h : a' = σ a) : Shifts k σ (pure a') (pure a) := fun _ => by
  subst h
  rfl

theorem fail (fault : TypeFault) : Shifts k σ (fail fault) (fail fault) := fun _ => rfl

theorem fail_bind (fault : TypeFault) (f g : α → TypeReader β) :
    Shifts k τ ((TypeReader.fail fault : TypeReader α) >>= f)
      ((TypeReader.fail fault : TypeReader α) >>= g) :=
  fun _ => rfl

theorem bind {f g : α → TypeReader β} (hx : Shifts k σ x y) (hf : ∀ a, Shifts k τ (f (σ a)) (g a)) :
    Shifts k τ (x >>= f) (y >>= g) := by
  intro s
  rw [StateT.run_bind, StateT.run_bind, hx s]
  cases y.run s with
  | error fault => rfl
  | ok r => exact hf r.1 r.2

theorem modifyGet {f : TypeReading → α × TypeReading}
    (h : ∀ s, f (s.shift k) = (σ (f s).1, (f s).2.shift k)) : Shifts k σ (modifyGet f) (modifyGet f) :=
  fun s => congrArg Except.ok (h s)

theorem get : Shifts k (TypeReading.shift k) get get := fun _ => rfl

theorem ite {c : Prop} [Decidable c] {x' y' : TypeReader α} (hx : Shifts k σ x y)
    (hy : Shifts k σ x' y') :
    Shifts k σ (if c then x else x') (if c then y else y') := by
  split
  · exact hx
  · exact hy

end Shifts

variable {k : Nat}

theorem skipBlanks_shifts : Shifts k id skipBlanks skipBlanks := .modifyGet fun _ => rfl

theorem peek_shifts : Shifts k id peek peek := by
  refine skipBlanks_shifts.bind fun _ => Shifts.get.bind fun s => ?_
  obtain ⟨-, rest⟩ := s
  cases rest with
  | nil => exact .pure rfl
  | cons c rest => exact .pure rfl

theorem advance_shifts : Shifts k id advance advance := .modifyGet fun _ => rfl

theorem expect_shifts (c : Char) : Shifts k id (expect c) (expect c) :=
  peek_shifts.bind fun _ => .ite advance_shifts (.fail _)

theorem word_shifts (belongs : Char → Bool) : Shifts k id (word belongs) (word belongs) :=
  skipBlanks_shifts.bind fun _ => .modifyGet fun _ => rfl

theorem namedType_shifts (lookup : String → Option Decl) (name : String) :
    Shifts k (Ty.shift k) (namedType lookup name) (namedType lookup name) := by
  unfold namedType
  split
  · exact .pure rfl
  · exact .pure rfl
  · exact .pure rfl
  · exact .pure rfl
  · split
    · have hnamed (f : TypeReading → Unit × TypeReading)
          (hf : ∀ s, f (s.shift k) = ((f s).1, (f s).2.shift k)) :
            Shifts k id (modifyGet f) (modifyGet f) := .modifyGet hf
      exact (hnamed _ fun _ => rfl).bind fun _ => .pure rfl
    · exact .fail _

theorem arrayLength_shifts : Shifts k id arrayLength arrayLength := by
  refine (word_shifts _).bind fun digits => ?_
  rw [id]
  cases Text.readWord (.fixed 10) digits with
  | ok n => exact .ite (.pure rfl) (.fail _)
  | error e => exact .fail _

/-! ## §2 Records -/

/-- The declarations of the components of a record, with numbers from `n` on. -/
def componentDecls (mark : Mark) : (n : NodeId) → List Component → List Decl
  | _, [] => []
  | n, c :: cs =>
    Decl.comp { mark with id := n } c.name ⟨{ mark with id := n + 1 }, c.text⟩ ::
      componentDecls mark (n + 2) cs

theorem declareAll_run (mark : Mark) : ∀ (cs : List Component) (s : TypeReading),
    (declareAll mark cs).run s =
      .ok (componentDecls mark s.nextId cs, { s with nextId := s.nextId + 2 * cs.length })
  | [], s => rfl
  | c :: cs, s => by
    show ((declareAll mark cs).run { s with nextId := s.nextId + 2 } >>= fun r => _) = _
    rw [declareAll_run mark cs]
    show Except.ok _ = _
    rw [List.length_cons, Nat.mul_succ, Nat.add_comm (2 * cs.length), ← Nat.add_assoc]
    rfl

theorem finishRecord_run (mark : Mark) (comps : List Component) (s : TypeReading) :
    (finishRecord mark comps).run s =
      let fields := Fields.ofList (comps.map fun c => (c.name, c.type))
      let comps' := componentDecls mark (s.nextId + 1) comps
      .ok (.record s.nextId fields, { s with
        nextId := s.nextId + 1 + 2 * comps.length
        records := s.records ++ [(s.nextId, { fields, comps := comps' })] }) := by
  show ((declareAll mark comps).run { s with nextId := s.nextId + 1 } >>= fun r => _) = _
  rw [declareAll_run]
  rfl

theorem componentDecls_shift (mark : Mark) : ∀ (cs : List Component) (n : NodeId),
    componentDecls mark (n + k) (cs.map (Component.shift k)) = (componentDecls mark n cs).map
      (Decl.shift k)
  | [], _ => rfl
  | c :: cs, n => by
    have hrest := componentDecls_shift mark cs (n + 2)
    rw [Nat.add_right_comm] at hrest
    rw [List.map_cons, componentDecls, componentDecls, List.map_cons, hrest, Decl.shift,
      Nat.add_right_comm]
    rfl

theorem finishRecord_shifts (mark : Mark) (comps : List Component) :
    Shifts k (Ty.shift k) (finishRecord mark (comps.map (Component.shift k)))
      (finishRecord mark comps) := by
  intro s
  have hfields : (comps.map (Component.shift k)).map (fun c => (c.name, c.type)) =
      (comps.map fun c => (c.name, c.type)).map fun f => (f.1, f.2.shift k) := by
    rw [List.map_map, List.map_map]
    rfl
  rw [finishRecord_run, finishRecord_run, hfields, Fields.ofList_shift, List.length_map]
  refine congrArg Except.ok (Prod.ext rfl ?_)
  simp only [TypeReading.shift, TypeParts.shift, List.map_append, List.map_cons, List.map_nil,
    RecordInfo.shift,
    Nat.add_right_comm _ k, componentDecls_shift]

/-! ## §3 Types at another counter -/

mutual

theorem type_shifts (lookup : String → Option Decl) (mark : Mark) : ∀ fuel : Nat,
    Shifts k (Ty.shift k) (type lookup mark fuel) (type lookup mark fuel)
  | 0 => .fail _
  | fuel + 1 => by
    unfold type
    refine peek_shifts.bind fun c => ?_
    rw [id]
    split
    · exact .fail _
    · exact advance_shifts.bind fun _ => (type_shifts lookup mark fuel).bind fun _ => .pure rfl
    · exact advance_shifts.bind fun _ => arrayLength_shifts.bind fun _ => (expect_shifts _).bind
        fun _ => (type_shifts lookup mark fuel).bind fun _ => .pure rfl
    · exact advance_shifts.bind fun _ => (components_shifts lookup mark fuel []).bind
        fun comps => finishRecord_shifts mark comps
    · exact (word_shifts _).bind fun _ => .ite (namedType_shifts lookup _) (.fail _)

theorem components_shifts (lookup : String → Option Decl) (mark : Mark) : ∀ (fuel : Nat)
    (before : List Component), Shifts k (List.map (Component.shift k))
      (components lookup mark fuel (before.map (Component.shift k))) (components lookup mark fuel before)
  | 0, _ => .fail _
  | fuel + 1, before => by
    have hany (name : String) : ((before.map (Component.shift k)).any fun c => c.name = name) =
        before.any fun c => c.name = name := by
      rw [List.any_map]
      rfl
    unfold components
    refine (word_shifts _).bind fun name => ?_
    rw [id, hany]
    -- Either test may stop the reader before the rest of the record is read.
    refine Shifts.ite (.fail_bind _ _ _) (Shifts.ite (.fail_bind _ _ _) ?_)
    refine (expect_shifts _).bind fun _ => Shifts.get.bind fun start => ?_
    refine (type_shifts lookup mark fuel).bind fun ty => Shifts.get.bind fun s => ?_
    have hmore (text : String) : before.map (Component.shift k) ++ [Component.mk name (ty.shift k) text] =
        (before ++ [Component.mk name ty text]).map (Component.shift k) := by
      rw [List.map_append]
      rfl
    refine peek_shifts.bind fun _ => .ite (advance_shifts.bind fun _ => .pure (hmore _)) ?_
    refine (expect_shifts _).bind fun _ => ?_
    rw [hmore]
    exact components_shifts lookup mark fuel _

end

end TypeReader

/-- **Reading a type at a higher counter** gives the same with higher numbers. -/
theorem readTypeExpr_shift (lookup : String → Option Decl) (n k : Nat) (te : TypeExpr) :
    readTypeExpr lookup (n + k) te =
      ((readTypeExpr lookup n te).map (TypeResult.shift k)).mapError (TypeFailure.shift k) := by
  have hshift := TypeReader.type_shifts (k := k) lookup te.mark (te.text.toList.length + 1)
    { rest := te.text.toList, nextId := n }
  unfold readTypeExpr
  dsimp only
  rw [show ({ rest := te.text.toList, nextId := n + k } : TypeReading) =
    TypeReading.shift k { rest := te.text.toList, nextId := n } from rfl, hshift]
  cases (TypeReader.type lookup te.mark (te.text.toList.length + 1)).run
      { rest := te.text.toList, nextId := n } with
  | error fault => rfl
  | ok r =>
    show (if r.2.rest.isEmpty then _ else _) =
      Except.mapError _ (Except.map _ (if r.2.rest.isEmpty then _ else _))
    split <;> rfl

/-- What has been read at one counter, increased, is what is read at another one. -/
theorem readTypeExpr_of_base {lookup : String → Option Decl} {te : TypeExpr} {r : TypeResult}
    (h : readTypeExpr lookup 0 te = .ok r) (n : NodeId) : readTypeExpr lookup n te = .ok (r.shift n) := by
  have hshift := readTypeExpr_shift lookup 0 n te
  rw [Nat.zero_add, h] at hshift
  exact hshift

theorem exists_base_of_readTypeExpr {lookup : String → Option Decl} {te : TypeExpr} {n : NodeId}
    {r : TypeResult} (h : readTypeExpr lookup n te = .ok r) :
    ∃ r₀, readTypeExpr lookup 0 te = .ok r₀ ∧ r = r₀.shift n := by
  have hshift := readTypeExpr_shift lookup 0 n te
  rw [Nat.zero_add, h] at hshift
  cases hbase : readTypeExpr lookup 0 te with
  | error fault =>
    rw [hbase] at hshift
    cases hshift
  | ok r₀ =>
    rw [hbase] at hshift
    exact ⟨r₀, rfl, Except.ok.inj hshift⟩

/-! ## §4 Types in another scope -/

/-- Two ways of finding declarations that find the same declared types. -/
def SameTypeNames (f g : String → Option Decl) : Prop :=
  ∀ name m ident te, f name = some (.typ m ident te) ↔ g name = some (.typ m ident te)

namespace TypeReader

variable {f g : String → Option Decl}

theorem namedType_congr (h : SameTypeNames f g) (name : String) :
    namedType f name = namedType g name := by
  unfold namedType
  split
  · rfl
  · rfl
  · rfl
  · rfl
  · split
    · next hf => rw [(h _ _ _ _).mp hf]
    · next hf =>
      split
      · next hg => exact (hf _ _ _ ((h _ _ _ _).mpr hg)).elim
      · rfl

mutual

theorem type_congr (h : SameTypeNames f g) (mark : Mark) :
    ∀ fuel : Nat, type f mark fuel = type g mark fuel
  | 0 => rfl
  | fuel + 1 => by
    unfold type
    simp only [type_congr h mark fuel, components_congr h mark fuel, namedType_congr h]

theorem components_congr (h : SameTypeNames f g) (mark : Mark) : ∀ (fuel : Nat) (before : List Component),
    components f mark fuel before = components g mark fuel before
  | 0, _ => rfl
  | fuel + 1, _ => by
    unfold components
    simp only [type_congr h mark fuel, components_congr h mark fuel]

end

end TypeReader

/-- **Only declared types matter** when a type is read. -/
theorem readTypeExpr_congr {f g : String → Option Decl} (h : SameTypeNames f g) (n : NodeId)
    (te : TypeExpr) :
    readTypeExpr f n te = readTypeExpr g n te := by
  unfold readTypeExpr
  simp only [TypeReader.type_congr h]

/-! ## §5 What has been read -/

/-- The number of a declared type that can be found. -/
def IsTypeName (lookup : String → Option Decl) (d : NodeId) : Prop :=
  ∃ name m ident te, lookup name = some (.typ m ident te) ∧ m.id = d

/-- All numbers of a record: its own one and those of its components. -/
def RecordInfo.numbers (id : NodeId) (info : RecordInfo) : List NodeId := id :: info.comps.map Decl.id

/-- Names in a record are among `P`, and its declarations are those of its components, which are
different. -/
structure RecordInfo.Sound (P : NodeId → Prop) (info : RecordInfo) : Prop where
  names : info.fields.NamesIn P
  comps : info.comps.map Decl.name = info.fields.toList.map Prod.fst
  distinct : (info.comps.map Decl.name).Nodup

/-- The records have been read, with the same components. -/
def RecordsRead (records : List (NodeId × RecordInfo)) (parts : List (NodeId × Fields)) : Prop :=
  ∀ r ∈ parts, ∃ info, (r.1, info) ∈ records ∧ info.fields = r.2

theorem RecordsRead.mono {records records' : List (NodeId × RecordInfo)} {parts : List (NodeId × Fields)}
    (h : RecordsRead records parts) (hsub : records ⊆ records') : RecordsRead records' parts := by
  intro r hr
  obtain ⟨info, hinfo, hfields⟩ := h r hr
  exact ⟨info, hsub hinfo, hfields⟩

/-- The records in the components of records have been read, too. -/
def TypeParts.Known (p : TypeParts) : Prop := ∀ r ∈ p.records, RecordsRead p.records r.2.fields.records

/-- What reading a part of a type adds: sound records with different numbers from the counter. The
name that was looked up last is that of a declared type among `P`. -/
structure TypeParts.Adds (P : NodeId → Prop) (p p' : TypeParts) : Prop where
  nextId : p.nextId ≤ p'.nextId
  known : p.Known → p'.Known
  lastNamed : p'.lastNamed = p.lastNamed ∨ ∃ m ident te, p'.lastNamed = some (.typ m ident te) ∧ P m.id
  records : ∃ new, p'.records = p.records ++ new ∧
    (new.flatMap fun r => r.2.numbers r.1).Sublist (List.range' p.nextId (p'.nextId - p.nextId)) ∧
      ∀ r ∈ new, r.2.Sound P

namespace TypeParts.Adds

variable {P : NodeId → Prop} {p p' p'' : TypeParts}

theorem same (hid : p'.nextId = p.nextId) (hrecords : p'.records = p.records)
    (hlast : p'.lastNamed = p.lastNamed ∨ ∃ m ident te, p'.lastNamed = some (.typ m ident te) ∧ P m.id) :
    p.Adds P p' where
  nextId := Nat.le_of_eq hid.symm
  known h := by rwa [TypeParts.Known, hrecords]
  lastNamed := hlast
  records := ⟨[], by rw [hrecords, List.append_nil], List.nil_sublist _, List.forall_mem_nil _⟩

theorem trans (h : p.Adds P p') (h' : p'.Adds P p'') : p.Adds P p'' := by
  obtain ⟨new, hnew, hnumbers, hsound⟩ := h.records
  obtain ⟨new', hnew', hnumbers', hsound'⟩ := h'.records
  have hlast : p''.lastNamed = p.lastNamed ∨ ∃ m ident te, p''.lastNamed = some (.typ m ident te) ∧
      P m.id := by
    rcases h'.lastNamed with hsame | htyp
    · exact hsame ▸ h.lastNamed
    · exact .inr htyp
  refine ⟨Nat.le_trans h.nextId h'.nextId, fun hknown => h'.known (h.known hknown), hlast, new ++ new',
    by rw [hnew', hnew, List.append_assoc], ?_, List.forall_mem_append.mpr ⟨hsound, hsound'⟩⟩
  obtain ⟨k, hk⟩ := Nat.exists_eq_add_of_le h.nextId
  obtain ⟨l, hl⟩ := Nat.exists_eq_add_of_le h'.nextId
  rw [hk] at hl hnumbers'
  rw [hk, Nat.add_sub_cancel_left] at hnumbers
  rw [hl, Nat.add_sub_cancel_left] at hnumbers'
  rw [hl, Nat.add_assoc, Nat.add_sub_cancel_left, List.flatMap_append, ← List.range'_append_1]
  exact hnumbers.append hnumbers'

theorem subset (h : p.Adds P p') : p.records ⊆ p'.records := by
  obtain ⟨new, hnew, -⟩ := h.records
  exact hnew ▸ List.subset_append_left _ _

end TypeParts.Adds

/-- Names in the type are among `P`, and its records are among those that have been read. -/
structure Ty.Read (P : NodeId → Prop) (records : List (NodeId × RecordInfo)) (t : Ty) : Prop where
  names : t.NamesIn P
  records : RecordsRead records t.records

theorem Ty.Read.mono {P : NodeId → Prop} {records records' : List (NodeId × RecordInfo)} {t : Ty}
    (h : t.Read P records) (hsub : records ⊆ records') : t.Read P records' :=
  ⟨h.names, h.records.mono hsub⟩

theorem Ty.Read.recordIds {P : NodeId → Prop} {records : List (NodeId × RecordInfo)} {t : Ty}
    (h : t.Read P records) : ∀ i ∈ t.recordIds, ∃ info, (i, info) ∈ records := by
  intro i hi
  rw [← t.map_fst_records] at hi
  obtain ⟨r, hr, rfl⟩ := List.mem_map.mp hi
  obtain ⟨info, hinfo, -⟩ := h.records r hr
  exact ⟨info, hinfo⟩

namespace TypeReader

/-- If the reader `x` succeeds from the state `s`, then its result and the state behind it satisfy
`Q`. Whether or not it succeeds, it only adds to what has been read. -/
structure Reads {α : Type} (P : NodeId → Prop) (s : TypeReading) (x : TypeReader α)
    (Q : α → TypeReading → Prop) : Prop where
  ok : ∀ a s', x.run s = .ok (a, s') → s.Adds P s'.toTypeParts ∧ Q a s'
  error : ∀ e, x.run s = .error e → s.Adds P e.toTypeParts

namespace Reads

variable {α β : Type} {P : NodeId → Prop} {s : TypeReading} {x y : TypeReader α}
  {Q R : α → TypeReading → Prop}

/-- A reader that does not fail. -/
theorem of_ok {a : α} {s' : TypeReading} (hrun : x.run s = .ok (a, s')) (hadds : s.Adds P s'.toTypeParts)
    (hQ : Q a s') : Reads P s x Q where
  ok _ _ h := by
    rw [hrun] at h
    cases h
    exact ⟨hadds, hQ⟩
  error _ h := by
    rw [hrun] at h
    cases h

theorem pure {a : α} (h : Q a s) : Reads P s (pure a) Q := .of_ok rfl (.same rfl rfl (.inl rfl)) h

theorem fail (fault : TypeFault) : Reads P s (fail fault) Q where
  ok _ _ h := by cases h
  error _ h := by
    cases h
    exact .same rfl rfl (.inl rfl)

theorem fail_bind (fault : TypeFault) (f : α → TypeReader β) {Q : β → TypeReading → Prop} :
    Reads P s ((TypeReader.fail fault : TypeReader α) >>= f) Q where
  ok _ _ h := by cases h
  error _ h := by
    cases h
    exact .same rfl rfl (.inl rfl)

theorem bind {f : α → TypeReader β} {Q : β → TypeReading → Prop} (hx : Reads P s x R)
    (hf : ∀ a s', s.Adds P s'.toTypeParts → R a s' → Reads P s' (f a) Q) : Reads P s (x >>= f) Q where
  ok b s'' h := by
    rw [StateT.run_bind] at h
    cases hrun : x.run s with
    | error e =>
      rw [hrun] at h
      cases h
    | ok r =>
      rw [hrun] at h
      obtain ⟨hfirst, hR⟩ := hx.ok r.1 r.2 hrun
      obtain ⟨hrest, hQ⟩ := (hf r.1 r.2 hfirst hR).ok b s'' h
      exact ⟨hfirst.trans hrest, hQ⟩
  error e h := by
    rw [StateT.run_bind] at h
    cases hrun : x.run s with
    | error e' =>
      rw [hrun] at h
      cases h
      exact hx.error _ hrun
    | ok r =>
      rw [hrun] at h
      obtain ⟨hfirst, hR⟩ := hx.ok r.1 r.2 hrun
      exact hfirst.trans ((hf r.1 r.2 hfirst hR).error e h)

theorem ite {c : Prop} [Decidable c] (hx : c → Reads P s x Q) (hy : ¬c → Reads P s y Q) :
    Reads P s (if c then x else y) Q := by
  split
  · exact hx ‹_›
  · exact hy ‹_›

theorem imp (h : Reads P s x Q) (hQ : ∀ a s', Q a s' → R a s') : Reads P s x R :=
  ⟨fun a s' hrun => (h.ok a s' hrun).imp_right (hQ a s'), h.error⟩

theorem get : Reads P s get fun a s' => a = s ∧ s' = s := .of_ok rfl (.same rfl rfl (.inl rfl)) ⟨rfl, rfl⟩

/-- A step that changes the rest of the text. -/
theorem modifyGet {f : TypeReading → α × TypeReading} (hid : (f s).2.nextId = s.nextId)
    (hrecords : (f s).2.records = s.records) (hlast : (f s).2.lastNamed = s.lastNamed) :
    Reads P s (modifyGet f) fun _ s' => s'.records = s.records :=
  .of_ok rfl (.same hid hrecords (.inl hlast)) hrecords

end Reads

variable {P : NodeId → Prop} {s : TypeReading}

theorem skipBlanks_reads : Reads P s skipBlanks fun _ s' => s'.records = s.records :=
    .modifyGet rfl rfl rfl

theorem peek_reads : Reads P s peek fun _ s' => s'.records = s.records := by
  refine skipBlanks_reads.bind fun _ s' _ hs' => Reads.get.bind fun a s'' _ ⟨_, hs''⟩ => ?_
  subst hs''
  split <;> exact .pure hs'

theorem advance_reads : Reads P s advance fun _ s' => s'.records = s.records := .modifyGet rfl rfl rfl

theorem expect_reads (c : Char) : Reads P s (expect c) fun _ s' => s'.records = s.records := by
  refine peek_reads.bind fun _ s' _ hs' => .ite (fun _ => ?_) fun _ => .fail _
  exact advance_reads.imp fun _ _ h => h.trans hs'

theorem word_reads (belongs : Char → Bool) : Reads P s (word belongs) fun _ s' =>
    s'.records = s.records := by
  refine skipBlanks_reads.bind fun _ s' _ hs' => ?_
  exact Reads.imp (.modifyGet rfl rfl rfl) fun _ _ h => h.trans hs'

theorem arrayLength_reads : Reads P s arrayLength fun _ s' => s'.records = s.records := by
  refine (word_reads _).bind fun digits s' _ hs' => ?_
  split
  · exact .ite (fun _ => .pure hs') fun _ => .fail _
  · exact .fail _

theorem namedType_reads (lookup : String → Option Decl) (name : String) :
    Reads (IsTypeName lookup) s (namedType lookup name) fun t s' =>
      t.Read (IsTypeName lookup) s'.records := by
  have hatom (t : Ty) (hnames : t.NamesIn (IsTypeName lookup)) (hrecords : t.records = [])
      (s : TypeReading) : t.Read (IsTypeName lookup) s.records :=
    ⟨hnames, fun r hr => by rw [hrecords] at hr; exact (List.not_mem_nil hr).elim⟩
  unfold namedType
  split
  · exact .pure (hatom .int trivial rfl s)
  · exact .pure (hatom .char trivial rfl s)
  · exact .pure (hatom .bool trivial rfl s)
  · exact .pure (hatom .void trivial rfl s)
  · split
    · next m ident te hfind =>
      have hname : IsTypeName lookup m.id := ⟨_, m, ident, te, hfind, rfl⟩
      exact Reads.bind (R := fun _ _ => True)
        (.of_ok rfl (.same rfl rfl (.inr ⟨m, ident, te, rfl, hname⟩)) trivial)
        fun _ s' _ _ => .pure (hatom (.named m.id ident) hname rfl s')
    · exact .fail _

theorem map_id_componentDecls (mark : Mark) : ∀ (cs : List Component) (n : NodeId),
    ((componentDecls mark n cs).map Decl.id).Sublist (List.range' n (2 * cs.length))
  | [], _ => List.nil_sublist _
  | c :: cs, n => by
    rw [List.length_cons, Nat.mul_succ, List.range'_succ, List.range'_succ]
    exact ((map_id_componentDecls mark cs (n + 2)).cons _).cons_cons _

theorem map_name_componentDecls (mark : Mark) : ∀ (cs : List Component) (n : NodeId),
    (componentDecls mark n cs).map Decl.name = cs.map Component.name
  | [], _ => rfl
  | c :: cs, n => congrArg (c.name :: ·) (map_name_componentDecls mark cs (n + 2))

theorem Fields.namesIn_ofList {P : NodeId → Prop} : ∀ {fs : List (String × Ty)},
    (∀ f ∈ fs, f.2.NamesIn P) → (Fields.ofList fs).NamesIn P
  | [], _ => trivial
  | _ :: _, h => ⟨(List.forall_mem_cons.mp h).1, Fields.namesIn_ofList (List.forall_mem_cons.mp h).2⟩

theorem Fields.records_ofList : ∀ {fs : List (String × Ty)} {r : NodeId × Fields},
    r ∈ (Fields.ofList fs).records → ∃ f ∈ fs, r ∈ f.2.records
  | f :: fs, r, h => by
    rcases List.mem_append.mp h with h | h
    · exact ⟨f, List.mem_cons_self, h⟩
    · obtain ⟨f', hf', hr⟩ := Fields.records_ofList h
      exact ⟨f', List.mem_cons_of_mem _ hf', hr⟩

theorem finishRecord_reads (mark : Mark) {comps : List Component}
    (hcomps : ∀ c ∈ comps, c.type.Read P s.records) (hdistinct : (comps.map Component.name).Nodup) :
    Reads P s (finishRecord mark comps) fun t s' => t.Read P s'.records := by
  have hnames : (Fields.ofList (comps.map fun c => (c.name, c.type))).NamesIn P := by
    refine Fields.namesIn_ofList fun f hf => ?_
    obtain ⟨c, hc, rfl⟩ := List.mem_map.mp hf
    exact (hcomps c hc).names
  -- The records inside the new one have been recorded by now.
  have hparts : RecordsRead s.records (Fields.ofList (comps.map fun c => (c.name, c.type))).records := by
    intro r hr
    obtain ⟨f, hf, hr⟩ := Fields.records_ofList hr
    obtain ⟨c, hc, rfl⟩ := List.mem_map.mp hf
    exact (hcomps c hc).records r hr
  refine .of_ok (finishRecord_run mark comps s)
    ⟨Nat.le_trans (Nat.le_succ _) (Nat.le_add_right _ _), fun hknown => ?_,
    .inl rfl, _, rfl, ?_, List.forall_mem_singleton.mpr ⟨hnames, ?_, ?_⟩⟩ ⟨hnames, ?_⟩
  · refine List.forall_mem_append.mpr ⟨fun r hr =>
      (hknown r hr).mono ?_, List.forall_mem_singleton.mpr (hparts.mono ?_)⟩
    · exact List.subset_append_left _ _
    · exact List.subset_append_left _ _
  -- The record's number and those of its components follow the numbers handed out so far.
  · rw [List.flatMap_singleton, RecordInfo.numbers, Nat.add_assoc, Nat.add_sub_cancel_left,
      Nat.add_comm 1,
      List.range'_succ]
    exact (map_id_componentDecls mark comps _).cons_cons _
  · rw [map_name_componentDecls, Fields.toList_ofList, List.map_map]
    rfl
  · rwa [map_name_componentDecls]
  · exact List.forall_mem_cons.mpr ⟨⟨_, List.mem_append_right _ List.mem_cons_self, rfl⟩,
      hparts.mono (List.subset_append_left _ _)⟩

mutual

theorem type_reads (lookup : String → Option Decl) (mark : Mark) : ∀ (fuel : Nat) {s : TypeReading},
    Reads (IsTypeName lookup) s (type lookup mark fuel) fun t s' => t.Read (IsTypeName lookup) s'.records
  | 0, _ => .fail _
  | fuel + 1, s => by
    unfold type
    refine peek_reads.bind fun c _ _ _ => ?_
    split
    · exact .fail _
    · refine advance_reads.bind fun _ _ _ _ => (type_reads lookup mark fuel).bind fun _ _ _ ht => ?_
      exact .pure ⟨ht.names, ht.records⟩
    · refine advance_reads.bind fun _ _ _ _ => arrayLength_reads.bind fun _ _ _ _ => ?_
      refine (expect_reads _).bind fun _ _ _ _ => (type_reads lookup mark fuel).bind fun _ _ _ ht => ?_
      exact .pure ⟨ht.names, ht.records⟩
    · refine advance_reads.bind fun _ _ _ _ => ?_
      refine (components_reads lookup mark fuel (List.forall_mem_nil _) .nil).bind fun _ _ _ hcomps => ?_
      exact finishRecord_reads mark hcomps.1 hcomps.2
    · exact (word_reads _).bind fun _ _ _ _ => .ite (fun _ => namedType_reads lookup _) fun _ => .fail _

theorem components_reads (lookup : String → Option Decl) (mark : Mark) : ∀ (fuel : Nat) {s : TypeReading}
    {before : List Component}, (∀ c ∈ before, c.type.Read (IsTypeName lookup) s.records) →
    (before.map Component.name).Nodup →
    Reads (IsTypeName lookup) s (components lookup mark fuel before) fun comps s' =>
      (∀ c ∈ comps, c.type.Read (IsTypeName lookup) s'.records) ∧ (comps.map Component.name).Nodup
  | 0, _, _, _, _ => .fail _
  | fuel + 1, s, before, hbefore, hdistinct => by
    unfold components
    refine (word_reads _).bind fun name s₁ hs₁ _ => ?_
    refine Reads.ite (fun _ => .fail_bind _ _) fun _ => Reads.ite (fun _ => .fail_bind _ _) fun hnew => ?_
    -- The reader has compared the name with those before, so all names stay distinct.
    have hdistinct' {ty : Ty} {text : String} :
        ((before ++ [Component.mk name ty text]).map Component.name).Nodup := by
      rw [List.map_append]
      refine List.nodup_append'.mpr ⟨hdistinct, List.nodup_singleton _, List.disjoint_singleton.mpr
        fun hmem => ?_⟩
      obtain ⟨c, hc, heq⟩ := List.mem_map.mp hmem
      exact hnew (List.any_eq_true.mpr ⟨c, hc, decide_eq_true heq⟩)
    refine (expect_reads _).bind fun _ s₂ hs₂ _ => Reads.get.bind fun _ s' hs' _ => ?_
    refine (type_reads lookup mark fuel).bind fun ty s₃ hs₃ hty => Reads.get.bind fun _ s₄ hs₄ _ => ?_
    have hall {text : String} {s₅ : TypeReading} (hs₅ : s₄.Adds (IsTypeName lookup) s₅.toTypeParts) :
        ∀ c ∈ before ++ [Component.mk name ty text], c.type.Read (IsTypeName lookup) s₅.records := by
      have hlater := hs₄.trans hs₅
      refine List.forall_mem_append.mpr ⟨fun c hc => ?_, List.forall_mem_singleton.mpr
        (hty.mono hlater.subset)⟩
      exact (hbefore c hc).mono ((hs₁.trans (hs₂.trans (hs'.trans hs₃))).trans hlater).subset
    refine peek_reads.bind fun _ s₅ hs₅ _ => .ite (fun _ => ?_) fun _ => ?_
    · exact advance_reads.bind fun _ s₆ hs₆ _ => .pure ⟨hall (hs₅.trans hs₆), hdistinct'⟩
    · refine (expect_reads _).bind fun _ s₆ hs₆ _ => ?_
      exact components_reads lookup mark fuel (hall (hs₅.trans hs₆)) hdistinct'

end

end TypeReader

section

variable {lookup : String → Option Decl} {n : NodeId} {te : TypeExpr}

/-- What reading a text leaves behind has been added by the reader. -/
theorem TypeParts.ReadFrom.adds {p : TypeParts} (h : p.ReadFrom lookup n te) :
    TypeParts.Adds (IsTypeName lookup) { nextId := n } p := by
  have hreads := TypeReader.type_reads lookup te.mark (te.text.toList.length + 1)
    (s := { rest := te.text.toList, nextId := n })
  rcases h.run with ⟨t, s, hrun, rfl⟩ | ⟨e, hrun, rfl⟩
  · exact (hreads.ok _ _ hrun).1
  · exact hreads.error _ hrun

/-- **What is left behind is sound**, whether or not the text is a type: all numbers are different,
and the names in the records are those of declared types that can be found. -/
theorem TypeParts.ReadFrom.sound {p : TypeParts} (h : p.ReadFrom lookup n te) :
    (p.records.flatMap fun r => r.2.numbers r.1).Nodup ∧
      ∀ id info, (id, info) ∈ p.records → info.Sound (IsTypeName lookup) := by
  obtain ⟨new, hnew, hnumbers, hsound⟩ := h.adds.records
  rw [List.nil_append] at hnew
  rw [hnew]
  exact ⟨hnumbers.nodup List.nodup_range', fun id info hinfo => hsound _ hinfo⟩

/-- The records in the components of records have been recorded, too. -/
theorem TypeParts.ReadFrom.known {p : TypeParts} (h : p.ReadFrom lookup n te) : p.Known :=
  h.adds.known (List.forall_mem_nil _)

/-- The declaration that is left behind is that of a type that can be found. -/
theorem TypeParts.ReadFrom.lastNamed {p : TypeParts} {d : Decl} (h : p.ReadFrom lookup n te)
    (hd : p.lastNamed = some d) : ∃ m ident te', d = .typ m ident te' ∧ IsTypeName lookup m.id := by
  rcases h.adds.lastNamed with hnone | ⟨m, ident, te', hsome, hname⟩
  · rw [hd] at hnone
    cases hnone
  · rw [hd] at hsome
    exact ⟨m, ident, te', Option.some.inj hsome, hname⟩

/-- **The type that has been read is sound**: the names in it are those of declared types that can
be found, and the records in it have been recorded. -/
theorem readTypeExpr_sound {r : TypeResult} (h : readTypeExpr lookup n te = .ok r) :
    r.type.Read (IsTypeName lookup) r.records := by
  obtain ⟨s, hrun, -, hparts⟩ := exists_run_of_readTypeExpr h
  rw [← hparts]
  exact ((TypeReader.type_reads lookup te.mark _).ok _ _ hrun).2

end

end MmixBackend
