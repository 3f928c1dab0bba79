import MmixBackend.Proofs.Types.Sizes
import MmixBackend.Types.Reader

/-!
# Types that have been read

Every record that is read gets a number of its own and a declaration for each component, with further
numbers. All of them come from a counter that only grows, so they collide neither with the numbers of
the program nor with those of types read before. The lengths of arrays are positive, and records have
components. All of this holds of the parts of a text that is no type as well: `TypeParts.ReadFrom` is what
reading a text leaves behind, with or without success.

## Main statements

- `TypeParts.ReadFrom.spec`: the counter grows, and the records that were read are well formed and
  numbered by what it has handed out.
- `readTypeExpr_spec`: so it is if the text is a type, and this has positive array lengths only.
-/

namespace MmixBackend

open Source (NodeId Decl TypeExpr Mark)

/-- A record has a declaration for each component, these have numbers from `base` on, and the lengths of
arrays in it are positive. -/
structure RecordInfo.WellFormed (base : NodeId) (info : RecordInfo) : Prop where
  length : info.comps.length = info.fields.toList.length
  positive : info.fields.Positive
  comp : ∀ d ∈ info.comps, ∃ m name type, d = .comp m name type ∧ base ≤ m.id

theorem RecordInfo.WellFormed.mono {base base' : NodeId} {info : RecordInfo}
    (h : info.WellFormed base') (hle : base ≤ base') : info.WellFormed base where
  length := h.length
  positive := h.positive
  comp d hd := by
    obtain ⟨m, name, type, rfl, hm⟩ := h.comp d hd
    exact ⟨m, name, type, rfl, Nat.le_trans hle hm⟩

theorem Fields.toList_ofList : ∀ fs : List (String × Ty), (Fields.ofList fs).toList = fs
  | [] => rfl
  | (name, type) :: fs => congrArg ((name, type) :: ·) (Fields.toList_ofList fs)

theorem Fields.positive_ofList : ∀ {fs : List (String × Ty)}, (∀ f ∈ fs, f.2.Positive) →
    (Fields.ofList fs).Positive
  | [], _ => trivial
  | _ :: _, h => ⟨(List.forall_mem_cons.mp h).1, Fields.positive_ofList (List.forall_mem_cons.mp h).2⟩

theorem Fields.positive_of_mem : ∀ {fields : Fields}, fields.Positive → ∀ f ∈ fields.toList, f.2.Positive
  | .nil, _, _, hf => (List.not_mem_nil hf).elim
  | .cons _ _ _, h, f, hf => by
    rcases List.mem_cons.mp hf with rfl | hf
    · exact h.1
    · exact Fields.positive_of_mem h.2 f hf

/-- What reading a part of a type adds: numbers are taken from the counter, and records are added under
numbers that were taken. -/
structure TypeParts.Grows (p p' : TypeParts) : Prop where
  nextId : p.nextId ≤ p'.nextId
  records : ∀ r ∈ p'.records,
    r ∈ p.records ∨ (p.nextId ≤ r.1 ∧ r.1 < p'.nextId ∧ r.2.WellFormed p.nextId ∧
      ∀ d ∈ r.2.comps, d.id < p'.nextId)

namespace TypeParts.Grows

variable {p p' p'' : TypeParts}

/-- Reading that takes no numbers. -/
theorem same (hid : p'.nextId = p.nextId) (hrecords : p'.records = p.records) : p.Grows p' :=
  ⟨Nat.le_of_eq hid.symm, fun _ hr => .inl (hrecords ▸ hr)⟩

theorem trans (h : p.Grows p') (h' : p'.Grows p'') : p.Grows p'' where
  nextId := Nat.le_trans h.nextId h'.nextId
  records r hr := by
    rcases h'.records r hr with hr | ⟨hlo, hhi, hwf, hcomps⟩
    · rcases h.records r hr with hr | ⟨hlo, hhi, hwf, hcomps⟩
      · exact .inl hr
      · exact .inr ⟨hlo, Nat.lt_of_lt_of_le hhi h'.nextId, hwf,
          fun d hd => Nat.lt_of_lt_of_le (hcomps d hd) h'.nextId⟩
    · exact .inr ⟨Nat.le_trans h.nextId hlo, hhi, hwf.mono h.nextId, hcomps⟩

end TypeParts.Grows

namespace TypeReader

/-- A reader that takes its numbers from the counter, even if it fails, and whose results satisfy `P`. -/
structure Counts {α : Type} (x : TypeReader α) (P : α → Prop := fun _ => True) : Prop where
  ok : ∀ s a s', x.run s = .ok (a, s') → s.Grows s'.toTypeParts ∧ P a
  error : ∀ s e, x.run s = .error e → s.Grows e.toTypeParts

namespace Counts

variable {α β : Type} {P : α → Prop} {Q : β → Prop}

/-- A reader that does not fail. -/
theorem of_ok {x : TypeReader α} (h : ∀ s, ∃ a s', x.run s = .ok (a, s') ∧ s.Grows s'.toTypeParts ∧ P a) :
    Counts x P where
  ok s a s' hrun := by
    obtain ⟨_, _, hok, hgrows⟩ := h s
    rw [hrun] at hok
    cases hok
    exact hgrows
  error s e hrun := by
    obtain ⟨_, _, hok, -⟩ := h s
    rw [hrun] at hok
    cases hok

theorem pure {a : α} (h : P a) : Counts (pure a) P := of_ok fun s => ⟨a, s, rfl, .same rfl rfl, h⟩

theorem fail (fault : TypeFault) : Counts (fail fault : TypeReader α) P where
  ok _ _ _ h := by cases h
  error _ _ h := by
    cases h
    exact .same rfl rfl

theorem bind {x : TypeReader α} {f : α → TypeReader β} (hx : Counts x P)
    (hf : ∀ a, P a → Counts (f a) Q) :
    Counts (x >>= f) Q where
  ok s b s'' h := by
    rw [StateT.run_bind] at h
    cases hrun : x.run s with
    | error e =>
      rw [hrun] at h
      cases h
    | ok r =>
      rw [hrun] at h
      obtain ⟨hfirst, hP⟩ := hx.ok s r.1 r.2 hrun
      obtain ⟨hrest, hQ⟩ := (hf r.1 hP).ok r.2 b s'' h
      exact ⟨hfirst.trans hrest, hQ⟩
  error s e h := by
    rw [StateT.run_bind] at h
    cases hrun : x.run s with
    | error e' =>
      rw [hrun] at h
      cases h
      exact hx.error s _ hrun
    | ok r =>
      rw [hrun] at h
      obtain ⟨hfirst, hP⟩ := hx.ok s r.1 r.2 hrun
      exact hfirst.trans ((hf r.1 hP).error r.2 e h)

theorem fail_bind (fault : TypeFault) (f : α → TypeReader β) :
    Counts ((TypeReader.fail fault : TypeReader α) >>= f) Q where
  ok _ _ _ h := by cases h
  error _ _ h := by
    cases h
    exact .same rfl rfl

theorem get : Counts (get : TypeReader TypeReading) := of_ok fun s => ⟨s, s, rfl, .same rfl rfl, trivial⟩

/-- A step that changes the rest of the text or the last name. -/
theorem modifyGet {f : TypeReading → α × TypeReading}
    (hid : ∀ s, (f s).2.nextId = s.nextId) (hrecords : ∀ s, (f s).2.records = s.records) :
    Counts (modifyGet f) :=
  of_ok fun s => ⟨(f s).1, (f s).2, rfl, .same (hid s) (hrecords s), trivial⟩

theorem ite {c : Prop} [Decidable c] {x y : TypeReader α} (hx : c → Counts x P) (hy : ¬c → Counts y P) :
    Counts (if c then x else y) P := by
  split
  · exact hx ‹_›
  · exact hy ‹_›

end Counts

theorem skipBlanks_counts : Counts skipBlanks := .modifyGet (fun _ => rfl) fun _ => rfl

theorem peek_counts : Counts peek := by
  refine skipBlanks_counts.bind fun _ _ => Counts.get.bind fun s _ => ?_
  split
  · exact .pure trivial
  · exact .pure trivial

theorem advance_counts : Counts advance := .modifyGet (fun _ => rfl) fun _ => rfl

theorem expect_counts (c : Char) : Counts (expect c) :=
  peek_counts.bind fun _ _ => .ite (fun _ => advance_counts) fun _ => .fail _

theorem word_counts (belongs : Char → Bool) : Counts (word belongs) :=
  skipBlanks_counts.bind fun _ _ => .modifyGet (fun _ => rfl) fun _ => rfl

theorem namedType_counts (lookup : String → Option Decl) (name : String) :
    Counts (namedType lookup name) Ty.Positive := by
  unfold namedType
  split
  · exact .pure trivial
  · exact .pure trivial
  · exact .pure trivial
  · exact .pure trivial
  · split
    · exact (Counts.modifyGet (fun _ => rfl) fun _ => rfl).bind fun _ _ => .pure trivial
    · exact .fail _

theorem arrayLength_counts : Counts arrayLength (0 < ·) := by
  refine (word_counts _).bind fun digits _ => ?_
  split
  · exact .ite (fun hn => .pure hn) fun _ => .fail _
  · exact .fail _

/-- Every component gets a declaration, with a number from the counter. -/
theorem run_declareAll (mark : Mark) : ∀ (cs : List Component) (s : TypeReading),
    ∃ ds n, (declareAll mark cs).run s = .ok (ds, { s with nextId := n }) ∧ s.nextId ≤ n ∧
      ds.length = cs.length ∧
        ∀ d ∈ ds, ∃ m name type, d = .comp m name type ∧ s.nextId ≤ m.id ∧ m.id < n
  | [], s => ⟨[], s.nextId, rfl, Nat.le_refl _, rfl, fun _ hd => (List.not_mem_nil hd).elim⟩
  | c :: cs, s => by
    obtain ⟨ds, n, hrun, hn, hlen, hds⟩ := run_declareAll mark cs { s with nextId := s.nextId + 2 }
    have hn : s.nextId + 2 ≤ n := hn
    have hcons : (declareAll mark (c :: cs)).run s = .ok (Decl.comp { mark with id := s.nextId } c.name
        ⟨{ mark with id := s.nextId + 1 }, c.text⟩ :: ds, { s with nextId := n }) := by
      show ((declareAll mark cs).run { s with nextId := s.nextId + 2 } >>= fun r => _) = _
      rw [hrun]
      rfl
    refine ⟨_, n, hcons, Nat.le_trans (Nat.le_add_right _ 2) hn, congrArg (· + 1) hlen,
      List.forall_mem_cons.mpr ⟨?_, ?_⟩⟩
    · exact ⟨_, _, _, rfl, Nat.le_refl _, Nat.lt_of_succ_le (Nat.le_of_succ_le hn)⟩
    · intro d hd
      obtain ⟨m, name, type, rfl, hm, hlt⟩ := hds d hd
      exact ⟨m, name, type, rfl, Nat.le_trans (Nat.le_add_right _ 2) hm, hlt⟩

theorem finishRecord_counts (mark : Mark) {comps : List Component} (hne : comps ≠ [])
    (hcomps : ∀ c ∈ comps, c.type.Positive) : Counts (finishRecord mark comps) Ty.Positive := by
  refine .of_ok fun s => ?_
  -- The record takes the first number, and its components take those behind it.
  obtain ⟨ds, n, hrun, hn, hlen, hds⟩ := run_declareAll mark comps { s with nextId := s.nextId + 1 }
  have hn : s.nextId + 1 ≤ n := hn
  let fields := Fields.ofList (comps.map fun c => (c.name, c.type))
  have hfinish : (finishRecord mark comps).run s = .ok (.record s.nextId fields,
      { s with nextId := n, records := s.records ++ [(s.nextId, { fields, comps := ds })] }) := by
    show ((declareAll mark comps).run { s with nextId := s.nextId + 1 } >>= fun r => _) = _
    rw [hrun]
    rfl
  have hpositive : fields.Positive := by
    refine Fields.positive_ofList fun f hf => ?_
    obtain ⟨c, hc, rfl⟩ := List.mem_map.mp hf
    exact hcomps c hc
  have hfields : fields ≠ .nil := by
    obtain ⟨c, cs, rfl⟩ := List.exists_cons_of_ne_nil hne
    exact Fields.noConfusion
  refine ⟨_, _, hfinish, ⟨Nat.le_of_succ_le hn, fun r hr => ?_⟩, hfields, hpositive⟩
  rcases List.mem_append.mp hr with hr | hr
  · exact .inl hr
  · rw [List.mem_singleton.mp hr]
    refine .inr ⟨Nat.le_refl _, hn, ⟨?_, hpositive, ?_⟩, ?_⟩
    · show ds.length = fields.toList.length
      rw [hlen, Fields.toList_ofList, List.length_map]
    · intro d hd
      obtain ⟨m, name, type, rfl, hm, -⟩ := hds d hd
      exact ⟨m, name, type, rfl, Nat.le_of_succ_le hm⟩
    · intro d hd
      obtain ⟨m, name, type, rfl, -, hlt⟩ := hds d hd
      exact hlt

mutual

theorem type_counts (lookup : String → Option Decl) (mark : Mark) : ∀ fuel : Nat,
    Counts (type lookup mark fuel) Ty.Positive
  | 0 => .fail _
  | fuel + 1 => by
    unfold type
    refine peek_counts.bind fun c _ => ?_
    split
    · exact .fail _
    · exact advance_counts.bind fun _ _ => (type_counts lookup mark fuel).bind fun _ _ => .pure trivial
    · exact advance_counts.bind fun _ _ => arrayLength_counts.bind fun _ hlen => (expect_counts _).bind
        fun _ _ => (type_counts lookup mark fuel).bind fun _ helem => .pure ⟨hlen, helem⟩
    · exact advance_counts.bind fun _ _ =>
        (components_counts lookup mark fuel (List.forall_mem_nil _)).bind
        fun _ hcomps => finishRecord_counts mark hcomps.1 hcomps.2
    · exact (word_counts _).bind fun _ _ => .ite (fun _ => namedType_counts lookup _) fun _ => .fail _

theorem components_counts (lookup : String → Option Decl) (mark : Mark) : ∀ (fuel : Nat)
    {before : List Component}, (∀ c ∈ before, c.type.Positive) →
    Counts (components lookup mark fuel before) fun comps => comps ≠ [] ∧ ∀ c ∈ comps, c.type.Positive
  | 0, _, _ => .fail _
  | fuel + 1, before, hbefore => by
    unfold components
    refine (word_counts _).bind fun name _ => ?_
    -- Either test may stop the reader before the rest of the record is read.
    refine Counts.ite (fun _ => .fail_bind _ _) fun _ => ?_
    refine Counts.ite (fun _ => .fail_bind _ _) fun _ => ?_
    refine (expect_counts _).bind fun _ _ => Counts.get.bind fun _ _ => ?_
    refine (type_counts lookup mark fuel).bind fun ty hty => Counts.get.bind fun _ _ => ?_
    have hall {text : String} : ∀ c ∈ before ++ [⟨name, ty, text⟩], c.type.Positive :=
      List.forall_mem_append.mpr ⟨hbefore, List.forall_mem_singleton.mpr hty⟩
    refine peek_counts.bind fun _ _ => .ite (fun _ => advance_counts.bind fun _ _ =>
      .pure ⟨?_, hall⟩) fun _ => ?_
    · exact List.append_ne_nil_of_right_ne_nil _ (List.cons_ne_nil _ _)
    exact (expect_counts _).bind fun _ _ => components_counts lookup mark fuel hall

end

end TypeReader

/-- What reading the type expression leaves behind, whether or not its text is a type. -/
inductive TypeParts.ReadFrom (lookup : String → Option Decl) (nextId : NodeId) (te : TypeExpr) :
    TypeParts → Prop
  | ok {r : TypeResult} : readTypeExpr lookup nextId te = .ok r → ReadFrom lookup nextId te r.toTypeParts
  | error {e : TypeFailure} : readTypeExpr lookup nextId te = .error e →
      ReadFrom lookup nextId te e.toTypeParts

section

variable {lookup : String → Option Decl} {nextId : NodeId} {te : TypeExpr}

/-- The reader has found the type and has left nothing of the text behind. -/
theorem exists_run_of_readTypeExpr {r : TypeResult} (h : readTypeExpr lookup nextId te = .ok r) :
    ∃ s, (TypeReader.type lookup te.mark (te.text.toList.length + 1)).run
      { rest := te.text.toList, nextId } =
      .ok (r.type, s) ∧ s.rest = [] ∧ s.toTypeParts = r.toTypeParts := by
  unfold readTypeExpr at h
  dsimp only at h
  cases hrun : (TypeReader.type lookup te.mark (te.text.toList.length + 1)).run
      { rest := te.text.toList, nextId } with
  | error e =>
    rw [hrun] at h
    cases h
  | ok a =>
    rw [hrun] at h
    replace h : (if a.2.rest.isEmpty then _ else _) = Except.ok r := h
    split at h
    · next hrest =>
      cases h
      exact ⟨a.2, rfl, List.isEmpty_iff.mp hrest, rfl⟩
    · cases h

/-- The reader has stopped with what is left behind, or has found a type in front of some more text. -/
theorem TypeParts.ReadFrom.run {p : TypeParts} (h : p.ReadFrom lookup nextId te) :
    (∃ t s, (TypeReader.type lookup te.mark (te.text.toList.length + 1)).run
      { rest := te.text.toList, nextId } =
      .ok (t, s) ∧ s.toTypeParts = p) ∨
    ∃ e, (TypeReader.type lookup te.mark (te.text.toList.length + 1)).run
      { rest := te.text.toList, nextId } =
      .error e ∧ e.toTypeParts = p := by
  cases h with
  | ok h =>
    obtain ⟨s, hrun, -, hparts⟩ := exists_run_of_readTypeExpr h
    exact .inl ⟨_, s, hrun, hparts⟩
  | @error e h =>
    unfold readTypeExpr at h
    dsimp only at h
    cases hrun : (TypeReader.type lookup te.mark (te.text.toList.length + 1)).run
        { rest := te.text.toList, nextId } with
    | error e' =>
      rw [hrun] at h
      cases h
      exact .inr ⟨_, rfl, rfl⟩
    | ok a =>
      rw [hrun] at h
      -- The reader has found a type; the text as a whole fails for what stands behind it.
      replace h : (if a.2.rest.isEmpty then _ else _) = Except.error e := h
      split at h
      · cases h
      · cases h
        exact .inl ⟨a.1, a.2, rfl, rfl⟩

/-- **Reading a text takes its numbers from the counter**, whether or not it is a type: the counter only
grows, and the records that were read are well formed and have numbers that it handed out. -/
theorem TypeParts.ReadFrom.spec {p : TypeParts} (h : p.ReadFrom lookup nextId te) :
    nextId ≤ p.nextId ∧ ∀ id info, (id, info) ∈ p.records →
      nextId ≤ id ∧ id < p.nextId ∧ info.WellFormed nextId ∧ ∀ d ∈ info.comps, d.id < p.nextId := by
  have hgrows : TypeParts.Grows { nextId } p := by
    have hcounts := TypeReader.type_counts lookup te.mark (te.text.toList.length + 1)
    rcases h.run with ⟨t, s, hrun, rfl⟩ | ⟨e, hrun, rfl⟩
    · exact (hcounts.ok _ _ _ hrun).1
    · exact hcounts.error _ _ hrun
  exact ⟨hgrows.nextId, fun id info hr => (hgrows.records (id, info) hr).resolve_left List.not_mem_nil⟩

/-- **Reading a type takes its numbers from the counter**: it only grows, and the records that were
read are well formed and have numbers that it handed out. Array lengths are positive. -/
theorem readTypeExpr_spec {r : TypeResult} (h : readTypeExpr lookup nextId te = .ok r) :
    nextId ≤ r.nextId ∧ (∀ id info, (id, info) ∈ r.records →
      nextId ≤ id ∧ id < r.nextId ∧ info.WellFormed nextId ∧ ∀ d ∈ info.comps, d.id < r.nextId) ∧
      r.type.Positive := by
  obtain ⟨hnext, hrecords⟩ := (TypeParts.ReadFrom.ok h).spec
  obtain ⟨s, hrun, -, -⟩ := exists_run_of_readTypeExpr h
  exact ⟨hnext, hrecords, ((TypeReader.type_counts lookup te.mark _).ok _ _ _ hrun).2⟩

end

end MmixBackend
