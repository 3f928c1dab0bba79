import MmixBackend.Proofs.Instr.Computation
import MmixBackend.Proofs.IR.CanonicalForm
import MmixBackend.Proofs.Register.RoundBound

/-!
# Selection preserves meaning

The instructions that are selected for a canonical list do what the list does. A run of the list is
followed statement by statement: at the beginning of a statement the execution of the instructions stands
at the first instruction of that statement, with the same values in the temps that the list may use and
with the same state, the number of steps apart. A jump leads to the same label on both sides because
labels are distinct; a branch that is not taken either jumps to its negative label or falls through to it.

## Main statements

- `EmittedAll.labelsOf`: instructions have the labels of their statements.
- `Leaves.of_eval` and its companions: what a run does at a statement before it goes on.
- `Translation.follows`: the simulation.
- `selection_preserves_meaning`: the execution of selected instructions ends where the run of the
  list does, with the same state and the same temps.
-/

namespace MmixBackend

open IR Machine Execution

variable {m : Machine} {left : Label → World → Word} {n : Int}

/-! ## §1 The instructions of statements -/

section Emitted

variable (m : Machine) (left : Label → World → Word) (n : Int)

/-- The instructions of a statement that is followed by the statements `next`. -/
inductive Emitted (next : List Stmt) : Stmt → List Instr → Prop
  | eval {σ σ' e r} (hn : n ≤ σ.temps) (h : Selected m left n σ e r σ') : Emitted next (.eval e) r.1
  | set {σ σ' t src r} (hn : n ≤ σ.temps) (h : Selected m left n σ src r σ') :
      Emitted next (.move (.temp t) src) (r.1 ++ [.move r.2 t])
  | store {σ σ₁ σ' addr src r₁ r₂} (hn : n ≤ σ.temps) (h₁ : Selected m left n σ addr r₁ σ₁)
      (h₂ : Selected m left n σ₁ src r₂ σ') :
      Emitted next (.move (.mem addr) src) (r₁.1 ++ r₂.1 ++ [.plain .storeAt [r₂.2, r₁.2] []])
  | branch {σ σ' cond r} (pos neg : Label) (hn : n ≤ σ.temps) (h : Selected m left n σ cond r σ') :
      Emitted next (.cjump cond pos neg) (r.1 ++ .oper (.branch pos) [r.2] [] [pos, neg] .next
        :: (if isLabelNext neg next then [] else [.jumpTo neg]))
  | jump (l : Label) : Emitted next (.jump l) [.jumpTo l]
  | label (l : Label) : Emitted next (.label l) [.label l]

/-- The instructions of a statement list. -/
inductive EmittedAll : List Stmt → List Instr → Prop
  | nil : EmittedAll [] []
  | cons {s ss first rest} (h : Emitted m left n ss s first) (hs : EmittedAll ss rest) :
      EmittedAll (s :: ss) (first ++ rest)

end Emitted

theorem IR.Stmt.select_emitted (mode : ArgPassing) (next : List Stmt) {s : Stmt} (h : s.Selectable n)
    {σ : Supply} (hn : n ≤ σ.temps) : Succeeds (s.select mode next) σ fun is σ' =>
      σ.temps ≤ σ'.temps ∧ Emitted m left n next s is := by
  cases s with
  | absent => exact h.elim
  | seq ss => exact h.elim
  | jump l => exact .pure ⟨Int.le_refl _, .jump l⟩
  | label l => exact .pure ⟨Int.le_refl _, .label l⟩
  | eval e =>
    rw [IR.Stmt.select]
    apply (e.select_computes mode h σ hn).bind
    rintro ⟨is, t⟩ σ' he
    exact .pure ⟨he.le, .eval hn he⟩
  | cjump cond pos neg =>
    rw [IR.Stmt.select]
    apply (cond.select_computes mode h σ hn).bind
    rintro ⟨is, c⟩ σ' hcond
    exact .pure ⟨hcond.le, .branch pos neg hn hcond⟩
  | move dst src =>
    cases dst with
    | temp t =>
      rw [IR.Stmt.select]
      apply (src.select_computes mode h.2 σ hn).bind
      rintro ⟨is, v⟩ σ' hsrc
      exact .pure ⟨hsrc.le, .set hn hsrc⟩
    | mem addr =>
      rw [IR.Stmt.select]
      apply (addr.select_computes mode h.1 σ hn).bind
      rintro ⟨is₁, a⟩ σ₁ haddr
      apply (src.select_computes mode h.2 σ₁ (Int.le_trans hn haddr.le)).bind
      rintro ⟨is₂, v⟩ σ₂ hsrc
      exact .pure ⟨Int.le_trans haddr.le hsrc.le, .store hn haddr hsrc⟩
    | _ => exact h.elim

theorem IR.Stmt.selectAll_emitted (mode : ArgPassing) {ss : List Stmt}
    (h : Stmt.SelectableAll n ss) {σ : Supply} (hn : n ≤ σ.temps) :
    Succeeds (Stmt.selectAll mode ss) σ fun is _ => EmittedAll m left n ss is := by
  induction ss generalizing σ with
  | nil => exact .pure .nil
  | cons s ss ih =>
    obtain ⟨hs, hss⟩ := List.forall_mem_cons.mp h
    rw [IR.Stmt.selectAll]
    apply (IR.Stmt.select_emitted mode ss hs hn).bind
    rintro first σ₁ ⟨hle, hfirst⟩
    apply (ih hss (Int.le_trans hn hle)).bind
    intro rest σ₂ hrest
    exact .pure (.cons hfirst hrest)

/-! ## §2 Where labels stand -/

/-- The labels that stand in an instruction list, in order. -/
def Instr.labelsOf (is : List Instr) : List Label :=
  is.filterMap fun
    | .label l => some l
    | _ => none

@[simp] theorem Instr.labelsOf_append (is is' : List Instr) :
    Instr.labelsOf (is ++ is') = Instr.labelsOf is ++ Instr.labelsOf is' :=
  List.filterMap_append

theorem Instr.mem_labelsOf {l : Label} {is : List Instr} :
    l ∈ Instr.labelsOf is ↔ .label l ∈ is := by
  simp only [Instr.labelsOf, List.mem_filterMap]
  constructor
  · rintro ⟨i, hi, hl⟩
    cases i with
    | label l' =>
      cases hl
      exact hi
    | _ => cases hl
  · exact fun h => ⟨_, h, rfl⟩

theorem Sequence.labelsOf_eq_nil {is : List Instr} (h : Sequence is) : Instr.labelsOf is = [] := by
  refine List.eq_nil_iff_forall_not_mem.mpr fun l hl => ?_
  exact (h _ (Instr.mem_labelsOf.mp hl)).2 l rfl

/-- The instructions of a list have the labels of the list. -/
theorem EmittedAll.labelsOf {ss : List Stmt} {is : List Instr} (h : EmittedAll m left n ss is) :
    Instr.labelsOf is = Stmt.labelsOf ss := by
  induction h with
  | nil => rfl
  | cons h hs ih =>
    rename_i s ss first rest
    have hfirst : Instr.labelsOf first = Stmt.labelsOf [s] := by
      cases h with
      | eval hn h => exact h.sequence.labelsOf_eq_nil
      | set hn h =>
        rw [Instr.labelsOf_append, h.sequence.labelsOf_eq_nil]
        rfl
      | store hn h₁ h₂ =>
        rw [Instr.labelsOf_append, Instr.labelsOf_append, h₁.sequence.labelsOf_eq_nil,
          h₂.sequence.labelsOf_eq_nil]
        rfl
      | branch pos neg hn h =>
        rw [Instr.labelsOf_append, h.sequence.labelsOf_eq_nil]
        split <;> rfl
      | jump l => rfl
      | label l => rfl
    rw [Instr.labelsOf_append, hfirst, ih, ← Stmt.labelsOf_append]
    rfl

/-- The instructions of the statements from an index on. -/
theorem EmittedAll.drop {ss : List Stmt} {is : List Instr} (h : EmittedAll m left n ss is) (i : Nat) :
    ∃ before rest, is = before ++ rest ∧ EmittedAll m left n (ss.drop i) rest := by
  induction i generalizing ss is with
  | zero => exact ⟨[], is, rfl, h⟩
  | succ i ih =>
    cases h with
    | nil => exact ⟨[], [], rfl, .nil⟩
    | cons hs hss =>
      obtain ⟨before, rest, rfl, hrest⟩ := ih hss
      exact ⟨_ ++ before, rest, (List.append_assoc _ _ _).symm, hrest⟩

/-- A jump to the only occurrence of a label leads there. -/
theorem goto_label {before rest : List Instr} {l : Label}
    (h : (Instr.labelsOf (before ++ .label l :: rest)).Nodup) :
    goto (before ++ .label l :: rest) l = .at before.length := by
  rw [Instr.labelsOf_append] at h
  have hlater : .label l ∉ rest := fun hmem =>
    (List.nodup_cons.mp h.of_append_right).1 (Instr.mem_labelsOf.mpr hmem)
  have hindex : (Liveness.labelIndex (before ++ .label l :: rest))[l]? = some before.length := by
    refine Liveness.labelIndex_eq_some_iff.mpr ⟨by simp, fun j hj hget => hlater ?_⟩
    rw [List.getElem?_append_right (Nat.le_of_lt hj)] at hget
    obtain ⟨k, hk⟩ : ∃ k, j - before.length = k + 1 := ⟨j - before.length - 1, by omega⟩
    rw [hk, List.getElem?_cons_succ] at hget
    exact List.mem_of_getElem? hget
  rw [goto, hindex]

theorem goto_of_not_mem {is : List Instr} {l : Label} (h : .label l ∉ is) : goto is l = .left l := by
  rw [goto, Liveness.labelIndex_eq_none_iff.mpr h]

theorem drop_of_getElem? {α : Type} {xs : List α} {x : α} {i : Nat} (h : xs[i]? = some x) :
    xs.drop i = x :: xs.drop (i + 1) := by
  obtain ⟨hlt, rfl⟩ := List.getElem?_eq_some_iff.mp h
  exact List.drop_eq_getElem_cons hlt

/-! ## §3 Executing a statement list -/

/-- Control leaves the block of an activation: from behind its last statement, or by a jump to a label
that it does not define. -/
inductive Leaves (b : Machine.Block) (k : BlockContext) : Machine.Config → Option Label → Prop
  | falls {pc temps s} (h : b.stmts[pc]? = none) : Leaves b k ⟨.exec b pc k, temps, s⟩ none
  | jump {pc temps s} {l : Label} (h : b.stmts[pc]? = some (.jump l)) (hl : b.labels[l]? = none) :
      Leaves b k ⟨.exec b pc k, temps, s⟩ (some l)
  | branch {v temps s} {pos neg l : Label} (h : l = if v ≠ 0 then pos else neg)
      (hl : b.labels[l]? = none) : Leaves b k ⟨.value v (.branch pos neg b k), temps, s⟩ (some l)

/-- Started with some temps and in some state, a statement list is executed until control leaves it,
from behind the last statement or to the label `exit`, without a run-time error. -/
def Executes (m : Machine) (ss : List Stmt) (temps : Temps) (s : State) (exit : Option Label)
    (temps' : Temps) (s' : State) : Prop :=
  ∃ frame fp callerTemps control,
    Relation.ReflTransGen (Next m)
      ⟨.exec (.ofStmts ss) 0 (.ret frame fp callerTemps .done), temps, s⟩ ⟨control, temps', s'⟩ ∧
    Leaves (.ofStmts ss) (.ret frame fp callerTemps .done) ⟨control, temps', s'⟩ exit

/-- The same place of an instruction list. -/
def exitPlace (is : List Instr) : Option Label → Place
  | none => .at is.length
  | some l => .left l

section Leaves

variable {b : Machine.Block} {frame : Frame} {fp : Word} {callerTemps temps : Temps} {s : State}
  {d : Machine.Config} {exit : Option Label} {pc N : Nat}

theorem Leaves.behind {k : BlockContext} (h : Leaves b k d exit) : d.Behind (k.nesting + 1) := by
  cases h with
  | falls h => exact Nat.lt_succ_self _
  | jump h hl => exact Nat.lt_succ_self _
  | branch h hl => exact Nat.le_refl _

/-- Behind the activation there is no way back into it. -/
theorem Leaves.not_done {v : Word}
    (h : Leaves b (.ret frame fp callerTemps .done) d exit)
    (hleads : Leads m N ⟨.value v .done, temps, s⟩ d) : False := by
  by_cases hd : ⟨.value v .done, temps, s⟩ = d
  · subst hd
    cases h
  · obtain ⟨_, _, -, hstep, -⟩ := hleads.next hd
    cases hstep

/-- A jump to a label that is not out of the block leads behind the label. -/
theorem Leaves.of_jump {l : Label} {c : Machine.Config}
    (h : Leaves b (.ret frame fp callerTemps .done) d exit)
    (hjump : Machine.jump l b (.ret frame fp callerTemps .done) temps s = .next c)
    (hleads : Leads m N c d) : ∃ i, b.labels[l]? = some i ∧
      Leads m N ⟨.exec b (i + 1) (.ret frame fp callerTemps .done), temps, s⟩ d := by
  unfold Machine.jump at hjump
  split at hjump
  · rename_i i hi
    cases hjump
    exact ⟨i, hi, hleads⟩
  · cases hjump
    exact (h.not_done hleads).elim

/-- A run behind the last statement has left. -/
theorem Leaves.of_end (h : Leaves b (.ret frame fp callerTemps .done) d exit)
    (hst : b.stmts[pc]? = none)
    (hleads : Leads m N ⟨.exec b pc (.ret frame fp callerTemps .done), temps, s⟩ d) :
    exit = none ∧ d.temps = temps ∧ d.state = s := by
  by_cases hd : ⟨.exec b pc (.ret frame fp callerTemps .done), temps, s⟩ = d
  · subst hd
    cases h with
    | falls => exact ⟨rfl, rfl, rfl⟩
    | jump h hl => simp [hst] at h
  · obtain ⟨N', c, rfl, hstep, hrest⟩ := hleads.next hd
    simp only [Machine.step, execStep, hst] at hstep
    cases hstep
    exact (h.not_done hrest).elim

/-- A run that is about to jump to a label goes on behind it, or has left. -/
def Jumping (m : Machine) (b : Machine.Block) (k : BlockContext) (l : Label) (temps : Temps)
    (s : State) (d : Machine.Config) (exit : Option Label) (N : Nat) : Prop :=
  (∃ i N' s', N' < N ∧ b.labels[l]? = some i ∧ Leads m N' ⟨.exec b (i + 1) k, temps, s'⟩ d ∧
    ∀ {t}, s.Alike t → s'.Alike t) ∨
  (exit = some l ∧ b.labels[l]? = none ∧ d.temps = temps ∧ d.state = s)

/-- A statement that is executed is within the limit. -/
theorem Machine.next_of_counted {p : Prop} [Decidable p] {e : Ending} {s : State} {t : Transition}
    {c : Machine.Config} (h : (if p then .stop e s else t) = Transition.next c) : t = .next c := by
  split at h
  · cases h
  · exact h

theorem Leaves.jumping_of_jump {l : Label} (h : Leaves b (.ret frame fp callerTemps .done) d exit)
    (hst : b.stmts[pc]? = some (.jump l))
    (hleads : Leads m N ⟨.exec b pc (.ret frame fp callerTemps .done), temps, s⟩ d) :
    Jumping m b (.ret frame fp callerTemps .done) l temps s d exit N := by
  by_cases hd : ⟨.exec b pc (.ret frame fp callerTemps .done), temps, s⟩ = d
  · subst hd
    cases h with
    | falls h => simp [hst] at h
    | jump h hl =>
      rw [hst] at h
      cases h
      exact .inr ⟨rfl, hl, rfl, rfl⟩
  · obtain ⟨N', c, rfl, hstep, hrest⟩ := hleads.next hd
    simp only [Machine.step, execStep, hst] at hstep
    obtain ⟨i, hi, hbehind⟩ := h.of_jump (Machine.next_of_counted hstep) hrest
    exact .inl ⟨i, N', _, Nat.lt_succ_self _, hi, hbehind, fun ht => ht.count⟩

theorem Leaves.jumping_of_branch {v : Word} {pos neg : Label}
    (h : Leaves b (.ret frame fp callerTemps .done) d exit)
    (hleads : Leads m N ⟨.value v (.branch pos neg b (.ret frame fp callerTemps .done)), temps, s⟩ d) :
    Jumping m b (.ret frame fp callerTemps .done) (if v ≠ 0 then pos else neg) temps s d exit N := by
  by_cases hd : ⟨.value v (.branch pos neg b (.ret frame fp callerTemps .done)), temps, s⟩ = d
  · subst hd
    cases h with
    | branch h hl =>
      subst h
      exact .inr ⟨rfl, hl, rfl, rfl⟩
  · obtain ⟨N', c, rfl, hstep, hrest⟩ := hleads.next hd
    obtain ⟨i, hi, hbehind⟩ := h.of_jump hstep hrest
    exact .inl ⟨i, N', s, Nat.lt_succ_self _, hi, hbehind, id⟩

/-- A run that has not left takes the statement at hand. -/
theorem Leaves.next {k : BlockContext} {st : Stmt} (h : Leaves b k d exit)
    (hst : b.stmts[pc]? = some st) (hjump : ∀ l, st ≠ .jump l)
    (hleads : Leads m N ⟨.exec b pc k, temps, s⟩ d) :
    ∃ N' c, N = N' + 1 ∧ execStep m b pc k temps s = .next c ∧ Leads m N' c d := by
  refine hleads.next fun hd => ?_
  subst hd
  cases h with
  | falls h => simp [hst] at h
  | jump h hl =>
    rw [hst] at h
    cases h
    exact hjump _ rfl

variable {k : BlockContext}

/-- A run through a label. -/
theorem Leaves.of_label {l : Label} (h : Leaves b k d exit) (hst : b.stmts[pc]? = some (.label l))
    (hleads : Leads m N ⟨.exec b pc k, temps, s⟩ d) :
    ∃ N', N' < N ∧ Leads m N' ⟨.exec b (pc + 1) k, temps, { s with steps := s.steps + 1 }⟩ d := by
  obtain ⟨N', c, rfl, hstep, hrest⟩ := h.next hst (by simp) hleads
  simp only [execStep, hst] at hstep
  cases Machine.next_of_counted hstep
  exact ⟨N', Nat.lt_succ_self _, hrest⟩

/-- A run through an expression that is evaluated for its effects. -/
theorem Leaves.of_eval {e : Expr} (h : Leaves b k d exit) (hst : b.stmts[pc]? = some (.eval e))
    (hselect : e.Selectable n) (hcallees : ∀ l ∈ e.callees, Routine.ofLabel? l = none)
    (hleads : Leads m N ⟨.exec b pc k, temps, s⟩ d) :
    ∃ N' v s', N' < N ∧ e.Yields m temps { s with steps := s.steps + 1 } v s' ∧
      Leads m N' ⟨.exec b (pc + 1) k, temps, s'⟩ d := by
  obtain ⟨N₁, c, rfl, hstep, hrest⟩ := h.next hst (by simp) hleads
  simp only [execStep, hst] at hstep
  cases Machine.next_of_counted hstep
  obtain ⟨N₂, v, s', hlt, hvalue, he⟩ := e.yields_of_leads hselect hcallees hrest h.behind
  obtain ⟨N₃, c, rfl, hstep, hrest⟩ := hvalue.next (by rintro rfl; cases h)
  cases hstep
  exact ⟨N₃, v, s', by omega, he, hrest⟩

/-- A run through a move into a temp. -/
theorem Leaves.of_set {t : Temp} {src : Expr} (h : Leaves b k d exit)
    (hst : b.stmts[pc]? = some (.move (.temp t) src)) (hselect : src.Selectable n)
    (hcallees : ∀ l ∈ src.callees, Routine.ofLabel? l = none)
    (hleads : Leads m N ⟨.exec b pc k, temps, s⟩ d) :
    ∃ N' v s', N' < N ∧ src.Yields m temps { s with steps := s.steps + 1 } v s' ∧
      Leads m N' ⟨.exec b (pc + 1) k, temps.insert t v, s'⟩ d := by
  obtain ⟨N₁, c, rfl, hstep, hrest⟩ := h.next hst (by simp) hleads
  simp only [execStep, hst] at hstep
  cases Machine.next_of_counted hstep
  obtain ⟨N₂, v, s', hlt, hvalue, he⟩ := src.yields_of_leads hselect hcallees hrest h.behind
  obtain ⟨N₃, c, rfl, hstep, hrest⟩ := hvalue.next (by rintro rfl; cases h)
  cases hstep
  exact ⟨N₃, v, s', by omega, he, hrest⟩

/-- A run through a move into memory. -/
theorem Leaves.of_store {addr src : Expr} (h : Leaves b k d exit)
    (hst : b.stmts[pc]? = some (.move (.mem addr) src))
    (hselect : addr.Selectable n ∧ src.Selectable n)
    (hcallees : ∀ l ∈ addr.callees ++ src.callees, Routine.ofLabel? l = none)
    (hleads : Leads m N ⟨.exec b pc k, temps, s⟩ d) :
    ∃ N' a s₁ v s', N' < N ∧ addr.Yields m temps { s with steps := s.steps + 1 } a s₁ ∧
      src.Yields m temps s₁ v s' ∧ Leads m N'
        ⟨.exec b (pc + 1) k, temps, { s' with memory := s'.memory.write a v }⟩ d := by
  obtain ⟨hcallees₁, hcallees₂⟩ := List.forall_mem_append.mp hcallees
  obtain ⟨N₁, c, rfl, hstep, hrest⟩ := h.next hst (by simp) hleads
  simp only [execStep, hst] at hstep
  cases Machine.next_of_counted hstep
  obtain ⟨N₂, a, s₁, hlt₁, hvalue, ha⟩ := addr.yields_of_leads hselect.1 hcallees₁ hrest h.behind
  obtain ⟨N₃, c, rfl, hstep, hrest⟩ := hvalue.next (by rintro rfl; cases h)
  cases hstep
  obtain ⟨N₄, v, s', hlt₂, hvalue, hv⟩ := src.yields_of_leads hselect.2 hcallees₂ hrest h.behind
  obtain ⟨N₅, c, rfl, hstep, hrest⟩ := hvalue.next (by rintro rfl; cases h)
  cases hstep
  exact ⟨N₅, a, s₁, v, s', by omega, ha, hv, hrest⟩

/-- A run through a conditional jump. -/
theorem Leaves.of_cjump {cond : Expr} {pos neg : Label}
    (h : Leaves b (.ret frame fp callerTemps .done) d exit)
    (hst : b.stmts[pc]? = some (.cjump cond pos neg)) (hselect : cond.Selectable n)
    (hcallees : ∀ l ∈ cond.callees, Routine.ofLabel? l = none)
    (hleads : Leads m N ⟨.exec b pc (.ret frame fp callerTemps .done), temps, s⟩ d) :
    ∃ N' v s', N' < N ∧ cond.Yields m temps { s with steps := s.steps + 1 } v s' ∧
      Jumping m b (.ret frame fp callerTemps .done) (if v ≠ 0 then pos else neg) temps s' d exit N' := by
  obtain ⟨N₁, c, rfl, hstep, hrest⟩ := h.next hst (by simp) hleads
  simp only [execStep, hst] at hstep
  cases Machine.next_of_counted hstep
  obtain ⟨N₂, v, s', hlt, hvalue, he⟩ := cond.yields_of_leads hselect hcallees hrest h.behind
  exact ⟨N₂, v, s', by omega, he, h.jumping_of_branch hvalue⟩

end Leaves

/-! ## §4 The simulation -/

theorem Agrees.update {temps : Temps} {store : Temp → Word} (h : Agrees n temps store) (t : Temp)
    (v : Word) : Agrees n (temps.insert t v) (Function.update store t v) := by
  intro u hu
  by_cases hut : u = t
  · subst hut
    simp
  · rw [Function.update_of_ne hut, Std.HashMap.getD_insert, if_neg (by simpa using Ne.symm hut)]
    exact h u hu

theorem IR.Stmt.callees_subset {ss : List Stmt} {s : Stmt} (hs : s ∈ ss) {l : Label}
    (hl : l ∈ s.callees) : l ∈ Stmt.calleesAll ss := by
  induction ss with
  | nil => exact (List.not_mem_nil hs).elim
  | cons s' ss ih =>
    rw [Stmt.calleesAll, List.mem_append]
    rcases List.mem_cons.mp hs with rfl | hs
    · exact .inl hl
    · exact .inr (ih hs)

/-- Instructions that have been selected for a statement list with distinct labels, without nested
sequences and calls of routines. -/
structure Translation (m : Machine) (left : Label → World → Word) (n : Int) (ss : List Stmt)
    (is : List Instr) : Prop where
  emitted : EmittedAll m left n ss is
  flat : Stmt.flattenAll ss = ss
  nodup : (Stmt.labelsOf ss).Nodup
  selectable : Stmt.SelectableAll n ss
  callees : ∀ l ∈ Stmt.calleesAll ss, Routine.ofLabel? l = none

/-- The execution of the instructions arrives where the run of the statements has left them, with the
same temps and the same state. -/
def Arrives (m : Machine) (left : Label → World → Word) (n : Int) (is : List Instr)
    (d : Machine.Config) (exit : Option Label) (c : Execution.Config Temp Word World) : Prop :=
  ∃ store w, Relation.ReflTransGen (Steps (meaning m left) is) c ⟨exitPlace is exit, store, w⟩ ∧
    Agrees n d.temps store ∧ d.state.Alike w.state

/-- If the run of the statements has `N` transitions to go before it leaves them, then the execution of
the instructions that belong to its place arrives where it does. -/
def Follows (m : Machine) (left : Label → World → Word) (n : Int) (ss : List Stmt) (is : List Instr)
    (k : BlockContext) (d : Machine.Config) (exit : Option Label) (N : Nat) : Prop :=
  ∀ {pc : Nat} {temps : Temps} {s : State} {before rest : List Instr} {store : Temp → Word} {w : World},
    Leads m N ⟨.exec (.ofStmts ss) pc k, temps, s⟩ d → is = before ++ rest →
    EmittedAll m left n (ss.drop pc) rest → Agrees n temps store → s.Alike w.state →
    Arrives m left n is d exit ⟨.at before.length, store, w⟩

section Simulation

variable {ss : List Stmt} {is before mid rest : List Instr} {d : Machine.Config} {exit : Option Label}
  {frame : Frame} {fp : Word} {callerTemps temps : Temps} {s : State} {store : Temp → Word} {w : World}
  {N pc : Nat}

theorem Arrives.of_steps {c c' : Execution.Config Temp Word World}
    (hsteps : Relation.ReflTransGen (Steps (meaning m left) is) c c')
    (h : Arrives m left n is d exit c') : Arrives m left n is d exit c := by
  obtain ⟨store, w, hrest, hd⟩ := h
  exact ⟨store, w, hsteps.trans hrest, hd⟩

/-- Instructions that fall through come first. -/
theorem Arrives.behind {store' : Temp → Word} {w' : World} (hcode : is = before ++ mid ++ rest)
    (hmid : ∀ i ∈ mid, FallsThrough i)
    (hrun : performAll (meaning m left) (store, w) mid = (store', w'))
    (h : Arrives m left n is d exit ⟨.at (before ++ mid).length, store', w'⟩) :
    Arrives m left n is d exit ⟨.at before.length, store, w⟩ := by
  have hsteps := steps_performAll (meaning m left) hcode hmid (store, w)
  rw [hrun] at hsteps
  exact h.of_steps hsteps

/-- A jump comes first. -/
theorem Arrives.jumpTo {l : Label} (hcode : is = before ++ .jumpTo l :: rest)
    (h : Arrives m left n is d exit ⟨goto is l, store, w⟩) :
    Arrives m left n is d exit ⟨.at before.length, store, w⟩ := by
  refine h.of_steps (.single ⟨.jumpTo l, ?_⟩)
  have hget : is[before.length]? = some (.jumpTo l) := by simp [hcode]
  simp only [Execution.step, hget]
  rfl

/-- A branch comes first. -/
theorem Arrives.branch {c : Temp} {pos neg : Label}
    (hcode : is = before ++ .oper (.branch pos) [c] [] [pos, neg] .next :: rest)
    (htaken : store c ≠ 0 → Arrives m left n is d exit ⟨goto is pos, store, w⟩)
    (hnot : store c = 0 → Arrives m left n is d exit
      ⟨.at (before ++ [Instr.oper (.branch pos) [c] [] [pos, neg] .next]).length, store, w⟩) :
    Arrives m left n is d exit ⟨.at before.length, store, w⟩ := by
  have hget : is[before.length]? = some (.oper (.branch pos) [c] [] [pos, neg] .next) := by
    simp [hcode]
  by_cases hc : store c = 0
  · refine (hnot hc).of_steps (.single ⟨.oper (.branch pos) [c] [] [pos, neg] .next, ?_⟩)
    simp [Execution.step, hget, execute, meaning, Effect.jump, overTemps, nextPlace, hc, assign]
  · refine (htaken hc).of_steps (.single ⟨.oper (.branch pos) [c] [] [pos, neg] .next, ?_⟩)
    simp [Execution.step, hget, execute, meaning, Effect.jump, overTemps, nextPlace, hc, assign]

/-- A jump to a label of the instructions leads to its place. -/
theorem Translation.goto_eq (h : Translation m left n ss is) {l : Label}
    (hcode : is = before ++ .label l :: rest) : goto is l = .at before.length := by
  have hnodup := h.nodup
  rw [← h.emitted.labelsOf, hcode] at hnodup
  rw [hcode]
  exact goto_label hnodup

/-- The place of a jump is a label of the list, behind which the run goes on, or outside. -/
theorem Translation.arrives_goto (h : Translation m left n ss is) {k : BlockContext}
    (ih : Follows m left n ss is k d exit N) {l : Label} {i : Nat}
    (hl : (Block.ofStmts ss).labels[l]? = some i)
    (hleads : Leads m N ⟨.exec (.ofStmts ss) (i + 1) k, temps, s⟩ d) (hagrees : Agrees n temps store)
    (hs : s.Alike w.state) : Arrives m left n is d exit ⟨goto is l, store, w⟩ := by
  have hi : ss[i]? = some (.label l) := by
    rcases Block.labels_ofStmts ss l with ⟨j, hj, hfound⟩ | ⟨-, hnone⟩
    · rw [hl] at hfound
      cases hfound
      rwa [h.flat] at hj
    · rw [hl] at hnone
      cases hnone
  obtain ⟨before, rest, hcode, hrest⟩ := h.emitted.drop i
  rw [drop_of_getElem? hi] at hrest
  cases hrest with
  | cons hfirst hrest =>
    rename_i first rest
    cases hfirst
    have hcode' : is = before ++ [.label l] ++ rest := by rw [hcode, List.append_assoc]
    rw [h.goto_eq hcode]
    exact Arrives.behind hcode' (List.forall_mem_singleton.mpr (.label l)) rfl
      (ih hleads hcode' hrest hagrees hs)

/-- Outside of the list the run has left. -/
theorem Translation.goto_left (h : Translation m left n ss is) {l : Label}
    (hl : (Block.ofStmts ss).labels[l]? = none) : goto is l = .left l := by
  refine goto_of_not_mem fun hmem => ?_
  rw [← Instr.mem_labelsOf, h.emitted.labelsOf, Stmt.mem_labelsOf] at hmem
  rcases Block.labels_ofStmts ss l with ⟨j, -, hfound⟩ | ⟨hnot, -⟩
  · rw [hl] at hfound
    cases hfound
  · rw [h.flat] at hnot
    exact hnot hmem

/-- A jump of the run is a jump of the execution. -/
theorem Translation.arrives_jumping (h : Translation m left n ss is) {k : BlockContext}
    (ih : ∀ N' < N, Follows m left n ss is k d exit N') {l : Label}
    (hjump : Jumping m (.ofStmts ss) k l temps s d exit N) (hagrees : Agrees n temps store)
    (hs : s.Alike w.state) : Arrives m left n is d exit ⟨goto is l, store, w⟩ := by
  rcases hjump with ⟨i, N', s', hlt, hi, hleads, hs'⟩ | ⟨rfl, hl, rfl, rfl⟩
  · exact h.arrives_goto (ih N' hlt) hi hleads hagrees (hs' hs)
  · rw [h.goto_left hl]
    exact ⟨store, w, .refl, hagrees, hs⟩

/-- Behind a branch that is not taken the execution goes to the negative label, by a jump or because the
label comes next. -/
theorem Translation.arrives_negative (h : Translation m left n ss is) {neg : Label} {next : List Stmt}
    (hcode : is = before ++ ((if isLabelNext neg next then [] else [.jumpTo neg]) ++ rest))
    (hrest : EmittedAll m left n next rest)
    (harrive : Arrives m left n is d exit ⟨goto is neg, store, w⟩) :
    Arrives m left n is d exit ⟨.at before.length, store, w⟩ := by
  split at hcode
  · rename_i hnext
    cases hrest with
    | nil => cases hnext
    | cons hfirst hrest =>
      cases hfirst with
      | label l =>
        have hl : l = neg := by simpa [isLabelNext] using hnext
        subst hl
        rwa [h.goto_eq hcode] at harrive
      | _ => cases hnext
  · exact .jumpTo hcode harrive

/-- **The simulation**, by induction on the transitions that the run has to go. -/
theorem Translation.follows (h : Translation m left n ss is)
    (hd : Leaves (.ofStmts ss) (.ret frame fp callerTemps .done) d exit) (N : Nat) :
    Follows m left n ss is (.ret frame fp callerTemps .done) d exit N := by
  induction N using Nat.strongRecOn with
  | ind N ih =>
    intro pc temps s before rest store w hleads hcode hrest hagrees hs
    have hget : (Block.ofStmts ss).stmts[pc]? = ss[pc]? := by
      rw [Block.getElem?_ofStmts, h.flat]
    -- Past the last statement both sides stand at the end of the list.
    cases hpc : ss[pc]? with
    | none =>
      rw [hpc] at hget
      rw [List.drop_eq_nil_of_le (List.getElem?_eq_none_iff.mp hpc)] at hrest
      cases hrest
      obtain ⟨rfl, rfl, rfl⟩ := hd.of_end hget hleads
      refine ⟨store, w, ?_, hagrees, hs⟩
      rw [exitPlace, hcode, List.append_nil]
    | some st =>
      rw [hpc] at hget
      have hmem : st ∈ ss := List.mem_of_getElem? hpc
      have hselect := h.selectable st hmem
      -- Routines of the run-time system count no steps, so their calls would not match.
      have hcallees : ∀ l ∈ st.callees, Routine.ofLabel? l = none :=
        fun l hl => h.callees l (Stmt.callees_subset hmem hl)
      rw [drop_of_getElem? hpc] at hrest
      cases hrest with
      | cons hfirst hrest =>
        rw [← List.append_assoc] at hcode
        cases hfirst with
        | eval hn he =>
          -- The run is shorter behind the statement, which is what the induction needs.
          obtain ⟨N', v, s', hlt, hv, hnext⟩ := hd.of_eval hget hselect hcallees hleads
          obtain ⟨store', w', hrun, -, hpres, hs'⟩ := he.computes hv hagrees hs.count
          exact .behind hcode (fun i hi => (he.sequence i hi).1) hrun
            (ih N' hlt hnext hcode hrest (hagrees.of_preserves hpres hn) hs')
        | set hn hsrc =>
          obtain ⟨N', v, s', hlt, hv, hnext⟩ := hd.of_set hget hselect.2 hcallees hleads
          obtain ⟨store', w', hrun, rfl, hpres, hs'⟩ := hsrc.computes hv hagrees hs.count
          refine .behind hcode ?_ (by rw [performAll_append, hrun]; rfl)
            (ih N' hlt hnext hcode hrest ((hagrees.of_preserves hpres hn).update _ _) hs')
          exact List.forall_mem_append.mpr
            ⟨fun i hi => (hsrc.sequence i hi).1, List.forall_mem_singleton.mpr (.move _ _)⟩
        | @store σ σ₁ σ' addr src r₁ r₂ hn haddr hsrc =>
          obtain ⟨N', a, s₁, v, s', hlt, ha, hv, hnext⟩ := hd.of_store hget hselect hcallees hleads
          obtain ⟨store₁, w₁, hrun₁, rfl, hpres₁, hs₁⟩ := haddr.computes ha hagrees hs.count
          have hagrees₁ := hagrees.of_preserves hpres₁ hn
          obtain ⟨store₂, w₂, hrun₂, rfl, hpres₂, hs₂⟩ := hsrc.computes hv hagrees₁ hs₁
          -- The source keeps the temp of the address, so the store finds it.
          have hrun : performAll (meaning m left) (store, w)
                (r₁.1 ++ r₂.1 ++ [.plain .storeAt [r₂.2, r₁.2] []])
              = (store₂, { w₂ with state :=
                  { w₂.state with memory := s'.memory.write (store₁ r₁.2) (store₂ r₂.2) } }) := by
            rw [performAll_append, performAll_append, hrun₁, hrun₂, ← hpres₂ _ haddr.temp,
              ← hs₂.memory_eq]
            rfl
          refine .behind hcode ?_ hrun (ih N' hlt hnext hcode hrest
            (hagrees₁.of_preserves hpres₂ (Int.le_trans hn haddr.le)) (hs₂.withMemory _))
          refine List.forall_mem_append.mpr ⟨?_, List.forall_mem_singleton.mpr (.plain _ _ _)⟩
          exact fun i hi => ((haddr.sequence.append hsrc.sequence) i hi).1
        | branch pos neg hn hcond =>
          obtain ⟨N', v, s', hlt, hv, hjump⟩ := hd.of_cjump hget hselect hcallees hleads
          obtain ⟨store', w', hrun, rfl, hpres, hs'⟩ := hcond.computes hv hagrees hs.count
          have hagrees' := hagrees.of_preserves hpres hn
          have harrive :=
            h.arrives_jumping (fun N'' hN'' => ih N'' (Nat.lt_trans hN'' hlt)) hjump hagrees' hs'
          rw [List.append_assoc, List.append_assoc, List.cons_append, ← List.append_assoc] at hcode
          refine .behind hcode (fun i hi => (hcond.sequence i hi).1) hrun
            (.branch hcode (fun htaken => ?_) fun hnot => ?_)
          · rwa [if_pos htaken] at harrive
          -- A branch not taken falls through to the negative label or to the jump that goes there.
          · rw [if_neg (not_not_intro hnot)] at harrive
            rw [List.append_cons] at hcode
            exact h.arrives_negative hcode hrest harrive
        | jump l =>
          rw [List.append_assoc] at hcode
          exact .jumpTo hcode (h.arrives_jumping ih (hd.jumping_of_jump hget hleads) hagrees hs)
        | label l =>
          obtain ⟨N', hlt, hnext⟩ := hd.of_label hget hleads
          exact .behind hcode (List.forall_mem_singleton.mpr (.label l)) rfl
            (ih N' hlt hnext hcode hrest hagrees hs.count)

end Simulation

/-! ## §5 Selection preserves meaning -/

/-- Statements that have been selected can be selected. -/
theorem IR.Stmt.selectableAll_of_selectAll {mode : ArgPassing} {ss : List Stmt} {σ σ' : Supply}
    {is : List Instr} (hwhole : Stmt.WholeAll n ss)
    (h : (Stmt.selectAll mode ss).run.run σ = (.ok is, σ')) : Stmt.SelectableAll n ss := by
  induction ss generalizing σ is with
  | nil => exact .nil n
  | cons s ss ih =>
    obtain ⟨hs, hss⟩ := List.forall_mem_cons.mp hwhole
    rw [IR.Stmt.selectAll] at h
    obtain ⟨first, σ₁, hfirst, h⟩ := run_bind_eq_ok h
    obtain ⟨rest, σ₂, hrest, h⟩ := run_bind_eq_ok h
    cases h
    exact List.forall_mem_cons.mpr
      ⟨Stmt.selectable_of_select hs.ne_seq hfirst hs.temps_le, ih hss hrest⟩

/-- **Selection preserves meaning.** The statement list is one that canonicalization returns, with
distinct labels and without calls of the routines that have no body. If its operators are known and its
calls have as many offsets as arguments, then it is selected, whichever way arguments are passed.
Whenever the run of the list gets to its end or to a jump out of it, the execution of the selected
instructions ends in the same place, with the same state, the number of steps apart, and with the same
values in the temps of the list. -/
theorem selection_preserves_meaning (m : Machine) (left : Label → World → Word) (mode : ArgPassing)
    {tree : Stmt} {ss : List Stmt} {σ₀ σ : Supply} (hcanonical : tree.canonical.run.run σ₀ = (.ok ss, σ))
    (htemps : ∀ t ∈ tree.temps, t.index ≤ σ₀.temps) (hlabels : (Stmt.labelsOf ss).Nodup)
    (hcallees : ∀ l ∈ Stmt.calleesAll ss, Routine.ofLabel? l = none) :
    ((∀ s ∈ ss, s.Regular) → ∃ is σ', (Stmt.selectAll mode ss).run.run σ = (.ok is, σ')) ∧
    ∀ is σ', (Stmt.selectAll mode ss).run.run σ = (.ok is, σ') →
      ∀ temps s exit temps' s', Executes m ss temps s exit temps' s' →
      ∀ (store : Temp → Word) (r : Word), (∀ t : Temp, t.index ≤ σ.temps → store t = temps.getD t 0) →
      ∃ n store' s'' r', (run (meaning m left) (overTemps Word World) is n ⟨.at 0, store, s, r⟩).2
          = ⟨exitPlace is exit, store', s'', r'⟩ ∧
        s'.Alike s'' ∧ ∀ t ∈ Stmt.tempsAll ss, store' t = temps'.getD t 0 := by
  obtain ⟨-, hwhole⟩ := tree.whole_of_canonical hcanonical htemps
  constructor
  · intro hregular
    have hselect : Stmt.SelectableAll σ.temps ss := fun s hs => (hwhole s hs).selectable (hregular s hs)
    obtain ⟨is, σ', hrun, -⟩ := Stmt.selectAll_spec mode hselect (Int.le_refl _)
    exact ⟨is, σ', hrun⟩
  · rintro is σ' hrun temps s exit temps' s' ⟨frame, fp, callerTemps, control, hpath, hleaves⟩
    intro store r hstore
    have hselect := Stmt.selectableAll_of_selectAll hwhole hrun
    have htranslation : Translation m left σ.temps ss is := by
      refine ⟨(Stmt.selectAll_emitted mode hselect (Int.le_refl _)).of_run hrun, ?_, hlabels, hselect,
        hcallees⟩
      exact Stmt.flattenAll_of_ne_seq fun s hs => (hwhole s hs).ne_seq
    -- The run of the list counts its transitions, and the simulation is by induction on them.
    obtain ⟨N, hleads⟩ := exists_leads hpath
    obtain ⟨store', w', hsteps, hagrees, hs⟩ := htranslation.follows hleaves N hleads
      (List.nil_append is).symm htranslation.emitted (w := ⟨s, r⟩) hstore (.refl s)
    obtain ⟨n, hn⟩ := exists_run_of_steps hsteps
    exact ⟨n, store', w'.state, w'.remainder, hn, hs, fun t ht => hagrees t (hwhole.temps_le t ht)⟩

/-- Calls a function with an argument far off the stack pointer, keeps the remainder of its result and
jumps away. -/
def remainderOfCall : Stmt :=
  .seq [.move (.temp ⟨1⟩) (.binop .mod (.call "_f" [4096] [.const (-7)]) (.const 3)), .jump "out"]

/-- A machine with a function that does nothing and returns zero. -/
def idleMachine : Machine :=
  ({ limit := 0 } : Machine).addFunction ⟨"_f", 0, 0, 8, ⟨101⟩, ⟨102⟩⟩ []

/-- The canonical list of `remainderOfCall`. -/
def remainderList : List Stmt :=
  [moveInto 2 (.const (-7)), moveInto 3 (.call "_f" [4096] [.temp ⟨2⟩]), moveInto 4 (.temp ⟨3⟩),
    moveInto 5 (.const 3), moveInto 6 (.binop .mod (.temp ⟨4⟩) (.temp ⟨5⟩)),
    .move (.temp ⟨1⟩) (.temp ⟨6⟩), .jump "out"]

/-- The list can be executed: up to the call, through it, and from there to the jump. -/
theorem executes_remainderList :
    ∃ temps s, Executes idleMachine remainderList ∅ {} (some "out") temps s := by
  have hout : (Block.ofStmts remainderList).labels["out"]? = none :=
    ((Block.labels_ofStmts remainderList "out").resolve_left fun ⟨i, hi, _⟩ =>
      absurd (Stmt.mem_labelsOf.mpr (List.mem_of_getElem? hi)) List.not_mem_nil).2
  have hf : idleMachine.functions["_f"]? = some ⟨⟨"_f", 0, 0, 8, ⟨101⟩, ⟨102⟩⟩, .ofStmts []⟩ := by
    simp [idleMachine, Machine.addFunction]
  let b := Block.ofStmts remainderList
  let k := BlockContext.ret default 0 ∅ .done
  -- From the entry to the argument of the call, step by step.
  have hbefore : ∃ v temps s, Relation.ReflTransGen (Next idleMachine) ⟨.exec b 0 k, ∅, {}⟩
      ⟨.value v (.argument "_f" [4096] [] [] (.setTemp ⟨3⟩ b 2 k)), temps, s⟩ :=
    ⟨_, _, _, .head rfl (.head rfl (.head rfl (.head rfl (.head rfl (.single rfl)))))⟩
  -- The callee has no statements: it is entered and left at once.
  have hcall : ∀ v temps s, ∃ v' s', Relation.ReflTransGen (Next idleMachine)
      ⟨.value v (.argument "_f" [4096] [] [] (.setTemp ⟨3⟩ b 2 k)), temps, s⟩
      ⟨.value v' (.setTemp ⟨3⟩ b 2 k), temps, s'⟩ := by
    intro v temps s
    have henter : ∃ own s', Next idleMachine
        ⟨.value v (.argument "_f" [4096] [] [] (.setTemp ⟨3⟩ b 2 k)), temps, s⟩
        ⟨.exec (.ofStmts []) 0 (.ret ⟨"_f", 0, 0, 8, ⟨101⟩, ⟨102⟩⟩ s.sp temps (.setTemp ⟨3⟩ b 2 k)),
          own, s'⟩ := by
      have hroutine : Routine.ofLabel? "_f" = none := by decide
      simp [Next, Machine.step, valueStep, Machine.call, invoke, hroutine, hf]
    obtain ⟨own, s', henter⟩ := henter
    exact ⟨_, _, .head henter (.single rfl)⟩
  -- From the value of the call to the second operand of the remainder.
  have hbetween : ∀ v temps s, ∃ (x : Word) (temps' : Temps) (s' : State),
      Relation.ReflTransGen (Next idleMachine) ⟨.value v (.setTemp ⟨3⟩ b 2 k), temps, s⟩
      ⟨.value ((temps'.insert ⟨5⟩ 3).getD ⟨5⟩ 0) (.binApply .mod x (.setTemp ⟨6⟩ b 5 k)),
        temps'.insert ⟨5⟩ 3, s'⟩ := fun _ _ _ =>
    ⟨_, _, _, .head rfl (.head rfl (.head rfl (.head rfl (.head rfl (.head rfl (.head rfl (.head rfl
      (.head rfl (.head rfl (.head rfl (.single rfl)))))))))))⟩
  -- The divisor is 3, so the remainder is defined.
  have hmod : ∀ (x : Word) (temps : Temps) (s : State), ∃ r, Next idleMachine
      ⟨.value ((temps.insert ⟨5⟩ 3).getD ⟨5⟩ 0) (.binApply .mod x (.setTemp ⟨6⟩ b 5 k)),
        temps.insert ⟨5⟩ 3, s⟩
      ⟨.value r (.setTemp ⟨6⟩ b 5 k), temps.insert ⟨5⟩ 3, s⟩ := by
    intro x temps s
    simp [Next, Machine.step, valueStep, applyBinary]
  have hafter : ∀ r temps s, ∃ temps' s', Relation.ReflTransGen (Next idleMachine)
      ⟨.value r (.setTemp ⟨6⟩ b 5 k), temps, s⟩ ⟨.exec b 6 k, temps', s'⟩ := fun _ _ _ =>
    ⟨_, _, .head rfl (.head rfl (.head rfl (.single rfl)))⟩
  -- Put together, the parts lead from the entry to a jump out of the list.
  obtain ⟨v, temps, s, h₁⟩ := hbefore
  obtain ⟨v', s', h₂⟩ := hcall v temps s
  obtain ⟨x, temps', s', h₃⟩ := hbetween v' temps s'
  obtain ⟨r, h₄⟩ := hmod x temps' s'
  obtain ⟨temps'', s'', h₅⟩ := hafter r _ s'
  exact ⟨temps'', s'', default, 0, ∅, _, h₁.trans (h₂.trans (h₃.trans (.head h₄ h₅))), .jump rfl hout⟩

theorem selection_preserves_meaning_remainderOfCall :
    remainderOfCall.canonical.run.run ⟨1, 0⟩ = (.ok remainderList, ⟨6, 0⟩) ∧
    ∃ is σ' temps s, (Stmt.selectAll .register remainderList).run.run ⟨6, 0⟩ = (.ok is, σ') ∧
      Executes idleMachine remainderList ∅ {} (some "out") temps s ∧
      ∃ n store' s' r', (run (meaning idleMachine fun _ _ => 0) (overTemps Word World) is n
          ⟨.at 0, fun _ => 0, {}, 0⟩).2 = ⟨.left "out", store', s', r'⟩ ∧
        s.Alike s' ∧ ∀ t ∈ Stmt.tempsAll remainderList, store' t = temps.getD t 0 := by
  have hcanonical : remainderOfCall.canonical.run.run ⟨1, 0⟩ = (.ok remainderList, ⟨6, 0⟩) := rfl
  obtain ⟨hselects, hpreserves⟩ := selection_preserves_meaning idleMachine (fun _ _ => 0) .register
    hcanonical (by decide) (by decide) (by decide)
  have hregular : ∀ s ∈ remainderList, s.Regular := by
    simp [remainderList, moveInto, Stmt.Regular, Expr.Regular, Expr.RegularAll, BinOp.Known]
  obtain ⟨is, σ', his⟩ := hselects hregular
  obtain ⟨temps, s, hexecutes⟩ := executes_remainderList
  refine ⟨hcanonical, is, σ', temps, s, his, hexecutes, ?_⟩
  exact hpreserves is σ' his _ _ _ _ _ hexecutes (fun _ => 0) 0 (by simp)

end MmixBackend
