import MmixBackend.Proofs.Instr.Selection
import MmixBackend.Proofs.Machine.Blocks

/-!
# Runs that cannot go wrong

A machine is sound if everything its functions mention is there: the labels whose addresses they
take, the functions and routines that they call, the labels that they jump to inside expressions.
Whatever its memory holds, a run of a sound machine stops with a value, an exit code, a division by
zero, at the step limit or with the error of its reader.

## Main statements

- `Config.Runnable.step`: a transition of a runnable configuration leads to a runnable one or stops
  regularly.
- `Sound.callEnds_regular`: what follows for a call from the outside.
- `Expr.runnable_lower`: canonical code of a runnable tree is runnable.
-/

namespace MmixBackend

/-! ## §1 Runnable code -/

namespace IR

mutual

/-- Every label whose address the expression takes satisfies `names`, and every label that it calls
satisfies `callees`. -/
def Expr.Linked (names callees : Label → Prop) : Expr → Prop
  | .absent | .const _ | .temp _ => True
  | .name l => names l
  | .mem addr => addr.Linked names callees
  | .binop _ fst snd => fst.Linked names callees ∧ snd.Linked names callees
  | .unop _ arg => arg.Linked names callees
  | .call l _ args => callees l ∧ Expr.LinkedAll names callees args
  | .sexpr stmt value => stmt.Linked names callees ∧ value.Linked names callees

/-- The same for all expressions of a list. -/
def Expr.LinkedAll (names callees : Label → Prop) : List Expr → Prop
  | [] => True
  | e :: es => e.Linked names callees ∧ Expr.LinkedAll names callees es

/-- The same for a statement. -/
def Stmt.Linked (names callees : Label → Prop) : Stmt → Prop
  | .absent | .jump _ | .label _ => True
  | .eval e => e.Linked names callees
  | .move dst src => dst.Linked names callees ∧ src.Linked names callees
  | .cjump cond _ _ => cond.Linked names callees
  | .seq stmts => Stmt.LinkedAll names callees stmts

/-- The same for all statements of a list. -/
def Stmt.LinkedAll (names callees : Label → Prop) : List Stmt → Prop
  | [] => True
  | s :: ss => s.Linked names callees ∧ Stmt.LinkedAll names callees ss

end

mutual

/-- The expression can be evaluated: it is linked, nothing is missing, its operators are known, its
calls have an argument for every offset, moves go to temps and memory locations, and no jump leaves a
statement inside an expression. -/
def Expr.Runnable (names callees : Label → Prop) : Expr → Prop
  | .absent => False
  | .const _ | .temp _ => True
  | .name l => names l
  | .mem addr => addr.Runnable names callees
  | .binop op fst snd => op.Known ∧ fst.Runnable names callees ∧ snd.Runnable names callees
  | .unop _ arg => arg.Runnable names callees
  | .call l offs args =>
    (callees l ∧ offs.length ≤ args.length) ∧ Expr.RunnableAll names callees args
  | .sexpr stmt value => stmt.Runnable names callees ∧ stmt.Closed ∧ value.Runnable names callees

/-- The same for all expressions of a list. -/
def Expr.RunnableAll (names callees : Label → Prop) : List Expr → Prop
  | [] => True
  | e :: es => e.Runnable names callees ∧ Expr.RunnableAll names callees es

/-- The same for a statement. -/
def Stmt.Runnable (names callees : Label → Prop) : Stmt → Prop
  | .absent => False
  | .eval e => e.Runnable names callees
  | .move (.temp _) src => src.Runnable names callees
  | .move (.mem addr) src => addr.Runnable names callees ∧ src.Runnable names callees
  | .move _ _ => False
  | .cjump cond _ _ => cond.Runnable names callees
  | .jump _ | .label _ => True
  | .seq stmts => Stmt.RunnableAll names callees stmts

/-- The same for all statements of a list. -/
def Stmt.RunnableAll (names callees : Label → Prop) : List Stmt → Prop
  | [] => True
  | s :: ss => s.Runnable names callees ∧ Stmt.RunnableAll names callees ss

end

variable {names callees : Label → Prop}

theorem Stmt.linkedAll_iff {ss : List Stmt} :
    Stmt.LinkedAll names callees ss ↔ ∀ s ∈ ss, s.Linked names callees := by
  induction ss with
  | nil => simp [Stmt.LinkedAll]
  | cons s ss ih => simp [Stmt.LinkedAll, ih]

theorem Stmt.runnableAll_iff {ss : List Stmt} :
    Stmt.RunnableAll names callees ss ↔ ∀ s ∈ ss, s.Runnable names callees := by
  induction ss with
  | nil => simp [Stmt.RunnableAll]
  | cons s ss ih => simp [Stmt.RunnableAll, ih]

mutual

theorem Expr.runnable_of_linked {n : Int} : ∀ {e : Expr}, e.Shaped → e.Usable n →
    e.Linked names callees → e.Runnable names callees
  | .absent, h, _, _ => h.elim
  | .const _, _, _, _ | .temp _, _, _, _ => trivial
  | .name _, _, _, h => h
  | .mem addr, h, hu, hl => Expr.runnable_of_linked (e := addr) h hu hl
  | .binop _ _ _, h, hu, hl =>
    ⟨hu.1, Expr.runnable_of_linked h.1 hu.2.1 hl.1, Expr.runnable_of_linked h.2 hu.2.2 hl.2⟩
  | .unop _ arg, h, hu, hl => Expr.runnable_of_linked (e := arg) h hu.2 hl
  | .call _ _ _, h, hu, hl =>
    ⟨⟨hl.1, Nat.le_of_eq h.1⟩, Expr.runnableAll_of_linked h.2 hu hl.2⟩
  | .sexpr _ _, h, hu, hl =>
    ⟨Stmt.runnable_of_linked h.1 hu.1 hl.1, h.2.1, Expr.runnable_of_linked h.2.2 hu.2 hl.2⟩

theorem Expr.runnableAll_of_linked {n : Int} : ∀ {es : List Expr}, Expr.ShapedAll es →
    Expr.UsableAll n es → Expr.LinkedAll names callees es → Expr.RunnableAll names callees es
  | [], _, _, _ => trivial
  | _ :: _, h, hu, hl =>
    ⟨Expr.runnable_of_linked h.1 hu.1 hl.1, Expr.runnableAll_of_linked h.2 hu.2 hl.2⟩

theorem Stmt.runnable_of_linked {n : Int} : ∀ {s : Stmt}, s.Shaped → s.Usable n →
    s.Linked names callees → s.Runnable names callees
  | .absent, h, _, _ => h.elim
  | .jump _, _, _, _ | .label _, _, _, _ => trivial
  | .eval e, h, hu, hl => Expr.runnable_of_linked (e := e) h hu hl
  | .cjump cond _ _, h, hu, hl => Expr.runnable_of_linked (e := cond) h hu hl
  | .move (.temp _) src, h, hu, hl => Expr.runnable_of_linked (e := src) h hu.2 hl.2
  | .move (.mem addr) src, h, hu, hl =>
    ⟨Expr.runnable_of_linked (e := addr) h.1 hu.1 hl.1, Expr.runnable_of_linked (e := src) h.2 hu.2 hl.2⟩
  | .move .absent _, h, _, _ | .move (.const _) _, h, _, _ | .move (.name _) _, h, _, _
  | .move (.binop _ _ _) _, h, _, _ | .move (.unop _ _) _, h, _, _ | .move (.call _ _ _) _, h, _, _
  | .move (.sexpr _ _) _, h, _, _ => h.elim
  | .seq _, h, hu, hl => by
    unfold Stmt.Runnable
    exact Stmt.runnableAll_of_linked h hu hl

theorem Stmt.runnableAll_of_linked {n : Int} : ∀ {ss : List Stmt}, Stmt.ShapedAll ss →
    Stmt.UsableAll n ss → Stmt.LinkedAll names callees ss → Stmt.RunnableAll names callees ss
  | [], _, _, _ => trivial
  | _ :: _, h, hu, hl =>
    ⟨Stmt.runnable_of_linked h.1 hu.1 hl.1, Stmt.runnableAll_of_linked h.2 hu.2 hl.2⟩

end

mutual

/-- A flattened statement consists of runnable statements. -/
theorem Stmt.Runnable.flatten : ∀ {s : Stmt}, s.Runnable names callees →
    ∀ s' ∈ s.flatten, s'.Runnable names callees
  | .absent, h => h.elim
  | .jump _, h | .label _, h | .eval _, h | .cjump _ _ _, h | .move _ _, h => fun _ hs =>
    List.mem_singleton.mp hs ▸ h
  | .seq _, h => Stmt.RunnableAll.flattenAll h

theorem Stmt.RunnableAll.flattenAll : ∀ {ss : List Stmt}, Stmt.RunnableAll names callees ss →
    ∀ s' ∈ Stmt.flattenAll ss, s'.Runnable names callees
  | [], _ => fun _ hs => (List.not_mem_nil hs).elim
  | _ :: _, h => fun s' hs => (List.mem_append.mp hs).elim (Stmt.Runnable.flatten h.1 s')
    (Stmt.RunnableAll.flattenAll h.2 s')

end

theorem Expr.runnableAll_temps (ts : List Temp) :
    Expr.RunnableAll names callees (ts.map .temp) := by
  induction ts with
  | nil => trivial
  | cons t ts ih => exact ⟨trivial, ih⟩

theorem runnable_moveInto {e : Expr} (h : e.Runnable names callees) (n : Int) :
    (moveInto n e).Runnable names callees := h

theorem Stmt.runnable_append {ss ss' : List Stmt} (h : ∀ s ∈ ss, s.Runnable names callees)
    (h' : ∀ s ∈ ss', s.Runnable names callees) : ∀ s ∈ ss ++ ss', s.Runnable names callees :=
  List.forall_mem_append.mpr ⟨h, h'⟩

theorem Stmt.runnable_cons {s : Stmt} {ss : List Stmt} (h : s.Runnable names callees)
    (h' : ∀ s ∈ ss, s.Runnable names callees) : ∀ s' ∈ s :: ss, s'.Runnable names callees :=
  List.forall_mem_cons.mpr ⟨h, h'⟩

theorem Stmt.runnable_nil : ∀ s ∈ ([] : List Stmt), s.Runnable names callees :=
  fun _ h => (List.not_mem_nil h).elim

mutual

/-- **Canonical code of a runnable expression is runnable.** -/
theorem Expr.runnable_lower : ∀ {e : Expr}, e.Runnable names callees → ∀ n,
    (∀ s ∈ (e.lower n).stmts, s.Runnable names callees) ∧ (e.lower n).value.Runnable names callees
  | .absent, h, _ => h.elim
  | .const _, h, _ | .temp _, h, _ | .name _, h, _ => ⟨Stmt.runnable_nil, h⟩
  | .mem addr, h, n => Expr.runnable_lower (e := addr) h n
  | .unop _ arg, h, n => Expr.runnable_lower (e := arg) h n
  | .binop op fst snd, h, n => by
    obtain ⟨hfst, hvalue₁⟩ := Expr.runnable_lower h.2.1 n
    obtain ⟨hsnd, hvalue₂⟩ := Expr.runnable_lower h.2.2 ((fst.lower n).next + 1)
    have hop : (Expr.binop op (.temp ⟨(fst.lower n).next + 1⟩)
        (.temp ⟨(snd.lower ((fst.lower n).next + 1)).next + 1⟩)).Runnable names callees :=
      ⟨h.1, trivial, trivial⟩
    refine ⟨Stmt.runnable_append hfst (Stmt.runnable_cons (runnable_moveInto hvalue₁ _)
      (Stmt.runnable_append hsnd ?_)), trivial⟩
    exact Stmt.runnable_cons (runnable_moveInto hvalue₂ _)
      (Stmt.runnable_cons (runnable_moveInto hop _) Stmt.runnable_nil)
  | .call l offs args, h, n => by
    have hargs : offs.length ≤ ((Expr.lowerArgs args n).temps.map Expr.temp).length := by
      rw [List.length_map, Expr.length_lowerArgs]
      exact h.1.2
    have hcall : (Expr.call l offs ((Expr.lowerArgs args n).temps.map .temp)).Runnable names callees :=
      ⟨⟨h.1.1, hargs⟩, Expr.runnableAll_temps _⟩
    exact ⟨Stmt.runnable_append (Expr.runnable_lowerArgs h.2 n)
      (Stmt.runnable_cons (runnable_moveInto hcall _) Stmt.runnable_nil), trivial⟩
  | .sexpr stmt _, h, n => by
    obtain ⟨hvalue, hlast⟩ := Expr.runnable_lower h.2.2 (stmt.lower n).next
    exact ⟨Stmt.runnable_append (Stmt.runnable_lower h.1 n) hvalue, hlast⟩

theorem Expr.runnable_lowerArgs : ∀ {es : List Expr}, Expr.RunnableAll names callees es → ∀ n,
    ∀ s ∈ (Expr.lowerArgs es n).stmts, s.Runnable names callees
  | [], _, _ => Stmt.runnable_nil
  | e :: es, h, n => by
    obtain ⟨harg, hvalue⟩ := Expr.runnable_lower h.1 n
    exact Stmt.runnable_append harg
      (Stmt.runnable_cons (runnable_moveInto hvalue _) (Expr.runnable_lowerArgs h.2 _))

/-- The same for a statement. -/
theorem Stmt.runnable_lower : ∀ {s : Stmt}, s.Runnable names callees → ∀ n,
    ∀ s' ∈ (s.lower n).stmts, s'.Runnable names callees
  | .absent, h, _ => h.elim
  | .jump _, _, _ | .label _, _, _ => Stmt.runnable_cons trivial Stmt.runnable_nil
  | .eval e, h, n => by
    obtain ⟨hbefore, hvalue⟩ := Expr.runnable_lower (e := e) h n
    exact Stmt.runnable_append hbefore (Stmt.runnable_cons hvalue Stmt.runnable_nil)
  | .cjump cond _ _, h, n => by
    obtain ⟨hbefore, hvalue⟩ := Expr.runnable_lower (e := cond) h n
    exact Stmt.runnable_append hbefore (Stmt.runnable_cons hvalue Stmt.runnable_nil)
  | .move (.mem addr) src, h, n => by
    obtain ⟨hbefore₁, hvalue₁⟩ := Expr.runnable_lower h.1 n
    obtain ⟨hbefore₂, hvalue₂⟩ := Expr.runnable_lower h.2 ((addr.lower n).next + 1)
    exact Stmt.runnable_append hbefore₁ (Stmt.runnable_cons (runnable_moveInto hvalue₁ _)
      (Stmt.runnable_append hbefore₂ (Stmt.runnable_cons ⟨trivial, hvalue₂⟩ Stmt.runnable_nil)))
  | .move (.temp _) src, h, n => by
    obtain ⟨hbefore, hvalue⟩ := Expr.runnable_lower (e := src) h n
    exact Stmt.runnable_append hbefore (Stmt.runnable_cons hvalue Stmt.runnable_nil)
  | .move .absent _, h, _ | .move (.const _) _, h, _ | .move (.name _) _, h, _
  | .move (.binop _ _ _) _, h, _ | .move (.unop _ _) _, h, _ | .move (.call _ _ _) _, h, _
  | .move (.sexpr _ _) _, h, _ => h.elim
  | .seq _, h, n => by
    unfold Stmt.Runnable at h
    exact Stmt.runnable_lowerAll h n

theorem Stmt.runnable_lowerAll : ∀ {ss : List Stmt}, Stmt.RunnableAll names callees ss → ∀ n,
    ∀ s ∈ (Stmt.lowerAll ss n).stmts, s.Runnable names callees
  | [], _, _ => Stmt.runnable_nil
  | _ :: _, h, n => Stmt.runnable_append (Stmt.runnable_lower h.1 n) (Stmt.runnable_lowerAll h.2 _)

end

end IR

namespace Machine

open IR Relation

/-! ## §2 Runnable configurations -/

variable {m : Machine}

/-- The label is that of static data. -/
def HasData (m : Machine) (l : Label) : Prop := (m.labels[l]?).isSome

/-- The label is that of a routine or a function. -/
def HasCallee (m : Machine) (l : Label) : Prop :=
  (Routine.ofLabel? l).isSome ∨ (m.functions[l]?).isSome

/-- The statements of a block can be executed. -/
def Block.Runnable (m : Machine) (b : Block) : Prop :=
  ∀ (pc : Nat) s, b.stmts[pc]? = some s → s.Runnable m.HasData m.HasCallee ∧ ∀ ss, s ≠ .seq ss

/-- A jump to the label is possible: the block has it, or it is the body of a function. -/
def BlockContext.Allows (b : Block) (l : Label) : BlockContext → Prop
  | .value _ _ => (b.labels[l]?).isSome
  | .ret .. => True

/-- All jumps of the block are possible. -/
def BlockContext.AllowsAll (b : Block) (k : BlockContext) : Prop :=
  ∀ (pc : Nat) s, b.stmts[pc]? = some s → ∀ l ∈ Stmt.targetsOf [s], k.Allows b l

mutual

/-- A value can be passed to the context. -/
def ValueContext.Runnable (m : Machine) : ValueContext → Prop
  | .done => True
  | .readMem k | .unApply _ k => k.Runnable m
  | .binSecond op snd k => op.Known ∧ snd.Runnable m.HasData m.HasCallee ∧ k.Runnable m
  | .binApply op _ k => op.Known ∧ k.Runnable m
  | .argument l offs ready rest k =>
    (m.HasCallee l ∧ offs.length ≤ ready.length + (rest.length + 1)) ∧
      Expr.RunnableAll m.HasData m.HasCallee rest ∧ k.Runnable m
  | .drop b _ k | .setTemp _ b _ k | .storeValue _ b _ k =>
    b.Runnable m ∧ k.AllowsAll b ∧ k.Runnable m
  | .storeAddress src b _ k =>
    src.Runnable m.HasData m.HasCallee ∧ b.Runnable m ∧ k.AllowsAll b ∧ k.Runnable m
  | .branch pos neg b k => k.Allows b pos ∧ k.Allows b neg ∧ b.Runnable m ∧ k.AllowsAll b ∧ k.Runnable m

/-- The run can go on behind the end of a block. -/
def BlockContext.Runnable (m : Machine) : BlockContext → Prop
  | .value e k => e.Runnable m.HasData m.HasCallee ∧ k.Runnable m
  | .ret _ _ _ k => k.Runnable m

end

/-- A configuration from which a run cannot go wrong. -/
def Config.Runnable (m : Machine) (c : Config) : Prop :=
  match c.control with
  | .eval e k => e.Runnable m.HasData m.HasCallee ∧ k.Runnable m
  | .value _ k => k.Runnable m
  | .exec b _ k => b.Runnable m ∧ k.AllowsAll b ∧ k.Runnable m

/-- The error that the reader reports behind its bytes. -/
def State.readerFault? (s : State) : Option String := s.input.bind ByteReader.fault

/-- An ending that is no defect of the program as it has been loaded, on a machine with this error
of the reader. -/
def Ending.Regular (limit : Int) (fault? : Option String) (e : Ending) : Prop :=
  (∃ v, e = .value v) ∨ (∃ code, e = .exit code) ∨ e = .error .divisionByZero ∨
    e = .error (.stepLimit limit) ∨ ∃ fault, fault? = some fault ∧ e = .error (.reader fault)

/-- A transition to a runnable configuration, which has the reader report the same error, or to a
regular ending. -/
def Transition.Regular (m : Machine) (fault? : Option String) : Transition → Prop
  | .next c => c.Runnable m ∧ c.state.readerFault? = fault?
  | .stop e _ => e.Regular m.limit fault?

/-- Everything that the loaded functions mention is there. -/
def Sound (m : Machine) : Prop :=
  ∀ (l : Label) f, m.functions[l]? = some f → f.body.Runnable m

/-! ## §3 Transitions -/

variable {temps : Temps} {s : State}

/-- A routine gives a value or an exit code, or it reports the error of the reader. -/
theorem Routine.run_regular (r : Routine) (s : State) :
    (∃ v s', r.run s = (.value v, s') ∧ s'.readerFault? = s.readerFault?) ∨
      (∃ code s', r.run s = (.exit code, s')) ∨
      ∃ fault s', s.readerFault? = some fault ∧ r.run s = (.error (.reader fault), s') := by
  cases r with
  | new | del => exact .inl ⟨_, _, rfl, rfl⟩
  | putChar =>
    refine .inl ?_
    simp only [Routine.run]
    split <;> exact ⟨_, _, rfl, rfl⟩
  | getChar =>
    simp only [Routine.run]
    split
    -- Taking a byte leaves the error behind the other ones.
    · next hinput => exact .inl ⟨_, _, rfl, by simp [State.readerFault?, hinput]⟩
    · next hinput => exact .inr (.inr ⟨_, _, by simp [State.readerFault?, hinput], rfl⟩)
    · exact .inl ⟨_, _, rfl, rfl⟩
    · exact .inl ⟨_, _, rfl, rfl⟩
  | exit => exact .inr (.inl ⟨_, _, rfl⟩)

theorem Sound.call (hm : m.Sound) {l : Label} (hl : m.HasCallee l) {offs args : List Word}
    (hargs : offs.length ≤ args.length) {k : ValueContext} (hk : k.Runnable m) (temps : Temps)
    (s : State) : (call m l offs args k temps s).Regular m s.readerFault? := by
  rw [call_eq_invoke hargs, invoke]
  split
  · next r hr =>
    rcases r.run_regular { s with memory := s.memory.writeAt s.sp offs args } with
      ⟨v, s', hrun, hreader⟩ | ⟨code, s', hrun⟩ | ⟨fault, s', hreader, hrun⟩
    · rw [hrun]
      exact ⟨hk, hreader⟩
    · rw [hrun]
      exact .inr (.inl ⟨code, rfl⟩)
    · rw [hrun]
      exact .inr (.inr (.inr (.inr ⟨fault, hreader, rfl⟩)))
  · next hr =>
    rcases hl with hl | hl
    · rw [hr] at hl
      cases hl
    · obtain ⟨f, hf⟩ := Option.isSome_iff_exists.mp hl
      rw [hf]
      exact ⟨⟨hm l f hf, fun _ _ _ _ _ => trivial, hk⟩, rfl⟩

theorem endBlock_regular {k : BlockContext} (hk : k.Runnable m) (temps : Temps) (s : State) :
    (endBlock temps s k).Regular m s.readerFault? := by
  cases k with
  | value e k => exact ⟨hk, rfl⟩
  | ret frame fp callerTemps k => exact ⟨hk, rfl⟩

theorem jump_regular {l : Label} {b : Block} {k : BlockContext} (hb : b.Runnable m) (hall : k.AllowsAll b)
    (hk : k.Runnable m) (hl : k.Allows b l) (temps : Temps) (s : State) :
    (jump l b k temps s).Regular m s.readerFault? := by
  unfold jump
  split
  · exact ⟨⟨hb, hall, hk⟩, rfl⟩
  · next hnone =>
    cases k with
    | value e k =>
      rw [BlockContext.Allows, hnone] at hl
      cases hl
    | ret frame fp callerTemps k => exact endBlock_regular hk temps s

/-- The block of a statement that is closed and runnable. -/
theorem Block.runnable_ofStmts {stmts : List Stmt}
    (h : ∀ s ∈ Stmt.flattenAll stmts, s.Runnable m.HasData m.HasCallee) :
    (Block.ofStmts stmts).Runnable m := by
  intro pc s hs
  rw [Block.getElem?_ofStmts] at hs
  have hmem := List.mem_of_getElem? hs
  exact ⟨h s hmem, Stmt.ne_seq_of_mem_flattenAll stmts s hmem⟩

theorem allowsAll_ofStmt {stmt : Stmt} (h : stmt.Closed) (e : Expr) (k : ValueContext) :
    (BlockContext.value e k).AllowsAll (.ofStmts [stmt]) := by
  intro pc s hs l hl
  rw [Block.getElem?_ofStmts, Stmt.flattenAll, Stmt.flattenAll, List.append_nil] at hs
  have htarget : l ∈ Stmt.targetsOf stmt.flatten := by
    rw [Stmt.targetsOf, List.mem_flatMap] at hl ⊢
    obtain ⟨s', hs', hl⟩ := hl
    rw [List.mem_singleton.mp hs'] at hl
    exact ⟨s, List.mem_of_getElem? hs, hl⟩
  have hlabel := Stmt.mem_labelsOf.mp (h l htarget)
  -- A label that the statement defines is found in its block.
  rcases Block.labels_ofStmts [stmt] l with ⟨i, -, hi⟩ | ⟨hnot, -⟩
  · rw [BlockContext.Allows, hi]
    rfl
  · rw [Stmt.flattenAll, Stmt.flattenAll, List.append_nil] at hnot
    exact absurd hlabel hnot

theorem Sound.evalStep (hm : m.Sound) {e : Expr} {k : ValueContext}
    (he : e.Runnable m.HasData m.HasCallee) (hk : k.Runnable m) (temps : Temps) (s : State) :
    (evalStep m e k temps s).Regular m s.readerFault? := by
  cases e with
  | absent => exact he.elim
  | const v => exact ⟨hk, rfl⟩
  | temp t => exact ⟨hk, rfl⟩
  | mem addr => exact ⟨⟨he, hk⟩, rfl⟩
  | name l =>
    obtain ⟨addr, haddr⟩ := Option.isSome_iff_exists.mp he
    simp only [Machine.evalStep, haddr]
    exact ⟨hk, rfl⟩
  | binop op fst snd => exact ⟨⟨he.2.1, he.1, he.2.2, hk⟩, rfl⟩
  | unop op arg => exact ⟨⟨he, hk⟩, rfl⟩
  | call l offs args =>
    cases args with
    | nil => exact hm.call he.1.1 he.1.2 hk temps s
    | cons arg args =>
      have hargs : offs.length ≤ ([] : List Word).length + (args.length + 1) :=
        (Nat.zero_add (args.length + 1)).symm ▸ he.1.2
      exact ⟨⟨he.2.1, ⟨he.1.1, hargs⟩, he.2.2, hk⟩, rfl⟩
  | sexpr stmt value =>
    refine ⟨⟨Block.runnable_ofStmts fun s hs => ?_, allowsAll_ofStmt he.2.1 value k, he.2.2, hk⟩, rfl⟩
    rw [Stmt.flattenAll, Stmt.flattenAll, List.append_nil] at hs
    exact he.1.flatten s hs

/-- A known operator fails only where it divides by zero. -/
theorem applyBinary_regular {op : BinOp} (hop : op.Known) (x y : Word) :
    (∃ v, applyBinary op x y = .ok v) ∨ applyBinary op x y = .error .divisionByZero := by
  cases op with
  | unknown code => exact hop.elim
  | div | mod =>
    simp only [applyBinary]
    split
    · exact .inr rfl
    · exact .inl ⟨_, rfl⟩
  | _ => exact .inl ⟨_, rfl⟩

theorem Sound.valueStep (hm : m.Sound) (v : Word) {k : ValueContext} (hk : k.Runnable m) (temps : Temps)
    (s : State) : (valueStep m v k temps s).Regular m s.readerFault? := by
  cases k with
  | done => exact .inl ⟨v, rfl⟩
  | readMem k | unApply op k => exact ⟨hk, rfl⟩
  | binSecond op snd k => exact ⟨⟨hk.2.1, hk.1, hk.2.2⟩, rfl⟩
  | binApply op fst k =>
    rcases applyBinary_regular hk.1 fst v with ⟨r, hr⟩ | herror
    · simp only [Machine.valueStep, hr]
      exact ⟨hk.2, rfl⟩
    · simp only [Machine.valueStep, herror]
      exact .inr (.inr (.inl rfl))
  | argument l offs ready rest k =>
    -- The value that is passed becomes one of the arguments that are ready.
    have hargs : offs.length ≤ (v :: ready).length + rest.length := by
      rw [List.length_cons, Nat.add_right_comm]
      exact hk.1.2
    cases rest with
    | nil => exact hm.call hk.1.1 (by rwa [List.length_reverse]) hk.2.2 temps s
    | cons e es => exact ⟨⟨hk.2.1.1, ⟨hk.1.1, hargs⟩, hk.2.1.2, hk.2.2⟩, rfl⟩
  | drop b pc k | setTemp t b pc k | storeValue addr b pc k => exact ⟨hk, rfl⟩
  | storeAddress src b pc k => exact ⟨hk, rfl⟩
  | branch pos neg b k =>
    simp only [Machine.valueStep]
    split
    · exact jump_regular hk.2.2.1 hk.2.2.2.1 hk.2.2.2.2 hk.1 temps s
    · exact jump_regular hk.2.2.1 hk.2.2.2.1 hk.2.2.2.2 hk.2.1 temps s

theorem execStep_regular {b : Block} {k : BlockContext} (hb : b.Runnable m) (hall : k.AllowsAll b)
    (hk : k.Runnable m) (pc : Nat) (temps : Temps) (s : State) :
    (execStep m b pc k temps s).Regular m s.readerFault? := by
  rw [execStep]
  split
  · exact endBlock_regular hk temps s
  · next stmt hstmt =>
    obtain ⟨hrun, hseq⟩ := hb pc stmt hstmt
    have htargets := hall pc stmt hstmt
    dsimp only
    split
    -- The limit is one of the endings that are allowed.
    · exact .inr (.inr (.inr (.inl rfl)))
    · cases stmt with
      | absent => exact hrun.elim
      | seq ss => exact absurd rfl (hseq ss)
      | label l => exact ⟨⟨hb, hall, hk⟩, rfl⟩
      | eval e => exact ⟨⟨hrun, hb, hall, hk⟩, rfl⟩
      | jump l => exact jump_regular hb hall hk (htargets l (by simp [Stmt.targetsOf])) temps _
      | cjump cond pos neg =>
        exact ⟨⟨hrun, htargets pos (by simp [Stmt.targetsOf]), htargets neg
          (by simp [Stmt.targetsOf]), hb,
          hall, hk⟩, rfl⟩
      | move dst src =>
        cases dst with
        | temp t => exact ⟨⟨hrun, hb, hall, hk⟩, rfl⟩
        | mem addr => exact ⟨⟨hrun.1, hrun.2, hb, hall, hk⟩, rfl⟩
        | _ => exact hrun.elim

/-- **A transition from a runnable configuration** leads to a runnable one or stops regularly. -/
theorem Config.Runnable.step (hm : m.Sound) {c : Config} (hc : c.Runnable m) :
    (step m c).Regular m c.state.readerFault? := by
  obtain ⟨control, temps, s⟩ := c
  cases control with
  | eval e k => exact hm.evalStep hc.1 hc.2 temps s
  | value v k => exact hm.valueStep v hc temps s
  | exec b pc k => exact execStep_regular hc.1 hc.2.1 hc.2.2 pc temps s

/-! ## §4 Runs -/

/-- **A run from a runnable configuration** ends regularly: by induction on its transitions. -/
theorem Config.Runnable.halts_regular (hm : m.Sound) {c : Config} (hc : c.Runnable m) {e : Ending}
    (h : Halts m c e s) : e.Regular m.limit c.state.readerFault? := by
  obtain ⟨fuel, hrun⟩ := h
  induction fuel generalizing c with
  | zero => cases hrun
  | succ fuel ih =>
    have hstep := hc.step hm
    rw [runFor] at hrun
    split at hrun
    · next c' hnext =>
      rw [hnext] at hstep
      obtain ⟨hc', hreader⟩ := hstep
      exact hreader ▸ ih hc' hrun
    · next e' s' hstop =>
      rw [hstop] at hstep
      cases hrun
      exact hstep

/-- **A call on a sound machine ends regularly.** -/
theorem Sound.callEnds_regular (hm : m.Sound) {l : Label} (hl : m.HasCallee l) {offs args : List Word}
    (hargs : offs.length ≤ args.length) {e : Ending} (h : CallEnds m l offs args e s) :
    e.Regular m.limit m.state.readerFault? := by
  have hcall := hm.call hl hargs (k := .done) trivial ∅ m.state
  rw [CallEnds] at h
  split at h
  · next e' s' hstop =>
    rw [hstop] at hcall
    obtain ⟨rfl, -⟩ := h
    exact hcall
  · next c hnext =>
    rw [hnext] at hcall
    obtain ⟨hc, hreader⟩ := hcall
    exact hreader ▸ Config.Runnable.halts_regular hm hc h

end Machine

end MmixBackend
