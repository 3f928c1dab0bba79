import MmixBackend.Proofs.IR.Lowering
import MmixBackend.Proofs.Machine.Runs

/-!
# The step limit

With a step limit every run ends. Between two statements that are counted only expressions are
evaluated and contexts are left, and every such transition takes something away from what is still
to be done. A statement brings new work, but no more than its nodes account for, and there are only
so many statements to count.

A run that has not come to the limit does not know about it: it is the same with every other limit
that it does not exceed, and without one.

## Main definitions

- `Control.pending`: the transitions up to the next statement or the end.
- `Control.Fits`: a bound on the nodes of everything that is still to be evaluated or executed.

## Main statements

- `steps_step`, `lowers_step`: a transition counts a statement, or it lowers what is pending.
- `runFor_ends`: a run with a limit ends.
- `step_withLimit`, `runFor_withLimit`: transitions and runs under another limit.
- `callAt_limited`: what the limit does to a call, and what it does not.
-/

namespace MmixBackend

namespace IR

/-! ## §1 Evaluating expressions -/

mutual

/-- The transitions from an expression to its value, statements in it apart. -/
def Expr.moves : Expr → Nat
  | .absent | .const _ | .temp _ | .name _ => 1
  | .mem addr => addr.moves + 2
  | .binop _ fst snd => fst.moves + snd.moves + 3
  | .unop _ arg => arg.moves + 2
  | .call _ _ args => Expr.movesAll args + 2
  | .sexpr _ value => value.moves + 2

/-- The same for arguments, each of which is put to those before it. -/
def Expr.movesAll : List Expr → Nat
  | [] => 0
  | e :: es => e.moves + 1 + Expr.movesAll es

end

mutual

theorem Expr.moves_lt : ∀ e : Expr, e.moves < 4 * e.weight
  | .absent | .const _ | .temp _ | .name _ => by simp [Expr.moves, Expr.weight]
  | .mem e | .unop _ e => by
    have := e.moves_lt
    rw [Expr.moves, Expr.weight]
    omega
  | .sexpr s e => by
    have := e.moves_lt
    rw [Expr.moves, Expr.weight]
    omega
  | .binop _ fst snd => by
    have := fst.moves_lt
    have := snd.moves_lt
    rw [Expr.moves, Expr.weight]
    omega
  | .call _ _ args => by
    have := Expr.movesAll_le args
    rw [Expr.moves, Expr.weight]
    omega

theorem Expr.movesAll_le : ∀ es : List Expr, Expr.movesAll es ≤ 4 * Expr.weightAll es
  | [] => Nat.le_refl 0
  | e :: es => by
    have := e.moves_lt
    have := Expr.movesAll_le es
    rw [Expr.movesAll, Expr.weightAll]
    omega

end

theorem Stmt.weight_le_of_mem {s : Stmt} {ss : List Stmt} (h : s ∈ ss) :
    s.weight ≤ Stmt.weightAll ss := by
  induction ss with
  | nil => cases h
  | cons s' ss ih =>
    rw [Stmt.weightAll]
    rcases List.mem_cons.mp h with rfl | h
    · exact Nat.le_add_right _ _
    · exact Nat.le_trans (ih h) (Nat.le_add_left _ _)

end IR

namespace Machine

open IR

variable {m : Machine} {w : Nat}

/-! ## §2 What is pending -/

mutual

/-- The transitions from a value to the next statement or the end. -/
def ValueContext.pending : ValueContext → Nat
  | .done => 0
  | .readMem k | .binApply _ _ k | .unApply _ k => k.pending + 1
  | .binSecond _ snd k => snd.moves + k.pending + 2
  | .argument _ _ _ rest k => Expr.movesAll rest + k.pending + 2
  | .drop _ _ k | .setTemp _ _ _ k | .storeValue _ _ _ k | .branch _ _ _ k => k.pending + 2
  | .storeAddress src _ _ k => src.moves + k.pending + 3

/-- The transitions from the end of a block to the next statement or the end. -/
def BlockContext.pending : BlockContext → Nat
  | .value e k => e.moves + k.pending
  | .ret _ _ _ k => k.pending

end

/-- The transitions up to the next statement or the end. -/
def Control.pending : Control → Nat
  | .eval e k => e.moves + k.pending
  | .value _ k => k.pending
  | .exec _ _ k => k.pending + 1

/-- No statement of the block has more than `w` nodes. -/
def Block.Fits (w : Nat) (b : Block) : Prop := ∀ s ∈ b.stmts, s.weight ≤ w

mutual

/-- No expression and no statement in the context has more than `w` nodes. -/
def ValueContext.Fits (w : Nat) : ValueContext → Prop
  | .done => True
  | .readMem k | .binApply _ _ k | .unApply _ k => k.Fits w
  | .binSecond _ snd k => snd.weight ≤ w ∧ k.Fits w
  | .argument _ _ _ rest k => Expr.weightAll rest ≤ w ∧ k.Fits w
  | .drop b _ k | .setTemp _ b _ k | .storeValue _ b _ k | .branch _ _ b k => b.Fits w ∧ k.Fits w
  | .storeAddress src b _ k => src.weight ≤ w ∧ b.Fits w ∧ k.Fits w

/-- The same for the context of a block. -/
def BlockContext.Fits (w : Nat) : BlockContext → Prop
  | .value e k => e.weight ≤ w ∧ k.Fits w
  | .ret _ _ _ k => k.Fits w

end

/-- The same for what a configuration does next. -/
def Control.Fits (w : Nat) : Control → Prop
  | .eval e k => e.weight ≤ w ∧ k.Fits w
  | .value _ k => k.Fits w
  | .exec b _ k => b.Fits w ∧ k.Fits w

/-- The bodies of the functions have no statements with more than `w` nodes. -/
def FunctionsFit (m : Machine) (w : Nat) : Prop := ∀ (l : Label) f, m.functions[l]? = some f →
    f.body.Fits w

/-- The block of a statement inside an expression. -/
theorem Block.fits_ofStmts {s : Stmt} (h : s.weight ≤ w) : (Block.ofStmts [s]).Fits w := by
  intro s' hs'
  have hmem : s' ∈ Stmt.flattenAll [s] := by simpa [Block.ofStmts] using hs'
  have hle := Stmt.weight_le_of_mem_flattenAll [s] s' hmem
  rw [Stmt.weightAll, Stmt.weightAll] at hle
  omega

theorem le_foldl_max {α : Type} (f : α → Nat) (xs : List α) (n : Nat) :
    n ≤ xs.foldl (fun w x => max w (f x)) n ∧ ∀ x ∈ xs, f x ≤ xs.foldl (fun w x => max w (f x)) n := by
  induction xs generalizing n with
  | nil => exact ⟨Nat.le_refl n, List.forall_mem_nil _⟩
  | cons x xs ih =>
    obtain ⟨hle, hall⟩ := ih (max n (f x))
    refine ⟨Nat.le_trans (Nat.le_max_left _ _) hle, List.forall_mem_cons.mpr ⟨?_, hall⟩⟩
    exact Nat.le_trans (Nat.le_max_right _ _) hle

theorem functionsFit_maxWeight (m : Machine) : m.FunctionsFit m.maxWeight := by
  intro l f hf s hs
  have hmem : (l, f) ∈ m.functions.toList := Std.HashMap.mem_toList_iff_getElem?_eq_some.mpr hf
  have hle := (le_foldl_max (fun entry : Label × Function => Stmt.weightAll entry.2.body.stmts.toList)
    m.functions.toList 0).2 _ hmem
  rw [maxWeight, Std.HashMap.fold_eq_foldl_toList]
  exact Nat.le_trans (Stmt.weight_le_of_mem (Array.mem_toList_iff.mpr hs)) hle

/-! ## §3 Transitions -/

/-- The state behind a transition. -/
def Transition.state : Transition → State
  | .next c => c.state
  | .stop _ s => s

/-- If the run goes on, then with less than `bound` pending. -/
def Transition.Lowers (w bound : Nat) : Transition → Prop
  | .next c => c.control.Fits w ∧ c.control.pending < bound
  | .stop _ _ => True

/-- What a statement does once it has been counted. -/
def enter (stmt : Stmt) (block : Block) (pc : Nat) (k : BlockContext) (temps : Temps) (s : State) :
    Transition :=
  match stmt with
  | .label _ => .next ⟨.exec block (pc + 1) k, temps, s⟩
  | .eval e => .next ⟨.eval e (.drop block (pc + 1) k), temps, s⟩
  | .move (.temp t) src => .next ⟨.eval src (.setTemp t block (pc + 1) k), temps, s⟩
  | .move (.mem addr) src => .next ⟨.eval addr (.storeAddress src block (pc + 1) k), temps, s⟩
  | .move dst _ => .stop (.error (.ofMove dst)) s
  | .jump l => jump l block k temps s
  | .cjump cond pos neg => .next ⟨.eval cond (.branch pos neg block k), temps, s⟩
  | .absent | .seq _ => .stop (.error .absentStatement) s

/-- A statement is counted, unless it is one too many, and does what it does. -/
theorem execStep_of_getElem? {b : Block} {pc : Nat} {stmt : Stmt} (h : b.stmts[pc]? = some stmt)
    (k : BlockContext) (temps : Temps) (s : State) : execStep m b pc k temps s =
      if exceeds m (s.steps + 1) then .stop (.error (.stepLimit m.limit)) { s with steps := s.steps + 1 }
      else enter stmt b pc k temps { s with steps := s.steps + 1 } := by
  simp only [execStep, h]
  rfl

theorem execStep_of_end {b : Block} {pc : Nat} (h : b.stmts[pc]? = none) (k : BlockContext)
    (temps : Temps) (s : State) : execStep m b pc k temps s = endBlock temps s k := by
  simp only [execStep, h]

/-! ### Counting -/

theorem Routine.steps_run (r : Routine) (s : State) : (r.run s).2.steps = s.steps := by
  cases r with
  | new | del | exit => rfl
  | putChar =>
    simp only [run]
    split <;> rfl
  | getChar =>
    simp only [run]
    split <;> rfl

theorem steps_invoke (l : Label) (k : ValueContext) (temps : Temps) (s : State) :
    (invoke m l k temps s).state.steps = s.steps := by
  unfold invoke
  cases Routine.ofLabel? l with
  | some r =>
    have hsteps := r.steps_run s
    dsimp only
    rcases hrun : r.run s with ⟨ending, s'⟩
    rw [hrun] at hsteps
    cases ending <;> exact hsteps
  | none => cases m.functions[l]? <;> rfl

theorem steps_call (l : Label) (offs args : List Word) (k : ValueContext) (temps : Temps) (s : State) :
    (call m l offs args k temps s).state.steps = s.steps := by
  rw [call]
  split
  · rfl
  · exact steps_invoke l k temps _

theorem steps_endBlock (temps : Temps) (s : State) (k : BlockContext) :
    (endBlock temps s k).state.steps = s.steps := by
  cases k <;> rfl

theorem steps_jump (l : Label) (b : Block) (k : BlockContext) (temps : Temps) (s : State) :
    (jump l b k temps s).state.steps = s.steps := by
  unfold jump
  cases b.labels[l]? with
  | some i => rfl
  | none => cases k <;> rfl

theorem steps_evalStep (e : Expr) (k : ValueContext) (temps : Temps) (s : State) :
    (evalStep m e k temps s).state.steps = s.steps := by
  cases e with
  | name l =>
    simp only [evalStep]
    cases m.labels[l]? <;> rfl
  | call l offs args =>
    cases args with
    | nil => exact steps_call l offs [] k temps s
    | cons arg args => rfl
  | _ => rfl

theorem steps_valueStep (v : Word) (k : ValueContext) (temps : Temps) (s : State) :
    (valueStep m v k temps s).state.steps = s.steps := by
  cases k with
  | binApply op fst k =>
    simp only [valueStep]
    cases applyBinary op fst v <;> rfl
  | argument l offs ready rest k =>
    cases rest with
    | nil => exact steps_call l offs _ k temps s
    | cons e es => rfl
  | branch pos neg b k => exact steps_jump _ b k temps s
  | _ => rfl

theorem steps_enter (stmt : Stmt) (b : Block) (pc : Nat) (k : BlockContext) (temps : Temps) (s : State) :
    (enter stmt b pc k temps s).state.steps = s.steps := by
  cases stmt with
  | move dst src => cases dst <;> rfl
  | jump l => exact steps_jump l b k temps s
  | _ => rfl

/-! ### Pending transitions -/

theorem lowers_invoke (hm : m.FunctionsFit w) {k : ValueContext} (hk : k.Fits w) (l : Label)
    (temps : Temps) (s : State) : (invoke m l k temps s).Lowers w (k.pending + 2) := by
  unfold invoke
  cases Routine.ofLabel? l with
  | some r =>
    dsimp only
    rcases r.run s with ⟨ending, s'⟩
    cases ending with
    | value v => exact ⟨hk, Nat.lt_add_of_pos_right Nat.two_pos⟩
    | exit | error => trivial
  | none =>
    cases hf : m.functions[l]? with
    | none => trivial
    | some f => exact ⟨⟨hm l f hf, hk⟩, Nat.lt_succ_self _⟩

theorem lowers_call (hm : m.FunctionsFit w) {k : ValueContext} (hk : k.Fits w) (l : Label)
    (offs args : List Word) (temps : Temps) (s : State) :
    (call m l offs args k temps s).Lowers w (k.pending + 2) := by
  rw [call]
  split
  · trivial
  · exact lowers_invoke hm hk l temps _

theorem lowers_endBlock {k : BlockContext} (hk : k.Fits w) (temps : Temps) (s : State) :
    (endBlock temps s k).Lowers w (k.pending + 1) := by
  cases k <;> exact ⟨hk, Nat.lt_succ_self _⟩

theorem lowers_jump {b : Block} {k : BlockContext} (hb : b.Fits w) (hk : k.Fits w) (l : Label)
    (temps : Temps) (s : State) : (jump l b k temps s).Lowers w (k.pending + 2) := by
  unfold jump
  cases b.labels[l]? with
  | some i => exact ⟨⟨hb, hk⟩, Nat.lt_succ_self _⟩
  | none =>
    cases k with
    | value e k => trivial
    | ret frame fp temps k => exact ⟨hk, Nat.lt_add_of_pos_right Nat.two_pos⟩

/-- **Going into an expression** takes a transition away. -/
theorem lowers_evalStep (hm : m.FunctionsFit w) {e : Expr} {k : ValueContext} (he : e.weight ≤ w)
    (hk : k.Fits w) (temps : Temps) (s : State) :
    (evalStep m e k temps s).Lowers w (e.moves + k.pending) := by
  cases e with
  | absent => trivial
  | const | temp => exact ⟨hk, by rw [Expr.moves, Control.pending]; omega⟩
  | name l =>
    simp only [evalStep]
    cases m.labels[l]? with
    | none => trivial
    | some addr => exact ⟨hk, by rw [Expr.moves, Control.pending]; omega⟩
  -- The part is lighter than the whole, and the context waits for one more transition.
  | mem | unop =>
    rw [Expr.weight] at he
    exact ⟨⟨by omega, hk⟩, by rw [Expr.moves, Control.pending, ValueContext.pending]; omega⟩
  | binop op fst snd =>
    rw [Expr.weight] at he
    exact ⟨⟨by omega, by omega, hk⟩, by rw [Expr.moves, Control.pending, ValueContext.pending]; omega⟩
  | sexpr stmt value =>
    rw [Expr.weight] at he
    exact ⟨⟨Block.fits_ofStmts (by omega), by omega, hk⟩,
      by rw [Expr.moves, Control.pending, BlockContext.pending]; omega⟩
  | call l offs args =>
    -- A call without arguments enters the callee at once.
    cases args with
    | nil =>
      rw [Expr.moves, Expr.movesAll, Nat.zero_add, Nat.add_comm]
      exact lowers_call hm hk l offs [] temps s
    | cons arg args =>
      rw [Expr.weight, Expr.weightAll] at he
      refine ⟨⟨by omega, by omega, hk⟩, ?_⟩
      rw [Expr.moves, Expr.movesAll, Control.pending, ValueContext.pending]
      omega

/-- **Leaving a context** takes a transition away. -/
theorem lowers_valueStep (hm : m.FunctionsFit w) {k : ValueContext} (hk : k.Fits w) (v : Word)
    (temps : Temps) (s : State) : (valueStep m v k temps s).Lowers w k.pending := by
  cases k with
  | done => trivial
  | readMem k => exact ⟨hk, Nat.lt_succ_self _⟩
  | unApply op k => exact ⟨hk, Nat.lt_succ_self _⟩
  | binSecond op snd k =>
    exact ⟨hk, by rw [ValueContext.pending, Control.pending, ValueContext.pending]; omega⟩
  | binApply op fst k =>
    simp only [valueStep]
    cases applyBinary op fst v with
    | ok r => exact ⟨hk, Nat.lt_succ_self _⟩
    | error e => trivial
  | argument l offs ready rest k =>
    -- Behind the last argument the callee is entered.
    cases rest with
    | nil =>
      rw [ValueContext.pending, Expr.movesAll, Nat.zero_add]
      exact lowers_call hm hk.2 l offs _ temps s
    | cons e es =>
      have hweight := hk.1
      rw [Expr.weightAll] at hweight
      refine ⟨⟨by omega, by omega, hk.2⟩, ?_⟩
      rw [ValueContext.pending, Expr.movesAll, Control.pending, ValueContext.pending]
      omega
  | drop b pc k => exact ⟨hk, Nat.lt_succ_self _⟩
  | setTemp t b pc k => exact ⟨hk, Nat.lt_succ_self _⟩
  | storeValue addr b pc k => exact ⟨hk, Nat.lt_succ_self _⟩
  | storeAddress src b pc k =>
    exact ⟨hk, by rw [ValueContext.pending, Control.pending, ValueContext.pending]; omega⟩
  | branch pos neg b k => exact lowers_jump hk.1 hk.2 _ temps s

/-- **A statement brings no more work** than its nodes account for. -/
theorem lowers_enter {stmt : Stmt} {b : Block} {k : BlockContext} (hstmt : stmt.weight ≤ w)
    (hb : b.Fits w) (hk : k.Fits w) (pc : Nat) (temps : Temps) (s : State) :
    (enter stmt b pc k temps s).Lowers w (k.pending + 1 + (4 * w + 8)) := by
  cases stmt with
  | absent | seq => trivial
  | label => exact ⟨⟨hb, hk⟩, by rw [Control.pending]; omega⟩
  | eval e =>
    have hmoves := e.moves_lt
    rw [Stmt.weight] at hstmt
    exact ⟨⟨by omega, hb, hk⟩, by rw [Control.pending, ValueContext.pending]; omega⟩
  | cjump cond pos neg =>
    have hmoves := cond.moves_lt
    rw [Stmt.weight] at hstmt
    exact ⟨⟨by omega, hb, hk⟩, by rw [Control.pending, ValueContext.pending]; omega⟩
  | move dst src =>
    have hmoves := src.moves_lt
    rw [Stmt.weight] at hstmt
    cases dst with
    | temp t => exact ⟨⟨by omega, hb, hk⟩, by rw [Control.pending, ValueContext.pending]; omega⟩
    | mem addr =>
      have hmoves' := addr.moves_lt
      rw [Expr.weight] at hstmt
      exact ⟨⟨by omega, by omega, hb, hk⟩, by rw [Control.pending, ValueContext.pending]; omega⟩
    | _ => trivial
  | jump l =>
    show (jump l b k temps s).Lowers _ _
    -- A jump takes a transition away already, which is less than what the bound allows.
    have hlowers := lowers_jump hb hk l temps s
    cases ht : jump l b k temps s with
    | stop => trivial
    | next c =>
      rw [ht] at hlowers
      exact ⟨hlowers.1, by have := hlowers.2; omega⟩

/-! ### One transition -/

/-- How many statements the next transition counts. -/
def Config.counted (c : Config) : Nat :=
  match c.control with
  | .eval .. | .value .. => 0
  | .exec b pc _ => if pc < b.stmts.size then 1 else 0

theorem Config.counted_exec (b : Block) (pc : Nat) (k : BlockContext) (temps : Temps) (s : State) :
    Config.counted ⟨.exec b pc k, temps, s⟩ = if pc < b.stmts.size then 1 else 0 := rfl

theorem Config.counted_le (c : Config) : c.counted ≤ 1 := by
  obtain ⟨control, temps, s⟩ := c
  cases control with
  | eval | value => exact Nat.zero_le 1
  | exec b pc k =>
    rw [counted_exec]
    split <;> decide

/-- A statement that is one too many ends the run. -/
theorem step_of_exceeds {c : Config} (hc : c.counted = 1) (h : exceeds m (c.state.steps + 1) = true) :
    step m c = .stop (.error (.stepLimit m.limit)) { c.state with steps := c.state.steps + 1 } := by
  obtain ⟨control, temps, s⟩ := c
  cases control with
  | eval | value => cases hc
  | exec b pc k =>
    rw [Config.counted_exec] at hc
    by_cases hpc : pc < b.stmts.size
    · rw [step, execStep_of_getElem? (Array.getElem?_eq_getElem hpc)]
      exact if_pos h
    · rw [if_neg hpc] at hc
      cases hc

/-- **What a transition counts.** -/
theorem steps_step (m : Machine) (c : Config) : (step m c).state.steps = c.state.steps + c.counted := by
  obtain ⟨control, temps, s⟩ := c
  cases control with
  | eval e k => exact steps_evalStep e k temps s
  | value v k => exact steps_valueStep v k temps s
  | exec b pc k =>
    rw [step, Config.counted_exec]
    by_cases hpc : pc < b.stmts.size
    · rw [execStep_of_getElem? (Array.getElem?_eq_getElem hpc), if_pos hpc]
      split
      · rfl
      · exact steps_enter ..
    · rw [execStep_of_end (Array.getElem?_eq_none (Nat.not_lt.mp hpc)), if_neg hpc]
      exact steps_endBlock temps s k

/-- A run does not forget what it has counted. -/
theorem steps_le_of_reaches {c d : Config} (h : Relation.ReflTransGen (Next m) c d) :
    c.state.steps ≤ d.state.steps := by
  induction h with
  | refl => exact Nat.le_refl _
  | @tail d e _ hstep ih =>
    have hcount := steps_step m d
    rw [(hstep : step m d = .next e)] at hcount
    exact Nat.le_trans ih (Nat.le.intro hcount.symm)

/-- A run does not come back to a configuration in front of a statement. -/
theorem eq_of_reaches {c d : Config} (hc : c.counted = 1) (h : Relation.ReflTransGen (Next m) c d)
    (h' : Relation.ReflTransGen (Next m) d c) : d = c := by
  rcases h.cases_head with rfl | ⟨e, he, hd⟩
  · rfl
  · have hcount := steps_step m c
    rw [(he : step m c = .next e), hc] at hcount
    have hle := steps_le_of_reaches (hd.trans h')
    change e.state.steps = _ at hcount
    omega

/-- **A transition lowers what is pending**, unless it counts a statement. -/
theorem lowers_step (hm : m.FunctionsFit w) {c : Config} (hc : c.control.Fits w) :
    (step m c).Lowers w (c.control.pending + c.counted * (4 * w + 8)) := by
  obtain ⟨control, temps, s⟩ := c
  cases control with
  | eval e k =>
    rw [show Config.counted ⟨.eval e k, temps, s⟩ = 0 from rfl, Nat.zero_mul]
    exact lowers_evalStep hm hc.1 hc.2 temps s
  | value v k =>
    rw [show Config.counted ⟨.value v k, temps, s⟩ = 0 from rfl, Nat.zero_mul]
    exact lowers_valueStep hm hc v temps s
  | exec b pc k =>
    rw [step, Config.counted_exec]
    by_cases hpc : pc < b.stmts.size
    · rw [execStep_of_getElem? (Array.getElem?_eq_getElem hpc), if_pos hpc, Nat.one_mul]
      split
      · trivial
      · exact lowers_enter (hc.1 _ (Array.getElem_mem hpc)) hc.1 hc.2 pc temps _
    · rw [execStep_of_end (Array.getElem?_eq_none (Nat.not_lt.mp hpc)), if_neg hpc, Nat.zero_mul]
      exact lowers_endBlock hc.2 temps s

/-! ## §4 Runs with a limit -/

theorem exceeds_iff {n : Nat} : exceeds m n = true ↔ 0 < m.limit ∧ m.limit < n := by
  simp [exceeds]

theorem exceeds_mono {n n' : Nat} (h : exceeds m n' = false) (hle : n ≤ n') : exceeds m n = false := by
  rw [← Bool.not_eq_true, exceeds_iff] at h ⊢
  omega

/-- A statement behind which the run goes on was allowed. -/
theorem le_limit_of_counted (hlimit : 0 < m.limit) {c d : Config} (h : step m c = .next d)
    (hc : c.counted = 1) :
    c.state.steps + 1 ≤ m.limit.toNat := by
  have hno : ¬exceeds m (c.state.steps + 1) = true := by
    intro hyes
    rw [step_of_exceeds hc hyes] at h
    cases h
  rw [exceeds_iff] at hno
  omega

/-- The transitions that are left: those pending, and those of the statements that may still be
counted. -/
def potential (m : Machine) (w : Nat) (c : Config) : Nat :=
  (m.limit.toNat + 1 - c.state.steps) * (4 * w + 8) + c.control.pending

/-- **A transition of a run with a limit lowers what is left.** -/
theorem potential_lt (hlimit : 0 < m.limit) (hm : m.FunctionsFit w) {c d : Config} (hc : c.control.Fits w)
    (h : step m c = .next d) : d.control.Fits w ∧ m.potential w d < m.potential w c := by
  have hsteps : d.state.steps = c.state.steps + c.counted := (congrArg (·.state.steps) h).symm.trans
    (steps_step m c)
  obtain ⟨hfits, hlt⟩ : (Transition.next d).Lowers w _ := h ▸ lowers_step hm hc
  refine ⟨hfits, ?_⟩
  have hleft : m.limit.toNat + 1 - c.state.steps = m.limit.toNat + 1 - d.state.steps + c.counted := by
    have hcounted := c.counted_le
    by_cases hc : c.counted = 1
    · have hle := le_limit_of_counted hlimit h hc
      omega
    · omega
  rw [potential, potential, hleft, Nat.add_mul, Nat.add_assoc, Nat.add_comm (c.counted * _)]
  exact Nat.add_lt_add_left hlt _

/-- **A run with a limit ends**, and counts no more than one statement beyond the limit. -/
theorem runFor_ends (hlimit : 0 < m.limit) (hm : m.FunctionsFit w) {fuel : Nat} {c : Config}
    (hc : c.control.Fits w) (hfuel : m.potential w c < fuel) :
    ∃ ending s, runFor m fuel c = some (ending, s) ∧ s.steps ≤ max c.state.steps m.limit.toNat + 1 := by
  induction fuel generalizing c with
  | zero => exact absurd hfuel (Nat.not_lt_zero _)
  | succ fuel ih =>
    have hsteps := steps_step m c
    have hcounted := c.counted_le
    rw [runFor]
    cases h : step m c with
    | stop ending s =>
      have hs : s.steps = c.state.steps + c.counted := by rw [← hsteps, h]; rfl
      exact ⟨ending, s, rfl, by omega⟩
    | next d =>
      obtain ⟨hd, hlt⟩ := potential_lt hlimit hm hc h
      obtain ⟨ending, s, hrun, hle⟩ := ih hd (by omega)
      refine ⟨ending, s, hrun, ?_⟩
      have hd' : d.state.steps = c.state.steps + c.counted := by rw [← hsteps, h]; rfl
      -- What is counted on the way is within the limit.
      by_cases hone : c.counted = 1
      · have hlimited := le_limit_of_counted hlimit h hone
        omega
      · omega

/-! ## §5 Other limits -/

/-- The machine with another limit. -/
def withLimit (m : Machine) (l : Int) : Machine := { m with limit := l }

theorem steps_le_of_runFor {fuel : Nat} {c : Config} {ending : Ending} {s : State}
    (h : runFor m fuel c = some (ending, s)) : c.state.steps ≤ s.steps := by
  induction fuel generalizing c with
  | zero => cases h
  | succ fuel ih =>
    have hsteps := steps_step m c
    rw [runFor] at h
    cases hstep : step m c with
    | stop =>
      rw [hstep] at h hsteps
      cases h
      exact hsteps ▸ Nat.le_add_right _ _
    | next d =>
      rw [hstep] at h hsteps
      exact Nat.le_trans (hsteps ▸ Nat.le_add_right _ _ : c.state.steps ≤ d.state.steps) (ih h)

/-- **A transition does not depend on the limit**, unless the limit is reached. -/
theorem step_withLimit {l : Int} {c : Config}
    (h : ∀ s, step m c ≠ .stop (.error (.stepLimit m.limit)) s)
    (hl : exceeds (m.withLimit l) (step m c).state.steps = false) :
    step (m.withLimit l) c = step m c := by
  rw [steps_step] at hl
  obtain ⟨control, temps, s⟩ := c
  -- Only transitions at a statement look at the limit.
  cases control with
  | eval e k =>
    cases e with
    | call l offs args => cases args <;> rfl
    | _ => rfl
  | value v k =>
    cases k with
    | argument l offs ready rest k => cases rest <;> rfl
    | _ => rfl
  | exec b pc k =>
    rw [Config.counted_exec] at hl
    rw [step] at h ⊢
    rw [step]
    by_cases hpc : pc < b.stmts.size
    · have hget := Array.getElem?_eq_getElem hpc
      rw [if_pos hpc] at hl
      rw [execStep_of_getElem? hget] at h ⊢
      rw [execStep_of_getElem? hget, hl, if_neg Bool.false_ne_true]
      split
      · next hexceeds => exact absurd (if_pos hexceeds) (h _)
      · rfl
    · have hget := Array.getElem?_eq_none (Nat.not_lt.mp hpc)
      rw [execStep_of_end hget, execStep_of_end hget]

/-- **A run that has not come to the limit** is the same with every other limit that it does not
exceed. -/
theorem runFor_withLimit {l : Int} {fuel : Nat} {c : Config} {ending : Ending} {s : State}
    (h : runFor m fuel c = some (ending, s)) (hending : ending ≠ .error (.stepLimit m.limit))
    (hl : exceeds (m.withLimit l) s.steps = false) :
    runFor (m.withLimit l) fuel c = some (ending, s) := by
  induction fuel generalizing c with
  | zero => cases h
  | succ fuel ih =>
    rw [runFor] at h ⊢
    cases hstep : step m c with
    | stop ending' s' =>
      rw [hstep] at h
      cases h
      have hother := step_withLimit (m := m) (l := l) (c := c)
        (fun s' hs' => hending (by rw [hstep] at hs'; cases hs'; rfl)) (by rw [hstep]; exact hl)
      rw [hother, hstep]
    | next d =>
      rw [hstep] at h
      have hother := step_withLimit (m := m) (l := l) (c := c)
        (fun s' hs' => by rw [hstep] at hs'; cases hs')
        (by rw [hstep]; exact exceeds_mono hl (steps_le_of_runFor h))
      rw [hother, hstep]
      exact ih h

/-! ## §6 Calls -/

theorem CallEnds.ending_unique {label : Label} {offs args : List Word} {ending ending' : Ending}
    {s s' : State} (h : CallEnds m label offs args ending s)
    (h' : CallEnds m label offs args ending' s') :
    ending = ending' ∧ s = s' := by
  unfold CallEnds at h h'
  split at h
  · next hcall =>
    rw [hcall] at h'
    exact ⟨h.1.symm.trans h'.1, h.2.symm.trans h'.2⟩
  · next hcall =>
    rw [hcall] at h'
    exact Halts.ending_unique h h'

/-- The fuel of a call is enough from its first configuration on. -/
theorem potential_lt_enoughFuel (hlimit : 0 < m.limit) {c : Config} (hc : c.control.pending < 2) :
    m.potential m.maxWeight c < m.enoughFuel := by
  have hle : (m.limit.toNat + 1 - c.state.steps) * (4 * m.maxWeight + 8) ≤
      (m.limit.toNat + 1) * (4 * m.maxWeight + 8) := Nat.mul_le_mul_right _ (Nat.sub_le _ _)
  have hfuel : m.enoughFuel = (m.limit.toNat + 1) * (4 * m.maxWeight + 8) + (4 * m.maxWeight + 8) := by
    rw [enoughFuel, if_pos hlimit, Nat.succ_mul]
  rw [potential, hfuel]
  omega

/-- **A call of a machine with a limit ends.** -/
theorem callAt_ends (hlimit : 0 < m.limit) (label : Label) (offs args : List Word) :
    ∃ ending s, callAt m label offs args = some (ending, { m with state := s }) ∧
      s.steps ≤ max m.state.steps m.limit.toNat + 1 := by
  have hsteps := steps_call (m := m) label offs args .done ∅ m.state
  have hlowers := lowers_call m.functionsFit_maxWeight (k := .done) trivial label offs args ∅ m.state
  unfold callAt
  cases hcall : call m label offs args .done ∅ m.state with
  | stop ending s =>
    rw [hcall] at hsteps
    have hs : s.steps = m.state.steps := hsteps
    exact ⟨ending, s, rfl, by omega⟩
  | next c =>
    rw [hcall] at hsteps hlowers
    have hc : c.state.steps = m.state.steps := hsteps
    obtain ⟨ending, s, hrun, hle⟩ := runFor_ends hlimit m.functionsFit_maxWeight hlowers.1
      (potential_lt_enoughFuel hlimit hlowers.2)
    refine ⟨ending, s, ?_, hc ▸ hle⟩
    show (runFor m m.enoughFuel c).map _ = _
    rw [hrun]
    rfl

/-- Entering a function does not depend on the limit. -/
theorem call_withLimit {l : Int} (label : Label) (offs args : List Word) (k : ValueContext)
    (temps : Temps) :
    call (m.withLimit l) label offs args k temps (m.withLimit l).state = call m label offs args k
      temps m.state := rfl

/-- A call that has not come to the limit ends in the same way with every other limit that it does
not exceed. -/
theorem callEnds_withLimit {l : Int} {label : Label} {offs args : List Word} {ending : Ending} {s : State}
    (h : CallEnds m label offs args ending s) (hending : ending ≠ .error (.stepLimit m.limit))
    (hl : exceeds (m.withLimit l) s.steps = false) :
    CallEnds (m.withLimit l) label offs args ending s := by
  unfold CallEnds at h ⊢
  rw [call_withLimit]
  cases hcall : call m label offs args .done ∅ m.state with
  | stop =>
    rw [hcall] at h
    exact h
  | next c =>
    rw [hcall] at h
    obtain ⟨fuel, hrun⟩ := h
    exact ⟨fuel, runFor_withLimit hrun hending hl⟩

/-- The same for what the machine returns. A machine without a limit has a large supply of fuel. -/
theorem callAt_withLimit {l : Int} {label : Label} {offs args : List Word} {ending : Ending} {s : State}
    (h : callAt m label offs args = some (ending, { m with state := s }))
    (hending : ending ≠ .error (.stepLimit m.limit)) (hl : exceeds (m.withLimit l) s.steps = false)
    (hfuel : 0 < l ∨ m.enoughFuel ≤ (m.withLimit l).enoughFuel) :
    callAt (m.withLimit l) label offs args = some (ending, { m.withLimit l with state := s }) := by
  -- With a limit the machine always ends, and ends are unique. Without one the larger supply of
  -- fuel is enough.
  rcases hfuel with hlimit | hfuel
  · obtain ⟨ending', s', hcall, -⟩ := callAt_ends (m := m.withLimit l) hlimit label offs args
    obtain ⟨rfl, rfl⟩ := CallEnds.ending_unique (callEnds_withLimit (callEnds_of_callAt h) hending hl)
      (callEnds_of_callAt hcall)
    exact hcall
  · unfold callAt at h ⊢
    rw [call_withLimit]
    cases hcall : call m label offs args .done ∅ m.state with
    | stop =>
      rw [hcall] at h
      cases h
      rfl
    | next c =>
      rw [hcall] at h
      obtain ⟨⟨ending', s'⟩, hrun, heq⟩ := Option.map_eq_some_iff.mp h
      cases heq
      have hother := runFor_mono hfuel (runFor_withLimit hrun hending hl)
      show (runFor (m.withLimit l) (m.withLimit l).enoughFuel c).map _ = _
      rw [hother]
      rfl

/-- **The step limit bounds every run and changes nothing else.** With a limit a call ends, whatever
the functions are, and counts at most one statement more than the limit allows. If it does not end
with the error of the limit, then it ends in the same way, with the same memory, output and count,
with every limit that is not below this count, and without a limit. -/
theorem callAt_limited (m : Machine) (hlimit : 0 < m.limit) (label : Label) (offs args : List Word) :
    ∃ ending s, callAt m label offs args = some (ending, { m with state := s }) ∧
      (s.steps : Int) ≤ max (m.state.steps : Int) m.limit + 1 ∧
      (ending ≠ .error (.stepLimit m.limit) → ∀ l : Int, l ≤ 0 ∨ (s.steps : Int) ≤ l →
        CallEnds (m.withLimit l) label offs args ending s ∧
          (0 < l ∨ m.enoughFuel ≤ 1 <<< 62 →
            callAt (m.withLimit l) label offs args = some
                (ending, { m.withLimit l with state := s }))) := by
  obtain ⟨ending, s, hcall, hsteps⟩ := callAt_ends hlimit label offs args
  refine ⟨ending, s, hcall, by omega, fun hending l hl => ?_⟩
  have hwithin : exceeds (m.withLimit l) s.steps = false := by
    rw [← Bool.not_eq_true, exceeds_iff]
    show ¬(0 < l ∧ l < s.steps)
    omega
  refine ⟨callEnds_withLimit (callEnds_of_callAt hcall) hending hwithin, fun hfuel => ?_⟩
  refine callAt_withLimit hcall hending hwithin ?_
  by_cases hpos : 0 < l
  · exact .inl hpos
  · have henough : (m.withLimit l).enoughFuel = 1 <<< 62 := if_neg hpos
    exact .inr (henough ▸ hfuel.resolve_left hpos)

/-! ### A run that only the limit ends -/

/-- The frame of a main function without variables. -/
def plainFrame : Frame := ⟨"_main", 0, 0, 8, ⟨0⟩, ⟨1⟩⟩

/-- The body of a function that does nothing but call the main function. -/
def callingBlock : Block := .ofStmts [.eval (.call "_main" [0] [.const 0])]

/-- A machine with a limit of ten statements whose main function calls itself. -/
def runaway : Machine :=
  ({ limit := 10 } : Machine).addFunction plainFrame [.eval (.call "_main" [0] [.const 0])]

theorem functions_runaway : runaway.functions["_main"]? = some ⟨plainFrame, callingBlock⟩ :=
  Std.HashMap.getElem?_insert_self

/-- Without a limit the function comes to its own beginning again. -/
theorem runaway_recurs (k : BlockContext) (temps : Temps) (s : State) : ∃ k' temps' s',
    Relation.TransGen (Next (runaway.withLimit 0)) ⟨.exec callingBlock 0 k, temps, s⟩
      ⟨.exec callingBlock 0 k', temps', s'⟩ := by
  have hstmt : callingBlock.stmts[0]? = some (.eval (.call "_main" [0] [.const 0])) := rfl
  have hcounted : Next (runaway.withLimit 0) ⟨.exec callingBlock 0 k, temps, s⟩
      ⟨.eval (.call "_main" [0] [.const 0]) (.drop callingBlock 1 k), temps,
          { s with steps := s.steps + 1 }⟩ :=
    (execStep_of_getElem? (m := runaway.withLimit 0) hstmt k temps s).trans (if_neg Bool.false_ne_true)
  have hcalled (l : State) : Next (runaway.withLimit 0)
      ⟨.value 0 (.argument "_main" [0] [] [] (.drop callingBlock 1 k)), temps, l⟩
      ⟨.exec callingBlock 0 (.ret plainFrame l.sp temps (.drop callingBlock 1 k)),
        (∅ : Temps).insert plainFrame.fp l.sp,
        { l with memory := l.memory.writeAt l.sp [0] [0], sp := l.sp - plainFrame.size }⟩ := by
    have hroutine : Routine.ofLabel? "_main" = none := by decide
    have hfunction : (runaway.withLimit 0).functions["_main"]? = some ⟨plainFrame, callingBlock⟩ :=
      functions_runaway
    show call _ "_main" [0] [0] _ temps l = _
    rw [call_eq_invoke (Nat.le_refl [(0 : Word)].length), invoke, hroutine, hfunction]
  -- The statement, the call with its argument, and the entry of the function.
  exact ⟨_, _, _, .head hcounted (.head rfl (.head rfl (.single (hcalled _))))⟩

/-- Without a limit it never ends. -/
theorem runaway_runs_on {ending : Ending} {s : State} :
    ¬CallEnds (runaway.withLimit 0) "_main" [0] [0] ending s := by
  -- By induction on the number of transitions: a round of the recursion uses up some of them.
  have hnever : ∀ (fuel : Nat) (k : BlockContext) (temps : Temps) (s' : State),
      runFor (runaway.withLimit 0) fuel ⟨.exec callingBlock 0 k, temps, s'⟩ ≠ some (ending, s) := by
    intro fuel
    induction fuel using Nat.strongRecOn with
    | ind fuel ih =>
      intro k temps s' hrun
      obtain ⟨k', temps', s'', hround⟩ := runaway_recurs k temps s'
      obtain ⟨fuel', hlt, hrun'⟩ := runFor_drop_steps hround hrun
      exact ih fuel' hlt k' temps' s'' hrun'
  have hroutine : Routine.ofLabel? "_main" = none := by decide
  have hfunction : (runaway.withLimit 0).functions["_main"]? = some ⟨plainFrame, callingBlock⟩ :=
    functions_runaway
  unfold CallEnds
  simp only [call_eq_invoke (Nat.le_refl [(0 : Word)].length), invoke, hroutine, hfunction]
  rintro ⟨fuel, hrun⟩
  exact hnever fuel _ _ _ hrun

/-- A machine with a limit of ten statements whose main function adds two numbers. -/
def adder : Machine :=
  ({ limit := 10 } : Machine).addTree plainFrame (.binop .add (.const 3) (.const 4))

theorem adder_ends : ∃ s, CallEnds adder "_main" [0] [0] (.value 7) s ∧ s.steps = 1 := by
  have hfunction : adder.functions["_main"]? = some ⟨plainFrame,
      .ofStmts [.move (.temp ⟨1⟩) (.binop .add (.const 3) (.const 4))]⟩ :=
        Std.HashMap.getElem?_insert_self
  have hroutine : Routine.ofLabel? "_main" = none := by decide
  have hresult (temps : Temps) : (temps.insert (⟨1⟩ : Temp) (7 : Word)).getD ⟨1⟩ 0 = 7 :=
    Std.HashMap.getD_insert_self
  unfold CallEnds
  simp only [call_eq_invoke (Nat.le_refl [(0 : Word)].length), invoke, hroutine, hfunction]
  rw [← hresult ((∅ : Temps).insert ⟨0⟩ stackTop)]
  -- The statement, the sum, its operands with their values, the end of the body, and the return.
  exact ⟨_, .of_next rfl (.of_next rfl (.of_next rfl (.of_next rfl (.of_next rfl (.of_next rfl
    (.of_next rfl (.of_next rfl (.of_stop rfl)))))))), rfl⟩

/-- The limit ends the recursion behind at most one statement more than it allows. The sum of two
numbers takes one statement, so it is the same with every other limit. -/
theorem callAt_limited_runaway :
    (∃ s, callAt runaway "_main" [0] [0] = some (.error (.stepLimit 10), { runaway with state := s }) ∧
      s.steps ≤ 11) ∧
    ∃ s, callAt adder "_main" [0] [0] = some (.value 7, { adder with state := s }) ∧
      s.steps = 1 ∧ CallEnds (adder.withLimit 1) "_main" [0] [0] (.value 7) s ∧
        CallEnds (adder.withLimit 0) "_main" [0] [0] (.value 7) s := by
  constructor
  · obtain ⟨ending, s, hcall, hsteps, hsame⟩ := callAt_limited runaway (by decide) "_main" [0] [0]
    have hending : ending = .error (.stepLimit 10) := Decidable.byContradiction fun hother =>
      runaway_runs_on (hsame hother 0 (.inl (Int.le_refl 0))).1
    subst hending
    exact ⟨s, hcall, Int.ofNat_le.mp hsteps⟩
  · obtain ⟨ending, s, hcall, -, hsame⟩ := callAt_limited adder (by decide) "_main" [0] [0]
    obtain ⟨s', hends, hsteps⟩ := adder_ends
    obtain ⟨rfl, rfl⟩ := CallEnds.ending_unique (callEnds_of_callAt hcall) hends
    have hending : Ending.value 7 ≠ .error (.stepLimit adder.limit) := Ending.noConfusion
    have hone : (s.steps : Int) ≤ 1 := Int.ofNat_le.mpr (Nat.le_of_eq hsteps)
    exact ⟨s, hcall, hsteps, (hsame hending 1 (.inr hone)).1, (hsame hending 0 (.inl (Int.le_refl 0))).1⟩

end Machine

end MmixBackend
