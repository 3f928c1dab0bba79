import MmixBackend.Proofs.Machine.Behavior

/-!
# Jumping code with structured behavior

Code stands at a place of a flat block. If the block finds the labels of the code where the code has
them, what the code does depends neither on the block nor on the position, and control goes on
behind it. So the code of a branch or of a loop, which jumps, behaves like a conditional or an
iteration of the behaviors of its parts.

## Main statements

- `Implements.branch`, `Implements.loop`: branches and loops.
- `Implements.evaluation_sexpr`: a statement inside an expression.
- `Implements.execution_eq`: what a statement does by itself is what it does everywhere.
-/

namespace MmixBackend.Machine

open IR

variable {m : Machine} {b : Block} {pc : Nat} {k : BlockContext}

/-! ## §1 Code at a place -/

/-- The statements stand in a block from a position on, and the block finds their labels there. -/
def Placed (b : Block) : (pc : Nat) → List Stmt → Prop
  | _, [] => True
  | pc, s :: ss =>
    b.stmts[pc]? = some s ∧ (∀ l, s = .label l → b.labels[l]? = some pc) ∧ Placed b (pc + 1) ss

@[simp] theorem placed_nil (b : Block) (pc : Nat) : Placed b pc [] := trivial

@[simp] theorem placed_cons {s : Stmt} {ss : List Stmt} : Placed b pc (s :: ss) ↔
    b.stmts[pc]? = some s ∧ (∀ l, s = .label l → b.labels[l]? = some pc) ∧ Placed b (pc + 1) ss := Iff.rfl

@[simp] theorem placed_append {ss ss' : List Stmt} :
    Placed b pc (ss ++ ss') ↔ Placed b pc ss ∧ Placed b (pc + ss.length) ss' := by
  induction ss generalizing pc with
  | nil => simp
  | cons s ss ih => simp [ih, and_assoc, Nat.add_assoc, Nat.add_comm 1]

/-- A statement without repeated labels stands at the start of its own block. -/
theorem placed_ofStmt {c : Stmt} (h : (Stmt.labelsOf c.flatten).Nodup) :
    Placed (.ofStmts [c]) 0 c.flatten := by
  have hall : Stmt.flattenAll [c] = c.flatten := by rw [Stmt.flattenAll, Stmt.flattenAll, List.append_nil]
  suffices key : ∀ before rest, c.flatten = before ++ rest → Placed (.ofStmts [c]) before.length rest from
    key [] c.flatten rfl
  intro before rest heq
  induction rest generalizing before with
  | nil => trivial
  | cons s rest ih =>
    have hs : c.flatten[before.length]? = some s := by simp [heq]
    refine ⟨by rw [Block.getElem?_ofStmts, hall, hs], ?_,
      by simpa using ih (before ++ [s]) (by simp [heq])⟩
    rintro l rfl
    rcases Block.labels_ofStmts [c] l with ⟨i, hi, hfound⟩ | ⟨hnot, -⟩
    · rw [hall] at hi
      rw [hfound, getElem?_label_unique h hi hs]
    · rw [hall] at hnot
      exact absurd (List.mem_of_getElem? hs) hnot

/-- What the machine turns to when it has counted a statement. -/
def entered (b : Block) (pc : Nat) (k : BlockContext) : Stmt → Option Control
  | .label _ => some (.exec b (pc + 1) k)
  | .eval e => some (.eval e (.drop b (pc + 1) k))
  | .move (.temp t) src => some (.eval src (.setTemp t b (pc + 1) k))
  | .move (.mem addr) src => some (.eval addr (.storeAddress src b (pc + 1) k))
  | .cjump cond pos neg => some (.eval cond (.branch pos neg b k))
  | .jump l => (b.labels[l]?).map fun i => .exec b (i + 1) k
  | _ => none

theorem step_exec {s : Stmt} {next : Control} (hs : b.stmts[pc]? = some s)
    (hnext : entered b pc k s = some next) (σ : Scene) :
    step m (σ.config (.exec b pc k)) = (Behavior.counted m σ).transition fun _ => next := by
  show execStep m b pc k σ.temps σ.state = _
  unfold execStep Behavior.counted
  rw [hs]
  dsimp only
  split
  · rfl
  · cases s with
    | absent | seq => cases hnext
    | jump l =>
      obtain ⟨i, hi, rfl⟩ := Option.map_eq_some_iff.mp hnext
      simp only [jump, hi]
      rfl
    | move dst src =>
      cases dst <;> cases hnext
      all_goals rfl
    | _ =>
      cases hnext
      rfl

/-- A statement is counted before anything else happens. -/
theorem Realizes.counts {s : Stmt} {next : Control} (hs : b.stmts[pc]? = some s)
    (hnext : entered b pc k s = some next) :
    Realizes m (.exec b pc k) (fun _ => next) (Behavior.count m) :=
  .act (step_exec hs hnext)

/-- A condition has its value, and the branch goes behind one of its labels. -/
theorem step_branch {pos neg l : Label} {v : Word} {i : Nat} (hl : (if v ≠ 0 then pos else neg) = l)
    (hi : b.labels[l]? = some i) (σ : Scene) :
    step m (σ.config (.value v (.branch pos neg b k))) = .next (σ.config (.exec b (i + 1) k)) := by
  show jump (if v ≠ 0 then pos else neg) b k σ.temps σ.state = _
  simp only [hl, jump, hi]
  rfl

/-! ## §2 Statements -/

/-- Wherever the code stands, it behaves like `B`, and control goes on behind it. -/
structure Implements (m : Machine) (c : Stmt) (B : Behavior Unit) : Prop where
  realizes : ∀ {b : Block} {pc : Nat} (k : BlockContext), Placed b pc c.flatten →
    Realizes m (.exec b pc k) (fun _ => .exec b (pc + c.flatten.length) k) B

/-- Evaluates one of two behaviors after a test. -/
def branch (m : Machine) (test : Behavior Word) (yes no : Behavior Unit) : Behavior Unit := do
  Behavior.count m
  let v ← test
  (if v ≠ 0 then yes else no)
  -- The end of the branch is a statement of its own on both ways.
  Behavior.count m

/-- Alternates between a test and a body until the test yields zero. -/
def loop (m : Machine) (test : Behavior Word) (body : Behavior Unit) : Behavior Unit := do
  Behavior.count m
  Behavior.iterate do
    Behavior.count m
    let v ← test
    if v ≠ 0 then do
      body
      Behavior.count m
      return true
    else return false

/-- Assigns the value of an expression to a temp or to a memory location. -/
def assignment (m : Machine) (dst src : Expr) : Behavior Unit := do
  Behavior.count m
  match dst with
  | .temp t => evaluation m src >>= .setTemp t
  | .mem addr => do
    let a ← evaluation m addr
    evaluation m src >>= .store a
  | dst => .fail (.ofMove dst)

namespace Implements

theorem nil (m : Machine) : Implements m (.seq []) (pure ()) := ⟨fun _ _ => .pure () rfl⟩

theorem cons {c : Stmt} {cs : List Stmt} {B B' : Behavior Unit} (h : Implements m c B)
    (hs : Implements m (.seq cs) B') : Implements m (.seq (c :: cs)) (do B; B') := by
  refine ⟨fun {b pc} k hplaced => ?_⟩
  simp only [Stmt.flatten, Stmt.flattenAll, placed_append, List.length_append] at hplaced ⊢
  have hall := (h.realizes k hplaced.1).bind fun _ => hs.realizes k hplaced.2
  simpa only [Stmt.flatten, Nat.add_assoc] using hall

theorem eval (m : Machine) (e : Expr) :
    Implements m (.eval e) (do Behavior.count m; let _ ← evaluation m e; return ()) := by
  refine ⟨fun {b pc} k hplaced => ?_⟩
  refine (Realizes.counts hplaced.1 rfl).bind fun _ => ?_
  exact (evaluation_realizes m e _).bind fun v => .silent () fun σ => rfl

theorem move (m : Machine) (dst src : Expr) : Implements m (.move dst src) (assignment m dst src) := by
  refine ⟨fun {b pc} k hplaced => ?_⟩
  have hs := hplaced.1
  unfold assignment
  cases dst with
  | temp t =>
    refine (Realizes.counts hs rfl).bind fun _ => ?_
    exact (evaluation_realizes m src _).bind fun v => .act fun σ => rfl
  | mem addr =>
    refine (Realizes.counts hs rfl).bind fun _ => ?_
    refine (evaluation_realizes m addr _).bind fun a => ?_
    refine .head (fun σ => rfl) ?_
    exact (evaluation_realizes m src _).bind fun v => .act fun σ => rfl
  | _ =>
    dsimp only
    rw [Behavior.count, Behavior.fail, Behavior.act_bind_act]
    refine .act fun σ => ?_
    show execStep m b pc k σ.temps σ.state = _
    unfold execStep Behavior.counted
    rw [hs]
    dsimp only
    split <;> rfl

theorem branch {test : Expr} {yes no : Stmt} {pos neg done : Label} {Y N : Behavior Unit}
    (hyes : Implements m yes Y) (hno : Implements m no N) :
    Implements m (.seq [.cjump test pos neg, .label pos, yes, .jump done, .label neg, no, .label done])
      (branch m (evaluation m test) Y N) := by
  refine ⟨fun {b pc} k hplaced => ?_⟩
  simp only [Stmt.flatten, Stmt.flattenAll, placed_append, placed_cons, List.append_nil, List.nil_append,
    List.cons_append] at hplaced ⊢
  obtain ⟨htest, -, -, hpos, hyesAt, hjump, -, -, hneg, hnoAt, hdoneAt, hdone, -⟩ := hplaced
  generalize hend : pc + List.length _ = last
  obtain rfl : last = pc + 1 + 1 + yes.flatten.length + 1 + 1 + no.flatten.length + 1 := by
    simp at hend
    omega
  refine (Realizes.counts htest rfl).bind fun _ => ?_
  refine (evaluation_realizes m test _).bind fun v => ?_
  by_cases hv : v ≠ 0
  · rw [if_pos hv]
    refine .head (step_branch (if_pos hv) (hpos pos rfl)) ?_
    exact (hyes.realizes k hyesAt).bind fun _ => .counts hjump (by simp [entered, hdone])
  · rw [if_neg hv]
    refine .head (step_branch (if_neg hv) (hneg neg rfl)) ?_
    exact (hno.realizes k hnoAt).bind fun _ => .counts hdoneAt rfl

theorem loop {test : Expr} {body : Stmt} {check enter done : Label} {B : Behavior Unit}
    (hbody : Implements m body B) :
    Implements m (.seq [.label check, .cjump test enter done, .label enter, body,
        .jump check, .label done])
      (loop m (evaluation m test) B) := by
  refine ⟨fun {b pc} k hplaced => ?_⟩
  simp only [Stmt.flatten, Stmt.flattenAll, placed_append, placed_cons, List.append_nil, List.nil_append,
    List.cons_append] at hplaced ⊢
  obtain ⟨hcheckAt, hcheck, htest, -, -, henter, hbodyAt, hjump, -, -, hdone, -⟩ := hplaced
  generalize hend : pc + List.length _ = last
  obtain rfl : last = pc + 1 + 1 + 1 + body.flatten.length + 1 + 1 := by
    simp at hend
    omega
  refine (Realizes.counts hcheckAt rfl).bind fun _ => ?_
  refine .iterate (step_exec htest rfl) fun _ => ?_
  refine (evaluation_realizes m test _).bind fun v => ?_
  by_cases hv : v ≠ 0
  · rw [if_pos hv]
    refine .head (step_branch (if_pos hv) (henter enter rfl)) ?_
    refine (hbody.realizes k hbodyAt).bind fun _ => ?_
    exact (Realizes.counts hjump (by simp [entered, hcheck])).bind fun _ => .pure true rfl
  · rw [if_neg hv]
    refine .head (step_branch (if_neg hv) (hdone done rfl)) ?_
    exact .pure false rfl

end Implements

/-! ## §3 Statements by themselves -/

theorem evaluation_const (m : Machine) (v : Word) : evaluation m (.const v) = pure v :=
  (Realizes.silent v fun _ => rfl).evaluation_eq

/-- A statement that stands inside an expression is executed before the value. -/
theorem Implements.evaluation_sexpr {c : Stmt} {B : Behavior Unit} (h : Implements m c B)
    (hlabels : (Stmt.labelsOf c.flatten).Nodup) (e : Expr) :
    evaluation m (.sexpr c e) = (do B; evaluation m e) := by
  apply Realizes.evaluation_eq
  refine .head (fun σ => rfl) ((h.realizes (.value e .done) (placed_ofStmt hlabels)).bind fun _ => ?_)
  refine .head (fun σ => ?_) (evaluation_realizes m e .done)
  have hend : (Block.ofStmts [c]).stmts[0 + c.flatten.length]? = none := by
    rw [Block.getElem?_ofStmts, Stmt.flattenAll, Stmt.flattenAll, List.append_nil]
    simp
  show execStep m _ _ _ σ.temps σ.state = _
  unfold execStep
  rw [hend]
  rfl

/-- What a statement does in a block of its own, in front of an expression that does nothing. -/
def execution (m : Machine) (c : Stmt) : Behavior Unit := do
  let _ ← evaluation m (.sexpr c (.const 0))
  return ()

/-- **What a statement does by itself is what it does everywhere.** -/
theorem Implements.execution_eq {c : Stmt} {B : Behavior Unit} (h : Implements m c B)
    (hlabels : (Stmt.labelsOf c.flatten).Nodup) : execution m c = B := by
  rw [execution, h.evaluation_sexpr hlabels, evaluation_const]
  simp

/-- Executes statements in order. -/
def executionAll (m : Machine) : List Stmt → Behavior Unit
  | [] => pure ()
  | c :: cs => do
    execution m c
    executionAll m cs

theorem Implements.seq {cs : List Stmt} (h : ∀ c ∈ cs, Implements m c (execution m c)) :
    Implements m (.seq cs) (executionAll m cs) := by
  induction cs with
  | nil => exact .nil m
  | cons c cs ih =>
    obtain ⟨hc, hcs⟩ := List.forall_mem_cons.mp h
    exact hc.cons (ih hcs)

end MmixBackend.Machine
