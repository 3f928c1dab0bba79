import MmixBackend.Proofs.Machine.Structured

/-!
# What expressions do

The behavior of an expression is put together from those of its parts: its operands one after the
other, and the operator behind them. The arguments of a call are evaluated in order before anything
is stored. What the call does then is its invocation, which depends on the values alone.

A function whose body is an expression evaluates it in temps of its own, with its frame below the
stack pointer of the caller, and leaves the value at this stack pointer.

## Main statements

- `evaluation_binop`, `evaluation_mem`, `evaluation_call`: behaviors of expressions by those of
  their parts.
- `invocation_of_value`, `invocation_of_stop`: what the call of a function with a tree as its body does.
- `invocation_of_routine`, `invocation_of_stop_routine`: what the call of a routine does.
-/

namespace MmixBackend.Machine

open IR
open Relation (ReflTransGen)

variable {m : Machine} {α : Type}

/-! ## §1 Operands and operators -/

namespace Behavior

/-- Reads a temp. -/
def readTemp (t : Temp) : Behavior Word := act fun σ => .value (σ.temps.getD t 0) σ

/-- Reads a word of memory. -/
def load (addr : Word) : Behavior Word := act fun σ => .value (σ.state.memory.read addr) σ

/-- Has the result as its value, or ends the run. -/
def ofExcept : Except RuntimeError α → Behavior α
  | .ok a => pure a
  | .error e => .fail e

/-- One more time, as long as the behavior yields `true`. -/
theorem iterate_eq (B : Behavior Bool) :
    iterate B = do if ← B then iterate B else return () := by
  funext σ o
  refine propext ⟨fun h => ?_, fun h => ?_⟩
  · cases (show Iterate B σ o from h) with
    | done hb => exact .next hb rfl
    | again hb h => exact .next hb h
    | stop hb => exact .stop hb
  · cases h with
    | @next again _ _ hb h =>
      cases again with
      | false =>
        cases (show o = .value () _ from h)
        exact .done hb
      | true => exact .again hb h
    | stop hb => exact .stop hb

end Behavior

/-- One round of a loop, which yields whether there is another one. -/
def round (m : Machine) (test : Behavior Word) (body : Behavior Unit) : Behavior Bool := do
  Behavior.count m
  let v ← test
  if v ≠ 0 then do
    body
    Behavior.count m
    return true
  else return false

/-- **A loop goes through its rounds.** -/
theorem iterate_round (m : Machine) (test : Behavior Word) (body : Behavior Unit) :
    Behavior.iterate (round m test body) = do
      Behavior.count m
      let v ← test
      if v ≠ 0 then do
        body
        Behavior.count m
        Behavior.iterate (round m test body)
      else return () := by
  refine (Behavior.iterate_eq _).trans ?_
  generalize Behavior.iterate (round m test body) = next
  simp only [round, bind_assoc]
  refine bind_congr fun _ => bind_congr fun v => ?_
  by_cases hv : v ≠ 0
  · simp [if_pos hv]
  · simp [if_neg hv]

theorem evaluation_temp (m : Machine) (t : Temp) : evaluation m (.temp t) = .readTemp t :=
  (Realizes.act fun _ => rfl).evaluation_eq

theorem evaluation_name {l : Label} {addr : Word} (h : m.labels[l]? = some addr) :
    evaluation m (.name l) = pure addr := by
  refine (Realizes.silent addr fun σ => ?_).evaluation_eq
  show evalStep m (.name l) .done σ.temps σ.state = _
  simp only [evalStep, h]
  rfl

theorem evaluation_mem (m : Machine) (addr : Expr) :
    evaluation m (.mem addr) = evaluation m addr >>= .load := by
  apply Realizes.evaluation_eq
  refine .head (fun σ => rfl) ?_
  exact (evaluation_realizes m addr _).bind fun a => .act fun σ => rfl

theorem evaluation_unop (m : Machine) (op : UnOp) (arg : Expr) :
    evaluation m (.unop op arg) = (do let v ← evaluation m arg; return applyUnary op v) := by
  apply Realizes.evaluation_eq
  refine .head (fun σ => rfl) ?_
  exact (evaluation_realizes m arg _).bind fun v => .silent _ fun σ => rfl

theorem evaluation_binop (m : Machine) (op : BinOp) (fst snd : Expr) :
    evaluation m (.binop op fst snd) = (do
      let x ← evaluation m fst
      let y ← evaluation m snd
      .ofExcept (applyBinary op x y)) := by
  apply Realizes.evaluation_eq
  refine .head (fun σ => rfl) ?_
  refine (evaluation_realizes m fst _).bind fun x => .head (fun σ => rfl) ?_
  refine (evaluation_realizes m snd _).bind fun y => ?_
  cases hr : applyBinary op x y with
  | ok r =>
    refine .silent r fun σ => ?_
    show valueStep m y (.binApply op x .done) σ.temps σ.state = _
    simp only [valueStep, hr]
    rfl
  | error e =>
    refine .act fun σ => ?_
    show valueStep m y (.binApply op x .done) σ.temps σ.state = _
    simp only [valueStep, hr]
    rfl

/-! ## §2 Calls -/

/-- Evaluates arguments in order. -/
def evaluationAll (m : Machine) : List Expr → Behavior (List Word)
  | [] => return []
  | e :: es => do
    let v ← evaluation m e
    let vs ← evaluationAll m es
    return v :: vs

/-- What comes of a transition if a value is all that is asked for. -/
def Transition.Comes (m : Machine) : Transition → Outcome Word → Prop
  | .next c, .value v σ => ReflTransGen (Next m) c (σ.config (.value v .done))
  | .next c, .stop why s => Halts m c why.ending s
  | .stop ending s, o => ∃ why : Abort, why.ending = ending ∧ o = .stop why s

/-- What a call with these arguments does. -/
def invocation (m : Machine) (l : Label) (offs args : List Word) : Behavior Word := fun σ =>
  (call m l offs args .done σ.temps σ.state).Comes m

/-- The last argument of a call has its value. -/
theorem invocation_realizes (l : Label) (offs ready : List Word) (v : Word) (k : ValueContext) :
    Realizes m (.value v (.argument l offs ready [] k)) (fun r => .value r k)
      (invocation m l offs (v :: ready).reverse) := by
  -- The call under the context takes the transitions of the call alone, until it comes to its value.
  have hstep : ∀ σ : Scene, (call m l offs (v :: ready).reverse .done σ.temps σ.state).Carries k
      (step m (σ.config (.value v (.argument l offs ready [] k)))) := fun σ =>
    call_append m k σ.temps σ.state l offs (v :: ready).reverse .done
  -- A call that returns, one that stops the machine, and one that is cut off.
  refine ⟨fun {σ r σ'} h => ?_, fun {σ why s} h => ?_, fun {n σ ending s} hrun => ?_⟩
  · have hcarries := hstep σ
    replace h : Transition.Comes m _ _ := h
    generalize call m l offs _ .done σ.temps σ.state = first at h hcarries
    generalize ht : step m _ = t at hcarries
    cases hcarries with
    | next c => exact .head ht (steps_append k (show ReflTransGen _ _ _ from h))
    | stop why s =>
      obtain ⟨_, -, h⟩ := h
      cases h
  · have hcarries := hstep σ
    replace h : Transition.Comes m _ _ := h
    generalize call m l offs _ .done σ.temps σ.state = first at h hcarries
    generalize ht : step m _ = t at hcarries
    cases hcarries with
    | next c => exact .of_next ht (halts_append k (show Halts m c _ _ from h))
    | stop why' s' =>
      obtain ⟨_, hwhy, h⟩ := h
      cases h
      exact hwhy ▸ .of_stop ht
  · have hcarries := hstep σ
    cases n with
    | zero => cases hrun
    | succ n =>
      have hcomes : ∀ o, (call m l offs (v :: ready).reverse .done σ.temps σ.state).Comes m o →
          invocation m l offs (v :: ready).reverse σ o := fun _ h => h
      rw [runFor] at hrun
      generalize call m l offs _ .done σ.temps σ.state = first at hcomes hcarries
      generalize step m _ = t at hcarries hrun
      cases hcarries with
      | next c =>
        -- The transitions that are left may end inside the call, or get behind it.
        rcases runFor_append hrun with ⟨why, hhalts, hwhy⟩ | ⟨r, σ', n', hn', hsteps, hrun'⟩
        · exact .inl ⟨why, hcomes (.stop why s) hhalts, hwhy⟩
        · exact .inr ⟨r, σ', n', by omega, hcomes (.value r σ') hsteps, hrun'⟩
      | stop why s' =>
        cases hrun
        exact .inl ⟨why, hcomes _ ⟨why, rfl, rfl⟩, rfl⟩

/-- The arguments of a call, after those in `ready`. -/
theorem arguments_realizes (l : Label) (offs : List Word) (k : ValueContext) :
    ∀ (es : List Expr) (e : Expr)
    (ready : List Word), Realizes m (.eval e (.argument l offs ready es k)) (fun r => .value r k) (do
      let v ← evaluation m e
      let vs ← evaluationAll m es
      invocation m l offs (ready.reverse ++ v :: vs))
  | [], e, ready => by
    refine (evaluation_realizes m e _).bind fun v => ?_
    rw [evaluationAll, pure_bind, ← List.reverse_cons]
    exact invocation_realizes l offs ready v k
  | e' :: es, e, ready => by
    refine (evaluation_realizes m e _).bind fun v => .head (fun σ => rfl) ?_
    have hrest := arguments_realizes l offs k es e' (v :: ready)
    simpa [evaluationAll] using hrest

/-- **A call evaluates its arguments**, and is invoked with their values. -/
theorem evaluation_call (m : Machine) (l : Label) (offs : List Word) (e : Expr) (es : List Expr) :
    evaluation m (.call l offs (e :: es)) = evaluationAll m (e :: es) >>= invocation m l offs := by
  apply Realizes.evaluation_eq
  refine .head (fun σ => rfl) ?_
  simpa [evaluationAll] using arguments_realizes (m := m) l offs .done es e []

/-! ## §3 Invocations -/

/-- Without a step limit a statement is only counted. -/
theorem Behavior.count_of_unlimited (h : m.limit ≤ 0) :
    count m = act fun σ => .value () ⟨σ.temps, { σ.state with steps := σ.state.steps + 1 }⟩ := by
  have hno : ∀ steps, exceeds m steps = false := fun steps => by simp [exceeds, Int.not_lt.mpr h]
  funext σ o
  simp only [count, act, counted, hno, Bool.false_eq_true, if_false]

/-- The scene in which the body of a function is evaluated: the arguments are stored, and the frame
lies below the stack pointer of the caller. The body is one statement, which has been counted. -/
def Scene.enter (σ : Scene) (f : Frame) (offs args : List Word) : Scene where
  temps := (∅ : Temps).insert f.fp σ.state.sp
  state := { σ.state with
    memory := σ.state.memory.writeAt σ.state.sp offs args
    sp := σ.state.sp - f.size
    steps := σ.state.steps + 1 }

/-- The scene in which the caller goes on when the function has come to the scene `σ'` with a value. -/
def Scene.leave (σ σ' : Scene) (v : Word) : Scene where
  temps := σ.temps
  state := { σ'.state with sp := σ.state.sp, memory := σ'.state.memory.write σ.state.sp v }

section Invocation

variable {l : Label} {offs args : List Word} {f : Frame} {c : Expr} {σ σ' : Scene} {v : Word}

/-- A call enters the body of its function. -/
theorem call_eq_next (hargs : offs.length ≤ args.length) (hl : Routine.ofLabel? l = none)
    (hf : m.functions[l]? = some ⟨f, .ofStmts [.move (.temp f.rv) c]⟩) (k : ValueContext) :
    call m l offs args k σ.temps σ.state
      = .next ⟨.exec (.ofStmts [.move (.temp f.rv) c]) 0 (.ret f σ.state.sp σ.temps k),
          (σ.enter f offs args).temps,
          { (σ.enter f offs args).state with steps := σ.state.steps }⟩ := by
  simp only [call_eq_invoke hargs, invoke, hl, hf]
  rfl

/-- The body of a function, up to where its temp for the result is set. -/
theorem body_realizes (hlimit : m.limit ≤ 0) (f : Frame) (c : Expr) (k : BlockContext) :
    Realizes m (.exec (.ofStmts [.move (.temp f.rv) c]) 0 k)
      (fun _ => .exec (.ofStmts [.move (.temp f.rv) c]) 1 k) (do
        Behavior.act fun σ => .value () ⟨σ.temps, { σ.state with steps := σ.state.steps + 1 }⟩
        evaluation m c >>= .setTemp f.rv) := by
  rw [← Behavior.count_of_unlimited hlimit]
  exact (Implements.move m (.temp f.rv) c).realizes k
    (placed_ofStmt (by simp [Stmt.flatten, Stmt.labelsOf]))

/-- **A function returns**: the value of its body is the value of the call. -/
theorem invocation_of_value (hlimit : m.limit ≤ 0) (hargs : offs.length ≤ args.length)
    (hl : Routine.ofLabel? l = none)
    (hf : m.functions[l]? = some ⟨f, .ofStmts [.move (.temp f.rv) c]⟩)
    (h : evaluation m c (σ.enter f offs args) (.value v σ')) :
    invocation m l offs args σ (.value v (σ.leave σ' v)) := by
  have hbody := (body_realizes hlimit f c (.ret f σ.state.sp σ.temps .done)).value
    (σ := ⟨(σ.enter f offs args).temps, { (σ.enter f offs args).state with steps := σ.state.steps }⟩)
    (.next rfl (.next h rfl))
  unfold invocation
  rw [call_eq_next hargs hl hf]
  refine hbody.tail ?_
  show execStep m (.ofStmts [.move (.temp f.rv) c]) 1 (.ret f σ.state.sp σ.temps .done)
    (σ'.temps.insert f.rv v) σ'.state = _
  have hrv : (σ'.temps.insert f.rv v).getD f.rv 0 = v := by simp
  simp only [execStep, Block.getElem?_ofStmts, Stmt.flattenAll, Stmt.flatten, endBlock, hrv]
  rfl

/-- A function ends the run if its body does. -/
theorem invocation_of_stop (hlimit : m.limit ≤ 0) (hargs : offs.length ≤ args.length)
    (hl : Routine.ofLabel? l = none)
    (hf : m.functions[l]? = some ⟨f, .ofStmts [.move (.temp f.rv) c]⟩) {why : Abort} {s : State}
    (h : evaluation m c (σ.enter f offs args) (.stop why s)) :
    invocation m l offs args σ (.stop why s) := by
  have hbody := (body_realizes hlimit f c (.ret f σ.state.sp σ.temps .done)).stop
    (σ := ⟨(σ.enter f offs args).temps, { (σ.enter f offs args).state with steps := σ.state.steps }⟩)
    (.next rfl (.stop h))
  unfold invocation
  rw [call_eq_next hargs hl hf]
  exact hbody

variable {r : Routine} {s : State}

/-- A routine has a value. -/
theorem invocation_of_routine (hargs : offs.length ≤ args.length) (hl : Routine.ofLabel? l = some r)
    (h : r.run { σ.state with memory := σ.state.memory.writeAt σ.state.sp offs args } = (.value v, s)) :
    invocation m l offs args σ (.value v ⟨σ.temps, s⟩) := by
  unfold invocation
  rw [call_eq_invoke hargs, invoke, hl]
  dsimp only
  rw [h]
  exact ReflTransGen.refl

/-- A routine ends the run. -/
theorem invocation_of_stop_routine (hargs : offs.length ≤ args.length)
    (hl : Routine.ofLabel? l = some r) {why : Abort}
    (h : r.run { σ.state with memory := σ.state.memory.writeAt σ.state.sp offs args } = (why.ending, s)) :
    invocation m l offs args σ (.stop why s) := by
  unfold invocation
  rw [call_eq_invoke hargs, invoke, hl]
  dsimp only
  rw [h]
  cases why with
  | exit code => exact ⟨.exit code, rfl, rfl⟩
  | error e => exact ⟨.error e, rfl, rfl⟩

end Invocation

end MmixBackend.Machine
