import MmixBackend.Proofs.IR.Places
import Std.Data.String.ToInt

/-!
# Canonicalization preserves meaning

A machine that runs expression trees and a machine that runs the canonical chunks made from them end
alike: with the same result, run-time error or exit code, and in states that differ at most in the
number of executed statements. The proof answers each transition of the tree machine by transitions of
the other one (`Answered`); where the tree machine only moves inside an operand, the other one waits
and the weight of what is left goes down.

## Main statements

- `evalStep_answered`, `valueStep_answered`, `execStep_answered`: one transition of the tree machine.
- `canonicalization_preserves_runs`: the calls of two such machines end alike.
-/

namespace MmixBackend

/-- A temp that is handed out between two moments of a supply. -/
def Supply.HandsOutTemp (σ σ' : Supply) (t : Temp) : Prop :=
  σ.temps < t.index ∧ t.index ≤ σ'.temps

/-- A label that is handed out between two moments of a supply. -/
def Supply.HandsOutLabel (σ σ' : Supply) (l : Label) : Prop :=
  ∃ i, σ.labels < i ∧ i ≤ σ'.labels ∧ l = "L" ++ toString i

end MmixBackend

namespace MmixBackend.Machine

open IR Relation

/-! ## §1 Runs of canonical statements -/

section Statements

variable {m : Machine} {b : Block} {pc : Nat} {k : BlockContext} {temps : Temps} {s : State}

theorem exceeds_eq_false (hlimit : m.limit ≤ 0) (n : Nat) : exceeds m n = false := by
  have : ¬0 < m.limit := by omega
  simp [exceeds, this]

/-- The state after one more statement. -/
abbrev State.counted (s : State) : State := { s with steps := s.steps + 1 }

/-- A move into a temp evaluates its operand and goes on. -/
theorem exec_move (hlimit : m.limit ≤ 0) {t : Temp} {e : Expr} {v : Word}
    (h : b.stmts[pc]? = some (.move (.temp t) e)) (he : e.IsOperand)
    (hv : operandValue m temps s.memory e = .ok v) :
    TransGen (Next m) ⟨.exec b pc k, temps, s⟩
      ⟨.exec b (pc + 1) k, temps.insert t v, s.counted⟩ := by
  have hfirst : Next m ⟨.exec b pc k, temps, s⟩
      ⟨.eval e (.setTemp t b (pc + 1) k), temps, s.counted⟩ := by
    simp [Next, step, execStep, h, exceeds_eq_false hlimit]
  exact .tail (.head' hfirst (eval_operand (s := s.counted) he hv _)) rfl

/-- A move of an operand without a value stops the run. -/
theorem exec_move_error (hlimit : m.limit ≤ 0) {t : Temp} {e : Expr} {err : RuntimeError}
    (h : b.stmts[pc]? = some (.move (.temp t) e)) (he : e.IsOperand)
    (hv : operandValue m temps s.memory e = .error err) :
    ∃ s', Halts m ⟨.exec b pc k, temps, s⟩ (.error err) s' ∧ s.Alike s' := by
  refine ⟨s.counted, .of_next ?_ (fail_operand (s := s.counted) he hv (.setTemp t b (pc + 1) k)),
    _, rfl⟩
  simp [Next, step, execStep, h, exceeds_eq_false hlimit]

/-- A store to the address in a temp comes to its value. -/
theorem exec_store (hlimit : m.limit ≤ 0) {t : Temp} {e : Expr}
    (h : b.stmts[pc]? = some (.move (.mem (.temp t)) e)) :
    TransGen (Next m) ⟨.exec b pc k, temps, s⟩
      ⟨.eval e (.storeValue (temps.getD t 0) b (pc + 1) k), temps, s.counted⟩ := by
  have hfirst : Next m ⟨.exec b pc k, temps, s⟩
      ⟨.eval (.temp t) (.storeAddress e b (pc + 1) k), temps, s.counted⟩ := by
    simp [Next, step, execStep, h, exceeds_eq_false hlimit]
  exact .head hfirst (.head rfl (.single rfl))

/-- A move of an operator of two temps. -/
theorem exec_binop (hlimit : m.limit ≤ 0) {t t₁ t₂ : Temp} {op : BinOp} {v : Word}
    (h : b.stmts[pc]? = some (.move (.temp t) (.binop op (.temp t₁) (.temp t₂))))
    (hv : applyBinary op (temps.getD t₁ 0) (temps.getD t₂ 0) = .ok v) :
    TransGen (Next m) ⟨.exec b pc k, temps, s⟩
      ⟨.exec b (pc + 1) k, temps.insert t v, s.counted⟩ := by
  have hfirst : Next m ⟨.exec b pc k, temps, s⟩
      ⟨.eval (.binop op (.temp t₁) (.temp t₂)) (.setTemp t b (pc + 1) k), temps,
        s.counted⟩ := by
    simp [Next, step, execStep, h, exceeds_eq_false hlimit]
  have happly : Next m
      ⟨.value (temps.getD t₂ 0) (.binApply op (temps.getD t₁ 0) (.setTemp t b (pc + 1) k)), temps,
        s.counted⟩
      ⟨.value v (.setTemp t b (pc + 1) k), temps, s.counted⟩ := by
    simp [Next, step, valueStep, hv]
  exact .head hfirst (.head rfl (.head rfl (.head rfl (.head rfl (.head happly (.single rfl))))))

/-- The operator stops the run if it has no value. -/
theorem exec_binop_error (hlimit : m.limit ≤ 0) {t t₁ t₂ : Temp} {op : BinOp} {err : RuntimeError}
    (h : b.stmts[pc]? = some (.move (.temp t) (.binop op (.temp t₁) (.temp t₂))))
    (hv : applyBinary op (temps.getD t₁ 0) (temps.getD t₂ 0) = .error err) :
    Halts m ⟨.exec b pc k, temps, s⟩ (.error err) s.counted := by
  have hfirst : Next m ⟨.exec b pc k, temps, s⟩
      ⟨.eval (.binop op (.temp t₁) (.temp t₂)) (.setTemp t b (pc + 1) k), temps,
        s.counted⟩ := by
    simp [Next, step, execStep, h, exceeds_eq_false hlimit]
  refine .of_next hfirst (.of_next rfl (.of_next rfl (.of_next rfl (.of_next rfl (.of_stop ?_)))))
  simp [step, valueStep, hv]

/-- Arguments that are temps are read one after the other, and then the call is made. -/
theorem args_to_call (l : Label) (offs : List Word) (k : ValueContext) (ts : List Temp) (t : Temp)
    (ready : List Word) : ∃ d, ReflTransGen (Next m)
      ⟨.eval (.temp t) (.argument l offs ready (ts.map .temp) k), temps, s⟩ d ∧
      step m d = call m l offs (ready.reverse ++ (t :: ts).map (temps.getD · 0)) k temps s := by
  induction ts generalizing t ready with
  | nil =>
    refine ⟨⟨.value (temps.getD t 0) (.argument l offs ready [] k), temps, s⟩, .single rfl, ?_⟩
    simp [step, valueStep]
  | cons t' ts ih =>
    obtain ⟨d, hsteps, hcall⟩ := ih t' (temps.getD t 0 :: ready)
    refine ⟨d, .head rfl (.head rfl hsteps), ?_⟩
    simpa using hcall

/-- A move of a call of temps comes to the call. -/
theorem exec_call (hlimit : m.limit ≤ 0) {t : Temp} {l : Label} {offs : List Word} {ts : List Temp}
    (h : b.stmts[pc]? = some (.move (.temp t) (.call l offs (ts.map .temp)))) (k : BlockContext)
    (temps : Temps) (s : State) :
    ∃ d, ReflTransGen (Next m) ⟨.exec b pc k, temps, s⟩ d ∧
      step m d = call m l offs (ts.map (temps.getD · 0)) (.setTemp t b (pc + 1) k) temps
        s.counted := by
  have hfirst : Next m ⟨.exec b pc k, temps, s⟩
      ⟨.eval (.call l offs (ts.map .temp)) (.setTemp t b (pc + 1) k), temps,
        s.counted⟩ := by
    simp [Next, step, execStep, h, exceeds_eq_false hlimit]
  cases ts with
  | nil => exact ⟨_, .single hfirst, rfl⟩
  | cons t' ts =>
    obtain ⟨d, hsteps, hcall⟩ := args_to_call l offs (.setTemp t b (pc + 1) k) ts t' []
    exact ⟨d, .head hfirst (.head rfl hsteps), by simpa using hcall⟩

end Statements

/-- Where the operand that the code uses has no value, the run stops. -/
theorem Waits.fail {m : Machine} (hlimit : m.limit ≤ 0) {temps : Temps} {s : State}
    {err : RuntimeError} : ∀ {k : ValueContext} {a : Site} {p n : Int} {pc : Nat} {e : Expr},
    Waits k a p n temps pc e → e.IsOperand → operandValue m temps s.memory e = .error err →
    ∃ s', Halts m ⟨.exec a.block pc a.ret, temps, s⟩ (.error err) s' ∧ s.Alike s'
  | .done, _, _, _, _, _, h, _, _ => h.elim
  | .readMem k, _, _, _, _, e, h, he, hv =>
    Waits.fail hlimit (k := k) (e := .mem e) h he (by simp [operandValue, hv, Except.map])
  | .unApply op k, _, _, _, _, e, h, he, hv =>
    Waits.fail hlimit (k := k) (e := .unop op e) h he (by simp [operandValue, hv, Except.map])
  | .binSecond _ _ _, _, _, _, _, _, h, he, hv => exec_move_error hlimit h.2.1.1 he hv
  | .binApply _ _ _, _, _, _, _, _, h, he, hv => by
    obtain ⟨_, -, hcode, -⟩ := h
    exact exec_move_error hlimit hcode.1 he hv
  | .argument _ _ _ _ _, _, _, _, _, _, h, he, hv => by
    obtain ⟨_, -, -, hcode, -⟩ := h
    exact exec_move_error hlimit hcode.1 he hv
  | .drop _ _ _, a, _, _, pc, _, h, he, hv => by
    refine ⟨s.counted, .of_next ?_ (fail_operand (s := s.counted) he hv
      (.drop a.block (pc + 1) a.ret)), _, rfl⟩
    simp [Next, step, execStep, h.1.1, exceeds_eq_false hlimit]
  | .setTemp _ _ _ _, _, _, _, _, _, h, he, hv => exec_move_error hlimit h.2.1.1 he hv
  | .storeAddress _ _ _ _, _, _, _, _, _, h, he, hv => exec_move_error hlimit h.2.1.1 he hv
  | .storeValue _ _ _ _, _, _, _, _, _, h, he, hv => by
    obtain ⟨_, -, hcode, -⟩ := h
    -- The address comes first; it is a temp and has a value.
    exact ⟨s.counted, .of_steps (exec_store hlimit hcode.1).to_reflTransGen
      (fail_operand (s := s.counted) he hv _), _, rfl⟩
  | .branch pos neg _ _, a, _, _, pc, _, h, he, hv => by
    refine ⟨s.counted, .of_next ?_ (fail_operand (s := s.counted) he hv
      (.branch pos neg a.block a.ret)), _, rfl⟩
    simp [Next, step, execStep, h.1.1, exceeds_eq_false hlimit]

/-! ## §2 Calls -/

/-- A loaded function and its canonical form: the chunk starts with its entry label, and leaves by a
jump to an exit label that it does not define. -/
def Linearized (f f' : Function) : Prop :=
  f'.frame = f.frame ∧ ∃ (body : Stmt) (entry exit : Label) (n : Int),
    body.Shaped ∧ body.Closed ∧ f.body = .ofStmts [body] ∧
    f'.body = .ofStmts (.label entry :: ((body.lower n).stmts ++ [.jump exit])) ∧
    (entry :: body.labels).Nodup ∧ exit ∉ entry :: body.labels ∧
    ∀ t ∈ f.frame.rv :: body.temps, ¬(n < t.index ∧ t.index ≤ (body.lower n).next)

/-- Two machines without a step limit that have the same state and the same static data and, under the
same labels, functions and their canonical forms. -/
structure Counterpart (m m' : Machine) : Prop where
  state : m'.state = m.state
  labels : m'.labels = m.labels
  limit : m.limit ≤ 0
  limit' : m'.limit ≤ 0
  functions : ∀ l : Label, (m.functions[l]? = none ∧ m'.functions[l]? = none) ∨
    ∃ f f', m.functions[l]? = some f ∧ m'.functions[l]? = some f' ∧ Linearized f f'

section Calls

variable {m m' : Machine} {k k' : ValueContext} {temps temps' : Temps} {s s' : State}

/-- A value that goes back to the caller arrives on both sides. -/
theorem Site.Returns.related (m' : Machine)
    (h : Site.Returns (fun a p n temps pc e => Waits k a p n temps pc e) k temps k' temps')
    (hs : s.Alike s') (v : Word) :
    ∃ d, ReflTransGen (Next m') ⟨.value v k', temps', s'⟩ d ∧
      Related m' ⟨.value v k, temps, s⟩ d := by
  rcases h with ⟨rfl, rfl⟩ | ⟨a, p, n, t, pc, rfl, hlo, hp, htn, hn, ht, hk⟩
  · exact ⟨_, .refl, .done hs⟩
  · have hfresh : a.Fresh t := ⟨by omega, by omega⟩
    refine ⟨⟨.exec a.block pc a.ret, temps'.insert t v, s'⟩, .single rfl, ?_⟩
    exact .value (e := .temp t) hlo (by omega) trivial (by simp [operandValue]) (hk v)
      (ht.insert_fresh hfresh v) hs

/-- A function on one side and its canonical form on the other start at places that belong
together. -/
theorem Linearized.related (hm : Counterpart m m') {f f' : Function} (hf : Linearized f f')
    (h : Site.Returns (fun a p n temps pc e => Waits k a p n temps pc e) k temps k' temps')
    (hs : s.Alike s') (fp : Word) (own : Temps) :
    ∃ d, ReflTransGen (Next m') ⟨.exec f'.body 0 (.ret f'.frame fp temps' k'), own, s'⟩ d ∧
      Related m' ⟨.exec f.body 0 (.ret f.frame fp temps k), own, s⟩ d := by
  obtain ⟨hframe, body, entry, exit, n, hshaped, hclosed, hbody, hbody', hnodup, hexit, hfresh⟩ := hf
  have hflat : Stmt.flattenAll (.label entry :: ((body.lower n).stmts ++ [.jump exit]))
      = .label entry :: ((body.lower n).stmts ++ [.jump exit]) := by
    refine Stmt.flattenAll_of_ne_seq fun st hst => ?_
    have := body.ne_seq_of_mem_lower n st
    simp only [List.mem_cons, List.mem_append] at hst
    grind
  have hlabels : Stmt.labelsOf (.label entry :: ((body.lower n).stmts ++ [.jump exit]))
      = entry :: body.labels := by
    show entry :: Stmt.labelsOf ((body.lower n).stmts ++ [.jump exit]) = _
    rw [Stmt.labelsOf_append, body.labelsOf_lower hshaped]
    exact congrArg _ (List.append_nil _)
  obtain ⟨a, hstmts, hret, hlo, hhi⟩ : ∃ a : Site,
      a.stmts = .label entry :: ((body.lower n).stmts ++ [.jump exit]) ∧
      a.ret = .ret f'.frame fp temps' k' ∧ a.lo = n ∧ a.hi = (body.lower n).next :=
    ⟨⟨_, hflat, by rw [hlabels]; exact hnodup, _, _, _⟩, rfl, rfl, rfl, rfl⟩
  have hblock : f'.body = a.block := by rw [hbody', Site.block, hstmts]
  have hplain : ∀ t ∈ f.frame.rv :: body.temps, ¬a.Fresh t := by
    simpa only [Site.Fresh, hlo, hhi] using hfresh
  have hcode : CodeAt a.block 0 (.label entry :: ((body.lower n).stmts ++ [.jump exit])) := by
    rw [← hstmts]
    exact codeAt_ofStmts a.flat
  obtain ⟨hentry, hcode⟩ := codeAt_cons.mp hcode
  obtain ⟨hlower, hjump⟩ := codeAt_append.mp hcode
  -- The chunk passes its entry label and stands at the code of the body.
  refine ⟨⟨.exec a.block 1 a.ret, own, s'.counted⟩, .single ?_, ?_⟩
  · rw [hblock, hret]
    simp [Next, step, execStep, hentry, exceeds_eq_false hm.limit']
  · rw [hbody]
    refine .exec (p := n) (n := n) ?_ (fun _ _ => rfl) (hs.count_right _)
    refine ⟨body, n, n, 1, rfl, ⟨hshaped, fun t ht => hplain t (List.mem_cons_of_mem _ ht)⟩, hclosed,
      Int.le_of_eq hlo, Int.le_refl _, Int.le_refl _, ?_, ?_, rfl, rfl⟩
    · rw [← Stmt.lower_eq_lowerAll_flatten]
      exact hlower
    · rw [← Stmt.lower_eq_lowerAll_flatten]
      refine ⟨Int.le_of_eq hhi.symm, hplain _ List.mem_cons_self, exit, temps', k', by rw [hret, hframe],
        hjump, ?_, h⟩
      rw [hstmts, hlabels]
      exact hexit

/-- What a label names is run on both sides. -/
theorem invoke_answered (hm : Counterpart m m') {d d₀ : Config} {l : Label}
    (hd : ReflTransGen (Next m') d d₀) (hstep : step m' d₀ = invoke m' l k' temps' s')
    (h : Site.Returns (fun a p n temps pc e => Waits k a p n temps pc e) k temps k' temps')
    (hs : s.Alike s') (r : Nat) : Answered m' r d (invoke m l k temps s) := by
  obtain ⟨n, rfl⟩ := hs
  unfold invoke at hstep ⊢
  -- Routines do not look at the step counter, and the functions of the two machines are counterparts.
  cases hr : Routine.ofLabel? l with
  | some routine =>
    simp only [hr] at hstep ⊢
    have hrun := Routine.run_steps routine s n
    rw [hrun] at hstep
    cases hres : routine.run s with
    | mk ending s₁ =>
      rw [hres] at hstep
      cases ending with
      | value v =>
        obtain ⟨d', hsteps, hrel⟩ := h.related m' (s := s₁) ⟨n, rfl⟩ v
        exact .inl ⟨d', (TransGen.tail' hd hstep).trans_left hsteps, hrel⟩
      | exit code => exact ⟨_, .of_steps hd (.of_stop hstep), n, rfl⟩
      | error e => exact ⟨_, .of_steps hd (.of_stop hstep), n, rfl⟩
  | none =>
    simp only [hr] at hstep ⊢
    rcases hm.functions l with ⟨hf, hf'⟩ | ⟨f, f', hf, hf', hlin⟩
    · simp only [hf'] at hstep
      simp only [hf]
      exact ⟨_, .of_steps hd (.of_stop hstep), n, rfl⟩
    · simp only [hf'] at hstep
      simp only [hf]
      have hframe : f'.frame = f.frame := hlin.1
      obtain ⟨d', hsteps, hrel⟩ := hlin.related hm h (s := { s with sp := s.sp - f.frame.size })
        ⟨n, rfl⟩ s.sp ((∅ : Temps).insert f.frame.fp s.sp)
      refine .inl ⟨d', (TransGen.tail' hd (hstep.trans ?_)).trans_left hsteps, hrel⟩
      rw [hframe]

/-- A call is answered by the same call. -/
theorem call_answered (hm : Counterpart m m') {d d₀ : Config} {l : Label} {offs args : List Word}
    (hd : ReflTransGen (Next m') d d₀) (hstep : step m' d₀ = call m' l offs args k' temps' s')
    (h : Site.Returns (fun a p n temps pc e => Waits k a p n temps pc e) k temps k' temps')
    (hs : s.Alike s') (r : Nat) : Answered m' r d (call m l offs args k temps s) := by
  obtain ⟨n, rfl⟩ := hs
  rw [call] at hstep ⊢
  by_cases hlack : args.length < offs.length
  · rw [if_pos hlack] at hstep ⊢
    exact ⟨_, .of_steps hd (.of_stop hstep), n, rfl⟩
  · rw [if_neg hlack] at hstep ⊢
    exact invoke_answered hm hd hstep h ⟨n, rfl⟩ r

end Calls

/-! ## §3 One transition

The cases follow the control of the tree machine: an expression, a value, a statement. -/

section Answers

variable {m m' : Machine} {a : Site} {p n : Int} {pc : Nat} {temps temps' : Temps} {s s' : State}

theorem Site.Plain.binop {op : BinOp} {fst snd : Expr} (h : a.Plain (.binop op fst snd)) :
    a.Plain fst ∧ a.Plain snd :=
  ⟨⟨h.1.1, fun t ht => h.2 t (List.mem_append_left _ ht)⟩,
    ⟨h.1.2, fun t ht => h.2 t (List.mem_append_right _ ht)⟩⟩

theorem Site.PlainAll.cons {e : Expr} {es : List Expr} (h : a.PlainAll (e :: es)) :
    a.Plain e ∧ a.PlainAll es :=
  ⟨⟨h.1.1, fun t ht => h.2 t (List.mem_append_left _ ht)⟩,
    ⟨h.1.2, fun t ht => h.2 t (List.mem_append_right _ ht)⟩⟩

/-- Temps up to the bound are not touched by a fresh temp above it. -/
theorem getD_insert_above {t u : Temp} (hp : p < t.index) (hu : u.index ≤ p) (v : Word) :
    (temps.insert t v).getD u 0 = temps.getD u 0 := by
  have hne : t ≠ u := by
    rintro rfl
    omega
  simp [Std.HashMap.getD_insert, hne]

/-- What a context waits for is kept by a move into a fresh temp above its bound. -/
theorem Waits.insert_above {k : ValueContext} {e : Expr} (h : Waits k a p n temps pc e) {p' : Int}
    (hp' : p ≤ p') {t : Temp} (hp : p < t.index) (v : Word) :
    Waits k a p' n (temps.insert t v) pc e :=
  h.congr hp' fun _ _ hu => getD_insert_above hp hu v

/-- A name is looked up at once. Both machines have the same labels. -/
theorem name_answered (hm : Counterpart m m') {l : Label} {k : ValueContext} (hlo : a.lo ≤ p) (hp : p ≤ n)
    (hk : Waits k a p n temps' pc (.name l)) (ht : a.Agree temps temps') (hs : s.Alike s') :
    Answered m' (2 * (Expr.name l).weight + k.depth) ⟨.exec a.block pc a.ret, temps', s'⟩
      (evalStep m (.name l) k temps s) := by
  simp only [evalStep]
  cases hl : m.labels[l]? with
  | some addr =>
    refine .inr ⟨by simp [Config.rank, Expr.weight], .value (e := .name l) hlo hp trivial ?_ hk ht hs⟩
    simp [operandValue, hm.labels, hl]
  | none =>
    have hvalue : operandValue m' temps' s'.memory (.name l) = .error (.unknownLabel l) := by
      simp [operandValue, hm.labels, hl]
    obtain ⟨n, rfl⟩ := hs
    obtain ⟨s₁, hhalts, n₁, rfl⟩ := Waits.fail hm.limit' hk trivial hvalue
    exact ⟨_, hhalts, n₁, rfl⟩

/-- The first operand is evaluated first. -/
theorem binop_answered {op : BinOp} {fst snd : Expr} {k : ValueContext} (hlo : a.lo ≤ p) (hp : p ≤ n)
    (he : a.Plain (.binop op fst snd)) (hcode : CodeAt a.block pc ((Expr.binop op fst snd).lower n).stmts)
    (hk : Waits k a p ((Expr.binop op fst snd).lower n).next temps'
      (pc + ((Expr.binop op fst snd).lower n).stmts.length) ((Expr.binop op fst snd).lower n).value)
    (ht : a.Agree temps temps') (hs : s.Alike s') :
    Answered m' (2 * (Expr.binop op fst snd).weight + k.depth) ⟨.exec a.block pc a.ret, temps', s'⟩
      (evalStep m (.binop op fst snd) k temps s) := by
  simp only [Expr.lower, codeAt_append, List.length_append, List.length_cons, List.length_nil] at hcode hk
  refine .inr ⟨?_, .eval hlo hp he.binop.1 hcode.1 ⟨he.binop.2, hcode.2, ?_⟩ ht hs⟩
  · simp only [Config.rank, Expr.weight, ValueContext.depth]
    omega
  · have hpc : pc + (fst.lower n).stmts.length + (snd.lower ((fst.lower n).next + 1)).stmts.length + 3
        = pc + ((fst.lower n).stmts.length
          + ((snd.lower ((fst.lower n).next + 1)).stmts.length + (0 + 1 + 1) + 1)) := by
      omega
    rw [hpc]
    exact hk

/-- The first argument is evaluated first. -/
theorem firstArgument_answered {l : Label} {offs : List Word} {arg : Expr} {args : List Expr}
    {k : ValueContext} (hlo : a.lo ≤ p) (hp : p ≤ n) (he : a.Plain (.call l offs (arg :: args)))
    (hcode : CodeAt a.block pc ((Expr.call l offs (arg :: args)).lower n).stmts)
    (hk : Waits k a p ((Expr.call l offs (arg :: args)).lower n).next temps'
      (pc + ((Expr.call l offs (arg :: args)).lower n).stmts.length)
      ((Expr.call l offs (arg :: args)).lower n).value) (ht : a.Agree temps temps')
      (hs : s.Alike s') :
    Answered m' (2 * (Expr.call l offs (arg :: args)).weight + k.depth)
      ⟨.exec a.block pc a.ret, temps', s'⟩
      (evalStep m (.call l offs (arg :: args)) k temps s) := by
  have hargs : a.PlainAll (arg :: args) := ⟨he.1.2, he.2⟩
  simp only [Expr.lower, Expr.lowerArgs, codeAt_append, codeAt_cons, List.length_append, List.length_cons,
    List.length_nil] at hcode hk
  refine .inr ⟨?_, .eval hlo hp hargs.cons.1 hcode.1.1 ⟨[], hargs.cons.2, ⟨rfl, by simp⟩, ?_, ?_⟩ ht hs⟩
  · simp only [Config.rank, Expr.weight, Expr.weightAll, ValueContext.depth]
    omega
  · simp only [List.nil_append, codeAt_cons, codeAt_append]
    refine ⟨hcode.1.2.1, hcode.1.2.2, ?_, trivial⟩
    rw [← hcode.2.1]
    congr 1
    omega
  -- Counted from the end of the first argument, the rest of the call ends where the context waits.
  · have hpc : pc + (arg.lower n).stmts.length
          + (Expr.lowerArgs args ((arg.lower n).next + 1)).stmts.length + 2
        = pc + ((arg.lower n).stmts.length
          + ((Expr.lowerArgs args ((arg.lower n).next + 1)).stmts.length + 1) + (0 + 1)) := by
      omega
    rw [hpc]
    exact hk

/-- A block goes on alike after a move into a temp that is not fresh. -/
theorem Site.Inside.insert_plain {k : BlockContext} {b : Block} {i : Nat}
    (h : a.Inside (fun p n pc => EndsAt k a p n temps pc) b i p n pc) (hp : p ≤ a.hi) {t : Temp}
    (ht : ¬a.Fresh t) (v : Word) :
    a.Inside (fun p n pc => EndsAt k a p n (temps.insert t v) pc) b i p n pc := by
  refine h.imp (Int.le_refl _) fun p₀ _ _ hp₀ => EndsAt.congr fun u hlo hle => ?_
  have hne : t ≠ u := by
    rintro rfl
    exact ht ⟨hlo, by omega⟩
  simp [Std.HashMap.getD_insert, hne]

/-- A block goes on alike after a move into a fresh temp above its bound. -/
theorem Site.Inside.insert_above {k : BlockContext} {b : Block} {i : Nat}
    (h : a.Inside (fun p n pc => EndsAt k a p n temps pc) b i p n pc) {p' : Int} (hp' : p ≤ p')
    {t : Temp} (hp : p < t.index) (v : Word) :
    a.Inside (fun p n pc => EndsAt k a p n (temps.insert t v) pc) b i p' n pc :=
  h.imp hp' fun _ _ _ hp₀ => EndsAt.congr fun _ _ hle =>
    getD_insert_above hp (Int.le_trans hle hp₀) v

/-- A jump to a label of the block arrives at places that belong together. -/
theorem jump_answered {k : BlockContext} {b : Block} {i : Nat} {l : Label} {d d₀ : Config}
    (hin : a.Inside (fun p n pc => EndsAt k a p n temps' pc) b i p n pc)
    (hl : l ∈ Stmt.labelsOf b.stmts.toList) (hd : ReflTransGen (Next m') d d₀)
    (hstep : step m' d₀ = jump l a.block a.ret temps' s') (ht : a.Agree temps temps')
    (hs : s.Alike s') (r : Nat) : Answered m' r d (jump l b k temps s) := by
  obtain ⟨j, n', pc', hj, hj', hin'⟩ := hin.jump hl
  simp only [jump, hj, hj'] at hstep ⊢
  exact .inl ⟨_, .tail' hd hstep, .exec hin' ht hs⟩

/-- The canonical code has come to a place where the operand `e` has the value `v` that the tree
machine is about to pass to its context. -/
structure Site.Delivers (m' : Machine) (a : Site) (p n : Int) (temps temps' : Temps)
    (s s' : State) (e : Expr) (v : Word) : Prop where
  lo : a.lo ≤ p
  le : p ≤ n
  operand : e.IsOperand
  value : operandValue m' temps' s'.memory e = .ok v
  agree : a.Agree temps temps'
  alike : s.Alike s'

namespace Site.Delivers

variable {e : Expr} {v : Word} {k : ValueContext} {kb : BlockContext} {b : Block} {i : Nat}

theorem lt_one (h : a.Delivers m' p n temps temps' s s' e v) : p < n + 1 := Int.lt_add_one_of_le h.le

theorem lo_lt (h : a.Delivers m' p n temps temps' s s' e v) : a.lo < n + 1 :=
    Int.lt_of_le_of_lt h.lo h.lt_one

/-- The value may move into the next temp. -/
theorem agree_insert (h : a.Delivers m' p n temps temps' s s' e v) (hhi : n + 1 ≤ a.hi) :
    a.Agree temps (temps'.insert ⟨n + 1⟩ v) := h.agree.insert_fresh ⟨h.lo_lt, hhi⟩ v

/-- The value moves into a temp, and the code of the second operand comes next. -/
theorem binSecond (hm : Counterpart m m') (h : a.Delivers m' p n temps temps' s s' e v)
    {op : BinOp} {snd : Expr} (hk : Waits (.binSecond op snd k) a p n temps' pc e) :
    Answered m' (ValueContext.binSecond op snd k).depth ⟨.exec a.block pc a.ret, temps', s'⟩
      (valueStep m v (.binSecond op snd k) temps s) := by
  obtain ⟨hsnd, ⟨hmove, hcode⟩, hk⟩ := hk
  have hle := snd.le_lower_next (n + 1)
  have hhi := hk.le_hi
  obtain ⟨hsndCode, hrest⟩ := codeAt_append.mp hcode
  refine .inl ⟨_, exec_move hm.limit' hmove h.operand h.value, ?_⟩
  refine .eval (p := n + 1) (n := n + 1) (Int.le_of_lt h.lo_lt) (Int.le_refl _) hsnd hsndCode
    ⟨⟨n + 1⟩, .single h.lo_lt, hrest, ?_⟩ (h.agree_insert (by omega)) (h.alike.count_right _)
  have hpc : pc + 1 + (snd.lower (n + 1)).stmts.length + 2 = pc + (snd.lower (n + 1)).stmts.length +
      3 := by
    omega
  rw [hpc]
  exact hk.insert_above (Int.le_of_lt h.lt_one) h.lt_one v

/-- Both operands are in temps now, and the operator is applied to them. -/
theorem binApply (hm : Counterpart m m') (h : a.Delivers m' p n temps temps' s s' e v)
    {op : BinOp} {fst : Word} (hk : Waits (.binApply op fst k) a p n temps' pc e) :
    Answered m' (ValueContext.binApply op fst k).depth ⟨.exec a.block pc a.ret, temps', s'⟩
      (valueStep m v (.binApply op fst k) temps s) := by
  obtain ⟨t, hheld, ⟨hmove, hop, -⟩, hk⟩ := hk
  have hhi := hk.le_hi
  have hlt₁ := h.lt_one
  have hlt₂ : p < n + 2 := by omega
  -- The second operand gets a temp of its own, so the first is still there.
  have hfst : (temps'.insert ⟨n + 1⟩ v).getD t 0 = fst := by
    rw [getD_insert_above (p := p) hlt₁ (hheld.2 t List.mem_cons_self).2]
    simpa using hheld.1
  have hsnd : (temps'.insert ⟨n + 1⟩ v).getD ⟨n + 1⟩ 0 = v := Std.HashMap.getD_insert_self
  have hsteps := exec_move (k := a.ret) hm.limit' hmove h.operand h.value
  simp only [valueStep]
  -- Where the operator fails both machines stop.
  cases hres : applyBinary op fst v with
  | ok r =>
    have hop' := exec_binop (k := a.ret) (s := s'.counted) hm.limit' hop (by rw [hfst, hsnd]; exact hres)
    refine .inl ⟨_, hsteps.trans hop', ?_⟩
    refine .value (e := .temp ⟨n + 2⟩) (n := n + 2) h.lo (Int.le_of_lt hlt₂) trivial ?_ ?_ ?_
      ((h.alike.count_right _).count_right _)
    · exact congrArg _ Std.HashMap.getD_insert_self
    · exact (hk.insert_above (Int.le_refl _) hlt₁ v).insert_above (Int.le_refl _) hlt₂ r
    · exact (h.agree_insert (by omega)).insert_fresh ⟨Int.lt_of_le_of_lt h.lo hlt₂, hhi⟩ r
  | error err =>
    have hop' := exec_binop_error (k := a.ret) (s := s'.counted) hm.limit' hop
      (by rw [hfst, hsnd]; exact hres)
    exact ⟨_, .of_steps hsteps.to_reflTransGen hop', (h.alike.count_right _).count_right _⟩

/-- With the value all arguments that have been evaluated are in temps. -/
theorem holds_insert (h : a.Delivers m' p n temps temps' s s' e v) {ts : List Temp} {ready : List Word}
    (hheld : a.Holds p temps' ts ready.reverse) :
    a.Holds (n + 1) (temps'.insert ⟨n + 1⟩ v) (ts ++ [⟨n + 1⟩]) (v :: ready).reverse := by
  rw [List.reverse_cons]
  exact hheld.append h.lo_lt h.lt_one

/-- This was the last argument, so the call follows. -/
theorem lastArgument (hm : Counterpart m m') (h : a.Delivers m' p n temps temps' s s' e v) {l : Label}
    {offs ready : List Word} (hk : Waits (.argument l offs ready [] k) a p n temps' pc e) :
    Answered m' (ValueContext.argument l offs ready [] k).depth ⟨.exec a.block pc a.ret, temps', s'⟩
      (valueStep m v (.argument l offs ready [] k) temps s) := by
  obtain ⟨ts, -, hheld, ⟨hmove, hcode⟩, hk⟩ := hk
  have hlt₁ := h.lt_one
  have hlt₂ : p < n + 2 := by omega
  have hsteps := exec_move (k := a.ret) hm.limit' hmove h.operand h.value
  obtain ⟨d, hcallSteps, hcall⟩ := exec_call hm.limit' hcode.1 a.ret (temps'.insert ⟨n + 1⟩ v) s'.counted
  have hargs : List.map ((temps'.insert ⟨n + 1⟩ v).getD · 0)
      (ts ++ ⟨n + 1⟩ :: (Expr.lowerArgs [] (n + 1)).temps) = (v :: ready).reverse :=
        (h.holds_insert hheld).1
  rw [hargs] at hcall
  have hnext : (Expr.lowerArgs [] (n + 1)).next + 1 = n + 2 := by
    show n + 1 + 1 = n + 2
    omega
  rw [hnext] at hcall hk
  have hhi := hk.le_hi
  exact call_answered hm (hsteps.to_reflTransGen.trans hcallSteps) hcall
    (.inr ⟨a, p, n + 2, ⟨n + 2⟩, pc + 2, rfl, h.lo, hlt₂, Int.le_refl _, hhi, h.agree_insert
      (by omega), fun w =>
      (hk.insert_above (Int.le_refl _) hlt₁ v).insert_above (Int.le_refl _) hlt₂ w⟩)
    ((h.alike.count_right _).count_right _) _

/-- The value moves into a temp, and the code of the next argument follows. -/
theorem nextArgument (hm : Counterpart m m') (h : a.Delivers m' p n temps temps' s s' e v) {l : Label}
    {offs ready : List Word} {e' : Expr} {es : List Expr}
    (hk : Waits (.argument l offs ready (e' :: es) k) a p n temps' pc e) :
    Answered m' (ValueContext.argument l offs ready (e' :: es) k).depth
      ⟨.exec a.block pc a.ret, temps', s'⟩
      (valueStep m v (.argument l offs ready (e' :: es) k) temps s) := by
  obtain ⟨ts, hrest, hheld, ⟨hmove, hcode⟩, hk⟩ := hk
  have hle := Expr.le_lowerArgs_next (e' :: es) (n + 1)
  have hhi := hk.le_hi
  simp only [Expr.lowerArgs, codeAt_append, codeAt_cons, List.length_append, List.length_cons] at hcode hk
  refine .inl ⟨_, exec_move hm.limit' hmove h.operand h.value, .eval (p := n + 1) (n := n + 1)
    (Int.le_of_lt h.lo_lt) (Int.le_refl _) hrest.cons.1 hcode.1.1
    ⟨ts ++ [⟨n + 1⟩], hrest.cons.2, h.holds_insert hheld, ?_, ?_⟩ (h.agree_insert (by omega))
      (h.alike.count_right _)⟩
  · simp only [codeAt_cons, codeAt_append, List.append_assoc, List.cons_append, List.nil_append]
    refine ⟨hcode.1.2.1, hcode.1.2.2, ?_, trivial⟩
    rw [← hcode.2.1]
    congr 1
    omega
  · have hpc : pc + 1 + (e'.lower (n + 1)).stmts.length
          + (Expr.lowerArgs es ((e'.lower (n + 1)).next + 1)).stmts.length + 2
        = pc + ((e'.lower (n + 1)).stmts.length
          + ((Expr.lowerArgs es ((e'.lower (n + 1)).next + 1)).stmts.length + 1)) + 2 := by
      omega
    rw [hpc]
    exact hk.insert_above (Int.le_of_lt h.lt_one) h.lt_one v

/-- The address moves into a temp, and the code of the value comes next. -/
theorem storeAddress (hm : Counterpart m m') (h : a.Delivers m' p n temps temps' s s' e v) {src : Expr}
    (hk : Waits (.storeAddress src b i kb) a p n temps' pc e) :
    Answered m' (ValueContext.storeAddress src b i kb).depth ⟨.exec a.block pc a.ret, temps', s'⟩
      (valueStep m v (.storeAddress src b i kb) temps s) := by
  obtain ⟨hsrc, ⟨hmove, hcode⟩, hin⟩ := hk
  have hle := src.le_lower_next (n + 1)
  have hhi := hin.le_hi fun _ _ _ => EndsAt.le_hi
  obtain ⟨hsrcCode, hstore⟩ := codeAt_append.mp hcode
  refine .inl ⟨_, exec_move hm.limit' hmove h.operand h.value, ?_⟩
  refine .eval (p := n + 1) (n := n + 1) (Int.le_of_lt h.lo_lt) (Int.le_refl _) hsrc hsrcCode
    ⟨⟨n + 1⟩, .single h.lo_lt, hstore, ?_⟩ (h.agree_insert (by omega)) (h.alike.count_right _)
  have hpc : pc + 1 + (src.lower (n + 1)).stmts.length + 1 = pc + (src.lower (n + 1)).stmts.length +
      2 := by
    omega
  rw [hpc]
  exact hin.insert_above (Int.le_of_lt h.lt_one) h.lt_one v

/-- The address has been kept in a temp, and both machines write the value there. -/
theorem storeValue (hm : Counterpart m m') (h : a.Delivers m' p n temps temps' s s' e v) {addr : Word}
    (hk : Waits (.storeValue addr b i kb) a p n temps' pc e) :
    Answered m' (ValueContext.storeValue addr b i kb).depth ⟨.exec a.block pc a.ret, temps', s'⟩
      (valueStep m v (.storeValue addr b i kb) temps s) := by
  obtain ⟨t, hheld, ⟨hstore, -⟩, hin⟩ := hk
  have haddr : temps'.getD t 0 = addr := by simpa using hheld.1
  have hsteps : TransGen (Next m') ⟨.exec a.block pc a.ret, temps', s'⟩
      ⟨.eval e (.storeValue addr a.block (pc + 1) a.ret), temps', s'.counted⟩ := by
    rw [← haddr]
    exact exec_store hm.limit' hstore
  refine .inl ⟨_, .tail (hsteps.trans_left (eval_operand (s := s'.counted) h.operand h.value _)) rfl,
    .exec hin h.agree ?_⟩
  obtain ⟨c, rfl⟩ := h.alike
  exact ⟨c + 1, rfl⟩

/-- The code evaluates the condition, and both machines jump to the same label. -/
theorem branch (hm : Counterpart m m') (h : a.Delivers m' p n temps temps' s s' e v) {pos neg : Label}
    (hk : Waits (.branch pos neg b kb) a p n temps' pc e) :
    Answered m' (ValueContext.branch pos neg b kb).depth ⟨.exec a.block pc a.ret, temps', s'⟩
      (valueStep m v (.branch pos neg b kb) temps s) := by
  obtain ⟨⟨hjump, -⟩, hlabels, i, hin⟩ := hk
  have hfirst : Next m' ⟨.exec a.block pc a.ret, temps', s'⟩
      ⟨.eval e (.branch pos neg a.block a.ret), temps', s'.counted⟩ := by
    simp [Next, step, execStep, hjump, exceeds_eq_false hm.limit']
  have hl : (if v ≠ 0 then pos else neg) ∈ Stmt.labelsOf b.stmts.toList := by
    split
    · exact hlabels pos (by simp)
    · exact hlabels neg (by simp)
  exact jump_answered hin hl (.head hfirst (eval_operand (s := s'.counted) h.operand h.value _)) rfl
    h.agree
    (h.alike.count_right _) _

end Site.Delivers

/-- The statement in front of an expression is a block of its own. -/
theorem sexpr_answered {stmt : Stmt} {value : Expr} {k : ValueContext} (hlo : a.lo ≤ p) (hp : p ≤ n)
    (he : a.Plain (.sexpr stmt value)) (hcode : CodeAt a.block pc ((Expr.sexpr stmt value).lower n).stmts)
    (hk : Waits k a p ((Expr.sexpr stmt value).lower n).next temps'
      (pc + ((Expr.sexpr stmt value).lower n).stmts.length) ((Expr.sexpr stmt value).lower n).value)
    (ht : a.Agree temps temps') (hs : s.Alike s') :
    Answered m' (2 * (Expr.sexpr stmt value).weight + k.depth) ⟨.exec a.block pc a.ret, temps', s'⟩
      (evalStep m (.sexpr stmt value) k temps s) := by
  simp only [Expr.lower, codeAt_append, List.length_append] at hcode hk
  have hstmt : a.PlainStmt stmt := ⟨he.1.1, fun t ht => he.2 t (List.mem_append_left _ ht)⟩
  have hvalue : a.Plain value := ⟨he.1.2.2, fun t ht => he.2 t (List.mem_append_right _ ht)⟩
  refine .inr ⟨?_, .exec (p := p) (n := n) ?_ ht hs⟩
  · -- The first statement of the block weighs no more than the whole statement.
    cases hst : (Block.ofStmts [stmt]).stmts[0]? with
    | some st =>
      have hmem : st ∈ stmt.flatten := by
        rw [Block.getElem?_ofStmts] at hst
        simpa [Stmt.flattenAll] using List.mem_of_getElem? hst
      have hweight := stmt.weight_le_of_mem_flatten st hmem
      rw [Config.rank_exec_some hst]
      simp only [Expr.weight, BlockContext.rank]
      omega
    | none =>
      rw [Config.rank_exec_none hst]
      simp only [Expr.weight, BlockContext.rank]
      omega
  · refine ⟨stmt, p, n, pc, rfl, hstmt, he.1.2.1, hlo, Int.le_refl _, hp, ?_, ?_, rfl, rfl⟩
    · rw [← Stmt.lower_eq_lowerAll_flatten]
      exact hcode.1
    · rw [← Stmt.lower_eq_lowerAll_flatten]
      refine ⟨hvalue, hcode.2, ?_⟩
      rw [Nat.add_assoc]
      exact hk

/-- The first transition of an expression. -/
theorem evalStep_answered (hm : Counterpart m m') {e : Expr} {k : ValueContext} (hlo : a.lo ≤ p)
    (hp : p ≤ n) (he : a.Plain e) (hcode : CodeAt a.block pc (e.lower n).stmts)
    (hk : Waits k a p (e.lower n).next temps' (pc + (e.lower n).stmts.length) (e.lower n).value)
    (ht : a.Agree temps temps') (hs : s.Alike s') :
    Answered m' (2 * e.weight + k.depth) ⟨.exec a.block pc a.ret, temps', s'⟩
      (evalStep m e k temps s) := by
  cases e with
  | absent => exact he.1.elim
  | const v =>
    exact .inr ⟨by simp [Config.rank, Expr.weight],
      .value (e := .const v) hlo hp trivial rfl hk ht hs⟩
  | temp t =>
    refine .inr ⟨by simp [Config.rank, Expr.weight],
      .value (e := .temp t) hlo hp trivial ?_ hk ht hs⟩
    rw [operandValue, ht t (he.2 t List.mem_cons_self)]
  | name l => exact name_answered hm hlo hp hk ht hs
  | mem addr =>
    refine .inr ⟨?_, .eval hlo hp he hcode hk ht hs⟩
    simp only [Config.rank, Expr.weight, ValueContext.depth]
    omega
  | unop op arg =>
    refine .inr ⟨?_, .eval hlo hp he hcode hk ht hs⟩
    simp only [Config.rank, Expr.weight, ValueContext.depth]
    omega
  | binop op fst snd => exact binop_answered hlo hp he hcode hk ht hs
  | call l offs args =>
    cases args with
    | nil =>
      -- Without arguments the call is made at once.
      obtain ⟨d, hsteps, hcall⟩ := exec_call hm.limit' hcode.1 a.ret temps' s'
      refine call_answered hm hsteps hcall (.inr ⟨a, p, n + 1, ⟨n + 1⟩, pc + 1, rfl, hlo, ?_,
        Int.le_refl _, hk.le_hi, ht, fun v => hk.insert_above (Int.le_refl _) ?_ v⟩)
        (hs.count_right _) _
      · exact Int.lt_add_one_of_le hp
      · exact Int.lt_add_one_of_le hp
    | cons arg args => exact firstArgument_answered hlo hp he hcode hk ht hs
  | sexpr stmt value => exact sexpr_answered hlo hp he hcode hk ht hs

/-- A value is passed to its context. -/
theorem valueStep_answered (hm : Counterpart m m') {v : Word} {e : Expr} {k : ValueContext}
    (hlo : a.lo ≤ p) (hp : p ≤ n) (he : e.IsOperand)
    (hv : operandValue m' temps' s'.memory e = .ok v) (hk : Waits k a p n temps' pc e)
    (ht : a.Agree temps temps') (hs : s.Alike s') :
    Answered m' k.depth ⟨.exec a.block pc a.ret, temps', s'⟩ (valueStep m v k temps s) := by
  have h : a.Delivers m' p n temps temps' s s' e v := ⟨hlo, hp, he, hv, ht, hs⟩
  cases k with
  | done => exact hk.elim
  | readMem k =>
    -- Loads and unary operators stay in the operand, so only the tree machine steps.
    refine .inr ⟨Nat.lt_succ_self _, .value (e := .mem e) hlo hp he ?_ hk ht hs⟩
    rw [operandValue, hv, ← hs.memory_eq]
    rfl
  | unApply op k =>
    refine .inr ⟨Nat.lt_succ_self _, .value (e := .unop op e) hlo hp he ?_ hk ht hs⟩
    rw [operandValue, hv]
    rfl
  | binSecond op snd k => exact h.binSecond hm hk
  | binApply op fst k => exact h.binApply hm hk
  | argument l offs ready rest k =>
    cases rest with
    | nil => exact h.lastArgument hm hk
    | cons e' es => exact h.nextArgument hm hk
  | drop b i k =>
    have hfirst : Next m' ⟨.exec a.block pc a.ret, temps', s'⟩
        ⟨.eval e (.drop a.block (pc + 1) a.ret), temps', s'.counted⟩ := by
      simp [Next, step, execStep, hk.1.1, exceeds_eq_false hm.limit']
    exact .inl ⟨_, .tail (.head' hfirst (eval_operand (s := s'.counted) he hv _)) rfl,
      .exec hk.2 ht (hs.count_right _)⟩
  | setTemp t b i k =>
    obtain ⟨hplain, ⟨hmove, -⟩, hin⟩ := hk
    have hhi := hin.le_hi fun _ _ _ => EndsAt.le_hi
    exact .inl ⟨_, exec_move hm.limit' hmove he hv,
      .exec (hin.insert_plain (Int.le_trans hp hhi) hplain v) (ht.insert_both t v)
        (hs.count_right _)⟩
  | storeAddress src b i k => exact h.storeAddress hm hk
  | storeValue addr b i k => exact h.storeValue hm hk
  | branch pos neg b k => exact h.branch hm hk

/-- A body that has come to its end jumps to its exit and hands its result back. -/
theorem return_answered (hm : Counterpart m m') {frame : Frame} {fp : Word} {callerTemps : Temps}
    {k : ValueContext} (h : EndsAt (.ret frame fp callerTemps k) a p n temps' pc)
    (ht : a.Agree temps temps') (hs : s.Alike s') (r : Nat) :
    Answered m' r ⟨.exec a.block pc a.ret, temps', s'⟩
      (endBlock temps s (.ret frame fp callerTemps k)) := by
  obtain ⟨-, hrv, exit, callerTemps', k', hret, ⟨hjump, -⟩, hexit, hreturns⟩ := h
  have hfound : a.block.labels[exit]? = none := by
    rcases Block.labels_ofStmts a.stmts exit with ⟨i, hi, -⟩ | ⟨-, hnone⟩
    · rw [a.flat] at hi
      exact absurd (Stmt.mem_labelsOf.mpr (List.mem_of_getElem? hi)) hexit
    · exact hnone
  have hstep : Next m' ⟨.exec a.block pc a.ret, temps', s'⟩
      ⟨.value (temps.getD frame.rv 0) k', callerTemps',
        { s'.counted with sp := fp, memory := s'.memory.write fp (temps.getD frame.rv 0) }⟩ := by
    simp [Next, step, execStep, hjump, exceeds_eq_false hm.limit', jump, hfound, hret, endBlock,
      ht frame.rv hrv]
  have hs' : State.Alike { s with sp := fp, memory := s.memory.write fp (temps.getD frame.rv 0) }
      { s'.counted with sp := fp, memory := s'.memory.write fp (temps.getD frame.rv 0) } := by
    obtain ⟨c, rfl⟩ := hs
    exact ⟨c + 1, rfl⟩
  obtain ⟨d, hsteps, hrel⟩ := hreturns.related m' hs' (temps.getD frame.rv 0)
  exact .inl ⟨d, .head' hstep hsteps, hrel⟩

/-- The statement at hand is executed. -/
theorem execStep_answered (hm : Counterpart m m') {b : Block} {i : Nat} {k : BlockContext}
    (hin : a.Inside (fun p n pc => EndsAt k a p n temps' pc) b i p n pc)
    (ht : a.Agree temps temps') (hs : s.Alike s') :
    Answered m' (Config.rank ⟨.exec b i k, temps, s⟩) ⟨.exec a.block pc a.ret, temps', s'⟩
      (execStep m b i k temps s) := by
  obtain ⟨p, hlo, hp, -, hin⟩ := hin.tighten
  cases hst : b.stmts[i]? with
  | none =>
    simp only [execStep, hst]
    obtain ⟨p₀, -, hlo₀, hp₀, hend⟩ := hin.ended hst
    -- The end of the list: a value may still be due, or else the function returns.
    cases k with
    | value e k =>
      refine .inr ⟨?_, .eval hlo₀ hp₀ hend.1 hend.2.1 hend.2.2 ht hs⟩
      rw [Config.rank_exec_none hst]
      exact Nat.lt_succ_self _
    | ret frame fp callerTemps k => exact return_answered hm hend ht hs _
  | some st =>
    obtain ⟨hplain, hne, htargets, hcode, hnext⟩ := hin.stmt hst
    simp only [execStep, hst, exceeds_eq_false hm.limit, Bool.false_eq_true, if_false]
    cases st with
    | absent => exact hplain.1.elim
    | seq ss => exact absurd rfl (hne ss)
    -- Labels and jumps are the same in both lists, so both machines move.
    | label l =>
      refine .inl ⟨⟨.exec a.block (pc + 1) a.ret, temps', s'.counted⟩, .single ?_,
        .exec hnext ht (hs.count.count_right _)⟩
      simp [Next, step, execStep, hcode.1, exceeds_eq_false hm.limit']
    | jump l =>
      have hstep : step m' ⟨.exec a.block pc a.ret, temps', s'⟩
          = jump l a.block a.ret temps' s'.counted := by
        simp [step, execStep, hcode.1, exceeds_eq_false hm.limit']
      exact jump_answered hin (htargets l List.mem_cons_self) .refl hstep ht
        (hs.count.count_right _) _
    | eval e =>
      simp only [Stmt.lower, codeAt_append, List.length_append] at hcode hnext
      -- The tree machine turns to the expression, whose code is where the other machine is already.
      refine .inr ⟨?_, .eval hlo hp ⟨hplain.1, hplain.2⟩ hcode.1 ⟨hcode.2, hnext⟩ ht hs.count⟩
      -- The other machine stands still, but the rank goes down, so this happens finitely often.
      rw [Config.rank_exec_some hst]
      simp only [Config.rank, Stmt.weight, ValueContext.depth]
      omega
    | cjump cond pos neg =>
      simp only [Stmt.lower, codeAt_append, List.length_append] at hcode hnext
      refine .inr ⟨?_, .eval hlo hp ⟨hplain.1, hplain.2⟩ hcode.1
        ⟨hcode.2, fun l hl => htargets l (by simpa [Stmt.targetsOf] using hl), i + 1, hnext⟩ ht
        hs.count⟩
      rw [Config.rank_exec_some hst]
      simp only [Config.rank, Stmt.weight, ValueContext.depth]
      omega
    | move dst src =>
      cases dst with
      | temp t =>
        simp only [Stmt.lower, codeAt_append, List.length_append] at hcode hnext
        have ht' : ¬a.Fresh t := hplain.2 t List.mem_cons_self
        have hsrc : a.Plain src := ⟨hplain.1, fun u hu => hplain.2 u (List.mem_cons_of_mem _ hu)⟩
        refine .inr ⟨?_, .eval hlo hp hsrc hcode.1 ⟨ht', hcode.2, hnext⟩ ht hs.count⟩
        rw [Config.rank_exec_some hst]
        simp only [Config.rank, Stmt.weight, ValueContext.depth]
        omega
      | mem addr =>
        simp only [Stmt.lower, codeAt_append, codeAt_cons, List.length_append, List.length_cons,
          List.length_nil] at hcode hnext
        have haddr : a.Plain addr :=
          ⟨hplain.1.1, fun u hu => hplain.2 u (List.mem_append_left _ hu)⟩
        have hsrc : a.Plain src :=
          ⟨hplain.1.2, fun u hu => hplain.2 u (List.mem_append_right _ hu)⟩
        refine .inr ⟨?_, .eval hlo hp haddr hcode.1 ⟨hsrc, ?_, ?_⟩ ht hs.count⟩
        · rw [Config.rank_exec_some hst]
          simp only [Config.rank, Stmt.weight, Expr.weight, ValueContext.depth]
          omega
        · simpa only [codeAt_append, codeAt_cons] using hcode.2
        -- What follows stands behind the code of both operands, the move between and the store.
        · have hpc : pc + (addr.lower n).stmts.length
                + (src.lower ((addr.lower n).next + 1)).stmts.length + 2
              = pc + ((addr.lower n).stmts.length
                + ((src.lower ((addr.lower n).next + 1)).stmts.length + (0 + 1) + 1)) := by
            omega
          rw [hpc]
          exact hnext
      | absent | const _ | name _ | binop _ _ _ | unop _ _ | call _ _ _ | sexpr _ _ => exact hplain.1.elim

end Answers

/-- Every transition of the tree machine is answered. -/
theorem Related.answered {m m' : Machine} (hm : Counterpart m m') {c d : Config}
    (h : Related m' c d) : Answered m' c.rank d (step m c) := by
  cases h with
  | eval hlo hp he hcode hk ht hs => exact evalStep_answered hm hlo hp he hcode hk ht hs
  | value hlo hp he hv hk ht hs => exact valueStep_answered hm hlo hp he hv hk ht hs
  | exec hin ht hs => exact execStep_answered hm hin ht hs
  | done hs => exact ⟨_, .of_stop rfl, hs⟩

/-- Machines with the same functions as trees and as chunks simulate each other. -/
def Counterpart.simulation {m m' : Machine} (hm : Counterpart m m') :
    RankedSimulation m m' (Related m') State.Alike where
  rank := Config.rank
  stop h hstep := by
    have := h.answered hm
    rwa [hstep] at this
  next h hstep := by
    have := h.answered hm
    rwa [hstep] at this

/-! ## §4 Calls from the outside -/

section Outside

variable {m m' : Machine} {label : Label} {offs args : List Word} {ending : Ending}

/-- A configuration that is about to make a call with evaluated arguments. -/
def Config.calling (label : Label) (offs args : List Word) (s : State) : Config :=
  match args.reverse with
  | [] => ⟨.eval (.call label offs []) .done, ∅, s⟩
  | v :: ready => ⟨.value v (.argument label offs ready [] .done), ∅, s⟩

theorem step_calling (m : Machine) (label : Label) (offs args : List Word) (s : State) :
    step m (.calling label offs args s) = call m label offs args .done ∅ s := by
  unfold Config.calling
  split
  · rename_i h
    rw [List.reverse_eq_nil_iff.mp h]
    rfl
  · rename_i v ready h
    have hargs : args = (v :: ready).reverse := by rw [← h, List.reverse_reverse]
    rw [hargs]
    rfl

theorem callEnds_iff_halts {s : State} : CallEnds m label offs args ending s ↔
    Halts m (.calling label offs args m.state) ending s := by
  have hstep := step_calling m label offs args m.state
  unfold CallEnds
  cases hcall : call m label offs args .done ∅ m.state with
  | stop e s₁ =>
    rw [hcall] at hstep
    constructor
    · rintro ⟨rfl, rfl⟩
      exact .of_stop hstep
    · intro h
      exact (Halts.of_stop hstep).ending_unique h
  | next c =>
    rw [hcall] at hstep
    constructor
    · intro h
      exact h.of_next hstep
    · rintro ⟨fuel, hrun⟩
      obtain ⟨fuel', -, hrun'⟩ := runFor_drop_next hstep hrun
      exact ⟨fuel', hrun'⟩

/-- Calls of machines with the same functions as trees and as chunks end alike. -/
theorem Counterpart.callEnds_iff (hm : Counterpart m m') (s : State) :
    (∃ n, CallEnds m label offs args ending { s with steps := n }) ↔
      ∃ n, CallEnds m' label offs args ending { s with steps := n } := by
  have hanswer : Answered m' 0 (.calling label offs args m.state)
      (call m label offs args .done ∅ m.state) :=
    call_answered hm .refl (step_calling m' label offs args m.state) (.inl ⟨rfl, rfl⟩)
      (.refl _) 0
  simp only [callEnds_iff_halts, hm.state]
  have hstep := step_calling m label offs args m.state
  -- Either the call stops at once, or the simulation takes over behind its first transition.
  cases hcall : call m label offs args .done ∅ m.state with
  | stop e s₁ =>
    rw [hcall] at hstep hanswer
    obtain ⟨s₁', hhalts, k, rfl⟩ := hanswer
    constructor
    · rintro ⟨n, h⟩
      obtain ⟨rfl, rfl⟩ := (Halts.of_stop hstep).ending_unique h
      exact ⟨k, hhalts⟩
    · rintro ⟨n, h⟩
      obtain ⟨rfl, heq⟩ := hhalts.ending_unique h
      refine ⟨s₁.steps, ?_⟩
      -- The two states differ in nothing but the steps.
      have hs : { s with steps := s₁.steps } = s₁ := by
        cases s₁
        cases s
        simp_all
      rw [hs]
      exact .of_stop hstep
  | next c =>
    rw [hcall] at hstep hanswer
    obtain ⟨d, hsteps, hrel⟩ : ∃ d, TransGen (Next m') (.calling label offs args m.state) d ∧
        Related m' c d := by
      rcases hanswer with h | ⟨hlt, -⟩
      · exact h
      · exact absurd hlt (Nat.not_lt_zero _)
    constructor
    · rintro ⟨n, fuel, hrun⟩
      obtain ⟨fuel', -, hrun'⟩ := runFor_drop_next hstep hrun
      obtain ⟨s', hhalts, k, rfl⟩ := hm.simulation.forward hrel ⟨fuel', hrun'⟩
      exact ⟨k, hhalts.of_steps hsteps.to_reflTransGen⟩
    · rintro ⟨n, fuel, hrun⟩
      obtain ⟨fuel', -, hrun'⟩ := runFor_drop_steps hsteps hrun
      obtain ⟨s', hhalts, k, heq⟩ := hm.simulation.backward hrel ⟨fuel', hrun'⟩
      refine ⟨s'.steps, ?_⟩
      have hs : { s with steps := s'.steps } = s' := by
        cases s'
        cases s
        simp_all
      rw [hs]
      exact hhalts.of_next hstep

end Outside

/-! ## §5 Loading trees and loading chunks -/

/-- Loads functions whose bodies are expression trees. -/
def loadTrees (m : Machine) (funs : List (Frame × Expr)) : Machine :=
  funs.foldl (fun m f => m.addTree f.1 f.2) m

/-- The chunks of functions, made one after the other. -/
def chunksOf (funs : List (Frame × Expr)) : Fresh (List CodeChunk) :=
  funs.mapM fun f => CodeChunk.ofBody f.1 f.2

/-- The tree of a function does not contain what a supply hands out. -/
def Untouched (σ σ' : Supply) (f : Frame × Expr) : Prop :=
  (∀ t ∈ f.1.rv :: f.2.temps, ¬σ.HandsOutTemp σ' t) ∧ ∀ l ∈ f.2.labels, ¬σ.HandsOutLabel σ' l

theorem label_text_injective {i j : Int} (h : "L" ++ toString i = "L" ++ toString j) : i = j :=
  Int.repr_injective ((String.append_right_inj "L").mp h)

/-- A chunk is made of every well-shaped tree, and it is its canonical form. -/
theorem run_ofBody {f : Frame × Expr} (hshape : f.2.Shaped) (hnodup : f.2.labels.Nodup)
    (σ : Supply) : ∃ c σ', (CodeChunk.ofBody f.1 f.2).run.run σ = (.ok c, σ') ∧
      σ.temps ≤ σ'.temps ∧ σ.labels ≤ σ'.labels ∧ (Untouched σ σ' f →
        Linearized ⟨f.1, .ofStmts [.move (.temp f.1.rv) f.2]⟩ ⟨c.frame, .ofStmts c.stmts⟩) := by
  obtain ⟨frame, body⟩ := f
  obtain ⟨n, l⟩ := σ
  let entry : Label := "L" ++ toString (l + 1)
  let exit : Label := "L" ++ toString (l + 1 + 1)
  let tree : Stmt := .move (.temp frame.rv) body
  have htree : tree.Shaped := hshape
  have hrun := CodeChunk.run_ofBody_eq frame hshape n l
  refine ⟨_, _, hrun, tree.le_lower_next n, by show l ≤ l + 1 + 1; omega, ?_⟩
  rintro ⟨htemps, hlabels⟩
  -- Entry and exit are drawn from the supply, and the body has no labels from there.
  have hentry : entry ∉ body.labels := fun h =>
    hlabels _ h ⟨l + 1, by show l < l + 1; omega, by show l + 1 ≤ l + 1 + 1; omega, rfl⟩
  have hexit : exit ∉ body.labels := fun h =>
    hlabels _ h ⟨l + 1 + 1, by show l < l + 1 + 1; omega, Int.le_refl _, rfl⟩
  have hne : exit ≠ entry := fun h => by
    have := label_text_injective h
    omega
  refine ⟨rfl, tree, entry, exit, n, htree, ?_, rfl, rfl, List.nodup_cons.mpr ⟨hentry, hnodup⟩, ?_, ?_⟩
  · intro l hl
    cases hl
  · simp only [List.mem_cons, not_or]
    exact ⟨hne, hexit⟩
  · intro t ht
    refine htemps t ?_
    simpa [tree, Stmt.temps, Expr.temps] using ht

/-- The same function may be loaded as a tree into one machine and as a chunk into the other. -/
theorem Counterpart.addFunction {m m' : Machine} (hm : Counterpart m m') {frame frame' : Frame}
    {stmts stmts' : List Stmt} (h : Linearized ⟨frame, .ofStmts stmts⟩ ⟨frame', .ofStmts stmts'⟩) :
    Counterpart (m.addFunction frame stmts) (m'.addFunction frame' stmts') where
  state := hm.state
  labels := hm.labels
  limit := hm.limit
  limit' := hm.limit'
  functions l := by
    have hframe : frame' = frame := h.1
    simp only [Machine.addFunction, Std.HashMap.getElem?_insert, hframe]
    by_cases hl : (frame.label == l) = true
    · simp only [hl, if_true]
      exact .inr ⟨_, _, rfl, rfl, hframe ▸ h⟩
    · simp only [hl]
      exact hm.functions l

/-- Less is handed out in a part of the time. -/
theorem Untouched.shrink {σ σ' τ τ' : Supply} {f : Frame × Expr} (h : Untouched σ σ' f)
    (htemps : σ.temps ≤ τ.temps) (hlabels : σ.labels ≤ τ.labels) (htemps' : τ'.temps ≤ σ'.temps)
    (hlabels' : τ'.labels ≤ σ'.labels) : Untouched τ τ' f := by
  refine ⟨fun t ht hgiven => h.1 t ht ⟨?_, ?_⟩, fun l hl hgiven => h.2 l hl ?_⟩
  · exact Int.lt_of_le_of_lt htemps hgiven.1
  · exact Int.le_trans hgiven.2 htemps'
  · obtain ⟨i, hlo, hhi, rfl⟩ := hgiven
    exact ⟨i, Int.lt_of_le_of_lt hlabels hlo, Int.le_trans hhi hlabels', rfl⟩

/-- Chunks are made of well-shaped trees, and loading them makes a counterpart. -/
theorem run_chunksOf {funs : List (Frame × Expr)}
    (hshape : ∀ f ∈ funs, f.2.Shaped ∧ f.2.labels.Nodup) (σ : Supply) :
    ∃ chunks σ', (chunksOf funs).run.run σ = (.ok chunks, σ') ∧
      σ.temps ≤ σ'.temps ∧ σ.labels ≤ σ'.labels ∧
      ((∀ f ∈ funs, Untouched σ σ' f) → ∀ m m' : Machine, Counterpart m m' →
        Counterpart (m.loadTrees funs)
          (chunks.foldl (fun m c => m.addFunction c.frame c.stmts) m')) := by
  induction funs generalizing σ with
  | nil => exact ⟨[], σ, rfl, Int.le_refl _, Int.le_refl _, fun _ _ _ hm => hm⟩
  | cons f funs ih =>
    obtain ⟨hf, hnodup⟩ := hshape f List.mem_cons_self
    obtain ⟨c, σ₁, hrun, htemps, hlabels, hchunk⟩ := run_ofBody hf hnodup σ
    obtain ⟨cs, σ₂, hruns, htemps', hlabels', hchunks⟩ :=
      ih (fun g hg => hshape g (List.mem_cons_of_mem _ hg)) σ₁
    refine ⟨c :: cs, σ₂, ?_, Int.le_trans htemps htemps', Int.le_trans hlabels hlabels',
      fun hfresh m m' hm => ?_⟩
    · unfold chunksOf at hruns ⊢
      rw [List.mapM_cons, run_bind_ok hrun, run_bind_ok hruns]
      rfl
    · have hlin := hchunk ((hfresh f List.mem_cons_self).shrink (Int.le_refl _) (Int.le_refl _)
        htemps' hlabels')
      refine hchunks (fun g hg => ?_) _ _ (hm.addFunction hlin)
      exact (hfresh g (List.mem_cons_of_mem _ hg)).shrink htemps hlabels (Int.le_refl _)
        (Int.le_refl _)

/-- Static data has nothing to do with the functions and the limit of a machine. -/
theorem counterpart_loadData {m : Machine} (hlimit : m.limit ≤ 0) (hnone : m.functions = ∅)
    (data : List StaticData) :
    Counterpart (data.foldl loadData m) (data.foldl loadData m) := by
  have hkeep : (data.foldl loadData m).limit = m.limit ∧
      (data.foldl loadData m).functions = m.functions := by
    clear hlimit hnone
    induction data generalizing m with
    | nil => exact ⟨rfl, rfl⟩
    | cons d data ih => exact ih
  refine ⟨rfl, rfl, ?_, ?_, fun l => .inl ?_⟩
  · rw [hkeep.1]
    exact hlimit
  · rw [hkeep.1]
    exact hlimit
  · rw [hkeep.2, hnone]
    simp

/-- **Canonicalization preserves meaning.** Functions are given by well-shaped trees, and none has two
labels of one name. Chunks can be made of them from any supply; and if what the supply hands out on the
way does not occur in the trees, every call ends alike in a machine without a step limit that has the
trees loaded and in one that has the chunks loaded: with the same ending, memory, heap, unread input and
output, whatever the machine held before. -/
theorem canonicalization_preserves_runs (m : Machine) (hlimit : m.limit ≤ 0)
    (hnone : m.functions = ∅) (data : List StaticData) (funs : List (Frame × Expr))
    (hshape : ∀ f ∈ funs, f.2.Shaped ∧ f.2.labels.Nodup) (σ : Supply) :
    ∃ chunks σ', (chunksOf funs).run.run σ = (.ok chunks, σ') ∧
      ((∀ f ∈ funs, Untouched σ σ' f) →
        ∀ (label : Label) (offs args : List Word) (ending : Ending) (s : State),
          (∃ n, CallEnds ((data.foldl loadData m).loadTrees funs) label offs args ending
            { s with steps := n }) ↔
          ∃ n, CallEnds (m.loadProgram { data, code := chunks }) label offs args ending
            { s with steps := n }) := by
  obtain ⟨chunks, σ', hrun, -, -, hcounterpart⟩ := run_chunksOf hshape σ
  refine ⟨chunks, σ', hrun, fun hfresh label offs args ending s => ?_⟩
  have hm := hcounterpart hfresh _ _ (counterpart_loadData hlimit hnone data)
  exact hm.callEnds_iff s

/-- A function that counts down in a loop, with a call and a store inside its operands. -/
def countdown : Frame × Expr :=
  (⟨"_countdown", 0, 0, 16, ⟨1⟩, ⟨2⟩⟩,
    .sexpr (.seq [.move (.temp ⟨3⟩) (.const 3), .label "again",
        .move (.mem (.binop .add (.temp ⟨1⟩) (.const 8)))
          (.binop .sub (.call "_putChar" [0, 8] [.const 0, .temp ⟨3⟩]) (.temp ⟨3⟩)),
        .move (.temp ⟨3⟩) (.binop .sub (.temp ⟨3⟩) (.const 1)),
        .cjump (.temp ⟨3⟩) "again" "end", .label "end"])
      (.mem (.binop .add (.temp ⟨1⟩) (.const 8))))

theorem canonicalization_preserves_countdown :
    (countdown.2.Shaped ∧ countdown.2.labels.Nodup) ∧
    ∃ chunks σ', (chunksOf [countdown]).run.run { temps := 3 } = (.ok chunks, σ') ∧
      Untouched { temps := 3 } σ' countdown ∧
      ∀ (ending : Ending) (s : State),
        (∃ n, CallEnds (Machine.loadTrees { limit := 0 } [countdown]) "_countdown" [0] [0] ending
          { s with steps := n }) ↔
        ∃ n, CallEnds (Machine.loadProgram { limit := 0 } { data := [], code := chunks })
          "_countdown" [0] [0] ending { s with steps := n } := by
  have hshape : countdown.2.Shaped ∧ countdown.2.labels.Nodup := by
    simp [countdown, Expr.Shaped, Stmt.Shaped, Stmt.ShapedAll, Expr.ShapedAll, Stmt.Closed,
      Stmt.flatten, Stmt.flattenAll, Stmt.targetsOf, Stmt.labelsOf, Expr.labels, Stmt.labels,
      Stmt.labelsAll, Expr.labelsAll]
  obtain ⟨chunks, σ', hrun, hsame⟩ := canonicalization_preserves_runs { limit := 0 } (Int.le_refl 0)
    rfl [] [countdown] (by simpa using hshape) { temps := 3 }
  have hfresh : Untouched { temps := 3 } σ' countdown := by
    constructor
    · -- The supply starts behind the temps of the tree.
      have hle : ∀ t ∈ countdown.1.rv :: countdown.2.temps, t.index ≤ 3 := by decide
      exact fun t ht h => absurd h.1 (Int.not_lt.mpr (hle t ht))
    · -- The labels of the tree do not look like those of the supply.
      have hhead : ∀ l ∈ countdown.2.labels, l.toList.head? ≠ some 'L' := by decide
      rintro l hl ⟨i, -, -, rfl⟩
      exact hhead _ hl (by simp)
  exact ⟨hshape, chunks, σ', hrun, hfresh, fun ending s =>
    hsame (by simpa using hfresh) "_countdown" [0] [0] ending s⟩

end MmixBackend.Machine
