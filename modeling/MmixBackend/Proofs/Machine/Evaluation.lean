import MmixBackend.Proofs.Machine.Calls
import MmixBackend.Proofs.Instr.Selection

/-!
# Evaluation of expressions without statements

The value of an expression that contains no statement, and the state that its evaluation leaves, follow
the structure of the expression: operands from left to right, and calls as they are made from the
outside. A run that evaluates such an expression and gets behind it has found this value.

## Main statements

- `Expr.yields_of_leads`: a run that gets behind an expression passes its value.
-/

namespace MmixBackend.IR

open Machine

mutual

/-- The labels that an expression calls. -/
def Expr.callees : Expr → List Label
  | .absent | .const _ | .temp _ | .name _ => []
  | .mem addr => addr.callees
  | .binop _ fst snd => fst.callees ++ snd.callees
  | .unop _ arg => arg.callees
  | .call l _ args => l :: Expr.calleesAll args
  | .sexpr stmt value => stmt.callees ++ value.callees

/-- The labels that a list of expressions calls. -/
def Expr.calleesAll : List Expr → List Label
  | [] => []
  | e :: es => e.callees ++ Expr.calleesAll es

/-- The labels that a statement calls. -/
def Stmt.callees : Stmt → List Label
  | .absent | .jump _ | .label _ => []
  | .eval e => e.callees
  | .move dst src => dst.callees ++ src.callees
  | .cjump cond _ _ => cond.callees
  | .seq stmts => Stmt.calleesAll stmts

/-- The labels that a list of statements calls. -/
def Stmt.calleesAll : List Stmt → List Label
  | [] => []
  | s :: ss => s.callees ++ Stmt.calleesAll ss

end

section Yields

variable (m : Machine) (temps : Temps)

mutual

/-- Evaluated in the state `s`, the expression has the value `v` and leaves the state `s'`. -/
def Expr.Yields : Expr → (s : State) → (v : Word) → (s' : State) → Prop
  | .absent, _, _, _ | .sexpr _ _, _, _, _ => False
  | .const c, s, v, s' => v = c ∧ s' = s
  | .temp t, s, v, s' => v = temps.getD t 0 ∧ s' = s
  | .name l, s, v, s' => m.labels[l]? = some v ∧ s' = s
  | .mem addr, s, v, s' => ∃ a, addr.Yields s a s' ∧ v = s'.memory.read a
  | .binop op fst snd, s, v, s' =>
    ∃ x s₁ y, fst.Yields s x s₁ ∧ snd.Yields s₁ y s' ∧ applyBinary op x y = .ok v
  | .unop op arg, s, v, s' => ∃ x, arg.Yields s x s' ∧ v = applyUnary op x
  | .call l offs args, s, v, s' => ∃ vs s₁, Expr.YieldAll args s vs s₁ ∧
    CallLeaves m l { s₁ with memory := s₁.memory.writeAt s₁.sp offs vs } v s'

/-- The same for expressions from left to right. -/
def Expr.YieldAll : List Expr → (s : State) → (vs : List Word) → (s' : State) → Prop
  | [], s, vs, s' => vs = [] ∧ s' = s
  | e :: es, s, vs, s' =>
    ∃ v s₁ ws, e.Yields s v s₁ ∧ Expr.YieldAll es s₁ ws s' ∧ vs = v :: ws

end

end Yields

end MmixBackend.IR

namespace MmixBackend.Machine

open IR

/-- Goes on with the arguments of a call: evaluates the next one, or makes the call. -/
def nextArgument (m : Machine) (l : Label) (offs ready : List Word) (args : List Expr)
    (k : ValueContext) (temps : Temps) (s : State) : Transition :=
  match args with
  | [] => call m l offs ready.reverse k temps s
  | arg :: args => .next ⟨.eval arg (.argument l offs ready args k), temps, s⟩

theorem evalStep_call (m : Machine) (l : Label) (offs : List Word) (args : List Expr)
    (k : ValueContext) (temps : Temps) (s : State) :
    evalStep m (.call l offs args) k temps s = nextArgument m l offs [] args k temps s := by
  cases args <;> rfl

theorem valueStep_argument (m : Machine) (v : Word) (l : Label) (offs ready : List Word)
    (rest : List Expr) (k : ValueContext) (temps : Temps) (s : State) :
    valueStep m v (.argument l offs ready rest k) temps s
      = nextArgument m l offs (v :: ready) rest k temps s := by
  cases rest <;> rfl

variable {m : Machine} {temps : Temps} {d : Config}

theorem Leads.eval {n : Nat} {e : Expr} {k : ValueContext} {s : State} {N : Nat}
    (h : Leads m n ⟨.eval e k, temps, s⟩ d) (hd : d.Behind N) :
    ∃ n' c, n = n' + 1 ∧ evalStep m e k temps s = .next c ∧ Leads m n' c d :=
  h.next fun heq => by
    rw [← heq] at hd
    exact hd

theorem Leads.value {n : Nat} {v : Word} {k : ValueContext} {s : State} {N : Nat}
    (h : Leads m n ⟨.value v k, temps, s⟩ d) (hd : d.Behind N) (hk : N < k.nesting) :
    ∃ n' c, n = n' + 1 ∧ valueStep m v k temps s = .next c ∧ Leads m n' c d :=
  h.next fun heq => by
    rw [← heq] at hd
    have hle : k.nesting ≤ N := hd
    omega

theorem Config.Behind.mono {n n' : Nat} (h : d.Behind n) (hn : n ≤ n') : d.Behind n' := by
  unfold Config.Behind at h ⊢
  split at h
  · exact h
  · exact Nat.le_trans h hn
  · exact Nat.lt_of_lt_of_le h hn

end MmixBackend.Machine

namespace MmixBackend.IR

open Machine

variable {m : Machine} {temps : Temps} {b : Int} {d : Config}

mutual

/-- **A run that gets behind an expression passes its value.** -/
theorem Expr.yields_of_leads : ∀ (e : Expr), e.Selectable b →
    (∀ l ∈ e.callees, Routine.ofLabel? l = none) → ∀ {n : Nat} {k : ValueContext} {s : State},
    Leads m n ⟨.eval e k, temps, s⟩ d → d.Behind k.nesting →
    ∃ n' v s', n' < n ∧ Leads m n' ⟨.value v k, temps, s'⟩ d ∧ e.Yields m temps s v s'
  | .absent, hb, _, _, _, _, _, _ | .sexpr _ _, hb, _, _, _, _, _, _ => hb.elim
  | .const c, _, _, n, k, s, h, hd => by
    obtain ⟨n', c', rfl, hstep, hrest⟩ := h.eval hd
    cases hstep
    exact ⟨n', _, s, Nat.lt_succ_self _, hrest, rfl, rfl⟩
  | .temp t, _, _, n, k, s, h, hd => by
    obtain ⟨n', c', rfl, hstep, hrest⟩ := h.eval hd
    cases hstep
    exact ⟨n', _, s, Nat.lt_succ_self _, hrest, rfl, rfl⟩
  | .name l, _, _, n, k, s, h, hd => by
    obtain ⟨n', c', rfl, hstep, hrest⟩ := h.eval hd
    simp only [evalStep] at hstep
    split at hstep <;> cases hstep
    rename_i addr haddr
    exact ⟨n', addr, s, Nat.lt_succ_self _, hrest, haddr, rfl⟩
  | .mem addr, hb, hl, n, k, s, h, hd => by
    -- A part is evaluated in a context that waits deeper, so the run gets behind it as well.
    obtain ⟨n₁, c₁, rfl, hstep₁, hrest₁⟩ := h.eval hd
    cases hstep₁
    obtain ⟨n₂, a, s', hlt, hleads, ha⟩ :=
      addr.yields_of_leads hb hl hrest₁ (hd.mono (Nat.le_succ _))
    obtain ⟨n₃, c₃, rfl, hstep₃, hrest₃⟩ := hleads.value hd (Nat.lt_succ_self _)
    cases hstep₃
    exact ⟨n₃, _, s', by omega, hrest₃, a, ha, rfl⟩
  | .unop op arg, hb, hl, n, k, s, h, hd => by
    obtain ⟨n₁, c₁, rfl, hstep₁, hrest₁⟩ := h.eval hd
    cases hstep₁
    obtain ⟨n₂, x, s', hlt, hleads, hx⟩ :=
      arg.yields_of_leads hb.2 hl hrest₁ (hd.mono (Nat.le_succ _))
    obtain ⟨n₃, c₃, rfl, hstep₃, hrest₃⟩ := hleads.value hd (Nat.lt_succ_self _)
    cases hstep₃
    exact ⟨n₃, _, s', by omega, hrest₃, x, hx, rfl⟩
  | .binop op fst snd, hb, hl, n, k, s, h, hd => by
    obtain ⟨hl₁, hl₂⟩ := List.forall_mem_append.mp hl
    obtain ⟨n₁, c₁, rfl, hstep₁, hrest₁⟩ := h.eval hd
    cases hstep₁
    obtain ⟨n₂, x, s₁, hlt₁, hleads₁, hx⟩ :=
      fst.yields_of_leads hb.2.1 hl₁ hrest₁ (hd.mono (Nat.le_succ _))
    obtain ⟨n₃, c₃, rfl, hstep₃, hrest₃⟩ := hleads₁.value hd (Nat.lt_succ_self _)
    cases hstep₃
    obtain ⟨n₄, y, s', hlt₂, hleads₂, hy⟩ :=
      snd.yields_of_leads hb.2.2 hl₂ hrest₃ (hd.mono (Nat.le_succ _))
    obtain ⟨n₅, c₅, rfl, hstep₅, hrest₅⟩ := hleads₂.value hd (Nat.lt_succ_self _)
    simp only [valueStep] at hstep₅
    -- An operator that fails would have stopped the run.
    split at hstep₅ <;> cases hstep₅
    rename_i r hr
    exact ⟨n₅, r, s', by omega, hrest₅, x, s₁, y, hx, hy, hr⟩
  | .call l offs args, hb, hl, n, k, s, h, hd => by
    obtain ⟨hcallee, hargs⟩ := List.forall_mem_cons.mp hl
    obtain ⟨n₁, c₁, rfl, hstep₁, hrest₁⟩ := h.eval hd
    rw [evalStep_call] at hstep₁
    obtain ⟨n₂, vs, s₁, c₂, hle, hcall, hrest₂, hvs⟩ :=
      Expr.yieldAll_of_leads args hb.2 hargs hstep₁ hrest₁ hd
    -- The call passes through the callee and comes back with fewer transitions to go.
    obtain ⟨n₃, v, s', hlt, hleads, hleaves⟩ := call_passes hcallee hcall hrest₂ hd
    exact ⟨n₃, v, s', by omega, hleads, vs, s₁, hvs, hleaves⟩

/-- The same for the arguments of a call, behind which the call is made. -/
theorem Expr.yieldAll_of_leads : ∀ (es : List Expr), Expr.SelectableAll b es →
    (∀ l ∈ Expr.calleesAll es, Routine.ofLabel? l = none) → ∀ {n : Nat} {l : Label}
    {offs ready : List Word} {k : ValueContext} {s : State} {c : Config},
    nextArgument m l offs ready es k temps s = .next c → Leads m n c d → d.Behind k.nesting →
    ∃ n' vs s' c', n' ≤ n ∧ Machine.call m l offs (ready.reverse ++ vs) k temps s' = .next c' ∧
      Leads m n' c' d ∧ Expr.YieldAll m temps es s vs s'
  | [], _, _, n, l, offs, ready, k, s, c, hc, h, hd =>
    ⟨n, [], s, c, Nat.le_refl _, by rw [List.append_nil]; exact hc, h, rfl, rfl⟩
  | e :: es, hb, hl, n, l, offs, ready, k, s, c, hc, h, hd => by
    obtain ⟨hl₁, hl₂⟩ := List.forall_mem_append.mp hl
    cases hc
    obtain ⟨n₁, v, s₁, hlt, hleads, hv⟩ :=
      e.yields_of_leads hb.1 hl₁ h (hd.mono (Nat.le_succ _))
    obtain ⟨n₂, c₂, rfl, hstep, hrest⟩ := hleads.value hd (Nat.lt_succ_self _)
    rw [valueStep_argument] at hstep
    obtain ⟨n₃, vs, s', c', hle, hcall, hrest', hvs⟩ :=
      Expr.yieldAll_of_leads es hb.2 hl₂ hstep hrest hd
    refine ⟨n₃, v :: vs, s', c', by omega, ?_, hrest', v, s₁, vs, hv, hvs, rfl⟩
    rw [List.reverse_cons, List.append_assoc] at hcall
    exact hcall

end

end MmixBackend.IR
