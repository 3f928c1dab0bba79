import MmixBackend.Proofs.IR.Places

/-!
# Calls inside a run

A call in the middle of a run does what the same call does when it is made from the outside: nothing
that happens in the callee depends on where the call returns to, on the caller's temps or, without a
step limit, on the number of steps. So a run that gets behind a call has passed the return of the
call, and what it finds there is what the call from the outside leaves.

The two runs are compared context by context. `ValueContext.Rebased` relates contexts that differ only
in the activation at their end, and `Rebased` configurations with such contexts.

## Main statements

- `Rebased.step`: one transition of the run inside and of the call from the outside.
- `call_passes`: a run that gets behind a call passes its return.
-/

namespace MmixBackend.Machine

open IR Relation

/-! ## §1 Contexts with another activation at the end -/

section Rebased

variable (base base' : BlockContext)

mutual

/-- The two contexts are alike, but for the activations at their ends. -/
inductive ValueContext.Rebased : ValueContext → ValueContext → Prop
  | readMem {k k'} (h : ValueContext.Rebased k k') : ValueContext.Rebased (.readMem k) (.readMem k')
  | binSecond {k k'} (op : BinOp) (snd : Expr) (h : ValueContext.Rebased k k') :
      ValueContext.Rebased (.binSecond op snd k) (.binSecond op snd k')
  | binApply {k k'} (op : BinOp) (fst : Word) (h : ValueContext.Rebased k k') :
      ValueContext.Rebased (.binApply op fst k) (.binApply op fst k')
  | unApply {k k'} (op : UnOp) (h : ValueContext.Rebased k k') :
      ValueContext.Rebased (.unApply op k) (.unApply op k')
  | argument {k k'} (l : Label) (offs ready : List Word) (rest : List Expr)
      (h : ValueContext.Rebased k k') :
      ValueContext.Rebased (.argument l offs ready rest k) (.argument l offs ready rest k')
  | drop {k k'} (b : Block) (pc : Nat) (h : BlockContext.Rebased k k') :
      ValueContext.Rebased (.drop b pc k) (.drop b pc k')
  | setTemp {k k'} (t : Temp) (b : Block) (pc : Nat) (h : BlockContext.Rebased k k') :
      ValueContext.Rebased (.setTemp t b pc k) (.setTemp t b pc k')
  | storeAddress {k k'} (src : Expr) (b : Block) (pc : Nat) (h : BlockContext.Rebased k k') :
      ValueContext.Rebased (.storeAddress src b pc k) (.storeAddress src b pc k')
  | storeValue {k k'} (addr : Word) (b : Block) (pc : Nat) (h : BlockContext.Rebased k k') :
      ValueContext.Rebased (.storeValue addr b pc k) (.storeValue addr b pc k')
  | branch {k k'} (pos neg : Label) (b : Block) (h : BlockContext.Rebased k k') :
      ValueContext.Rebased (.branch pos neg b k) (.branch pos neg b k')

/-- The two contexts are alike, but for the activations at their ends. -/
inductive BlockContext.Rebased : BlockContext → BlockContext → Prop
  | base : BlockContext.Rebased base base'
  | value {k k'} (e : Expr) (h : ValueContext.Rebased k k') :
      BlockContext.Rebased (.value e k) (.value e k')
  | ret {k k'} (frame : Frame) (fp : Word) (temps : Temps) (h : ValueContext.Rebased k k') :
      BlockContext.Rebased (.ret frame fp temps k) (.ret frame fp temps k')

end

/-- The same, for what two configurations do next. -/
inductive Control.Rebased : Control → Control → Prop
  | eval {k k'} (e : Expr) (h : ValueContext.Rebased base base' k k') :
      Rebased (.eval e k) (.eval e k')
  | value {k k'} (v : Word) (h : ValueContext.Rebased base base' k k') :
      Rebased (.value v k) (.value v k')
  | exec {k k'} (b : Block) (pc : Nat) (h : BlockContext.Rebased base base' k k') :
      Rebased (.exec b pc k) (.exec b pc k')

/-- Configurations that differ in the activation at the end of the context and in the number of
steps. -/
structure Config.Rebased (c d : Config) : Prop where
  control : Control.Rebased base base' c.control d.control
  temps : d.temps = c.temps
  state : c.state.Alike d.state

end Rebased

mutual

/-- The number of contexts up to the end. -/
def ValueContext.nesting : ValueContext → Nat
  | .done => 0
  | .readMem k | .binSecond _ _ k | .binApply _ _ k | .unApply _ k | .argument _ _ _ _ k =>
    k.nesting + 1
  | .drop _ _ k | .setTemp _ _ _ k | .storeAddress _ _ _ k | .storeValue _ _ _ k
  | .branch _ _ _ k => k.nesting + 1

/-- The number of contexts up to the end. -/
def BlockContext.nesting : BlockContext → Nat
  | .value _ k | .ret _ _ _ k => k.nesting + 1

end

variable {base base' : BlockContext}

mutual

theorem ValueContext.Rebased.nesting_lt : ∀ {k k' : ValueContext},
    ValueContext.Rebased base base' k k' → base.nesting < k.nesting
  | _, _, .readMem h | _, _, .binSecond _ _ h | _, _, .binApply _ _ h | _, _, .unApply _ h
  | _, _, .argument _ _ _ _ h => Nat.lt_succ_of_lt h.nesting_lt
  | _, _, .drop _ _ h | _, _, .setTemp _ _ _ h | _, _, .storeAddress _ _ _ h
  | _, _, .storeValue _ _ _ h | _, _, .branch _ _ _ h => Nat.lt_succ_of_le h.nesting_le

theorem BlockContext.Rebased.nesting_le : ∀ {k k' : BlockContext},
    BlockContext.Rebased base base' k k' → base.nesting ≤ k.nesting
  | _, _, .base => Nat.le_refl _
  | _, _, .value _ h | _, _, .ret _ _ _ h => Nat.le_succ_of_le (Nat.le_of_lt h.nesting_lt)

end

/-! ## §2 One transition of both runs -/

/-- The machine without a step limit, in the state `s`. -/
def unlimited (m : Machine) (s : State) : Machine := { m with limit := 0, state := s }

/-- The activation at the end has returned in both configurations: in the first to the context `k`, in
the second to the outside. The result is at the stack pointer, which is what it was before the call. -/
structure Returned (fp : Word) (temps : Temps) (k : ValueContext) (c d : Config) : Prop where
  value : ∃ v, c.control = .value v k ∧ d.control = .value v .done ∧ c.state.memory.read fp = v
  temps : c.temps = temps
  sp : c.state.sp = fp
  state : c.state.Alike d.state

/-- The second run answers a transition of the first. -/
def Answers (frame : Frame) (fp : Word) (temps : Temps) (k : ValueContext) (t t' : Transition) : Prop :=
  ∀ c, t = .next c → ∃ d, t' = .next d ∧
    (Config.Rebased (.ret frame fp temps k) (.ret frame fp ∅ .done) c d ∨ Returned fp temps k c d)

section Step

variable {m : Machine} {t : State} {frame : Frame} {fp : Word} {temps₀ : Temps} {k₀ : ValueContext}
  {temps : Temps} {s s' : State}

theorem Answers.next {control control' : Control}
    (hc : Control.Rebased (.ret frame fp temps₀ k₀) (.ret frame fp ∅ .done) control control')
    (hs : s.Alike s') : Answers frame fp temps₀ k₀ (.next ⟨control, temps, s⟩)
      (.next ⟨control', temps, s'⟩) := by
  intro c hnext
  cases hnext
  exact ⟨_, rfl, .inl ⟨hc, rfl, hs⟩⟩

theorem Answers.stop (ending : Ending) (s : State) (t' : Transition) :
    Answers frame fp temps₀ k₀ (.stop ending s) t' := by
  intro c hnext
  cases hnext

theorem State.Alike.withMemory (h : s.Alike s') (memory : Memory) :
    State.Alike { s with memory } { s' with memory } := by
  obtain ⟨n, rfl⟩ := h
  exact ⟨n, rfl⟩

theorem Answers.invoke {k k' : ValueContext}
    (hk : ValueContext.Rebased (.ret frame fp temps₀ k₀) (.ret frame fp ∅ .done) k k')
    (hs : s.Alike s') (l : Label) :
    Answers frame fp temps₀ k₀ (invoke m l k temps s) (invoke (unlimited m t) l k' temps s') := by
  obtain ⟨n, rfl⟩ := hs
  unfold Machine.invoke
  cases Routine.ofLabel? l with
  | some r =>
    have hrun := r.run_steps s n
    dsimp only at hrun ⊢
    rw [hrun]
    cases r.run s with
    | mk ending s₁ =>
      cases ending with
      | value v => exact .next (.value v hk) ⟨n, rfl⟩
      | exit code => exact .stop _ _ _
      | error e => exact .stop _ _ _
  | none =>
    dsimp only [unlimited]
    cases m.functions[l]? with
    | none => exact .stop _ _ _
    | some f => exact .next (.exec _ _ (.ret _ _ _ hk)) ⟨n, rfl⟩

theorem Answers.call {k k' : ValueContext}
    (hk : ValueContext.Rebased (.ret frame fp temps₀ k₀) (.ret frame fp ∅ .done) k k')
    (hs : s.Alike s') (l : Label) (offs args : List Word) :
    Answers frame fp temps₀ k₀ (call m l offs args k temps s)
      (call (unlimited m t) l offs args k' temps s') := by
  obtain ⟨n, rfl⟩ := hs
  rw [Machine.call, Machine.call]
  split
  · exact .stop _ _ _
  · exact .invoke hk ⟨n, rfl⟩ l

theorem Answers.endBlock {k k' : BlockContext}
    (hk : BlockContext.Rebased (.ret frame fp temps₀ k₀) (.ret frame fp ∅ .done) k k')
    (hs : s.Alike s') :
    Answers frame fp temps₀ k₀ (endBlock temps s k) (endBlock temps s' k') := by
  obtain ⟨n, rfl⟩ := hs
  cases hk with
  | base =>
    intro c hnext
    cases hnext
    refine ⟨_, rfl, .inr ⟨⟨_, rfl, rfl, ?_⟩, rfl, rfl, ⟨n, rfl⟩⟩⟩
    exact Memory.read_write_self _ _ _
  | value e h => exact .next (.eval e h) ⟨n, rfl⟩
  | ret _ _ _ h =>
    intro c hnext
    cases hnext
    exact ⟨_, rfl, .inl ⟨.value _ h, rfl, n, rfl⟩⟩

theorem Answers.jump {k k' : BlockContext}
    (hk : BlockContext.Rebased (.ret frame fp temps₀ k₀) (.ret frame fp ∅ .done) k k')
    (hs : s.Alike s') (l : Label) (b : Block) :
    Answers frame fp temps₀ k₀ (jump l b k temps s) (jump l b k' temps s') := by
  unfold Machine.jump
  cases b.labels[l]? with
  | some i => exact .next (.exec b _ hk) hs
  | none =>
    cases hk with
    | base => exact .endBlock .base hs
    | value e h => exact .stop _ _ _
    | ret _ _ _ h => exact .endBlock (.ret _ _ _ h) hs

theorem Answers.evalStep {k k' : ValueContext}
    (hk : ValueContext.Rebased (.ret frame fp temps₀ k₀) (.ret frame fp ∅ .done) k k')
    (hs : s.Alike s') (e : Expr) :
    Answers frame fp temps₀ k₀ (evalStep m e k temps s) (evalStep (unlimited m t) e k' temps s') := by
  cases e with
  | absent => exact .stop _ _ _
  | const v => exact .next (.value v hk) hs
  | mem addr => exact .next (.eval addr (.readMem hk)) hs
  | temp t => exact .next (.value _ hk) hs
  | name l =>
    simp only [Machine.evalStep, unlimited]
    cases m.labels[l]? with
    | none => exact .stop _ _ _
    | some addr => exact .next (.value addr hk) hs
  | binop op fst snd => exact .next (.eval fst (.binSecond op snd hk)) hs
  | unop op arg => exact .next (.eval arg (.unApply op hk)) hs
  | call l offs args =>
    cases args with
    | nil => exact .call hk hs l offs []
    | cons arg args => exact .next (.eval arg (.argument l offs [] args hk)) hs
  | sexpr stmt value => exact .next (.exec _ _ (.value value hk)) hs

theorem Answers.valueStep {k k' : ValueContext}
    (hk : ValueContext.Rebased (.ret frame fp temps₀ k₀) (.ret frame fp ∅ .done) k k')
    (hs : s.Alike s') (v : Word) :
    Answers frame fp temps₀ k₀ (valueStep m v k temps s)
      (valueStep (unlimited m t) v k' temps s') := by
  cases hk with
  | readMem h =>
    simp only [Machine.valueStep, hs.memory_eq]
    exact .next (.value _ h) hs
  | binSecond op snd h => exact .next (.eval snd (.binApply op v h)) hs
  | binApply op fst h =>
    simp only [Machine.valueStep]
    cases applyBinary op fst v with
    | ok r => exact .next (.value r h) hs
    | error e => exact .stop _ _ _
  | unApply op h => exact .next (.value _ h) hs
  | argument l offs ready rest h =>
    cases rest with
    | nil => exact .call h hs l offs _
    | cons e es => exact .next (.eval e (.argument l offs _ es h)) hs
  | drop b pc h => exact .next (.exec b pc h) hs
  | setTemp t b pc h => exact .next (.exec b pc h) hs
  | storeAddress src b pc h => exact .next (.eval src (.storeValue v b pc h)) hs
  | storeValue addr b pc h =>
    simp only [Machine.valueStep, hs.memory_eq]
    exact .next (.exec b pc h) (hs.withMemory _)
  | branch pos neg b h => exact .jump h hs _ b

theorem Answers.execStep {k k' : BlockContext}
    (hk : BlockContext.Rebased (.ret frame fp temps₀ k₀) (.ret frame fp ∅ .done) k k')
    (hs : s.Alike s') (b : Block) (pc : Nat) :
    Answers frame fp temps₀ k₀ (execStep m b pc k temps s)
      (execStep (unlimited m t) b pc k' temps s') := by
  unfold Machine.execStep
  cases b.stmts[pc]? with
  | none => exact .endBlock hk hs
  | some st =>
    have hno : exceeds (unlimited m t) (s'.steps + 1) = false := by simp [exceeds, unlimited]
    have hcount := hs.count.count_right (s'.steps + 1)
    simp only [hno, Bool.false_eq_true, if_false]
    split
    · exact .stop _ _ _
    · cases st with
      | absent => exact .stop _ _ _
      | eval e => exact .next (.eval e (.drop b _ hk)) hcount
      | move dst src =>
        cases dst with
        | temp t => exact .next (.eval src (.setTemp t b _ hk)) hcount
        | mem addr => exact .next (.eval addr (.storeAddress src b _ hk)) hcount
        | _ => exact .stop _ _ _
      | cjump cond pos neg => exact .next (.eval cond (.branch pos neg b hk)) hcount
      | jump l => exact .jump hk hcount l b
      | label l => exact .next (.exec b _ hk) hcount
      | seq ss => exact .stop _ _ _

/-- **One transition**: what happens over the activation of a call is answered by the same call made
from the outside, until the activation returns. -/
theorem Config.Rebased.step {c d : Config}
    (h : Config.Rebased (.ret frame fp temps₀ k₀) (.ret frame fp ∅ .done) c d) :
    Answers frame fp temps₀ k₀ (step m c) (step (unlimited m t) d) := by
  obtain ⟨control, temps, s⟩ := c
  obtain ⟨control', temps', s'⟩ := d
  obtain ⟨hcontrol, rfl, hs⟩ := h
  cases hcontrol with
  | eval e hk => exact .evalStep hk hs e
  | value v hk => exact .valueStep hk hs v
  | exec b pc hk => exact .execStep hk hs b pc

end Step

/-! ## §3 Runs that get behind a call -/

/-- After `n` transitions the first configuration has become the second. -/
def Leads (m : Machine) : (n : Nat) → Config → Config → Prop
  | 0, c, d => c = d
  | n + 1, c, d => ∃ c', Next m c c' ∧ Leads m n c' d

/-- The configuration is behind everything that happens on top of contexts with `n` others below. -/
def Config.Behind (n : Nat) (c : Config) : Prop :=
  match c.control with
  | .eval _ _ => False
  | .value _ k => k.nesting ≤ n
  | .exec _ _ k => k.nesting < n

variable {m : Machine} {n : Nat} {c d : Config} {frame : Frame} {fp : Word} {temps : Temps}
  {k : ValueContext}

theorem exists_leads (h : ReflTransGen (Next m) c d) : ∃ n, Leads m n c d := by
  induction h using ReflTransGen.head_induction_on with
  | refl => exact ⟨0, rfl⟩
  | head hstep _ ih =>
    obtain ⟨n, hn⟩ := ih
    exact ⟨n + 1, _, hstep, hn⟩

/-- A run that has not arrived takes a transition. -/
theorem Leads.next (h : Leads m n c d) (hne : c ≠ d) :
    ∃ n' c', n = n' + 1 ∧ step m c = .next c' ∧ Leads m n' c' d := by
  cases n with
  | zero => exact absurd h hne
  | succ n =>
    obtain ⟨c', hstep, hrest⟩ := h
    exact ⟨n, c', rfl, hstep, hrest⟩

/-- A call inside a run and the same call from the outside enter the function alike. -/
theorem Config.Rebased.enter (b : Block) (own : Temps) {s s' : State} (hs : s.Alike s') :
    Config.Rebased (.ret frame fp temps k) (.ret frame fp ∅ .done)
      ⟨.exec b 0 (.ret frame fp temps k), own, s⟩ ⟨.exec b 0 (.ret frame fp ∅ .done), own, s'⟩ :=
  ⟨.exec b 0 .base, rfl, hs⟩

theorem Config.Rebased.not_behind {e : Config}
    (h : Config.Rebased (.ret frame fp temps k) (.ret frame fp ∅ .done) c e) :
    ¬c.Behind k.nesting := by
  intro hbehind
  obtain ⟨control, ctemps, s⟩ := c
  obtain ⟨control', ctemps', s'⟩ := e
  cases h.control with
  | eval _ hk => exact hbehind
  | value _ hk =>
    have hlt : k.nesting + 1 < _ := hk.nesting_lt
    have hle : _ ≤ k.nesting := hbehind
    omega
  | exec _ _ hk =>
    have hle : k.nesting + 1 ≤ _ := hk.nesting_le
    have hlt : _ < k.nesting := hbehind
    omega

theorem Returned.behind {e : Config} (h : Returned fp temps k c e) : c.Behind k.nesting := by
  obtain ⟨v, hc, -⟩ := h.value
  simp [Config.Behind, hc]

theorem Returned.halts {e : Config} {t : State} {v : Word} (h : Returned fp temps k c e)
    (hv : c.control = .value v k) : Halts (unlimited m t) e (.value v) e.state := by
  obtain ⟨v', hc, he, -⟩ := h.value
  have : v = v' := by
    rw [hv] at hc
    cases hc
    rfl
  subst this
  refine .of_stop ?_
  obtain ⟨control, etemps, s⟩ := e
  cases he
  rfl

/-- A run from inside the activation of a call to behind it passes the return, and the call from the
outside ends with the same result. -/
theorem Leads.passes (h : Leads m n c d) (hd : d.Behind k.nesting)
    (hinside : ∃ e, Config.Rebased (.ret frame fp temps k) (.ret frame fp ∅ .done) c e) :
    ∃ n' v s, n' < n ∧ Leads m n' ⟨.value v k, temps, s⟩ d ∧ s.sp = fp ∧ s.memory.read fp = v ∧
      ∀ t e, Config.Rebased (.ret frame fp temps k) (.ret frame fp ∅ .done) c e →
        ∃ s', Halts (unlimited m t) e (.value v) s' ∧ s.Alike s' := by
  -- The induction is on the transitions; the first that goes behind the activation is its return.
  induction n generalizing c with
  | zero =>
    obtain ⟨e, he⟩ := hinside
    cases h
    exact absurd hd he.not_behind
  | succ n ih =>
    obtain ⟨c', hstep, hrest⟩ := h
    obtain ⟨e₀, he₀⟩ := hinside
    obtain ⟨d₀, -, hin | hret⟩ := he₀.step (t := c.state) c' hstep
    · -- Still inside: the call from the outside takes one transition more.
      obtain ⟨n', v, s, hlt, hleads, hsp, hread, hall⟩ := ih hrest ⟨d₀, hin⟩
      refine ⟨n', v, s, Nat.lt_succ_of_lt hlt, hleads, hsp, hread, fun t e he => ?_⟩
      obtain ⟨d', hstep', hin' | hret'⟩ := he.step (t := t) c' hstep
      · obtain ⟨s', hhalts, hs⟩ := hall t d' hin'
        exact ⟨s', hhalts.of_next hstep', hs⟩
      · exact absurd hret'.behind hin.not_behind
    · -- The activation returns here, and the call from the outside ends.
      obtain ⟨v, hc, -, hread⟩ := hret.value
      refine ⟨n, v, c'.state, Nat.lt_succ_self n, ?_, hret.sp, hread, fun t e he => ?_⟩
      · rw [← hc, ← hret.temps]
        exact hrest
      · obtain ⟨d', hstep', hin' | hret'⟩ := he.step (t := t) c' hstep
        · exact absurd hret.behind hin'.not_behind
        · exact ⟨d'.state, (hret'.halts hc).of_next hstep', hret'.state⟩

/-- Made from the outside in the state `s`, with the arguments in place, the call of the label returns
and leaves the state `s'`. -/
def Returns (m : Machine) (l : Label) (s s' : State) : Prop :=
  ∃ v, CallEnds (unlimited m s) l [] [] (.value v) s'

theorem Returns.unique {l : Label} {s s₁ s₂ : State} (h₁ : Returns m l s s₁) (h₂ : Returns m l s s₂) :
    s₁ = s₂ := by
  obtain ⟨v₁, h₁⟩ := h₁
  obtain ⟨v₂, h₂⟩ := h₂
  unfold CallEnds at h₁ h₂
  split at h₁
  · rename_i hcall
    rw [hcall] at h₂
    exact h₁.2.symm.trans h₂.2
  · rename_i hcall
    rw [hcall] at h₂
    exact (h₁.ending_unique h₂).2

/-- What a call with the arguments in place does: the call from the outside returns, from this state
and from those that differ in the number of steps, and the result is at the stack pointer, which is
what it was. -/
structure CallLeaves (m : Machine) (l : Label) (s : State) (v : Word) (s' : State) : Prop where
  returns : ∀ {t}, s.Alike t → ∃ t', Returns m l t t' ∧ s'.Alike t'
  sp : s'.sp = s.sp
  result : s'.memory.read s.sp = v

/-- **A run that gets behind a call passes its return**, and finds there what the call leaves. -/
theorem call_passes {l : Label} {offs args : List Word} {s : State} (hl : Routine.ofLabel? l = none)
    (hcall : call m l offs args k temps s = .next c) (h : Leads m n c d) (hd : d.Behind k.nesting) :
    ∃ n' v s', n' < n ∧ Leads m n' ⟨.value v k, temps, s'⟩ d ∧
      CallLeaves m l { s with memory := s.memory.writeAt s.sp offs args } v s' := by
  replace hcall := invoke_eq_next hcall
  simp only [invoke, hl] at hcall
  split at hcall
  · cases hcall
  rename_i f hf
  cases hcall
  obtain ⟨n', v, s', hlt, hleads, hsp, hread, hall⟩ := h.passes hd ⟨_, .enter f.body _ (.refl _)⟩
  refine ⟨n', v, s', hlt, hleads, fun {t} ht => ?_, hsp, hread⟩
  obtain ⟨count, rfl⟩ := ht
  obtain ⟨t', hhalts, ht'⟩ := hall _ _ (.enter f.body _ ⟨count, rfl⟩)
  refine ⟨t', ⟨v, ?_⟩, ht'⟩
  unfold CallEnds
  simp only [call_eq_invoke (Nat.le_refl ([] : List Word).length), invoke, hl, unlimited, hf]
  exact hhalts

end MmixBackend.Machine
