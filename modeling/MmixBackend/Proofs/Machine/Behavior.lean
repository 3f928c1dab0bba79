import MmixBackend.Proofs.Machine.Blocks

/-!
# What code does, wherever it stands

A behavior says how code may come to its end, from any temps and any state: with a value and other
temps and another state, or with the end of the whole run. Code that runs forever has no outcome.
Behaviors are composed like programs, so that what a piece of code does can be written down without
positions and jumps.

The behavior of an expression is read off the run in which its value is all that is asked for. It is
the same in every context, since the machine does not look at the context before it has the value.

## Main statements

- `Realizes.bind`, `Realizes.iterate`: runs behind each other, and repeated runs.
- `evaluation_realizes`: expressions behave alike in all contexts.
- `Realizes.evaluation_eq`: behaviors are unique.
-/

namespace MmixBackend.Machine

open IR
open Relation (ReflTransGen)

/-! ## §1 Behaviors -/

/-- What code works on: the temps of its activation and the state of the machine. -/
structure Scene where
  temps : Temps
  state : State

/-- The moment of a run with this scene. -/
def Scene.config (σ : Scene) (control : Control) : Config := ⟨control, σ.temps, σ.state⟩

/-- Why code ends the whole run. -/
inductive Abort where
  | exit (code : Word)
  | error (e : RuntimeError)

/-- How the run ends. -/
def Abort.ending : Abort → Ending
  | .exit code => .exit code
  | .error e => .error e

/-- What comes of code that does not run forever. -/
inductive Outcome (α : Type) where
  | value (a : α) (σ : Scene)
  | stop (why : Abort) (s : State)

/-- The transition with this outcome, if `finish` comes behind it. -/
def Outcome.transition {α : Type} (finish : α → Control) : Outcome α → Transition
  | .value a σ => .next (σ.config (finish a))
  | .stop why s => .stop why.ending s

/-- The outcomes that code has from each scene. -/
def Behavior (α : Type) : Type := Scene → Outcome α → Prop

namespace Behavior

variable {α β : Type}

/-- What comes of one behavior behind another. -/
inductive Bind (B : Behavior α) (f : α → Behavior β) (σ : Scene) : Outcome β → Prop
  | next {a : α} {σ' : Scene} {o : Outcome β} (h : B σ (.value a σ')) (h' : f a σ' o) : Bind B f σ o
  | stop {why : Abort} {s : State} (h : B σ (.stop why s)) : Bind B f σ (.stop why s)

instance : Monad Behavior where
  pure a := fun σ o => o = .value a σ
  bind B f := Bind B f

instance : LawfulMonad Behavior := by
  refine .mk' Behavior ?_ ?_ ?_
  -- The right identity, the left identity and associativity, each by cases on how a sequence comes about.
  · intro α B
    funext σ o
    refine propext ⟨fun h => ?_, fun h => ?_⟩
    · cases h with
      | next h h' =>
        cases h'
        exact h
      | stop h => exact h
    · cases o with
      | value a σ' => exact .next h rfl
      | stop why s => exact .stop h
  · intro α β a f
    funext σ o
    refine propext ⟨fun h => ?_, fun h => .next rfl h⟩
    cases h with
    | next h h' =>
      cases h
      exact h'
    | stop h => cases h
  · intro α β γ B f g
    funext σ o
    refine propext ⟨fun h => ?_, fun h => ?_⟩
    · cases h with
      | next h h' =>
        cases h with
        | next h₁ h₂ => exact .next h₁ (.next h₂ h')
      | stop h =>
        cases h with
        | next h₁ h₂ => exact .next h₁ (.stop h₂)
        | stop h => exact .stop h
    · cases h with
      | next h h' =>
        cases h' with
        | next h₁ h₂ => exact .next (.next h h₁) h₂
        | stop h' => exact .stop (.next h h')
      | stop h => exact .stop (.stop h)

/-- What one transition does. -/
def act (f : Scene → Outcome α) : Behavior α := fun σ o => o = f σ

theorem act_bind_act (f : Scene → Outcome α) (g : α → Scene → Outcome β) :
    (do let a ← act f; act (g a)) = act fun σ =>
      match f σ with
      | .value a σ' => g a σ'
      | .stop why s => .stop why s := by
  funext σ o
  refine propext ⟨fun h => ?_, fun h => ?_⟩
  · cases h with
    | next h h' =>
      simp only [act] at h h' ⊢
      rw [← h]
      exact h'
    | stop h =>
      simp only [act] at h ⊢
      rw [← h]
  · simp only [act] at h
    cases hf : f σ with
    | value a σ' =>
      rw [hf] at h
      exact .next hf.symm h
    | stop why s =>
      rw [hf] at h
      subst h
      exact .stop hf.symm

/-- What comes of a behavior that is repeated as long as it yields `true`. -/
inductive Iterate (B : Behavior Bool) : Scene → Outcome Unit → Prop
  | done {σ σ' : Scene} (h : B σ (.value false σ')) : Iterate B σ (.value () σ')
  | again {σ σ' : Scene} {o : Outcome Unit} (h : B σ (.value true σ')) (h' : Iterate B σ' o) :
      Iterate B σ o
  | stop {σ : Scene} {why : Abort} {s : State} (h : B σ (.stop why s)) : Iterate B σ (.stop why s)

/-- Repeats a behavior as long as it yields `true`. -/
def iterate (B : Behavior Bool) : Behavior Unit := Iterate B

/-- Ends the run with an error. -/
def fail (e : RuntimeError) : Behavior α := act fun σ => .stop (.error e) σ.state

/-- Sets a temp. -/
def setTemp (t : Temp) (v : Word) : Behavior Unit := act fun σ => .value () ⟨σ.temps.insert t v, σ.state⟩

/-- Stores a word in memory. -/
def store (addr v : Word) : Behavior Unit :=
  act fun σ => .value () ⟨σ.temps, { σ.state with memory := σ.state.memory.write addr v }⟩

/-- What counting a statement does: the machine may not allow one more. -/
def counted (m : Machine) (σ : Scene) : Outcome Unit :=
  let s := { σ.state with steps := σ.state.steps + 1 }
  if exceeds m s.steps then .stop (.error (.stepLimit m.limit)) s else .value () ⟨σ.temps, s⟩

/-- Counts a statement. -/
def count (m : Machine) : Behavior Unit := act (counted m)

end Behavior

/-! ## §2 Runs with a behavior -/

variable {m : Machine} {α β : Type}

/-- Runs from `start` behave like `B` until they come to what `finish` says for the value. -/
structure Realizes (m : Machine) (start : Control) (finish : α → Control) (B : Behavior α) : Prop where
  value : ∀ {σ a σ'}, B σ (.value a σ') → ReflTransGen (Next m) (σ.config start) (σ'.config (finish a))
  stop : ∀ {σ why s}, B σ (.stop why s) → Halts m (σ.config start) why.ending s
  /-- A run that ends has an outcome on its way. -/
  split : ∀ {n σ ending s}, runFor m n (σ.config start) = some (ending, s) →
    (∃ why, B σ (.stop why s) ∧ why.ending = ending) ∨
      ∃ a σ', ∃ n' ≤ n, B σ (.value a σ') ∧ runFor m n' (σ'.config (finish a)) = some (ending, s)

namespace Realizes

variable {start : Control} {finish mid : α → Control} {B : Behavior α}

theorem pure (a : α) (h : start = finish a) : Realizes m start finish (Pure.pure a) where
  value hv := by
    cases hv
    exact h ▸ .refl
  stop hs := by cases hs
  split hrun := .inr ⟨a, _, _, Nat.le_refl _, rfl, h ▸ hrun⟩

/-- A run with a behavior, behind it runs for each of its values. -/
theorem bind {f : α → Behavior β} {finish : β → Control} (h : Realizes m start mid B)
    (h' : ∀ a, Realizes m (mid a) finish (f a)) : Realizes m start finish (B >>= f) where
  value hv := by
    cases hv with
    | next h₁ h₂ => exact (h.value h₁).trans ((h' _).value h₂)
  stop hs := by
    cases hs with
    | next h₁ h₂ => exact .of_steps (h.value h₁) ((h' _).stop h₂)
    | stop hs => exact h.stop hs
  split hrun := by
    rcases h.split hrun with ⟨why, hs, hwhy⟩ | ⟨a, σ', n', hn', hv, hrun'⟩
    · exact .inl ⟨why, .stop hs, hwhy⟩
    · rcases (h' a).split hrun' with ⟨why, hs, hwhy⟩ | ⟨b, σ'', n'', hn'', hv', hrun''⟩
      · exact .inl ⟨why, .next hv hs, hwhy⟩
      · exact .inr ⟨b, σ'', n'', Nat.le_trans hn'' hn', .next hv hv', hrun''⟩

/-- One transition, which goes on or ends the run. -/
theorem act {f : Scene → Outcome α} (h : ∀ σ : Scene, step m (σ.config start) = (f σ).transition finish) :
    Realizes m start finish (Behavior.act f) where
  value {σ a σ'} hv := by
    have hstep := h σ
    rw [← (hv : _ = f σ)] at hstep
    exact .single hstep
  stop {σ why s} hs := by
    have hstep := h σ
    rw [← (hs : _ = f σ)] at hstep
    exact .of_stop hstep
  split {n σ ending s} hrun := by
    cases n with
    | zero => cases hrun
    | succ n =>
      rw [runFor, h σ] at hrun
      cases ho : f σ with
      | value a σ' =>
        rw [ho] at hrun
        exact .inr ⟨a, σ', n, Nat.le_succ n, ho.symm, hrun⟩
      | stop why s' =>
        rw [ho] at hrun
        cases hrun
        exact .inl ⟨why, ho.symm, rfl⟩

/-- One transition that only goes on. -/
theorem silent (a : α) (h : ∀ σ : Scene, step m (σ.config start) = .next (σ.config (finish a))) :
    Realizes m start finish (Pure.pure a) :=
  act (f := fun σ => .value a σ) h

theorem head {next : Control} (h : ∀ σ : Scene, step m (σ.config start) = .next (σ.config next))
    (hnext : Realizes m next finish B) : Realizes m start finish B := by
  have hfirst : Realizes m start (fun _ : Unit => next) (Pure.pure ()) := silent () h
  have hall := hfirst.bind fun _ => hnext
  rwa [pure_bind] at hall

/-- Runs that come back to their start as long as they yield `true`. They begin with a transition, so the
fuel goes down from one repetition to the next. -/
theorem iterate {f : Scene → Outcome α} {g : α → Behavior Bool} {finish : Control}
    (h : ∀ σ : Scene, step m (σ.config start) = (f σ).transition mid)
    (h' : ∀ a, Realizes m (mid a) (fun again => if again then start else finish) (g a)) :
    Realizes m start (fun _ => finish) (Behavior.iterate (Behavior.act f >>= g)) where
  value {σ a σ'} hv := by
    -- The outcome is an index of the relation, so it is generalized before the induction.
    replace hv : Behavior.Iterate _ σ (.value a σ') := hv
    generalize ho : Outcome.value a σ' = o at hv
    induction hv with
    | done hb =>
      cases ho
      exact (bind (act h) h').value hb
    | again hb _ ih => exact ((bind (act h) h').value hb).trans (ih ho)
    | stop => cases ho
  stop {σ why s} hs := by
    replace hs : Behavior.Iterate _ σ (.stop why s) := hs
    generalize ho : Outcome.stop why s = o at hs
    induction hs with
    | done => cases ho
    | again hb _ ih => exact .of_steps ((bind (act h) h').value hb) (ih ho)
    | stop hb =>
      cases ho
      exact (bind (act h) h').stop hb
  split {n σ ending s} hrun := by
    -- A repetition uses up the fuel of its body, so the induction is on the fuel.
    induction n using Nat.strongRecOn generalizing σ with
    | ind n ih =>
      cases n with
      | zero => cases hrun
      | succ n =>
        rw [runFor, h σ] at hrun
        cases ho : f σ with
        | stop why s' =>
          rw [ho] at hrun
          cases hrun
          exact .inl ⟨why, .stop (.stop ho.symm), rfl⟩
        | value a σ₁ =>
          rw [ho] at hrun
          rcases (h' a).split hrun with ⟨why, hs, hwhy⟩ | ⟨again, σ₂, n', hn', hv, hrun'⟩
          · exact .inl ⟨why, .stop (.next ho.symm hs), hwhy⟩
          · cases again with
            | false => exact .inr ⟨(), σ₂, n', by omega, .done (.next ho.symm hv), hrun'⟩
            | true =>
              rcases ih n' (by omega) hrun' with ⟨why, hs, hwhy⟩ | ⟨u, σ₃, n'', hn'', hv', hrun''⟩
              · exact .inl ⟨why, .again (.next ho.symm hv) hs, hwhy⟩
              · exact .inr ⟨u, σ₃, n'', by omega, .again (.next ho.symm hv) hv', hrun''⟩

end Realizes

/-! ## §3 Contexts that go on in others -/

mutual

/-- Where the first context would end the run, the second one comes. -/
def ValueContext.append : ValueContext → ValueContext → ValueContext
  | .done, k' => k'
  | .readMem k, k' => .readMem (k.append k')
  | .binSecond op snd k, k' => .binSecond op snd (k.append k')
  | .binApply op fst k, k' => .binApply op fst (k.append k')
  | .unApply op k, k' => .unApply op (k.append k')
  | .argument l offs ready rest k, k' => .argument l offs ready rest (k.append k')
  | .drop b pc k, k' => .drop b pc (k.append k')
  | .setTemp t b pc k, k' => .setTemp t b pc (k.append k')
  | .storeAddress src b pc k, k' => .storeAddress src b pc (k.append k')
  | .storeValue addr b pc k, k' => .storeValue addr b pc (k.append k')
  | .branch pos neg b k, k' => .branch pos neg b (k.append k')

/-- The same for what comes at the end of a block. -/
def BlockContext.append : BlockContext → ValueContext → BlockContext
  | .value e k, k' => .value e (k.append k')
  | .ret frame fp temps k, k' => .ret frame fp temps (k.append k')

end

/-- A configuration with a context behind its own. -/
def Config.append : Config → ValueContext → Config
  | ⟨.eval e k, temps, s⟩, k' => ⟨.eval e (k.append k'), temps, s⟩
  | ⟨.value v k, temps, s⟩, k' => ⟨.value v (k.append k'), temps, s⟩
  | ⟨.exec b pc k, temps, s⟩, k' => ⟨.exec b pc (k.append k'), temps, s⟩

/-- The second transition is the first one with a context behind; the first one does not end the run
with a value. -/
inductive Transition.Carries (k' : ValueContext) : Transition → Transition → Prop
  | next (c : Config) : Carries k' (.next c) (.next (c.append k'))
  | stop (why : Abort) (s : State) : Carries k' (.stop why.ending s) (.stop why.ending s)

section Append

variable (m) (k' : ValueContext) (temps : Temps) (s : State)

theorem invoke_append (l : Label) (k : ValueContext) :
    (invoke m l k temps s).Carries k' (invoke m l (k.append k') temps s) := by
  unfold invoke
  cases Routine.ofLabel? l with
  | some r =>
    dsimp only
    generalize r.run s = result
    obtain ⟨ending, s'⟩ := result
    cases ending with
    | value v => exact .next _
    | exit code => exact .stop (.exit code) s'
    | error e => exact .stop (.error e) s'
  | none =>
    dsimp only
    cases m.functions[l]? with
    | none => exact .stop (.error _) _
    | some f => exact .next _

theorem call_append (l : Label) (offs args : List Word) (k : ValueContext) :
    (call m l offs args k temps s).Carries k' (call m l offs args (k.append k') temps s) := by
  rw [call, call]
  split
  · exact .stop (.error _) _
  · exact invoke_append m k' temps _ l k

theorem endBlock_append (k : BlockContext) :
    (endBlock temps s k).Carries k' (endBlock temps s (k.append k')) := by
  cases k with
  | value => exact .next _
  | ret => exact .next _

theorem jump_append (l : Label) (b : Block) (k : BlockContext) :
    (jump l b k temps s).Carries k' (jump l b (k.append k') temps s) := by
  unfold jump
  cases b.labels[l]? with
  | some i => exact .next _
  | none =>
    cases k with
    | value => exact .stop (.error _) s
    | ret frame fp own k => exact endBlock_append k' temps s (.ret frame fp own k)

theorem evalStep_append (e : Expr) (k : ValueContext) :
    (evalStep m e k temps s).Carries k' (evalStep m e (k.append k') temps s) := by
  cases e with
  | absent => exact .stop (.error _) s
  | name l =>
    simp only [evalStep]
    cases m.labels[l]? with
    | none => exact .stop (.error _) s
    | some addr => exact .next _
  | call l offs args =>
    cases args with
    | nil => exact call_append m k' temps s l offs [] k
    | cons => exact .next _
  | _ => exact .next _

theorem valueStep_append (v : Word) {k : ValueContext} (hk : k ≠ .done) :
    (valueStep m v k temps s).Carries k' (valueStep m v (k.append k') temps s) := by
  cases k with
  | done => exact absurd rfl hk
  | binApply op fst k =>
    simp only [ValueContext.append, valueStep]
    cases applyBinary op fst v with
    | ok r => exact .next _
    | error e => exact .stop (.error e) s
  | argument l offs ready rest k =>
    cases rest with
    | nil => exact call_append m k' temps s l offs _ k
    | cons => exact .next _
  | branch pos neg b k => exact jump_append k' temps s _ b k
  | _ => exact .next _

theorem execStep_append (b : Block) (pc : Nat) (k : BlockContext) :
    (execStep m b pc k temps s).Carries k' (execStep m b pc (k.append k') temps s) := by
  unfold execStep
  cases b.stmts[pc]? with
  | none => exact endBlock_append k' temps s k
  | some stmt =>
    dsimp only
    split
    · exact .stop (.error _) _
    · cases stmt with
      | move dst src =>
        cases dst with
        | temp | mem => exact .next _
        | _ => exact .stop (.error _) _
      | jump l => exact jump_append k' temps _ l b k
      | absent | seq => exact .stop (.error _) _
      | _ => exact .next _

end Append

/-- The run has nothing left to do but to hand over a value. -/
def Config.Done (c : Config) : Prop := ∃ v, c.control = .value v .done

/-- The machine looks at the context behind only when it has the value. -/
theorem step_append (m : Machine) (k' : ValueContext) {c : Config} (h : ¬c.Done) :
    (step m c).Carries k' (step m (c.append k')) := by
  obtain ⟨control, temps, s⟩ := c
  cases control with
  | eval e k => exact evalStep_append m k' temps s e k
  | value v k => exact valueStep_append m k' temps s v fun hk => h ⟨v, hk ▸ rfl⟩
  | exec b pc k => exact execStep_append m k' temps s b pc k

theorem Config.Done.step {c : Config} (h : c.Done) : ∃ v, step m c = .stop (.value v) c.state := by
  obtain ⟨control, temps, s⟩ := c
  obtain ⟨v, rfl⟩ := h
  exact ⟨v, rfl⟩

theorem steps_append {c d : Config} (k' : ValueContext) (h : ReflTransGen (Next m) c d) :
    ReflTransGen (Next m) (c.append k') (d.append k') := by
  refine h.lift (Config.append · k') fun c d hstep => ?_
  have hdone : ¬c.Done := fun hc => by
    obtain ⟨v, hv⟩ := hc.step (m := m)
    cases hv.symm.trans hstep
  have hcarries := step_append m k' hdone
  rw [show step m c = .next d from hstep] at hcarries
  generalize ht : step m (c.append k') = t at hcarries
  cases hcarries
  exact ht

theorem halts_append {c : Config} (k' : ValueContext) {why : Abort} {s : State}
    (h : Halts m c why.ending s) : Halts m (c.append k') why.ending s := by
  obtain ⟨fuel, hrun⟩ := h
  induction fuel generalizing c with
  | zero => cases hrun
  | succ fuel ih =>
    by_cases hdone : c.Done
    · obtain ⟨v, hv⟩ := hdone.step (m := m)
      rw [runFor, hv] at hrun
      cases why <;> cases hrun
    · have hcarries := step_append m k' hdone
      rw [runFor] at hrun
      generalize step m c = t at hcarries hrun
      generalize ht : step m (c.append k') = t' at hcarries
      cases hcarries with
      | next d => exact .of_next ht (ih hrun)
      | stop why' s' =>
        obtain ⟨hwhy, rfl⟩ : why'.ending = why.ending ∧ s' = s := by simpa using hrun
        exact .of_stop (hwhy ▸ ht)

/-- A run with a context behind that ends has come to the value before, or ends for another reason. -/
theorem runFor_append {n : Nat} {c : Config} {k' : ValueContext} {ending : Ending} {s : State}
    (hrun : runFor m n (c.append k') = some (ending, s)) :
    (∃ why : Abort, Halts m c why.ending s ∧ why.ending = ending) ∨
      ∃ v, ∃ σ : Scene, ∃ n' ≤ n, ReflTransGen (Next m) c (σ.config (.value v .done)) ∧
        runFor m n' (σ.config (.value v k')) = some (ending, s) := by
  induction n generalizing c with
  | zero => cases hrun
  | succ n ih =>
    by_cases hdone : c.Done
    · obtain ⟨control, temps, s₀⟩ := c
      obtain ⟨v, rfl⟩ := hdone
      exact .inr ⟨v, ⟨temps, s₀⟩, n + 1, Nat.le_refl _, .refl, hrun⟩
    · have hcarries := step_append m k' hdone
      rw [runFor] at hrun
      generalize ht : step m c = t at hcarries
      generalize step m (c.append k') = t' at hcarries hrun
      cases hcarries with
      | next d =>
        rcases ih hrun with ⟨why, hhalts, hwhy⟩ | ⟨v, σ, n', hn', hsteps, hrun'⟩
        · exact .inl ⟨why, hhalts.of_next ht, hwhy⟩
        · exact .inr ⟨v, σ, n', by omega, .head ht hsteps, hrun'⟩
      | stop why s' =>
        cases hrun
        exact .inl ⟨why, .of_stop ht, rfl⟩

/-! ## §4 Behaviors of expressions -/

/-- What comes of an expression if its value is all that is asked for. -/
def evaluation (m : Machine) (e : Expr) : Behavior Word := fun σ => fun
  | .value v σ' => ReflTransGen (Next m) (σ.config (.eval e .done)) (σ'.config (.value v .done))
  | .stop why s => Halts m (σ.config (.eval e .done)) why.ending s

/-- **Expressions behave alike in all contexts.** -/
theorem evaluation_realizes (m : Machine) (e : Expr) (k : ValueContext) :
    Realizes m (.eval e k) (fun v => .value v k) (evaluation m e) where
  value h := steps_append k h
  stop h := halts_append k h
  split hrun := runFor_append (c := Scene.config _ (.eval e .done)) hrun

theorem next_unique {c d d' : Config} (h : ReflTransGen (Next m) c d) (hd : d.Done)
    (h' : ReflTransGen (Next m) c d') (hd' : d'.Done) : d = d' := by
  have hstuck : ∀ {d e : Config}, d.Done → ¬Next m d e := fun hd hnext => by
    obtain ⟨v, hv⟩ := hd.step (m := m)
    cases hv.symm.trans hnext
  induction h using ReflTransGen.head_induction_on with
  | refl =>
    cases h'.cases_head with
    | inl heq => exact heq
    | inr hstep => exact absurd hstep.choose_spec.1 (hstuck hd)
  | head hstep _ ih =>
    cases h'.cases_head with
    | inl heq =>
      subst heq
      exact absurd hstep (hstuck hd')
    | inr hstep' =>
      obtain ⟨e, hnext, hrest⟩ := hstep'
      cases (show Transition.next _ = .next e from hstep.symm.trans hnext)
      exact ih hrest

/-- **Behaviors are unique.** -/
theorem Realizes.evaluation_eq {e : Expr} {B : Behavior Word}
    (h : Realizes m (.eval e .done) (fun v => .value v .done) B) : evaluation m e = B := by
  funext σ o
  refine propext ⟨fun ho => ?_, fun ho => ?_⟩
  · cases o with
    | value v σ' =>
      obtain ⟨fuel, hrun⟩ : Halts m (σ.config (.eval e .done)) (.value v) σ'.state :=
        .of_steps (show ReflTransGen (Next m) _ _ from ho) (.of_stop rfl)
      rcases h.split hrun with ⟨why, -, hwhy⟩ | ⟨v', σ'', -, -, hv, -⟩
      · cases why <;> cases hwhy
      -- Both runs have come to a value, and a run passes only one.
      · have heq := next_unique (show ReflTransGen (Next m) _ _ from ho) ⟨v, rfl⟩ (h.value hv) ⟨v', rfl⟩
        obtain ⟨temps, s⟩ := σ'
        obtain ⟨temps', s'⟩ := σ''
        cases heq
        exact hv
    | stop why s =>
      obtain ⟨fuel, hrun⟩ : Halts m (σ.config (.eval e .done)) why.ending s := ho
      rcases h.split hrun with ⟨why', hs, hwhy⟩ | ⟨v, σ', n', -, hv, hrun'⟩
      · cases why <;> cases why' <;> cases hwhy <;> exact hs
      · -- A run that has come to the value ends with it.
        cases n' with
        | zero => cases hrun'
        | succ n' => cases why <;> cases hrun'
  · cases o with
    | value v σ' => exact h.value ho
    | stop why s => exact h.stop ho

end MmixBackend.Machine
