import MmixBackend.Proofs.Instr.Meaning
import MmixBackend.Proofs.Machine.Evaluation
import Mathlib.Algebra.Order.Ring.Int

/-!
# Selected code computes the values of expressions

The instructions that are selected for an expression leave its value in the temp that goes with them.
They keep the temps that had been handed out before, so the values of operands and arguments are still
there when they are used, and they leave the state that evaluating the expression leaves, the number of
steps apart.

## Main statements

- `performAll_binary`: the instructions of every operator, remainders and comparisons included.
- `performAll_storeArguments`: both ways to store arguments write them where the call expects them.
- `IR.Expr.select_computes`: the instructions of an expression compute its value.
-/

namespace MmixBackend

open IR Machine Execution

variable {m : Machine} {left : Label → World → Word}

/-! ## §1 Expressions -/

/-- The store has the values of an activation in the temps numbered up to `n`. -/
def Agrees (n : Int) (temps : Temps) (store : Temp → Word) : Prop :=
  ∀ t : Temp, t.index ≤ n → store t = temps.getD t 0

/-- The second store has the values of the first in the temps numbered up to `n`. -/
def Preserves (n : Int) (store store' : Temp → Word) : Prop :=
  ∀ t : Temp, t.index ≤ n → store' t = store t

namespace Preserves

variable {n n' : Int} {store store' store'' : Temp → Word}

theorem refl (n : Int) (store : Temp → Word) : Preserves n store store := fun _ _ => rfl

theorem trans (h : Preserves n store store') (h' : Preserves n' store' store'') (hn : n ≤ n') :
    Preserves n store store'' :=
  fun t ht => (h' t (Int.le_trans ht hn)).trans (h t ht)

theorem update (h : Preserves n store store') {t : Temp} (ht : n < t.index) (v : Word) :
    Preserves n store (Function.update store' t v) := by
  intro u hu
  have hne : u ≠ t := by
    rintro rfl
    omega
  rw [Function.update_of_ne hne]
  exact h u hu

end Preserves

theorem Agrees.of_preserves {n n' : Int} {temps : Temps} {store store' : Temp → Word}
    (h : Agrees n temps store) (hpres : Preserves n' store store') (hn : n ≤ n') :
    Agrees n temps store' :=
  fun t ht => (hpres t (Int.le_trans ht hn)).trans (h t ht)

/-- Instructions without labels that fall through. -/
def Sequence (is : List Instr) : Prop := ∀ i ∈ is, FallsThrough i ∧ ∀ l, i ≠ .label l

namespace Sequence

variable {is is' : List Instr}

theorem nil : Sequence [] := fun _ hi => (List.not_mem_nil hi).elim

theorem append (h : Sequence is) (h' : Sequence is') : Sequence (is ++ is') :=
  List.forall_mem_append.mpr ⟨h, h'⟩

theorem plain (op : Opcode) (uses defs : List Temp) (h : Sequence is) :
    Sequence (.plain op uses defs :: is) :=
  List.forall_mem_cons.mpr ⟨⟨.plain op uses defs, by simp [Instr.plain]⟩, h⟩

theorem call (l : Label) (h : Sequence is) : Sequence (.oper (.call l) [] [] [l] .call :: is) :=
  List.forall_mem_cons.mpr
    ⟨⟨⟨by simp [Instr.flow], fun hcall => absurd rfl hcall⟩, by simp⟩, h⟩

theorem loadConstant (dst : Temp) (v : Word) : Sequence (Instr.loadConstant dst v) := by
  intro i hi
  obtain ⟨⟨place, value⟩, -, rfl⟩ := List.mem_map.mp hi
  exact (plain _ _ _ nil) _ (List.mem_singleton_self _)

theorem binary {op : BinOp} {fst snd dst : Temp} (h : Instr.binary op fst snd dst = .ok is) :
    Sequence is := by
  cases op with
  | unknown code => cases h
  | or | and | add | sub | mul | div =>
    cases h
    exact .plain _ _ _ .nil
  | equ | neq | lth | gth | leq | geq | mod =>
    cases h
    exact .plain _ _ _ (.plain _ _ _ .nil)

end Sequence

/-- What has been selected for an expression between two supplies computes its value. -/
structure Selected (m : Machine) (left : Label → World → Word) (n : Int) (σ : Supply) (e : Expr)
    (r : List Instr × Temp) (σ' : Supply) : Prop where
  le : σ.temps ≤ σ'.temps
  temp : r.2.index ≤ σ'.temps
  /-- The temp of a constant is not used elsewhere. -/
  own : ∀ v, e = .const v → σ.temps < r.2.index
  sequence : Sequence r.1
  /-- The value is in the temp, earlier temps are kept, and the state is that behind the expression. -/
  computes : ∀ {temps : Temps} {s s' : State} {v : Word}, e.Yields m temps s v s' →
    ∀ {store : Temp → Word} {w : World}, Agrees n temps store → s.Alike w.state →
      ∃ store' w', performAll (meaning m left) (store, w) r.1 = (store', w') ∧ store' r.2 = v ∧
        Preserves σ.temps store store' ∧ s'.Alike w'.state

/-- The same for arguments, which are in the temps of a list. -/
structure SelectedArgs (m : Machine) (left : Label → World → Word) (n : Int) (σ : Supply)
    (es : List Expr) (r : List Instr × List Temp) (σ' : Supply) : Prop where
  le : σ.temps ≤ σ'.temps
  temps : ∀ t ∈ r.2, t.index ≤ σ'.temps
  sequence : Sequence r.1
  computes : ∀ {temps : Temps} {s s' : State} {vs : List Word}, Expr.YieldAll m temps es s vs s' →
    ∀ {store : Temp → Word} {w : World}, Agrees n temps store → s.Alike w.state →
      ∃ store' w', performAll (meaning m left) (store, w) r.1 = (store', w') ∧
        r.2.map store' = vs ∧ Preserves σ.temps store store' ∧ s'.Alike w'.state

/-- A comparison passes the test of a relational operator exactly if the operator holds. -/
theorem applyBinary_of_testOf {op : BinOp} {test : SignTest} (h : Instr.testOf op = some test)
    (x y : Word) : applyBinary op x y = .ok (.ofBool (passes test (comparison x y))) := by
  have hlt : x < y ↔ x.toInt < y.toInt := Int64.lt_iff_toInt_lt
  have hgt : y < x ↔ y.toInt < x.toInt := Int64.lt_iff_toInt_lt
  have hle : x ≤ y ↔ x.toInt ≤ y.toInt := Int64.le_iff_toInt_le
  have hge : y ≤ x ↔ y.toInt ≤ x.toInt := Int64.le_iff_toInt_le
  have heq : x = y ↔ x.toInt = y.toInt := Int64.toInt_inj.symm
  -- A comparison yields -1, 0 or 1, and the tests look at its sign.
  rcases lt_trichotomy x.toInt y.toInt with hxy | hxy | hxy
  · have hc : comparison x y = -1 := by simp [comparison, hlt, hxy]
    cases op with
    | equ | neq | lth | gth | leq | geq =>
      cases h
      simp [applyBinary, passes, hc, hlt, hgt, hle, hge, heq, hxy, hxy.le, hxy.not_gt, hxy.ne,
        hxy.not_ge]
    | _ => cases h
  · have hc : comparison x y = 0 := by simp [comparison, hlt, heq, hxy]
    cases op with
    | equ | neq | lth | gth | leq | geq =>
      cases h
      simp [applyBinary, passes, hc, hlt, hgt, hle, hge, heq, hxy]
    | _ => cases h
  · have hc : comparison x y = 1 := by simp [comparison, hlt, heq, hxy.not_gt, hxy.ne']
    cases op with
    | equ | neq | lth | gth | leq | geq =>
      cases h
      simp [applyBinary, passes, hc, hlt, hgt, hle, hge, heq, hxy, hxy.le, hxy.not_gt, hxy.ne',
        hxy.not_ge]
    | _ => cases h

/-- The instructions of an operator leave its value in their destination. -/
theorem performAll_binary (m : Machine) (left : Label → World → Word) (w : World) {op : BinOp}
    {fst snd dst : Temp} {is : List Instr} (h : Instr.binary op fst snd dst = .ok is)
    {store : Temp → Word} {v : Word} (hv : applyBinary op (store fst) (store snd) = .ok v) :
    ∃ r, performAll (meaning m left) (store, w) is
      = (Function.update store dst v, { w with remainder := r }) := by
  cases op with
  | unknown code => cases h
  | or | and | add | sub | mul =>
    cases h
    cases hv
    exact ⟨w.remainder, rfl⟩
  | equ | neq | lth | gth | leq | geq =>
    cases h
    rw [applyBinary_of_testOf rfl] at hv
    cases hv
    refine ⟨w.remainder, ?_⟩
    simp [perform_plain_single, meaning, Effect.value]
  | div =>
    -- The division sets the remainder register as well.
    cases h
    simp only [applyBinary] at hv
    split at hv <;> cases hv
    rename_i hzero
    refine ⟨Int64.ofInt ((store fst).toInt.fmod (store snd).toInt), ?_⟩
    rw [Word.floorDiv, Word.floorDivMod_eq _ hzero]
    rfl
  | mod =>
    cases h
    simp only [applyBinary] at hv
    split at hv <;> cases hv
    rename_i hzero
    refine ⟨Int64.ofInt ((store fst).toInt.fmod (store snd).toInt), ?_⟩
    rw [Word.floorMod, Word.floorDivMod_eq _ hzero]
    simp [perform_plain_single, meaning, Effect.value]

/-- Both ways to store an argument write it at its offset from the stack pointer. -/
theorem performAll_storeArgument (m : Machine) (left : Label → World → Word) (mode : ArgPassing)
    (off : Word) {arg : Temp} {σ : Supply} (harg : arg.index ≤ σ.temps) (store : Temp → Word)
    (w : World) :
    ∃ store', performAll (meaning m left) (store, w) ((Instr.storeArgument mode off arg).run σ).1
        = (store', { w with state := { w.state with
            memory := w.state.memory.write (w.state.sp + off) (store arg) } }) ∧
      Preserves σ.temps store store' := by
  unfold Instr.storeArgument
  split
  · exact ⟨store, rfl, .refl _ _⟩
  · -- The address is built in two fresh temps, neither of which holds the argument.
    show ∃ store', performAll (meaning m left) (store, w) (Instr.loadConstant ⟨σ.temps + 1⟩ off
      ++ [.plain .argAddress [⟨σ.temps + 1⟩] [⟨σ.temps + 1 + 1⟩],
        .plain .storeAt [arg, ⟨σ.temps + 1 + 1⟩] []]) = _ ∧ _
    have hne : arg ≠ ⟨σ.temps + 1⟩ := by
      rintro rfl
      simp only at harg
      omega
    have hne' : arg ≠ ⟨σ.temps + 1 + 1⟩ := by
      rintro rfl
      simp only at harg
      omega
    rw [performAll_append, performAll_loadConstant (loadsGroups_meaning m left)]
    refine ⟨_, ?_, ((Preserves.refl _ _).update (t := ⟨σ.temps + 1⟩) ?_ off).update
      (t := ⟨σ.temps + 1 + 1⟩) ?_ (w.state.sp + off)⟩
    · simp [perform_plain_single, perform_plain_nil, meaning, Effect.value, Effect.update, hne, hne']
    · simp only
      omega
    · simp only
      omega

theorem sequence_storeArgument (mode : ArgPassing) (off : Word) (arg : Temp) (σ : Supply) :
    Sequence ((Instr.storeArgument mode off arg).run σ).1 := by
  unfold Instr.storeArgument
  split
  · exact .plain _ _ _ .nil
  · exact (Sequence.loadConstant _ _).append (.plain _ _ _ (.plain _ _ _ .nil))

theorem sequence_storeArguments (mode : ArgPassing) (offs : List Word) (args : List Temp)
    (σ : Supply) : Sequence ((Instr.storeArguments mode offs args).run σ).1 := by
  induction offs generalizing args σ with
  | nil => exact .nil
  | cons off offs ih =>
    cases args with
    | nil => exact .nil
    | cons arg args => exact (sequence_storeArgument mode off arg σ).append (ih args _)

/-- The arguments of a call are written one after the other. -/
theorem performAll_storeArguments (m : Machine) (left : Label → World → Word) (mode : ArgPassing)
    (offs : List Word) {args : List Temp} {σ : Supply} (hargs : ∀ t ∈ args, t.index ≤ σ.temps)
    (store : Temp → Word) (w : World) :
    ∃ store', performAll (meaning m left) (store, w) ((Instr.storeArguments mode offs args).run σ).1
        = (store', { w with state := { w.state with
            memory := w.state.memory.writeAt w.state.sp offs (args.map store) } }) ∧
      Preserves σ.temps store store' := by
  induction offs generalizing args σ store w with
  | nil => exact ⟨store, rfl, .refl _ _⟩
  | cons off offs ih =>
    cases args with
    | nil => exact ⟨store, rfl, .refl _ _⟩
    | cons arg args =>
      obtain ⟨harg, hargs⟩ := List.forall_mem_cons.mp hargs
      have hle := (storeArgument_spec mode off harg).1
      obtain ⟨store₁, hfirst, hpres₁⟩ := performAll_storeArgument m left mode off harg store w
      obtain ⟨store₂, hrest, hpres₂⟩ := ih (fun t ht => Int.le_trans (hargs t ht) hle) store₁
        { w with state := { w.state with
          memory := w.state.memory.write (w.state.sp + off) (store arg) } }
      -- Storing the first argument keeps the temps of the others.
      have hsame : args.map store₁ = args.map store :=
        List.map_congr_left fun t ht => hpres₁ t (hargs t ht)
      refine ⟨store₂, ?_, hpres₁.trans hpres₂ hle⟩
      show performAll (meaning m left) (store, w) (((Instr.storeArgument mode off arg).run σ).1
        ++ ((Instr.storeArguments mode offs args).run ((Instr.storeArgument mode off arg).run σ).2).1) = _
      rw [performAll_append, hfirst, hrest, hsame]
      rfl

/-- A call leaves its result in a temp. -/
theorem performAll_call (left : Label → World → Word) {l : Label} {s s' : State} (h : Returns m l s s')
    (result : Temp) (store : Temp → Word) (r : Word) :
    ∃ r', performAll (meaning m left) (store, ⟨s, r⟩)
        [.oper (.call l) [] [] [l] .call, .plain .loadResult [] [result]]
      = (Function.update store result (s'.memory.read s'.sp), ⟨s', r'⟩) := by
  have hcall : perform (meaning m left) (store, ⟨s, r⟩) (.oper (.call l) [] [] [l] .call)
      = (store, ⟨s', left l ⟨s, r⟩⟩) := by
    show (store, World.mk (afterCall m l s) (left l ⟨s, r⟩)) = _
    rw [afterCall_eq h]
  refine ⟨left l ⟨s, r⟩, ?_⟩
  rw [performAll_cons, hcall]
  rfl

namespace Selected

variable {n : Int} {σ σ₁ σ₂ σ' : Supply}

/-- A load reads the value at the address that its operand computes. -/
theorem mem {addr : Expr} {before : List Instr} {a dst : Temp}
    (haddr : Selected m left n σ addr (before, a) σ₁) (hdst : dst.index = σ'.temps)
    (hσ' : σ'.temps = σ₁.temps + 1) :
    Selected m left n σ (.mem addr) (before ++ [.plain .loadAt [a] [dst]], dst) σ' := by
  have hle := haddr.le
  refine ⟨by omega, Int.le_of_eq hdst, by simp, haddr.sequence.append (.plain _ _ _ .nil), ?_⟩
  rintro temps s s' v ⟨x, hx, rfl⟩ store w hagrees hs
  obtain ⟨store₁, w₁, hrun, hval, hpres, hs'⟩ := haddr.computes hx hagrees hs
  refine ⟨Function.update store₁ dst (w₁.state.memory.read (store₁ a)), w₁, ?_, ?_,
    hpres.update (by omega) _, hs'⟩
  · rw [performAll_append, hrun]
    rfl
  · rw [Function.update_self, hval, hs'.memory_eq]

/-- An operator is applied to the values of its operands, which are computed from left to right. -/
theorem binop {op : BinOp} {fst snd : Expr} {before₁ before₂ is : List Instr} {a b dst : Temp}
    (hn : n ≤ σ.temps) (hfst : Selected m left n σ fst (before₁, a) σ₁)
    (hsnd : Selected m left n σ₁ snd (before₂, b) σ₂) (his : Instr.binary op a b dst = .ok is)
    (hdst : dst.index = σ'.temps) (hσ' : σ'.temps = σ₂.temps + 1) :
    Selected m left n σ (.binop op fst snd) (before₁ ++ before₂ ++ is, dst) σ' := by
  have hle₁ := hfst.le
  have hle₂ := hsnd.le
  refine ⟨by omega, Int.le_of_eq hdst, by simp,
    (hfst.sequence.append hsnd.sequence).append (.binary his), ?_⟩
  rintro temps s s' v ⟨x, s₁, y, hx, hy, hv⟩ store w hagrees hs
  obtain ⟨store₁, w₁, hrun₁, hval₁, hpres₁, hs₁⟩ := hfst.computes hx hagrees hs
  obtain ⟨store₂, w₂, hrun₂, hval₂, hpres₂, hs₂⟩ :=
    hsnd.computes hy (hagrees.of_preserves hpres₁ hn) hs₁
  -- The second operand does not touch the temp of the first.
  have hoperands : applyBinary op (store₂ a) (store₂ b) = .ok v := by
    rw [hpres₂ a hfst.temp, hval₁, hval₂, hv]
  obtain ⟨r, hop⟩ := performAll_binary m left w₂ his hoperands
  refine ⟨Function.update store₂ dst v, { w₂ with remainder := r }, ?_, Function.update_self _ _ _,
    (hpres₁.trans hpres₂ hle₁).update (by omega) v, hs₂⟩
  rw [performAll_append, performAll_append, hrun₁, hrun₂, hop]

/-- A negation may write to any temp that was not handed out before its operand. -/
theorem neg {arg : Expr} {before : List Instr} {a dst : Temp}
    (harg : Selected m left n σ arg (before, a) σ₁) (hσ' : σ₁.temps ≤ σ'.temps)
    (hlo : σ.temps < dst.index) (hhi : dst.index ≤ σ'.temps) :
    Selected m left n σ (.unop .neg arg) (before ++ [.plain .negate [a] [dst]], dst) σ' := by
  have hle := harg.le
  refine ⟨by omega, hhi, by simp, harg.sequence.append (.plain _ _ _ .nil), ?_⟩
  rintro temps s s' v ⟨x, hx, rfl⟩ store w hagrees hs
  obtain ⟨store₁, w₁, hrun, hval, hpres, hs'⟩ := harg.computes hx hagrees hs
  refine ⟨Function.update store₁ dst (-store₁ a), w₁, ?_, ?_, hpres.update hlo _, hs'⟩
  · rw [performAll_append, hrun]
    rfl
  · rw [Function.update_self, hval]
    rfl

/-- A logical negation is computed as `1 - x`: the operand is negated and the result is incremented. -/
theorem not {arg : Expr} {before : List Instr} {a negated dst : Temp}
    (harg : Selected m left n σ arg (before, a) σ₁) (hσ' : σ₁.temps ≤ σ'.temps)
    (hneg : σ.temps < negated.index) (hlo : σ.temps < dst.index) (hhi : dst.index ≤ σ'.temps) :
    Selected m left n σ (.unop .not arg)
      (before ++ [.plain .negate [a] [negated], .plain .increment [negated] [dst]], dst) σ' := by
  have hle := harg.le
  refine ⟨by omega, hhi, by simp, harg.sequence.append (.plain _ _ _ (.plain _ _ _ .nil)), ?_⟩
  rintro temps s s' v ⟨x, hx, rfl⟩ store w hagrees hs
  obtain ⟨store₁, w₁, hrun, hval, hpres, hs'⟩ := harg.computes hx hagrees hs
  refine ⟨Function.update (Function.update store₁ negated (-store₁ a)) dst (-store₁ a + 1), w₁,
    ?_, ?_, (hpres.update hneg _).update hlo _, hs'⟩
  · rw [performAll_append, hrun]
    simp [perform_plain_single, meaning, Effect.value]
  · rw [Function.update_self, hval, Int64.add_comm, ← Int64.sub_eq_add_neg]
    rfl

end Selected

/-- A call stores its arguments, does what it does from the outside and leaves its result. -/
theorem SelectedArgs.call {n : Int} {σ σ₁ σ₂ σ' : Supply} {label : Label} {offs : List Word}
    {args : List Expr} {before : List Instr} {ts : List Temp} {result : Temp} (mode : ArgPassing)
    (hargs : SelectedArgs m left n σ args (before, ts) σ₁) (hσ₂ : σ₁.temps ≤ σ₂.temps)
    (hresult : result.index = σ'.temps) (hσ' : σ'.temps = σ₂.temps + 1) :
    Selected m left n σ (.call label offs args)
      (before ++ ((Instr.storeArguments mode offs ts).run σ₁).1
        ++ [.oper (.call label) [] [] [label] .call, .plain .loadResult [] [result]], result) σ' := by
  have hle := hargs.le
  refine ⟨by omega, Int.le_of_eq hresult, by simp,
    (hargs.sequence.append (sequence_storeArguments mode offs ts σ₁)).append
      (.call label (.plain _ _ _ .nil)), ?_⟩
  rintro temps s s' v ⟨vs, s₁, hvs, hleaves⟩ store w hagrees hs
  obtain ⟨store₁, w₁, hrun, rfl, hpres₁, count, hs₁⟩ := hargs.computes hvs hagrees hs
  obtain ⟨store₂, hstores, hpres₂⟩ := performAll_storeArguments m left mode offs hargs.temps store₁ w₁
  rw [hs₁] at hstores
  -- The arguments are in place, so the call does what it does from the outside.
  obtain ⟨t', hreturns, count', rfl⟩ := hleaves.returns ⟨count, rfl⟩
  obtain ⟨r, hcall⟩ := performAll_call left hreturns result store₂ w₁.remainder
  refine ⟨Function.update store₂ result (s'.memory.read s'.sp), ⟨{ s' with steps := count' }, r⟩,
    ?_, ?_, (hpres₁.trans hpres₂ hle).update (by omega) _, count', rfl⟩
  · rw [performAll_append, performAll_append, hrun, hstores]
    exact hcall
  · rw [Function.update_self, hleaves.sp]
    exact hleaves.result

mutual

/-- **What is selected for an expression computes its value.** -/
theorem IR.Expr.select_computes (mode : ArgPassing) {n : Int} : ∀ (e : Expr), e.Selectable n →
    ∀ σ : Supply, n ≤ σ.temps → Succeeds (e.select mode) σ (Selected m left n σ e)
  | .absent, h, _, _ | .sexpr _ _, h, _, _ => h.elim
  | .temp t, h, σ, hn => by
    refine .pure ⟨Int.le_refl _, Int.le_trans h hn, by simp, .nil, ?_⟩
    rintro temps s s' v ⟨rfl, rfl⟩ store w hagrees hs
    -- Reading a temp takes no instruction: the store already agrees with the temps.
    exact ⟨store, w, rfl, hagrees t h, .refl _ _, hs⟩
  | .const c, _, σ, _ => by
    apply Succeeds.lift
    show Selected m left n σ (.const c) (Instr.loadConstant ⟨σ.temps + 1⟩ c, ⟨σ.temps + 1⟩)
      { σ with temps := σ.temps + 1 }
    have hlt : σ.temps < σ.temps + 1 := Int.lt_succ _
    refine ⟨Int.le_of_lt hlt, Int.le_refl _, fun _ _ => hlt, .loadConstant _ _, ?_⟩
    rintro temps s s' v ⟨rfl, rfl⟩ store w hagrees hs
    -- The constant is built up in a new temp, one group of bits after the other.
    exact ⟨_, w, performAll_loadConstant (loadsGroups_meaning m left) _ _ _, Function.update_self _ _ _,
      (Preserves.refl _ _).update hlt _, hs⟩
  | .name label, _, σ, _ => by
    apply (freshTemp_spec σ).bind
    rintro dst σ' ⟨hdst, hσ'⟩
    refine .pure ⟨by omega, Int.le_of_eq hdst, by simp, .plain _ _ _ .nil, ?_⟩
    rintro temps s s' v ⟨hl, rfl⟩ store w hagrees hs
    refine ⟨Function.update store dst (m.labels.getD label 0), w, rfl, ?_,
      (Preserves.refl _ _).update (by omega) _, hs⟩
    simp [Std.HashMap.getD_eq_getD_getElem?, hl]
  | .mem addr, h, σ, hn => by
    rw [IR.Expr.select]
    apply (addr.select_computes mode h σ hn).bind
    rintro ⟨before, a⟩ σ₁ haddr
    apply (freshTemp_spec σ₁).bind
    rintro dst σ' ⟨hdst, hσ'⟩
    exact .pure (haddr.mem hdst hσ')
  | .binop op fst snd, h, σ, hn => by
    rw [IR.Expr.select]
    apply (fst.select_computes mode h.2.1 σ hn).bind
    rintro ⟨before₁, a⟩ σ₁ hfst
    have hle₁ := hfst.le
    have ha : a.index ≤ σ₁.temps := hfst.temp
    apply (snd.select_computes mode h.2.2 σ₁ (by omega)).bind
    rintro ⟨before₂, b⟩ σ₂ hsnd
    have hle₂ := hsnd.le
    have hb : b.index ≤ σ₂.temps := hsnd.temp
    apply (freshTemp_spec σ₂).bind
    rintro dst σ' ⟨hdst, hσ'⟩
    -- Known operators have instructions, so this step of selection does not fail.
    obtain ⟨is, his, -⟩ := Straight.binary h.1 (show a.index ≤ σ'.temps by omega)
      (show b.index ≤ σ'.temps by omega) (Int.le_of_eq hdst)
    refine Succeeds.bind (P := fun is' σ'' => is' = is ∧ σ'' = σ') (.ofExcept his ⟨rfl, rfl⟩) ?_
    rintro _ _ ⟨rfl, rfl⟩
    exact .pure (hfst.binop hn hsnd his hdst hσ')
  | .unop op arg, h, σ, hn => by
    rw [IR.Expr.select]
    apply (arg.select_computes mode h.2 σ hn).bind
    rintro ⟨before, a⟩ σ₁ harg
    have hle := harg.le
    have ha : a.index ≤ σ₁.temps := harg.temp
    apply (freshTemp_spec σ₁).bind
    rintro fresh σ' ⟨hfresh, hσ'⟩
    -- Whichever temp receives the result, it is none of the earlier ones: a constant has its own.
    cases op with
    | unknown code => exact h.1.elim
    | neg =>
      refine .pure (harg.neg (by omega) ?_ ?_)
      · split
        · exact harg.own _ rfl
        · omega
      · split <;> omega
    | not =>
      apply (freshTemp_spec σ').bind
      rintro negated σ'' ⟨hneg, hσ''⟩
      refine .pure (harg.not (by omega) (by omega) ?_ ?_)
      · split
        · exact harg.own _ rfl
        · omega
      · split <;> omega
  | .call label offs args, h, σ, hn => by
    rw [IR.Expr.select, if_neg (not_not_intro h.1)]
    apply (Expr.selectArgs_computes mode args h.2 σ hn).bind
    rintro ⟨before, ts⟩ σ₁ hargs
    -- Storing the arguments may hand out temps, and takes none back.
    have hstored := (storeArguments_spec mode offs ts σ₁ hargs.temps).1
    apply (Succeeds.lift (P := fun is σ' => is = ((Instr.storeArguments mode offs ts).run σ₁).1 ∧
      σ₁.temps ≤ σ'.temps) ⟨rfl, hstored⟩).bind
    rintro _ σ₂ ⟨rfl, hσ₂⟩
    apply (freshTemp_spec σ₂).bind
    rintro result σ' ⟨hresult, hσ'⟩
    exact .pure (hargs.call mode hσ₂ hresult hσ')

/-- The same for arguments. -/
theorem IR.Expr.selectArgs_computes (mode : ArgPassing) {n : Int} : ∀ (es : List Expr),
    Expr.SelectableAll n es → ∀ σ : Supply, n ≤ σ.temps →
    Succeeds (Expr.selectArgs mode es) σ (SelectedArgs m left n σ es)
  | [], _, σ, _ => by
    refine .pure ⟨Int.le_refl _, by simp, .nil, ?_⟩
    rintro temps s s' vs ⟨rfl, rfl⟩ store w hagrees hs
    exact ⟨store, w, rfl, rfl, .refl _ _, hs⟩
  | e :: es, h, σ, hn => by
    rw [IR.Expr.selectArgs]
    apply (e.select_computes mode h.1 σ hn).bind
    rintro ⟨first, t⟩ σ₁ he
    have hle₁ := he.le
    apply (Expr.selectArgs_computes mode es h.2 σ₁ (by omega)).bind
    rintro ⟨rest, ts⟩ σ₂ hes
    have hle₂ := hes.le
    refine .pure ⟨by omega, ?_, he.sequence.append hes.sequence, ?_⟩
    · exact List.forall_mem_cons.mpr ⟨Int.le_trans he.temp hle₂, hes.temps⟩
    · rintro temps s s' vs ⟨v, s₁, ws, hv, hws, rfl⟩ store w hagrees hs
      obtain ⟨store₁, w₁, hrun₁, hval, hpres₁, hs₁⟩ := he.computes hv hagrees hs
      obtain ⟨store₂, w₂, hrun₂, hvals, hpres₂, hs₂⟩ :=
        hes.computes hws (hagrees.of_preserves hpres₁ hn) hs₁
      refine ⟨store₂, w₂, ?_, ?_, hpres₁.trans hpres₂ hle₁, hs₂⟩
      · rw [performAll_append, hrun₁, hrun₂]
      · rw [List.map_cons, hvals, hpres₂ t he.temp, hval]

end

end MmixBackend
