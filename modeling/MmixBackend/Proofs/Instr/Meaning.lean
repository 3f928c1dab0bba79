import MmixBackend.Proofs.Machine.Calls
import MmixBackend.Proofs.Register.Execution
import MmixBackend.Proofs.Word

/-!
# What instructions do

The meaning of the operations that selection emits, over the state of the machine that runs
intermediate code: `$254` holds its stack pointer, loads and stores work on its memory, and a call does
what the call of the label does there. The remainder register is kept beside the state; what a call
leaves in it is left open.

Instructions that only fall through do one thing after another, which `performAll` says without
positions.

## Main statements

- `performAll_loadConstant`: the groups of a constant add up in the register.
- `steps_performAll`: executing instructions that fall through.
-/

namespace MmixBackend.Execution

open Machine

/-! ## §1 Operations -/

/-- What operations work on beside the temps. -/
structure World where
  /-- Memory, the stack pointer `$254`, the heap, input and output. -/
  state : State
  /-- The remainder register. -/
  remainder : Word

/-- The result of an operation on two registers. Division rounds towards negative infinity. -/
def arithResult : Arith → (x y : Word) → Word
  | .or, x, y => x ||| y
  | .and, x, y => x &&& y
  | .add, x, y => x + y
  | .sub, x, y => x - y
  | .mul, x, y => x * y
  | .div, x, y => Int64.ofInt (x.toInt.fdiv y.toInt)

/-- The sign of the difference of two words. -/
def comparison (x y : Word) : Word := if x < y then -1 else if x = y then 0 else 1

/-- Whether a word passes a test. -/
def passes : SignTest → Word → Bool
  | .zero, x => x = 0
  | .nonzero, x => x ≠ 0
  | .negative, x => x < 0
  | .positive, x => 0 < x
  | .nonpositive, x => x ≤ 0
  | .nonnegative, x => 0 ≤ x

/-- The value of a sixteen-bit group at its place. -/
def placed (place : WydePlace) (value : Nat) : Word := Int64.ofNat (value <<< (16 * place.position))

open Classical in
/-- The state behind the call of a label; the same state if the call does not return. -/
noncomputable def afterCall (m : Machine) (l : Label) (s : State) : State :=
  if h : ∃ s', Returns m l s s' then h.choose else s

/-- Defines one word and falls through. -/
def Effect.value (v : Word) (w : World) : Effect Word World := ⟨fun _ => v, w, none⟩

/-- Changes the state and falls through. -/
def Effect.update (s : State) (w : World) : Effect Word World :=
  ⟨fun _ => 0, { w with state := s }, none⟩

/-- Changes nothing and jumps if the condition holds. -/
def Effect.jump (taken : Bool) (w : World) : Effect Word World :=
  ⟨fun _ => 0, w, if taken then some 0 else none⟩

/-- The meaning of operations; `left` is what a call leaves in the remainder register. -/
noncomputable def meaning (m : Machine) (left : Label → World → Word) : Interpretation Word World :=
  fun op _ values w =>
    let x := values.getD 0 0
    let y := values.getD 1 0
    let z := values.getD 2 0
    let s := w.state
    match op with
    | .loadWyde .low value => .value (placed .low value) w
    | .loadWyde place value => .value (x + placed place value) w
    | .arith .div =>
      .value (arithResult .div x y) { w with remainder := Int64.ofInt (x.toInt.fmod y.toInt) }
    | .arith op => .value (arithResult op x y) w
    | .remainder => .value w.remainder w
    | .compare => .value (comparison x y) w
    | .setIf test => .value (.ofBool (passes test x)) w
    | .negate => .value (-x) w
    | .increment => .value (x + 1) w
    | .loadAt => .value (s.memory.read x) w
    | .loadIndexed => .value (s.memory.read (x + y)) w
    | .storeAt => .update { s with memory := s.memory.write y x } w
    | .storeIndexed => .update { s with memory := s.memory.write (y + z) x } w
    | .storeArg offset => .update { s with memory := s.memory.write (s.sp + offset) x } w
    | .argAddress => .value (s.sp + x) w
    | .loadResult => .value (s.memory.read s.sp) w
    | .loadAddress l => .value (m.labels.getD l 0) w
    | .branch _ => .jump (x ≠ 0) w
    | .goto _ => .jump true w
    | .call l => .update (afterCall m l s) { w with remainder := left l w }
    | .other _ => .update s w

theorem afterCall_eq {m : Machine} {l : Label} {s s' : State} (h : Returns m l s s') :
    afterCall m l s = s' := by
  have hex : ∃ s', Returns m l s s' := ⟨s', h⟩
  rw [afterCall, dif_pos hex]
  exact hex.choose_spec.unique h

/-! ## §2 Instructions that fall through -/

section Perform

variable {V W : Type} (meaning : Interpretation V W)

/-- What an instruction does to the temps and the world when control goes to the next one. -/
def perform (x : (Temp → V) × W) : Instr → (Temp → V) × W
  | .label _ => x
  | .move src dst => (Function.update x.1 dst (x.1 src), x.2)
  | .oper op uses defs jumps _ =>
    let effect := meaning op jumps (uses.map x.1) x.2
    (assign id effect.values 0 defs x.1, effect.world)

/-- What instructions do one after the other. -/
def performAll (x : (Temp → V) × W) (is : List Instr) : (Temp → V) × W := is.foldl (perform meaning) x

@[simp] theorem performAll_nil (x : (Temp → V) × W) : performAll meaning x [] = x := rfl

@[simp] theorem performAll_cons (x : (Temp → V) × W) (i : Instr) (is : List Instr) :
    performAll meaning x (i :: is) = performAll meaning (perform meaning x i) is := rfl

@[simp] theorem performAll_append (x : (Temp → V) × W) (is is' : List Instr) :
    performAll meaning x (is ++ is') = performAll meaning (performAll meaning x is) is' :=
  List.foldl_append

/-- An operation that defines one temp. -/
theorem perform_plain_single (x : (Temp → V) × W) (op : Opcode) (uses : List Temp) (d : Temp) :
    perform meaning x (.plain op uses [d])
      = (Function.update x.1 d ((meaning op [] (uses.map x.1) x.2).values 0),
          (meaning op [] (uses.map x.1) x.2).world) := rfl

/-- An operation that defines no temp. -/
theorem perform_plain_nil (x : (Temp → V) × W) (op : Opcode) (uses : List Temp) :
    perform meaning x (.plain op uses []) = (x.1, (meaning op [] (uses.map x.1) x.2).world) := rfl

/-- Control goes to the next instruction. -/
def FallsThrough (i : Instr) : Prop := i.flow ≠ .jump ∧ (i.flow ≠ .call → i.jumps = [])

theorem FallsThrough.label (l : Label) : FallsThrough (.label l) := ⟨by simp [Instr.flow], fun _ => rfl⟩

theorem FallsThrough.move (src dst : Temp) : FallsThrough (.move src dst) :=
  ⟨by simp [Instr.flow], fun _ => rfl⟩

theorem FallsThrough.plain (op : Opcode) (uses defs : List Temp) : FallsThrough (.plain op uses defs) :=
  ⟨by simp [Instr.plain, Instr.flow], fun _ => rfl⟩

/-- One step of an execution over temps. -/
def Steps (instrs : List Instr) (c d : Config Temp V W) : Prop :=
  ∃ i, step meaning (overTemps V W) instrs c = some (i, d)

variable {meaning}

theorem steps_perform {instrs : List Instr} {pc : Nat} {i : Instr} (hi : instrs[pc]? = some i)
    (h : FallsThrough i) (x : (Temp → V) × W) :
    Steps meaning instrs ⟨.at pc, x.1, x.2⟩
      ⟨.at (pc + 1), (perform meaning x i).1, (perform meaning x i).2⟩ := by
  refine ⟨i, ?_⟩
  simp only [step, hi, Option.bind_eq_bind, Option.bind_some]
  cases i with
  | label l => rfl
  | move src dst => rfl
  | oper op uses defs jumps flow =>
    -- Control falls through, as no instruction of this kind has a target to take.
    have hnext : nextPlace instrs pc flow
        ((meaning op jumps (uses.map x.1) x.2).branch.bind (jumps[·]?)) = some (.at (pc + 1)) := by
      cases flow with
      | jump => exact absurd rfl h.1
      | call => rfl
      | next =>
        have hjumps : jumps = [] := h.2 (by simp [Instr.flow])
        subst hjumps
        cases (meaning op [] (uses.map x.1) x.2).branch <;> rfl
    have hstore : (if flow = Flow.call then (overTemps V W).afterCall op (uses.map x.1) x.2 x.1 else x.1)
        = x.1 := ite_self _
    show (do
      let c' ← (nextPlace instrs pc flow
        ((meaning op jumps (uses.map x.1) x.2).branch.bind (jumps[·]?))).map fun place =>
          (⟨place, assign id (meaning op jumps (uses.map x.1) x.2).values 0 defs
            (if flow = Flow.call then (overTemps V W).afterCall op (uses.map x.1) x.2 x.1 else x.1),
            (meaning op jumps (uses.map x.1) x.2).world⟩ : Config Temp V W)
      return (Instr.oper op uses defs jumps flow, c')) = _
    rw [hnext, hstore]
    rfl

variable (meaning) in
/-- **Executing instructions that fall through**: control arrives behind them. -/
theorem steps_performAll {instrs before is after : List Instr} (hcode : instrs = before ++ is ++ after)
    (h : ∀ i ∈ is, FallsThrough i) (x : (Temp → V) × W) :
    Relation.ReflTransGen (Steps meaning instrs) ⟨.at before.length, x.1, x.2⟩
      ⟨.at (before ++ is).length, (performAll meaning x is).1, (performAll meaning x is).2⟩ := by
  induction is generalizing before x with
  | nil =>
    rw [List.append_nil]
    exact .refl
  | cons i is ih =>
    obtain ⟨hi, his⟩ := List.forall_mem_cons.mp h
    have hget : instrs[before.length]? = some i := by simp [hcode]
    have hsplit : instrs = (before ++ [i]) ++ is ++ after := by simp [hcode]
    have hrest := ih hsplit his (perform meaning x i)
    rw [List.length_append, List.append_assoc] at hrest
    exact .head (steps_perform hget hi x) hrest

/-- Steps are a run. -/
theorem exists_run_of_steps {instrs : List Instr} {c d : Config Temp V W}
    (h : Relation.ReflTransGen (Steps meaning instrs) c d) :
    ∃ n, (run meaning (overTemps V W) instrs n c).2 = d := by
  induction h using Relation.ReflTransGen.head_induction_on with
  | refl => exact ⟨0, rfl⟩
  | head hstep _ ih =>
    obtain ⟨i, hstep⟩ := hstep
    obtain ⟨n, hn⟩ := ih
    refine ⟨n + 1, ?_⟩
    simp only [run, hstep]
    exact hn

end Perform

/-! ## §3 Constants -/

section Constants

variable {W : Type} {meaning : Interpretation Word W} {w : W}

/-- Setting and adding sixteen-bit groups means what it means to the machine, and touches nothing but the
register. -/
structure LoadsGroups (meaning : Interpretation Word W) : Prop where
  low : ∀ (value : Nat) (w : W), (meaning (.loadWyde .low value) [] [] w).values 0 = placed .low value ∧
    (meaning (.loadWyde .low value) [] [] w).world = w
  group : ∀ {place : WydePlace}, place ≠ .low → ∀ (value : Nat) (x : Word) (w : W),
    (meaning (.loadWyde place value) [] [x] w).values 0 = x + placed place value ∧
      (meaning (.loadWyde place value) [] [x] w).world = w

theorem loadsGroups_meaning (m : Machine) (left : Label → World → Word) :
    LoadsGroups (Execution.meaning m left) where
  low _ _ := ⟨rfl, rfl⟩
  group {place} hplace _ _ _ := by
    cases place with
    | low => exact absurd rfl hplace
    | _ => exact ⟨rfl, rfl⟩

/-- A group above the low one is added to the register. -/
theorem perform_group (h : LoadsGroups meaning) (store : Temp → Word) (dst : Temp) (x : Word)
    {place : WydePlace} (hplace : place ≠ .low) (value : Nat) :
    perform meaning (Function.update store dst x, w) (.plain (.loadWyde place value) [dst] [dst])
      = (Function.update store dst (x + placed place value), w) := by
  obtain ⟨hvalue, hworld⟩ := h.group hplace value x w
  rw [perform_plain_single]
  simp [hvalue, hworld]

/-- The groups of a word above the low one are added; those that a load leaves out are zero. -/
theorem performAll_groups (h : LoadsGroups meaning) (store : Temp → Word) (dst : Temp) (v x : Word)
    (places : List WydePlace) (hlow : .low ∉ places) :
    performAll meaning (Function.update store dst x, w)
        ((places.filterMap fun place =>
          let value := v.wyde place.position
          if place = .low ∨ value ≠ 0 then some (place, value) else none).map fun (place, value) =>
            .plain (.loadWyde place value) (if place = .low then [] else [dst]) [dst])
      = (Function.update store dst
          (x + (places.map fun place => placed place (v.wyde place.position)).sum), w) := by
  induction places generalizing x with
  | nil => simp
  | cons place places ih =>
    have hplace : place ≠ .low := fun h => hlow (h ▸ List.mem_cons_self)
    have hrest : .low ∉ places := fun h => hlow (List.mem_cons_of_mem _ h)
    rw [List.map_cons, List.sum_cons, ← Int64.add_assoc, ← ih _ hrest, List.filterMap_cons]
    by_cases hzero : v.wyde place.position = 0
    · have hplaced : placed place 0 = 0 := by simp [placed]
      simp only [hplace, hzero, hplaced, ne_eq, not_true_eq_false, or_self, if_false, Int64.add_zero]
    · simp only [hplace, hzero, ne_eq, not_false_eq_true, or_true, if_true, if_false, List.map_cons,
        performAll_cons, perform_group h _ _ _ hplace]

/-- The groups of a word at their places add up to the word. -/
theorem sum_placed (v : Word) :
    placed .low (v.wyde 0) + ([WydePlace.mediumLow, .mediumHigh, .high].map fun place =>
    placed place (v.wyde place.position)).sum = v := by
  simp only [List.map_cons, List.map_nil, List.sum_cons, List.sum_nil, Int64.add_zero, placed,
    WydePlace.position, Nat.mul_zero, Nat.shiftLeft_zero, Nat.mul_one, Nat.reduceMul, ← Int64.add_assoc]
  exact v.sum_wydes

/-- The low group of a word is always loaded. -/
theorem loadedWydes_eq (v : Word) : Instr.loadedWydes v
    = (.low, v.wyde 0) :: [WydePlace.mediumLow, .mediumHigh, .high].filterMap fun place =>
        let value := v.wyde place.position
        if place = .low ∨ value ≠ 0 then some (place, value) else none := by
  rw [Instr.loadedWydes, List.filterMap_cons_some (b := (.low, v.wyde 0)) (by simp [WydePlace.position])]

/-- **A constant is loaded** group by group. -/
theorem performAll_loadConstant (h : LoadsGroups meaning) (store : Temp → Word) (dst : Temp) (v : Word) :
    performAll meaning (store, w) (Instr.loadConstant dst v) = (Function.update store dst v, w) := by
  have hlow : perform meaning (store, w) (.plain (.loadWyde .low (v.wyde 0)) [] [dst])
      = (Function.update store dst (placed .low (v.wyde 0)), w) := by
    obtain ⟨hvalue, hworld⟩ := h.low (v.wyde 0) w
    rw [perform_plain_single]
    simp [hvalue, hworld]
  rw [Instr.loadConstant, loadedWydes_eq, List.map_cons, performAll_cons]
  dsimp only
  rw [if_pos rfl, hlow, performAll_groups h store dst v _ _ (by decide), sum_placed]

end Constants

end MmixBackend.Execution
