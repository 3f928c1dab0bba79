import MmixBackend.Proofs.Instr.Meaning
import MmixBackend.Proofs.Register.Spilling

/-!
# Spilling preserves execution

The meaning of operations is left open once more, apart from those that spill code consists of:
loading a constant, and loading and storing the word at the sum of two registers. A run that keeps
away from the slot of a spilled temp is replayed by the rewritten instructions. Each instruction
becomes a block: it is preceded by a load of the slot if it uses the temp, and followed by a store
if it defines it. At the start of every block the slot holds the temp, and all other temps, the rest
of memory and the remainder register are as they were.

## Main statements

- `Rewritten.step`: a block does what its instruction did.
- `Rewritten.run`: the same for runs.
- `spill_preserves_execution`: spilling a temp of a code keeps its runs.
-/

namespace MmixBackend.Execution

open Instr InterferenceGraph

/-! ## §1 Instructions one by one -/

section Outcome

variable {V W : Type} (meaning : Interpretation V W)

/-- The label that an instruction jumps to, if it jumps. -/
def target (x : (Temp → V) × W) : Instr → Option Label
  | .oper op uses _ jumps _ => (meaning op jumps (uses.map x.1) x.2).branch.bind (jumps[·]?)
  | _ => none

/-- Executing an instruction over temps changes these and the world, and goes on at the next place. -/
theorem execute_eq_perform (instrs : List Instr) (pc : Nat) (x : (Temp → V) × W) (i : Instr) :
    execute meaning (overTemps V W) instrs pc x.1 x.2 i
      = (nextPlace instrs pc i.flow (target meaning x i)).map fun place =>
          ⟨place, (perform meaning x i).1, (perform meaning x i).2⟩ := by
  cases i with
  | label l => rfl
  | move src dst => rfl
  | oper op uses defs jumps flow => simp [execute, perform, target, overTemps, Instr.flow]

theorem step_eq_perform {instrs : List Instr} {pc : Nat} {i : Instr} (hi : instrs[pc]? = some i)
    (x : (Temp → V) × W) :
    step meaning (overTemps V W) instrs ⟨.at pc, x.1, x.2⟩
      = (nextPlace instrs pc i.flow (target meaning x i)).map fun place =>
          (i, ⟨place, (perform meaning x i).1, (perform meaning x i).2⟩) := by
  simp only [step, hi, Option.bind_eq_bind, Option.bind_some, execute_eq_perform meaning instrs pc x i]
  cases nextPlace instrs pc i.flow (target meaning x i) <;> rfl

/-- A step executes the instruction that control is at. -/
theorem exists_of_step {instrs : List Instr} {x x' : Config Temp V W} {i : Instr}
    (h : step meaning (overTemps V W) instrs x = some (i, x')) :
    ∃ pc, x.place = .at pc ∧ instrs[pc]? = some i ∧
      ∃ place, nextPlace instrs pc i.flow (target meaning (x.store, x.world) i) = some place ∧
        x' = ⟨place, (perform meaning (x.store, x.world) i).1,
          (perform meaning (x.store, x.world) i).2⟩ := by
  obtain ⟨place, store, world⟩ := x
  cases place with
  | left l => cases h
  | «at» pc =>
    cases hi : instrs[pc]? with
    | none => simp [step, hi] at h
    | some j =>
      rw [step_eq_perform meaning hi (store, world)] at h
      obtain ⟨place, hplace, heq⟩ := Option.map_eq_some_iff.mp h
      cases heq
      exact ⟨pc, rfl, hi, place, hplace, rfl⟩

theorem target_eq_none {i : Instr} (h : i.jumps = []) (x : (Temp → V) × W) :
    target meaning x i = none := by
  cases i with
  | oper op uses defs jumps flow =>
    obtain rfl : jumps = [] := h
    cases hbranch : (meaning op [] (uses.map x.1) x.2).branch <;> simp [target, hbranch]
  | _ => rfl

/-- An instruction that does not jump goes to the next one. -/
theorem nextPlace_of_fallsThrough {i : Instr} (h : FallsThrough i) (instrs : List Instr) (pc : Nat)
    (x : (Temp → V) × W) :
    nextPlace instrs pc i.flow (target meaning x i) = some (.at (pc + 1)) := by
  cases hflow : i.flow with
  | jump => exact absurd hflow h.1
  | call => rfl
  | next =>
    have hjumps : i.jumps = [] := h.2 (by simp [hflow])
    rw [target_eq_none meaning hjumps]
    rfl

/-- The instructions with the worlds behind them. -/
def trace : (x : (Temp → V) × W) → List Instr → List (Instr × W)
  | _, [] => []
  | x, i :: is => (i, (perform meaning x i).2) :: trace (perform meaning x i) is

@[simp] theorem trace_append (x : (Temp → V) × W) (is is' : List Instr) :
    trace meaning x (is ++ is') = trace meaning x is ++ trace meaning (performAll meaning x is) is' := by
  induction is generalizing x with
  | nil => rfl
  | cons i is ih => simp [trace, ih]

/-- Instructions that keep the world leave no trace in it. -/
theorem trace_of_keeps {is : List Instr} (h : ∀ i ∈ is, ∀ x, (perform meaning x i).2 = x.2)
    (x : (Temp → V) × W) : trace meaning x is = is.map fun i => (i, x.2) := by
  induction is generalizing x with
  | nil => rfl
  | cons i is ih =>
    obtain ⟨hi, his⟩ := List.forall_mem_cons.mp h
    rw [trace, ih his, hi x, List.map_cons]

theorem run_of_step_eq_none {instrs : List Instr} {c : Config Temp V W}
    (h : step meaning (overTemps V W) instrs c = none) (n : Nat) :
    run meaning (overTemps V W) instrs n c = ([], c) := by
  cases n with
  | zero => rfl
  | succ n => simp only [run, h]

/-- A run is cut into two. -/
theorem run_add (instrs : List Instr) (m n : Nat) (c : Config Temp V W) :
    run meaning (overTemps V W) instrs (m + n) c
      = ((run meaning (overTemps V W) instrs m c).1
            ++ (run meaning (overTemps V W) instrs n (run meaning (overTemps V W) instrs m c).2).1,
          (run meaning (overTemps V W) instrs n (run meaning (overTemps V W) instrs m c).2).2) := by
  induction m generalizing c with
  | zero => simp [run]
  | succ m ih =>
    rw [Nat.succ_add]
    cases hstep : step meaning (overTemps V W) instrs c with
    | none => simp [run_of_step_eq_none meaning hstep]
    | some r => simp [run, hstep, ih]

/-- **Running instructions that fall through.** -/
theorem run_fallsThrough {instrs before is after : List Instr} (hcode : instrs = before ++ is ++ after)
    (h : ∀ i ∈ is, FallsThrough i) (x : (Temp → V) × W) :
    run meaning (overTemps V W) instrs is.length ⟨.at before.length, x.1, x.2⟩
      = (trace meaning x is, ⟨.at (before.length + is.length), (performAll meaning x is).1,
          (performAll meaning x is).2⟩) := by
  induction is generalizing before x with
  | nil => rfl
  | cons i is ih =>
    obtain ⟨hi, his⟩ := List.forall_mem_cons.mp h
    have hget : instrs[before.length]? = some i := by simp [hcode]
    have hsplit : instrs = (before ++ [i]) ++ is ++ after := by simp [hcode]
    have hrest := ih hsplit his (perform meaning x i)
    rw [List.length_append, List.length_singleton] at hrest
    rw [List.length_cons, run, step_eq_perform meaning hget, nextPlace_of_fallsThrough meaning hi]
    simp only [Option.map_some, hrest, trace, performAll_cons]
    rw [Nat.add_assoc, Nat.add_comm 1]

/-- Running a block: control may leave it only from its end. -/
theorem run_block {instrs before loads stores after : List Instr} {i : Instr}
    (hcode : instrs = before ++ (loads ++ i :: stores) ++ after) (hloads : ∀ j ∈ loads, FallsThrough j)
    (hstores : ∀ j ∈ stores, FallsThrough j) {x : (Temp → V) × W} {place : Place}
    (hplace : nextPlace instrs (before ++ loads).length i.flow
      (target meaning (performAll meaning x loads) i) = some place)
    (hnext : stores = [] ∨ place = .at ((before ++ loads).length + 1)) :
    run meaning (overTemps V W) instrs (loads ++ i :: stores).length ⟨.at before.length, x.1, x.2⟩
      = (trace meaning x (loads ++ i :: stores),
          ⟨if stores = [] then place else .at (before ++ (loads ++ i :: stores)).length,
            (performAll meaning x (loads ++ i :: stores)).1,
            (performAll meaning x (loads ++ i :: stores)).2⟩) := by
  have hget : instrs[(before ++ loads).length]? = some i := by simp [hcode]
  -- The loads fall through to the instruction, and if there are stores it falls through to them.
  have hfirst : run meaning (overTemps V W) instrs loads.length ⟨.at before.length, x.1, x.2⟩
      = (trace meaning x loads, ⟨.at (before ++ loads).length, (performAll meaning x loads).1,
          (performAll meaning x loads).2⟩) := by
    have hsplit : instrs = before ++ loads ++ (i :: stores ++ after) := by simp [hcode]
    rw [run_fallsThrough meaning hsplit hloads, List.length_append]
  rw [List.length_append, run_add, hfirst, List.length_cons]
  simp only [run, step_eq_perform meaning hget, hplace, Option.map_some]
  rcases hnext with rfl | rfl
  · simp [run, trace]
  · have hsplit : instrs = (before ++ loads ++ [i]) ++ stores ++ after := by simp [hcode]
    have hrest := run_fallsThrough meaning hsplit hstores (perform meaning (performAll meaning x loads) i)
    have hlength : (before ++ loads ++ [i]).length = (before ++ loads).length + 1 :=
      List.length_append
    rw [hlength] at hrest
    rw [hrest]
    by_cases hnil : stores = []
    · simp [hnil, trace]
    · simp [hnil, trace, Nat.add_assoc, Nat.add_comm, Nat.add_left_comm]

/-- An instruction keeps what it does not define. -/
theorem perform_of_not_mem_defs {i : Instr} {t : Temp} (h : t ∉ i.defs) (x : (Temp → V) × W) :
    (perform meaning x i).1 t = x.1 t := by
  have hassign : ∀ (values : Nat → V) (n : Nat) (ds : List Temp) (store : Temp → V), t ∉ ds →
      assign id values n ds store t = store t := by
    intro values n ds store hds
    induction ds generalizing n store with
    | nil => rfl
    | cons d ds ih =>
      obtain ⟨hne, hrest⟩ := not_or.mp (List.mem_cons.not.mp hds)
      exact (ih (n + 1) _ hrest).trans (Function.update_of_ne (show t ≠ id d from hne) _ _)
  cases i with
  | label l => rfl
  | move src dst => exact hassign (fun _ => x.1 src) 0 [dst] x.1 h
  | oper op uses defs jumps flow => exact hassign _ 0 defs x.1 h

end Outcome

/-! ## §2 Words of memory -/

/-- The address of the octabyte that holds the byte at `a`: loads and stores ignore the last three
bits. -/
def octabyte (a : Word) : Word := a &&& -8

/-- What operations work on beside the temps: the octabytes of memory, the remainder register and whatever
else there may be. -/
structure Surroundings (R : Type) where
  memory : Word → Word
  remainder : Word
  rest : R

section Slots

variable {R : Type}

/-- Stores a word. -/
def Surroundings.put (w : Surroundings R) (a v : Word) : Surroundings R :=
  { w with memory := Function.update w.memory a v }

@[simp] theorem Surroundings.memory_put (w : Surroundings R) (a v : Word) : (w.put a v).memory a = v :=
  Function.update_self ..

@[simp] theorem Surroundings.put_put (w : Surroundings R) (a v v' : Word) :
    (w.put a v).put a v' = w.put a v' := by
  simp [Surroundings.put]

/-- The same, with a word stored afterwards. -/
def Effect.put {V : Type} (e : Effect V (Surroundings R)) (a v : Word) : Effect V (Surroundings R) :=
  { e with world := e.world.put a v }

variable (meaning : Interpretation Word (Surroundings R))

/-- Spill code means what it means to the machine. -/
structure ReachesSlots : Prop where
  groups : LoadsGroups meaning
  load : ∀ (x y : Word) (w : Surroundings R),
    (meaning .loadIndexed [] [x, y] w).values 0 = w.memory (octabyte (x + y)) ∧
      (meaning .loadIndexed [] [x, y] w).world = w
  store : ∀ (v x y : Word) (w : Surroundings R),
    (meaning .storeIndexed [] [v, x, y] w).world = w.put (octabyte (x + y)) v

/-- The instruction neither reads nor writes the word at `a`: whatever stands there changes nothing
else, and it stands there afterwards. -/
def Spares (a : Word) (x : (Temp → Word) × Surroundings R) : Instr → Prop
  | .oper op uses _ jumps _ => ∀ v, meaning op jumps (uses.map x.1) (x.2.put a v)
      = (meaning op jumps (uses.map x.1) x.2).put a v
  | _ => True

/-- The instruction that is executed next, if there is one, spares the word at `a`. -/
def SparesNext (instrs : List Instr) (a : Word) (c : Config Temp Word (Surroundings R)) : Prop :=
  ∀ pc i, c.place = .at pc → instrs[pc]? = some i → Spares meaning a (c.store, c.world) i

variable {meaning}

theorem fallsThrough_loadConstant {dst : Temp} {v : Word} {i : Instr} (hi : i ∈ loadConstant dst v) :
    FallsThrough i := by
  obtain ⟨_, -, rfl⟩ := List.mem_map.mp hi
  exact .plain _ _ _

theorem fallsThrough_loadSlot {fp value off : Temp} {offset : Word} :
    ∀ i ∈ loadSlot fp offset value off, FallsThrough i :=
  List.forall_mem_append.mpr ⟨fun _ => fallsThrough_loadConstant, by simpa using .plain _ _ _⟩

theorem fallsThrough_storeSlot {fp value off : Temp} {offset : Word} :
    ∀ i ∈ storeSlot fp offset value off, FallsThrough i :=
  List.forall_mem_append.mpr ⟨fun _ => fallsThrough_loadConstant, by simpa using .plain _ _ _⟩

/-- Loading a constant keeps the world. -/
theorem perform_loadConstant_world (h : ReachesSlots meaning) {dst : Temp} {v : Word} {i : Instr}
    (hi : i ∈ loadConstant dst v) (x : (Temp → Word) × Surroundings R) :
    (perform meaning x i).2 = x.2 := by
  obtain ⟨⟨place, value⟩, -, rfl⟩ := List.mem_map.mp hi
  rw [perform_plain_single]
  by_cases hplace : place = .low
  · subst hplace
    exact (h.groups.low value x.2).2
  · rw [if_neg hplace]
    exact (h.groups.group hplace value _ x.2).2

/-- Loading a slot. -/
theorem performAll_loadSlot (h : ReachesSlots meaning) {fp value off : Temp} (hoff : fp ≠ off)
    (offset : Word) (store : Temp → Word) (w : Surroundings R) :
    performAll meaning (store, w) (loadSlot fp offset value off)
      = (Function.update (Function.update store off offset) value
          (w.memory (octabyte (store fp + offset))), w) := by
  obtain ⟨hvalue, hworld⟩ := h.load (store fp) offset w
  rw [loadSlot, performAll_append, performAll_loadConstant h.groups, performAll_cons, performAll_nil,
    perform_plain_single]
  simp [Function.update_of_ne hoff, hvalue, hworld]

theorem trace_loadSlot (h : ReachesSlots meaning) (fp value off : Temp) (offset : Word)
    (x : (Temp → Word) × Surroundings R) :
    trace meaning x (loadSlot fp offset value off)
      = (loadSlot fp offset value off).map fun i => (i, x.2) := by
  refine trace_of_keeps meaning (List.forall_mem_append.mpr ⟨?_, ?_⟩) x
  · exact fun i hi x => perform_loadConstant_world h hi x
  · intro i hi x
    rw [List.mem_singleton.mp hi, perform_plain_single]
    exact (h.load _ _ _).2

/-- Storing into a slot. -/
theorem performAll_storeSlot (h : ReachesSlots meaning) {fp value off : Temp} (hoff : fp ≠ off)
    (hvalue : value ≠ off) (offset : Word) (store : Temp → Word) (w : Surroundings R) :
    performAll meaning (store, w) (storeSlot fp offset value off)
      = (Function.update store off offset, w.put (octabyte (store fp + offset)) (store value)) := by
  rw [storeSlot, performAll_append, performAll_loadConstant h.groups, performAll_cons, performAll_nil,
    perform_plain_nil]
  simp [Function.update_of_ne hoff, Function.update_of_ne hvalue, h.store]

theorem trace_storeSlot (h : ReachesSlots meaning) {fp value off : Temp} (hoff : fp ≠ off)
    (hvalue : value ≠ off) (offset : Word) (store : Temp → Word) (w : Surroundings R) :
    trace meaning (store, w) (storeSlot fp offset value off)
      = (loadConstant off offset).map (fun i => (i, w))
        ++ [(.plain .storeIndexed [value, fp, off] [], w.put (octabyte (store fp + offset))
            (store value))] := by
  have hkeeps : ∀ i ∈ loadConstant off offset, ∀ x, (perform meaning x i).2 = x.2 :=
    fun i hi x => perform_loadConstant_world h hi x
  rw [storeSlot, trace_append, trace_of_keeps meaning hkeeps, performAll_loadConstant h.groups]
  simp [trace, perform_plain_nil, Function.update_of_ne hoff, Function.update_of_ne hvalue, h.store]

end Slots

/-! ## §3 An instruction and its block -/

/-- An instruction rewritten for the temp `t`, which lives in the slot at `offset` from `fp`: another temp
stands in for `t`, with a load in front if `t` is used and a store behind if it is defined. The temps that
are brought in are among those in `made`. -/
structure SpillBlock (fp t : Temp) (offset : Word) (made : TempSet) (i : Instr) where
  value : Temp
  off₁ : Temp
  off₂ : Temp
  loads : List Instr
  stores : List Instr
  around : Around fp t offset i value off₁ off₂ loads stores
  value_made : t ∈ i.uses ∨ t ∈ i.defs → value ∈ made
  off₁_made : t ∈ i.uses → off₁ ∈ made
  off₂_made : t ∈ i.defs → off₂ ∈ made
  value_ne : value ≠ off₂

/-- The instruction that takes the place of the original one. -/
def SpillBlock.instr {fp t : Temp} {offset : Word} {made : TempSet} {i : Instr}
    (b : SpillBlock fp t offset made i) : Instr := i.rename t b.value

/-- All instructions of a block. -/
def SpillBlock.instrs {fp t : Temp} {offset : Word} {made : TempSet} {i : Instr}
    (b : SpillBlock fp t offset made i) : List Instr := b.loads ++ b.instr :: b.stores

theorem flow_rename (i : Instr) (old new : Temp) : (i.rename old new).flow = i.flow := by
  cases i <;> rfl

theorem jumps_rename (i : Instr) (old new : Temp) : (i.rename old new).jumps = i.jumps := by
  cases i <;> rfl

section Rename

variable {V W : Type}

/-- Writing renamed temps is writing the temps at other locations. -/
theorem assign_map (r : Temp → Temp) (values : Nat → V) (n : Nat) (ds : List Temp) (store : Temp → V) :
    assign id values n (ds.map r) store = assign r values n ds store := by
  induction ds generalizing n store with
  | nil => rfl
  | cons d ds ih => exact ih (n + 1) _

/-- What an instruction defines, if a temp that is brought in stands in for `t`. -/
theorem assign_rename (values : Nat → V) {t value : Temp} {made : TempSet} {ds : List Temp}
    {store store₁ : Temp → V} (hold : ∀ d ∈ ds, d ∉ made) (hvalue : t ∈ ds → value ∈ made)
    (hstore : ∀ u, u ≠ t → u ∉ made → store₁ u = store u) :
    (∀ u, u ≠ t → u ∉ made →
      assign id values 0 (renameIn t value ds) store₁ u = assign id values 0 ds store u) ∧
    (t ∈ ds → assign id values 0 (renameIn t value ds) store₁ value = assign id values 0 ds store t) := by
  -- Each temp is kept at another location, which is that of no other temp.
  have hmap := assign_map (fun u => if u = t then value else u) values 0 ds store₁
  refine ⟨fun u hut hu => ?_, fun ht => ?_⟩
  · have hne : ∀ d ∈ ds, d ≠ u → (if d = t then value else d) ≠ if u = t then value else u := by
      intro d hd hdu
      by_cases hdt : d = t
      · subst hdt
        simp only [if_true, hut, if_false]
        exact fun heq => hu (heq ▸ hvalue hd)
      · simpa [hdt, hut] using hdu
    have hother : u ∉ ds → store₁ (if u = t then value else u) = store u := by
      intro _
      simpa [hut] using hstore u hut hu
    have hagree : assign (fun u => if u = t then value else u) values 0 ds store₁
        (if u = t then value else u) = assign id values 0 ds store u := assign_agree hne hother
    simpa [renameIn, hmap, hut] using hagree
  · have hne : ∀ d ∈ ds, d ≠ t → (if d = t then value else d) ≠ if t = t then value else t := by
      intro d hd hdt
      simp only [hdt, if_true, if_false]
      exact fun heq => hold d hd (heq ▸ hvalue ht)
    have hother : t ∉ ds → store₁ (if t = t then value else t) = store t := fun hnot => absurd ht hnot
    have hagree : assign (fun u => if u = t then value else u) values 0 ds store₁
        (if t = t then value else t) = assign id values 0 ds store t := assign_agree hne hother
    simpa [renameIn, hmap] using hagree

end Rename

section Blocks

variable {R : Type} {meaning : Interpretation Word (Surroundings R)} {fp t : Temp} {offset a v : Word}
  {made : TempSet} {i : Instr} {store store₁ : Temp → Word} {w : Surroundings R}

/-- The used temps have the values that they had, if the temp that stands in for `t` has that of `t`. -/
theorem map_renameIn {us : List Temp} {value : Temp} (hold : ∀ u ∈ us, u ∉ made)
    (hstore : ∀ u, u ≠ t → u ∉ made → store₁ u = store u) (huse : t ∈ us → store₁ value = store t) :
    (renameIn t value us).map store₁ = us.map store := by
  rw [renameIn, List.map_map]
  refine List.map_congr_left fun u hu => ?_
  by_cases hut : u = t
  · subst hut
    simpa using huse hu
  · simpa [hut] using hstore u hut (hold u hu)

/-- **The instruction of a block** does what the original one does. -/
theorem SpillBlock.perform (b : SpillBlock fp t offset made i) (huses : ∀ u ∈ i.uses, u ∉ made)
    (hdefs : ∀ d ∈ i.defs, d ∉ made) (hspares : Spares meaning a (store, w) i)
    (hstore : ∀ u, u ≠ t → u ∉ made → store₁ u = store u) (huse : t ∈ i.uses → store₁ b.value = store t) :
    target meaning (store₁, w.put a v) b.instr = target meaning (store, w) i ∧
    (Execution.perform meaning (store₁, w.put a v) b.instr).2
      = (Execution.perform meaning (store, w) i).2.put a v ∧
    (∀ u, u ≠ t → u ∉ made → (Execution.perform meaning (store₁, w.put a v) b.instr).1 u
      = (Execution.perform meaning (store, w) i).1 u) ∧
    (t ∈ i.defs → (Execution.perform meaning (store₁, w.put a v) b.instr).1 b.value
      = (Execution.perform meaning (store, w) i).1 t) := by
  have hvalue : t ∈ i.defs → b.value ∈ made := fun h => b.value_made (.inr h)
  cases i with
  | label l => exact ⟨rfl, rfl, hstore, fun h => (List.not_mem_nil h).elim⟩
  | move src dst =>
    -- A move defines one temp, with the value of the one that it uses.
    have hsrc : store₁ (if src = t then b.value else src) = store src := by
      have hmap : (renameIn t b.value [src]).map store₁ = [src].map store :=
        map_renameIn huses hstore huse
      simpa [renameIn] using hmap
    have hassign := assign_rename (fun _ => store src) hdefs hvalue hstore
    have hupdate : Execution.perform meaning (store₁, w.put a v) b.instr
        = (Function.update store₁ (if dst = t then b.value else dst) (store src), w.put a v) := by
      simp only [SpillBlock.instr, Instr.rename, Execution.perform, hsrc]
    rw [hupdate]
    exact ⟨rfl, rfl, hassign.1, hassign.2⟩
  | oper op uses defs jumps flow =>
    have hargs : (renameIn t b.value uses).map store₁ = uses.map store := map_renameIn huses hstore huse
    have heffect : meaning op jumps ((renameIn t b.value uses).map store₁) (w.put a v)
        = (meaning op jumps (uses.map store) w).put a v := by
      rw [hargs]
      exact hspares v
    have hassign := assign_rename (meaning op jumps (uses.map store) w).values hdefs hvalue hstore
    simp only [SpillBlock.instr, Instr.rename, target, Execution.perform, heffect]
    exact ⟨rfl, rfl, hassign.1, hassign.2⟩

/-- The load in front of an instruction puts the slot into the temp that stands in for `t`. -/
theorem SpillBlock.performAll_loads (b : SpillBlock fp t offset made i) (h : ReachesSlots meaning)
    (hfp : fp ∉ made) (x : (Temp → Word) × Surroundings R) :
    (∀ j ∈ b.loads, FallsThrough j) ∧ trace meaning x b.loads = b.loads.map (fun j => (j, x.2)) ∧
    ∃ store₁, performAll meaning x b.loads = (store₁, x.2) ∧ (∀ u, u ∉ made → store₁ u = x.1 u) ∧
      (t ∈ i.uses → store₁ b.value = x.2.memory (octabyte (x.1 fp + offset))) := by
  rcases b.around.loads with ⟨hu, hloads⟩ | ⟨hu, hloads⟩
  · have hoff : fp ≠ b.off₁ := fun heq => hfp (heq ▸ b.off₁_made hu)
    rw [hloads]
    refine ⟨fallsThrough_loadSlot, trace_loadSlot h .., _, performAll_loadSlot h hoff offset
      x.1 x.2, ?_, ?_⟩
    · intro u hnew
      have h₁ : u ≠ b.value := fun heq => hnew (heq ▸ b.value_made (.inl hu))
      have h₂ : u ≠ b.off₁ := fun heq => hnew (heq ▸ b.off₁_made hu)
      rw [Function.update_of_ne h₁, Function.update_of_ne h₂]
    · intro _
      rw [Function.update_self]
  · rw [hloads]
    exact ⟨by simp, rfl, x.1, rfl, fun _ _ => rfl, fun h => absurd h hu⟩

/-- The worlds are the same but for the word at `a`. -/
structure SameOutside (a : Word) (w w' : Surroundings R) : Prop where
  memory : ∀ a', a' ≠ a → w'.memory a' = w.memory a'
  remainder : w'.remainder = w.remainder
  rest : w'.rest = w.rest

theorem SameOutside.put (a v : Word) (w : Surroundings R) : SameOutside a w (w.put a v) :=
  ⟨fun _ h => Function.update_of_ne h _ _, rfl, rfl⟩

theorem SameOutside.trans {w₁ w₂ w₃ : Surroundings R} (h : SameOutside a w₁ w₂)
    (h' : SameOutside a w₂ w₃) : SameOutside a w₁ w₃ :=
  ⟨fun a' ha => (h'.memory a' ha).trans (h.memory a' ha), h'.remainder.trans h.remainder,
    h'.rest.trans h.rest⟩

theorem SameOutside.refl (a : Word) (w : Surroundings R) : SameOutside a w w := ⟨fun _ _ => rfl, rfl, rfl⟩

/-- The store behind an instruction puts the temp that stands in for `t` into the slot. -/
theorem SpillBlock.performAll_stores (b : SpillBlock fp t offset made i) (h : ReachesSlots meaning)
    (hfp : fp ∉ made) (x : (Temp → Word) × Surroundings R) :
    (∀ j ∈ b.stores, FallsThrough j) ∧
    (∀ e ∈ trace meaning x b.stores, SameOutside (octabyte (x.1 fp + offset)) x.2 e.2) ∧
    (∀ u, u ∉ made → (performAll meaning x b.stores).1 u = x.1 u) ∧
    (t ∈ i.defs → (performAll meaning x b.stores).2
      = x.2.put (octabyte (x.1 fp + offset)) (x.1 b.value)) ∧
    (t ∉ i.defs → b.stores = []) := by
  -- There are stores exactly if the instruction defines the temp.
  rcases b.around.stores with ⟨hd, hstores⟩ | ⟨hd, hstores⟩
  · have hoff : fp ≠ b.off₂ := fun heq => hfp (heq ▸ b.off₂_made hd)
    have htrace := trace_storeSlot h hoff b.value_ne offset x.1 x.2
    have hperform := performAll_storeSlot h hoff b.value_ne offset x.1 x.2
    rw [hstores]
    refine ⟨fallsThrough_storeSlot, ?_, ?_, fun _ => by rw [hperform], fun h => absurd hd h⟩
    · rw [htrace]
      intro e he
      rcases List.mem_append.mp he with he | he
      · obtain ⟨_, -, rfl⟩ := List.mem_map.mp he
        exact .refl ..
      · rw [List.mem_singleton.mp he]
        exact .put ..
    · intro u hnew
      have hne : u ≠ b.off₂ := fun heq => hnew (heq ▸ b.off₂_made hd)
      rw [hperform]
      exact Function.update_of_ne hne _ _
  · rw [hstores]
    exact ⟨by simp, by simp [trace], fun _ _ => rfl, fun h => absurd h hd, fun _ => rfl⟩

/-- **What a block does**: the slot holds `t` before and behind it, and the rest is done by the original
instruction. -/
theorem SpillBlock.performAll_instrs (b : SpillBlock fp t offset made i) (h : ReachesSlots meaning)
    (hfp : fp ∉ made) (hne : t ≠ fp) (hkept : fp ∉ i.defs) (huses : ∀ u ∈ i.uses, u ∉ made)
    (hdefs : ∀ d ∈ i.defs, d ∉ made) (ha : octabyte (store fp + offset) = a)
    (hspares : Spares meaning a (store, w) i) (hstore : ∀ u, u ≠ t → u ∉ made → store₁ u = store u) :
    target meaning (performAll meaning (store₁, w.put a (store t)) b.loads) b.instr
      = target meaning (store, w) i ∧
    (∀ u, u ≠ t → u ∉ made → (performAll meaning (store₁, w.put a (store t)) b.instrs).1 u
      = (Execution.perform meaning (store, w) i).1 u) ∧
    (performAll meaning (store₁, w.put a (store t)) b.instrs).2
      = (Execution.perform meaning (store, w) i).2.put a ((Execution.perform meaning (store, w) i).1 t) ∧
    (∀ e ∈ trace meaning (store₁, w.put a (store t)) b.loads, SameOutside a w e.2) ∧
    ∀ e ∈ trace meaning (performAll meaning (store₁, w.put a (store t)) b.loads) (b.instr :: b.stores),
      SameOutside a (Execution.perform meaning (store, w) i).2 e.2 := by
  -- The slot is found through the frame pointer, which no temp of the block stands in for.
  have hslot : octabyte (store₁ fp + offset) = a := by rw [hstore fp (Ne.symm hne) hfp, ha]
  obtain ⟨-, htrace, store₂, hload, hold, hvalue⟩ :=
    b.performAll_loads h hfp (store₁, w.put a (store t))
  have hstore₂ : ∀ u, u ≠ t → u ∉ made → store₂ u = store u := fun u hut hu =>
    (hold u hu).trans (hstore u hut hu)
  have huse : t ∈ i.uses → store₂ b.value = store t := by
    intro hu
    rw [hvalue hu, hslot, Surroundings.memory_put]
  -- With the value of `t` in the new temp the instruction does what it did with `t`.
  obtain ⟨htarget, hworld, htemps, hdef⟩ := b.perform (v := store t) huses hdefs hspares hstore₂ huse
  -- The instruction keeps the frame pointer, so the stores reach the same slot.
  have hpointer : (Execution.perform meaning (store₂, w.put a (store t)) b.instr).1 fp = store fp := by
    rw [htemps fp (Ne.symm hne) hfp]
    exact perform_of_not_mem_defs meaning hkept (store, w)
  obtain ⟨-, hsame, hafter, hput, hnone⟩ := b.performAll_stores h hfp
    (Execution.perform meaning (store₂, w.put a (store t)) b.instr)
  rw [hpointer, ha, hworld] at hsame hput
  rw [SpillBlock.instrs, performAll_append, hload, performAll_cons]
  refine ⟨htarget, fun u hut hu => (hafter u hu).trans (htemps u hut hu), ?_, ?_, ?_⟩
  -- The slot changes only if the instruction defines `t`; then it is stored, and else it was kept.
  · by_cases hd : t ∈ i.defs
    · rw [hput hd, hdef hd, Surroundings.put_put]
    · rw [hnone hd, performAll_nil, hworld, perform_of_not_mem_defs meaning hd (store, w)]
  · rw [htrace]
    intro e he
    obtain ⟨_, -, rfl⟩ := List.mem_map.mp he
    exact .put ..
  · intro e he
    rw [trace, hworld, List.mem_cons] at he
    rcases he with rfl | he
    · exact .put ..
    · exact (SameOutside.put ..).trans (hsame e he)

end Blocks

/-! ## §4 The rewritten list -/

theorem rename_eq_self {i : Instr} {t : Temp} (huses : t ∉ i.uses) (hdefs : t ∉ i.defs) (new : Temp) :
    i.rename t new = i := by
  have hkeep : ∀ us : List Temp, t ∉ us → renameIn t new us = us := by
    intro us hus
    have hsame : ∀ u ∈ us, (if u = t then new else u) = id u := by
      intro u hu
      have hut : u ≠ t := fun heq => hus (heq ▸ hu)
      exact if_neg hut
    rw [renameIn, List.map_congr_left hsame, List.map_id]
  cases i with
  | label l => rfl
  | move src dst =>
    have hsrc : src ≠ t := fun heq => huses (heq ▸ List.mem_singleton_self _)
    have hdst : dst ≠ t := fun heq => hdefs (heq ▸ List.mem_singleton_self _)
    rw [Instr.rename, if_neg hsrc, if_neg hdst]
  | oper op uses defs jumps flow =>
    rw [Instr.rename, hkeep uses huses, hkeep defs hdefs]

section Positions

variable {fp t : Temp} {offset : Word}

/-- The instructions that spilling makes of one are a block. -/
theorem exists_spillBlock {i : Instr} {n : Int} {made : TempSet}
    (hmade : ∀ u ∈ (i.spilled fp t offset n).made, u ∈ made) :
    ∃ b : SpillBlock fp t offset made i, b.instrs = (i.spilled fp t offset n).instrs := by
  simp only [mem_made_spilled] at hmade
  rcases spilled_cases fp t offset i n with ⟨hu, hd, heq⟩ | ⟨-, hinstr, hnext, off₁, off₂, haround,
    h₁, h₂, -, hle₁, hle₂⟩
  -- Without loads and stores the temps of the block are not used, and any will do.
  · let b : SpillBlock fp t offset made i :=
      { value := ⟨0⟩, off₁ := ⟨1⟩, off₂ := ⟨1⟩, loads := [], stores := []
        around := ⟨.inr ⟨hu, rfl⟩, .inr ⟨hd, rfl⟩⟩
        value_made := fun h => (h.elim hu hd).elim
        off₁_made := fun h => absurd h hu
        off₂_made := fun h => absurd h hd
        value_ne := by simp }
    refine ⟨b, ?_⟩
    rw [heq]
    show [] ++ i.rename t ⟨0⟩ :: [] = [] ++ i :: []
    rw [rename_eq_self hu hd]
  · let b : SpillBlock fp t offset made i :=
      { value := ⟨n + 1⟩, off₁, off₂
        loads := (i.spilled fp t offset n).loads, stores := (i.spilled fp t offset n).stores
        around := haround
        value_made := fun _ => hmade _ ⟨Int.lt_succ n, hnext⟩
        off₁_made := fun h => hmade _ ⟨by omega, hle₁ h⟩
        off₂_made := fun h => hmade _ ⟨by omega, hle₂ h⟩
        value_ne := fun h => by
          rw [← h] at h₂
          exact Int.lt_irrefl _ h₂ }
    refine ⟨b, ?_⟩
    show _ ++ i.rename t ⟨n + 1⟩ :: _ = _
    rw [← hinstr]
    rfl

theorem spillList_append (fp t : Temp) (offset : Word) (is js : List Instr) (n : Int) :
    (spillList fp t offset (is ++ js) n).instrs
        = (spillList fp t offset is n).instrs
          ++ (spillList fp t offset js (spillList fp t offset is n).next).instrs ∧
      (spillList fp t offset (is ++ js) n).next
        = (spillList fp t offset js (spillList fp t offset is n).next).next := by
  induction is generalizing n with
  | nil => exact ⟨rfl, rfl⟩
  | cons i is ih =>
    obtain ⟨hinstrs, hnext⟩ := ih (i.spilled fp t offset n).next
    simp only [List.cons_append, spillList, hinstrs, hnext, List.append_assoc]
    exact ⟨trivial, trivial⟩

/-- Where the block of the instruction at `pc` starts. -/
def blockStart (fp t : Temp) (offset : Word) (is : List Instr) (n : Int) (pc : Nat) : Nat :=
  (spillList fp t offset (is.take pc) n).instrs.length

/-- The place that corresponds to another if blocks start where `start` says. -/
def Place.moved (start : Nat → Nat) : Place → Place
  | .at pc => .at (start pc)
  | .left l => .left l

theorem labelIndex_append_of_no_label {xs ys : List Instr} (h : ∀ l, .label l ∉ ys) :
    Liveness.labelIndex (xs ++ ys) = Liveness.labelIndex xs := by
  induction ys using List.reverseRecOn with
  | nil => rw [List.append_nil]
  | append_singleton ys i ih =>
    have hys : ∀ l, .label l ∉ ys := fun l hl => h l (List.mem_append_left _ hl)
    rw [← List.append_assoc, Liveness.labelIndex_append_singleton, ih hys]
    cases i with
    | label l => exact absurd (List.mem_append_right _ (List.mem_singleton_self _)) (h l)
    | _ => rfl

/-- Only a label becomes a label, and that without anything around it. -/
theorem label_spilled (i : Instr) (n : Int) :
    (∃ l, i = .label l ∧ (i.spilled fp t offset n).instrs = [.label l]) ∨
      ((∀ l, i ≠ .label l) ∧ ∀ l, .label l ∉ (i.spilled fp t offset n).instrs) := by
  cases i with
  | label l => exact .inl ⟨l, rfl, by simp [spilled, uses, defs, Spilled.instrs]⟩
  | _ =>
    refine .inr ⟨by simp, fun l hl => ?_⟩
    rcases spilled_cases fp t offset _ n with ⟨-, -, heq⟩ | ⟨-, hinstr, -, off₁, off₂, haround, -⟩
    · rw [heq] at hl
      simp [Spilled.instrs] at hl
    · rw [Spilled.instrs, hinstr, List.mem_append, List.mem_cons] at hl
      rcases hl with hl | hl | hl
      · obtain ⟨m, hm⟩ := List.mem_iff_getElem?.mp hl
        obtain ⟨op, hop⟩ := (haround.load hm).1
        cases hop
      · cases hl
      · obtain ⟨m, hm⟩ := List.mem_iff_getElem?.mp hl
        obtain ⟨op, hop⟩ := (haround.store hm).1
        cases hop

/-- **Labels keep their places.** -/
theorem labelIndex_spillList (is : List Instr) (n : Int) (l : Label) :
    (Liveness.labelIndex (spillList fp t offset is n).instrs)[l]?
      = (Liveness.labelIndex is)[l]?.map (blockStart fp t offset is n) := by
  induction is using List.reverseRecOn with
  | nil => simp [spillList, Liveness.labelIndex]
  | append_singleton is i ih =>
    -- The blocks before the last one start where they started.
    have hold : (Liveness.labelIndex is)[l]?.map (blockStart fp t offset (is ++ [i]) n)
        = (Liveness.labelIndex is)[l]?.map (blockStart fp t offset is n) := by
      cases hj : (Liveness.labelIndex is)[l]? with
      | none => rfl
      | some j =>
        have hlt : j < is.length :=
          (List.getElem?_eq_some_iff.mp (Liveness.labelIndex_eq_some_iff.mp hj).1).1
        simp [blockStart, List.take_append_of_le_length (Nat.le_of_lt hlt)]
    have hlast : (spillList fp t offset [i] (spillList fp t offset is n).next).instrs
        = (i.spilled fp t offset (spillList fp t offset is n).next).instrs := by simp [spillList]
    rw [(spillList_append fp t offset is [i] n).1, hlast, Liveness.labelIndex_append_singleton]
    rcases label_spilled i (spillList fp t offset is n).next with ⟨l', rfl, hblock⟩ | ⟨hi, hblock⟩
    · rw [hblock, Liveness.labelIndex_append_singleton]
      simp only [Std.TreeMap.getElem?_insert]
      by_cases hl : l' = l
      · simp [hl, blockStart]
      · have hcompare : compare l' l ≠ .eq := fun h => hl (Std.LawfulEqOrd.eq_of_compare h)
        rw [if_neg hcompare, if_neg hcompare, ih, hold]
    · rw [labelIndex_append_of_no_label hblock, ih]
      cases i with
      | label l' => exact absurd rfl (hi l')
      | _ => exact hold.symm

end Positions

/-- The list `new` consists of blocks, one for each instruction of `old`; the block of the instruction at
`pc` starts at `start pc`. -/
structure Rewritten (fp t : Temp) (offset : Word) (made : TempSet) (old new : List Instr)
    (start : Nat → Nat) : Prop where
  first : start 0 = 0
  last : start old.length = new.length
  block : ∀ {pc : Nat} {i : Instr}, old[pc]? = some i → ∃ (b : SpillBlock fp t offset made i)
    (before after : List Instr), new = before ++ b.instrs ++ after ∧ start pc = before.length ∧
      start (pc + 1) = (before ++ b.instrs).length
  label : ∀ {pc : Nat} {l : Label}, old[pc]? = some (.label l) →
    new[start pc]? = some (.label l) ∧ start (pc + 1) = start pc + 1
  goto : ∀ l, goto new l = (goto old l).moved start

/-- Spilling a temp rewrites the instructions block by block. -/
theorem rewritten_spillList (fp t : Temp) (offset : Word) (is : List Instr) (n : Int) :
    Rewritten fp t offset (spillList fp t offset is n).made is (spillList fp t offset is n).instrs
      (blockStart fp t offset is n) := by
  -- Every instruction splits the list in what comes before it, its own block and what comes behind.
  have hsplit : ∀ {pc : Nat} {i : Instr}, is[pc]? = some i →
      (spillList fp t offset is n).instrs = (spillList fp t offset (is.take pc) n).instrs
          ++ (i.spilled fp t offset (spillList fp t offset (is.take pc) n).next).instrs
          ++ (spillList fp t offset (is.drop (pc + 1))
            (i.spilled fp t offset (spillList fp t offset (is.take pc) n).next).next).instrs ∧
        blockStart fp t offset is n (pc + 1) = ((spillList fp t offset (is.take pc) n).instrs
          ++ (i.spilled fp t offset (spillList fp t offset (is.take pc) n).next).instrs).length ∧
        (i.spilled fp t offset (spillList fp t offset (is.take pc) n).next).next
          ≤ (spillList fp t offset is n).next := by
    intro pc i hi
    obtain ⟨hlt, rfl⟩ := List.getElem?_eq_some_iff.mp hi
    -- The list is spilled part by part, each one with the temps that follow those before.
    have happend := spillList_append fp t offset (is.take pc) (is[pc] :: is.drop (pc + 1)) n
    have hwhole : is.take pc ++ is[pc] :: is.drop (pc + 1) = is := by simp
    rw [hwhole] at happend
    simp only [spillList] at happend
    have hnext := spillList_append fp t offset (is.take pc) [is[pc]] n
    refine ⟨by rw [happend.1, List.append_assoc], ?_, ?_⟩
    · rw [blockStart, List.take_add_one, hi, Option.toList_some, hnext.1]
      simp [spillList]
    · rw [happend.2]
      exact le_next_spillList ..
  refine ⟨by simp [blockStart, spillList], by simp [blockStart], fun {pc i} hi => ?_, fun {pc l} hi => ?_,
    fun l => ?_⟩
  -- Each instruction has its block, and the temps of the block are among those made for the list.
  · obtain ⟨hnew, hstart, hle⟩ := hsplit hi
    have hmade : ∀ u ∈ (i.spilled fp t offset (spillList fp t offset (is.take pc) n).next).made,
        u ∈ (spillList fp t offset is n).made := by
      intro u hu
      rw [mem_made_spilled] at hu
      rw [mem_made_spillList]
      have hn := le_next_spillList fp t offset (is.take pc) n
      omega
    obtain ⟨b, hb⟩ := exists_spillBlock hmade
    rw [← hb] at hnew hstart
    exact ⟨b, _, _, hnew, rfl, hstart⟩
  -- A label has no temps, so its block is the label alone.
  · obtain ⟨hnew, hstart, -⟩ := hsplit hi
    have hblock : ∀ m : Int, (Instr.spilled fp t offset (.label l) m).instrs = [.label l] := by
      intro m
      simp [spilled, uses, defs, Spilled.instrs]
    rw [hblock] at hnew hstart
    rw [hnew, hstart]
    simp [blockStart]
  -- A jump finds the label at the start of its block.
  · unfold Execution.goto
    rw [labelIndex_spillList]
    cases (Liveness.labelIndex is)[l]? <;> rfl

/-! ## §5 Runs -/

/-- What the code has to be like for a temp to be spilled: the temp is not the frame pointer, which
nothing defines, no instruction that jumps defines it, and the temps that are brought in are new. -/
structure Spillable (fp t : Temp) (made : TempSet) (old : List Instr) : Prop where
  ne_fp : t ≠ fp
  fp_kept : ∀ i ∈ old, fp ∉ i.defs
  falls : ∀ i ∈ old, i.jumps ≠ [] → t ∉ i.defs
  fp_old : fp ∉ made
  uses_old : ∀ i ∈ old, ∀ u ∈ i.uses, u ∉ made
  defs_old : ∀ i ∈ old, ∀ d ∈ i.defs, d ∉ made

section Replay

variable {R : Type} {fp t : Temp} {offset : Word} {made : TempSet} {old new : List Instr}
  {start : Nat → Nat}

/-- The address of the slot. -/
def slot (fp : Temp) (offset : Word) (x : Config Temp Word (Surroundings R)) : Word :=
  octabyte (x.store fp + offset)

/-- At the start of a block: everything is as in the original execution, except that `t` is in its
slot. -/
structure Mirrors (fp t : Temp) (offset : Word) (made : TempSet) (start : Nat → Nat)
    (x y : Config Temp Word (Surroundings R)) : Prop where
  place : y.place = x.place.moved start
  temps : ∀ u, u ≠ t → u ∉ made → y.store u = x.store u
  world : y.world = x.world.put (slot fp offset x) (x.store t)

/-- The second path goes through the blocks of the instructions of the first one. Outside of the
word at `a` the worlds within a block are those around the original instruction. -/
inductive Replays (fp t : Temp) (offset : Word) (made : TempSet) (a : Word) :
    (world : Surroundings R) → (path path' : List (Instr × Surroundings R)) → Prop
  | nil (w : Surroundings R) : Replays fp t offset made a w [] []
  | cons {i : Instr} (b : SpillBlock fp t offset made i) {w w' : Surroundings R}
      {before after path path' : List (Instr × Surroundings R)}
      (loads : before.map Prod.fst = b.loads) (sameBefore : ∀ e ∈ before, SameOutside a w e.2)
      (stores : after.map Prod.fst = b.instr :: b.stores) (sameAfter : ∀ e ∈ after, SameOutside a w' e.2)
      (rest : Replays fp t offset made a w' path path') :
      Replays fp t offset made a w ((i, w') :: path) (before ++ after ++ path')

theorem map_fst_trace {V W : Type} (meaning : Interpretation V W) (x : (Temp → V) × W) (is : List Instr) :
    (trace meaning x is).map Prod.fst = is := by
  induction is generalizing x with
  | nil => rfl
  | cons i is ih => rw [trace, List.map_cons, ih]

/-- Where a block ends, the block of the next instruction or of the jump target starts. -/
theorem Rewritten.nextPlace (h : Rewritten fp t offset made old new start) {pc pc' : Nat}
    (hpc : start (pc + 1) = pc' + 1) (flow : Flow) (target : Option Label) :
    nextPlace new pc' flow target = (nextPlace old pc flow target).map (Place.moved start) := by
  cases flow with
  | call => simp [Execution.nextPlace, Place.moved, hpc]
  | next => cases target <;> simp [Execution.nextPlace, Place.moved, hpc, h.goto]
  | jump => cases target <;> simp [Execution.nextPlace, h.goto]

variable {meaning : Interpretation Word (Surroundings R)}

/-- Control leaves a block from its end, to where the block of the next original instruction starts. -/
theorem Rewritten.nextPlace_block (h : Rewritten fp t offset made old new start)
    (hcode : Spillable fp t made old) {pc : Nat} {i : Instr} (hi : i ∈ old)
    {b : SpillBlock fp t offset made i} (hblock : t ∉ i.defs → b.stores = []) {before : List Instr}
    (hend : start (pc + 1) = (before ++ b.instrs).length) {x y : (Temp → Word) × Surroundings R}
    (htarget : target meaning y b.instr = target meaning x i) {place : Place}
    (hnext : Execution.nextPlace old pc i.flow (target meaning x i) = some place) :
    ∃ place', Execution.nextPlace new (before ++ b.loads).length b.instr.flow (target meaning y b.instr)
        = some place' ∧
      (b.stores = [] ∨ place' = .at ((before ++ b.loads).length + 1)) ∧
      (if b.stores = [] then place' else .at (before ++ b.instrs).length) = place.moved start := by
  by_cases hd : t ∈ i.defs
  · -- The instruction has no targets, so that control goes through the block.
    have hjumps : i.jumps = [] := by
      by_contra hne
      exact hcode.falls i hi hne hd
    have hflow : i.flow ≠ .jump := by
      intro hjump
      rw [target_eq_none meaning hjumps, hjump] at hnext
      cases hnext
    have hplace : place = .at (pc + 1) := by
      rw [nextPlace_of_fallsThrough meaning ⟨hflow, fun _ => hjumps⟩] at hnext
      exact (Option.some.inj hnext).symm
    have hfalls : FallsThrough b.instr := by
      rw [FallsThrough, SpillBlock.instr, flow_rename, jumps_rename]
      exact ⟨hflow, fun _ => hjumps⟩
    refine ⟨_, nextPlace_of_fallsThrough meaning hfalls _ _ _, .inr rfl, ?_⟩
    rw [hplace, Place.moved, hend]
    split
    next hnil => simp [SpillBlock.instrs, hnil, Nat.add_assoc]
    next => rfl
  · have hnil := hblock hd
    have hlength : start (pc + 1) = (before ++ b.loads).length + 1 := by
      rw [hend]
      simp [SpillBlock.instrs, hnil, Nat.add_assoc]
    refine ⟨place.moved start, ?_, .inl hnil, if_pos hnil⟩
    rw [htarget, SpillBlock.instr, flow_rename, h.nextPlace hlength, hnext, Option.map_some]

/-- **A block does what its instruction did.** -/
theorem Rewritten.step (h : Rewritten fp t offset made old new start) (hcode : Spillable fp t made old)
    (hmeaning : ReachesSlots meaning) {x y : Config Temp Word (Surroundings R)}
    (hxy : Mirrors fp t offset made start x y) (hspares : SparesNext meaning old (slot fp offset x) x)
    {i : Instr} {x' : Config Temp Word (Surroundings R)}
    (hstep : step meaning (overTemps _ _) old x = some (i, x')) :
    ∃ (b : SpillBlock fp t offset made i) (before after : List (Instr × Surroundings R))
      (y' : Config Temp Word (Surroundings R)),
      run meaning (overTemps _ _) new b.instrs.length y = (before ++ after, y') ∧
      before.map Prod.fst = b.loads ∧ (∀ e ∈ before, SameOutside (slot fp offset x) x.world e.2) ∧
      after.map Prod.fst = b.instr :: b.stores ∧
      (∀ e ∈ after, SameOutside (slot fp offset x) x'.world e.2) ∧
      Mirrors fp t offset made start x' y' ∧ slot fp offset x' = slot fp offset x := by
  obtain ⟨pc, hpc, hi, place, hnext, rfl⟩ := exists_of_step meaning hstep
  have hmem : i ∈ old := List.mem_of_getElem? hi
  obtain ⟨b, before, after, hnew, hstart, hend⟩ := h.block hi
  -- What the block does to the temps and the world.
  obtain ⟨htarget, hstore, hworld, hbefore, hafter⟩ :=
    b.performAll_instrs hmeaning hcode.fp_old hcode.ne_fp
    (hcode.fp_kept i hmem) (hcode.uses_old i hmem) (hcode.defs_old i hmem) rfl (hspares pc i hpc hi)
    hxy.temps
  -- Where it goes.
  have hloads := (b.performAll_loads hmeaning hcode.fp_old (x.store, x.world)).1
  obtain ⟨hstores, -, -, -, hnone⟩ := b.performAll_stores hmeaning hcode.fp_old (x.store, x.world)
  obtain ⟨place', hplace', hnext', hlast⟩ := h.nextPlace_block hcode hmem hnone hend htarget hnext
  have hblock := run_block meaning hnew hloads hstores hplace' hnext'
  have hy : y = ⟨.at before.length, y.store, x.world.put (slot fp offset x) (x.store t)⟩ := by
    rw [← hxy.world, ← hstart]
    have hplace := hxy.place
    rw [hpc] at hplace
    exact congrArg (Config.mk · y.store y.world) hplace
  have hpointer : slot fp offset (⟨place, (perform meaning (x.store, x.world) i).1,
      (perform meaning (x.store, x.world) i).2⟩ : Config Temp Word (Surroundings R)) = slot fp
        offset x := by
    simp only [slot, perform_of_not_mem_defs meaning (hcode.fp_kept i hmem)]
  rw [trace_append] at hblock
  rw [hy]
  refine ⟨b, _, _, _, hblock, map_fst_trace .., hbefore, map_fst_trace .., hafter, ⟨hlast, hstore, ?_⟩,
    hpointer⟩
  rw [hpointer]
  exact hworld

/-- **Spill code replays runs**: as long as a run spares the slot, the rewritten list goes through
the blocks of its instructions. -/
theorem Rewritten.run (h : Rewritten fp t offset made old new start) (hcode : Spillable fp t made old)
    (hmeaning : ReachesSlots meaning) {x y : Config Temp Word (Surroundings R)}
    (hxy : Mirrors fp t offset made start x y) {n : Nat}
    (hspares : ∀ j < n, SparesNext meaning old (slot fp offset x)
      (run meaning (overTemps _ _) old j x).2) :
    ∃ m, Mirrors fp t offset made start (run meaning (overTemps _ _) old n x).2
        (run meaning (overTemps _ _) new m y).2 ∧
      Replays fp t offset made (slot fp offset x) x.world (run meaning (overTemps _ _) old n x).1
        (run meaning (overTemps _ _) new m y).1 := by
  induction n generalizing x y with
  | zero => exact ⟨0, hxy, .nil _⟩
  | succ n ih =>
    cases hstep : Execution.step meaning (overTemps _ _) old x with
    | none =>
      rw [run_of_step_eq_none meaning hstep]
      exact ⟨0, hxy, .nil _⟩
    | some r =>
      obtain ⟨i, x'⟩ := r
      obtain ⟨b, before, after, y', hrun, hloads, hbefore, hstores, hafter, hmirrors, hslot⟩ :=
        h.step hcode hmeaning hxy (hspares 0 (Nat.succ_pos n)) hstep
      -- The rest of the run spares the slot as well, and it is the same slot.
      have hrest : ∀ j < n, SparesNext meaning old (slot fp offset x')
          (Execution.run meaning (overTemps _ _) old j x').2 := by
        intro j hj
        have hspare := hspares (j + 1) (Nat.succ_lt_succ hj)
        simpa only [Execution.run, hstep, hslot] using hspare
      obtain ⟨m, hlast, hpath⟩ := ih hmirrors hrest
      rw [hslot] at hpath
      refine ⟨b.instrs.length + m, ?_, ?_⟩
      · simpa only [run_add, hrun, Execution.run, hstep] using hlast
      · simpa only [run_add, hrun, Execution.run, hstep]
          using .cons b hloads hbefore hstores hafter hpath

end Replay

/-! ## §6 Spilled code -/

/-- Without the temp there is nothing to rewrite. -/
theorem next_spillList_of_not_mentions {fp t : Temp} {offset : Word} {is : List Instr}
    (h : ¬ Mentions is t) (n : Int) : (spillList fp t offset is n).next = n := by
  induction is generalizing n with
  | nil => rfl
  | cons i is ih =>
    have hi : t ∉ i.uses ∧ t ∉ i.defs := not_or.mp fun hmem => h ⟨i, List.mem_cons_self, hmem⟩
    have his : ¬ Mentions is t := fun ⟨j, hj, hmem⟩ => h ⟨j, List.mem_cons_of_mem _ hj, hmem⟩
    have hnext : (i.spilled fp t offset n).next = n := by simp [spilled, hi]
    rw [spillList]
    exact (ih his _).trans hnext

/-- A temp that has been spilled does not occur. -/
theorem not_mentions_spillList {fp t : Temp} {offset : Word} {is : List Instr} {n : Int} (hne : t ≠ fp)
    (hold : Mentions is t → t.index ≤ n) : ¬ Mentions (spillList fp t offset is n).instrs t := by
  have hmade : t ∉ (spillList fp t offset is n).made := by
    rw [mem_made_spillList]
    by_cases ht : Mentions is t
    · have hle := hold ht
      omega
    · rw [next_spillList_of_not_mentions ht]
      omega
  rintro ⟨j, hj, huse | hdef⟩
  · rcases (temps_spillList hj).2 t huse with ⟨_, -, -, h⟩ | h | h
    · exact h rfl
    · exact hmade h
    · exact hne h
  · rcases (temps_spillList hj).1 t hdef with ⟨_, -, -, h⟩ | h
    · exact h rfl
    · exact hmade h

/-- **Spilling preserves execution.** Let no instruction define the frame pointer, and let no
instruction with jump targets define the temp `t`. Behind spilling, `t` occurs no more, labels have
kept their places, and whatever operations mean, apart from those of spill code: each run that
spares the word of the new slot, from a state where this word is `t`, is replayed block by block. At
the start of each block, memory outside of the slot, the remainder register and the temps other than
`t` and the new ones are as in the original run, and the slot holds the original `t`. -/
theorem spill_preserves_execution {c c' : Code} {t : Temp} {made : TempSet} {σ σ' : Supply}
    (hrun : (c.spill t).run σ = ((c', made), σ')) (hne : t ≠ c.frame.fp)
    (hfp : ∀ i ∈ c.instrs, c.frame.fp ∉ i.defs) (hjumps : ∀ i ∈ c.instrs, i.jumps ≠ [] → t ∉ i.defs)
    (hold : ∀ u, u = c.frame.fp ∨ Mentions c.instrs u → u.index ≤ σ.temps) :
    ¬ Mentions c'.instrs t ∧ (∀ u ∈ made, σ.temps < u.index) ∧ c'.spills[t]? = some c.nextSlot ∧
    ∃ start, Rewritten c.frame.fp t c.nextSlot made c.instrs c'.instrs start ∧
      ∀ (R : Type) (meaning : Interpretation Word (Surroundings R)), ReachesSlots meaning →
      ∀ (pc : Nat) (store store' : Temp → Word) (w : Surroundings R),
      w.memory (octabyte (store c.frame.fp + c.nextSlot)) = store t →
      (∀ u, u ≠ t → u ∉ made → store' u = store u) → ∀ n,
      (∀ j < n, SparesNext meaning c.instrs (octabyte (store c.frame.fp + c.nextSlot))
        (run meaning (overTemps _ _) c.instrs j ⟨.at pc, store, w⟩).2) →
      ∃ m, Mirrors c.frame.fp t c.nextSlot made start
          (run meaning (overTemps _ _) c.instrs n ⟨.at pc, store, w⟩).2
          (run meaning (overTemps _ _) c'.instrs m ⟨.at (start pc), store', w⟩).2 ∧
        Replays c.frame.fp t c.nextSlot made (octabyte (store c.frame.fp + c.nextSlot)) w
          (run meaning (overTemps _ _) c.instrs n ⟨.at pc, store, w⟩).1
          (run meaning (overTemps _ _) c'.instrs m ⟨.at (start pc), store', w⟩).1 := by
  obtain ⟨temps, labels⟩ := σ
  rw [Code.run_spill] at hrun
  cases hrun
  have hnew : ∀ u ∈ (spillList c.frame.fp t c.nextSlot c.instrs temps).made, temps < u.index :=
    fun u hu => (mem_made_spillList.mp hu).1
  -- Temps of the code are older than those that spilling draws.
  have hmade : ∀ u, u = c.frame.fp ∨ Mentions c.instrs u →
      u ∉ (spillList c.frame.fp t c.nextSlot c.instrs temps).made :=
    fun u hu hmem => absurd (hnew u hmem) (Int.not_lt.mpr (hold u hu))
  have hcode : Spillable c.frame.fp t (spillList c.frame.fp t c.nextSlot c.instrs temps).made c.instrs :=
    { ne_fp := hne
      fp_kept := hfp
      falls := hjumps
      fp_old := hmade _ (.inl rfl)
      uses_old := fun i hi u hu => hmade u (.inr ⟨i, hi, .inl hu⟩)
      defs_old := fun i hi d hd => hmade d (.inr ⟨i, hi, .inr hd⟩) }
  have hrewritten := rewritten_spillList c.frame.fp t c.nextSlot c.instrs temps
  refine ⟨not_mentions_spillList hne fun ht => hold t (.inr ht), hnew, Std.TreeMap.getElem?_insert_self,
    _, hrewritten, ?_⟩
  intro R meaning hmeaning pc store store' w hslot hstore n hspares
  -- The slot holds `t` already, so storing it there again changes nothing.
  have hstart : w = w.put (octabyte (store c.frame.fp + c.nextSlot)) (store t) := by
    rw [← hslot, Surroundings.put, Function.update_eq_self]
  exact hrewritten.run hcode hmeaning (x := ⟨.at pc, store, w⟩) ⟨rfl, hstore, hstart⟩ hspares

/-- A function that subtracts quotients from a number until it is zero. The number `T3` is used and
defined in the loop, and a remainder is fetched there. -/
def subtractQuotients : Code where
  frame := ⟨"_subtractQuotients", 0, 0, 8, ⟨1⟩, ⟨2⟩⟩
  entry := "L1"
  exit := "L2"
  instrs := [.label "L1", .plain (.loadWyde .low 5) [] [⟨3⟩], .label "L3",
    .plain (.arith .div) [⟨3⟩, ⟨3⟩] [⟨4⟩], .plain .remainder [] [⟨5⟩],
    .plain (.arith .sub) [⟨3⟩, ⟨4⟩] [⟨3⟩], .oper (.branch "L3") [⟨3⟩] [] ["L3"] .next,
    .move ⟨3⟩ ⟨2⟩, .oper (.goto "L2") [] [] ["L2"] .jump]

/-- The operations of `subtractQuotients` and of spill code. -/
def dividing : Interpretation Word (Surroundings Unit)
  | .loadWyde .low v, _, _, w => ⟨fun _ => placed .low v, w, none⟩
  | .loadWyde place v, _, [x], w => ⟨fun _ => x + placed place v, w, none⟩
  | .loadIndexed, _, [x, y], w => ⟨fun _ => w.memory (octabyte (x + y)), w, none⟩
  | .storeIndexed, _, [v, x, y], w => ⟨fun _ => 0, w.put (octabyte (x + y)) v, none⟩
  | .arith .div, _, [x, y], w =>
    ⟨fun _ => arithResult .div x y, { w with remainder := Int64.ofInt (x.toInt.fmod y.toInt) }, none⟩
  | .arith op, _, [x, y], w => ⟨fun _ => arithResult op x y, w, none⟩
  | .remainder, _, _, w => ⟨fun _ => w.remainder, w, none⟩
  | .branch _, _, [x], w => ⟨fun _ => 0, w, if x = 0 then none else some 0⟩
  | .goto _, _, _, w => ⟨fun _ => 0, w, some 0⟩
  | _, _, _, w => ⟨fun _ => 0, w, none⟩

theorem spill_preserves_subtractQuotients :
    ∃ c' made σ', (subtractQuotients.spill ⟨3⟩).run ⟨5, 3⟩ = ((c', made), σ') ∧
      ¬ Mentions c'.instrs ⟨3⟩ ∧ ∃ start, ∀ n, ∃ m, Mirrors ⟨1⟩ ⟨3⟩ subtractQuotients.nextSlot made start
        (run dividing (overTemps _ _) subtractQuotients.instrs n
          ⟨.at 0, fun _ => 0, ⟨fun _ => 0, 0, ()⟩⟩).2
        (run dividing (overTemps _ _) c'.instrs m ⟨.at 0, fun _ => 0, ⟨fun _ => 0, 0, ()⟩⟩).2 := by
  have hmeaning : ReachesSlots dividing :=
    { groups := ⟨fun _ _ => ⟨rfl, rfl⟩, fun {place} hplace _ _ _ => by
        cases place with
        | low => exact absurd rfl hplace
        | _ => exact ⟨rfl, rfl⟩⟩
      load := fun _ _ _ => ⟨rfl, rfl⟩
      store := fun _ _ _ _ => rfl }
  have hspares : ∀ i ∈ subtractQuotients.instrs, ∀ a x, Spares dividing a x i := by
    simp only [subtractQuotients, List.forall_mem_cons, Instr.plain, Spares]
    exact ⟨fun _ _ => trivial, fun _ _ _ => rfl, fun _ _ => trivial, fun _ _ _ => rfl, fun _ _ _ => rfl,
      fun _ _ _ => rfl, fun _ _ _ => rfl, fun _ _ => trivial, fun _ _ _ => rfl, by simp⟩
  have htemps : ∀ i ∈ subtractQuotients.instrs, ∀ u ∈ i.uses ++ i.defs, u.index ≤ 5 := by decide
  have hold : ∀ u, u = subtractQuotients.frame.fp ∨ Mentions subtractQuotients.instrs u →
      u.index ≤ 5 := by
    rintro u (rfl | ⟨i, hi, hu⟩)
    · decide
    · exact htemps i hi u (List.mem_append.mpr hu)
  obtain ⟨hgone, -, -, start, hrewritten, hall⟩ := spill_preserves_execution
    (Code.run_spill subtractQuotients ⟨3⟩ 5 3) (by decide) (by decide) (by decide) hold
  refine ⟨_, _, _, Code.run_spill subtractQuotients ⟨3⟩ 5 3, hgone, start, fun n => ?_⟩
  obtain ⟨m, hmirrors, -⟩ := hall Unit dividing hmeaning 0 (fun _ => 0) (fun _ => 0)
    ⟨fun _ => 0, 0, ()⟩ rfl
    (fun _ _ _ => rfl) n fun j _ pc i _ hi => hspares i (List.mem_of_getElem? hi) _ _
  rw [hrewritten.first] at hmirrors
  exact ⟨m, hmirrors⟩

end MmixBackend.Execution
