import MmixBackend.Register.Allocation
import MmixBackend.Proofs.Register.Coloring

/-!
# Spill code

Rewriting an instruction list for a spilled temp takes fresh temps from the supply. What comes out
depends only on the number of the last temp handed out: `Instr.spilled` gives it without the supply, as
the instructions that load the slot, the instruction with the fresh temp in place of the spilled one,
and the instructions that store the slot.

## Main statements

- `Instr.run_spill`: spilling a temp in one instruction.
- `Code.run_spill`: spilling a temp in a whole code.
- `Instr.spilled_cases`: the spill code around one instruction.
- `Instr.temps_spillList`: which temps the new instructions define and use.
-/

namespace MmixBackend

namespace Instr

/-- An instruction rewritten for a spilled temp: what comes before and after it, the temps that were
made, and the number of the last one. -/
structure Spilled where
  loads : List Instr
  instr : Instr
  stores : List Instr
  made : List Temp
  next : Int

/-- All instructions in order. -/
def Spilled.instrs (s : Spilled) : List Instr := s.loads ++ s.instr :: s.stores

/-- The instructions that load a slot into the temp `value`, with its offset in the temp `off`. -/
def loadSlot (fp : Temp) (offset : Word) (value off : Temp) : List Instr :=
  loadConstant off offset ++ [plain .loadIndexed [fp, off] [value]]

/-- The instructions that store the temp `value` into a slot, with its offset in the temp `off`. -/
def storeSlot (fp : Temp) (offset : Word) (value off : Temp) : List Instr :=
  loadConstant off offset ++ [plain .storeIndexed [value, fp, off] []]

/-- What spilling makes of an instruction when `n` is the number of the last temp. -/
def spilled (fp t : Temp) (offset : Word) (i : Instr) (n : Int) : Spilled :=
  if t ∈ i.uses then
    if t ∈ i.defs then
      ⟨loadSlot fp offset ⟨n + 1⟩ ⟨n + 2⟩, i.rename t ⟨n + 1⟩, storeSlot fp offset ⟨n + 1⟩ ⟨n + 3⟩,
        [⟨n + 1⟩, ⟨n + 2⟩, ⟨n + 3⟩], n + 3⟩
    else ⟨loadSlot fp offset ⟨n + 1⟩ ⟨n + 2⟩, i.rename t ⟨n + 1⟩, [], [⟨n + 1⟩, ⟨n + 2⟩], n + 2⟩
  else if t ∈ i.defs then
    ⟨[], i.rename t ⟨n + 1⟩, storeSlot fp offset ⟨n + 1⟩ ⟨n + 2⟩, [⟨n + 1⟩, ⟨n + 2⟩], n + 2⟩
  else ⟨[], i, [], [], n⟩

end Instr

/-! ## §1 Runs of the supply -/

theorem run_freshTemp (n l : Int) : freshTemp.run ⟨n, l⟩ = (⟨n + 1⟩, ⟨n + 1, l⟩) := rfl

namespace Instr

theorem run_constant (v : Word) (n l : Int) :
    (constant v).run ⟨n, l⟩ = ((loadConstant ⟨n + 1⟩ v, ⟨n + 1⟩), ⟨n + 1, l⟩) := rfl

/-- **Spilling an instruction** takes its temps from the supply one after the other. -/
theorem run_spill (fp t : Temp) (offset : Word) (i : Instr) (n l : Int) :
    (i.spill fp t offset).run ⟨n, l⟩
      = (((i.spilled fp t offset n).instrs, (i.spilled fp t offset n).made),
        ⟨(i.spilled fp t offset n).next, l⟩) := by
  have h₂ : n + 1 + 1 = n + 2 := by omega
  have h₃ : n + 2 + 1 = n + 3 := by omega
  unfold Instr.spill spilled
  by_cases hu : t ∈ i.uses
  · by_cases hd : t ∈ i.defs
    · simp [hu, hd, -StateT.run_bind, -StateT.run_map, run_bind_state, run_map_state, run_freshTemp,
        run_constant, Spilled.instrs, loadSlot, storeSlot, h₂, h₃]
    · simp [hu, hd, -StateT.run_bind, -StateT.run_map, run_bind_state, run_map_state, run_freshTemp,
        run_constant, Spilled.instrs, loadSlot, h₂]
  · by_cases hd : t ∈ i.defs
    · simp [hu, hd, -StateT.run_bind, -StateT.run_map, run_bind_state, run_map_state, run_freshTemp,
        run_constant, Spilled.instrs, storeSlot, h₂]
    · simp [hu, hd, Spilled.instrs]
      rfl

/-- An instruction list rewritten for a spilled temp. -/
structure SpilledList where
  instrs : List Instr
  made : TempSet
  next : Int

/-- What spilling makes of an instruction list when `n` is the number of the last temp. -/
def spillList (fp t : Temp) (offset : Word) : List Instr → (n : Int) → SpilledList
  | [], n => ⟨[], ∅, n⟩
  | i :: is, n =>
    let s := i.spilled fp t offset n
    let r := spillList fp t offset is s.next
    ⟨s.instrs ++ r.instrs, .ofList s.made ∪ r.made, r.next⟩

theorem run_spillInstrs (fp t : Temp) (offset : Word) (is : List Instr) (n l : Int) :
    (Code.spillInstrs fp t offset is).run ⟨n, l⟩
      = (((spillList fp t offset is n).instrs, (spillList fp t offset is n).made),
        ⟨(spillList fp t offset is n).next, l⟩) := by
  induction is generalizing n with
  | nil => rfl
  | cons i is ih =>
    rw [Code.spillInstrs, run_bind_state, run_spill]
    simp only [run_bind_state, ih]
    rfl

end Instr

/-- What spilling makes of a code when `n` is the number of the last temp. -/
def Code.spilled (c : Code) (t : Temp) (n : Int) : Code :=
  { c with
    instrs := (Instr.spillList c.frame.fp t c.nextSlot c.instrs n).instrs
    tempSize := c.tempSize + Word.byteSize
    spills := c.spills.insert t c.nextSlot }

/-- **Spilling a temp** rewrites the instructions and gives the temp a slot. -/
theorem Code.run_spill (c : Code) (t : Temp) (n l : Int) :
    (c.spill t).run ⟨n, l⟩
      = ((c.spilled t n, (Instr.spillList c.frame.fp t c.nextSlot c.instrs n).made),
        ⟨(Instr.spillList c.frame.fp t c.nextSlot c.instrs n).next, l⟩) := by
  rw [Code.spill]
  simp only [run_bind_state, Instr.run_spillInstrs]
  rfl

/-! ## §2 The temps of spill code -/

namespace Instr

variable {fp t : Temp} {offset : Word}

theorem uses_rename (i : Instr) (old new : Temp) :
    (i.rename old new).uses = i.uses.map fun u => if u = old then new else u := by
  cases i <;> simp [rename, uses, renameIn]

theorem defs_rename (i : Instr) (old new : Temp) :
    (i.rename old new).defs = i.defs.map fun u => if u = old then new else u := by
  cases i <;> simp [rename, defs, renameIn]

/-- Only the first instruction that loads a constant reads nothing. -/
theorem getElem?_loadConstant {dst : Temp} {v : Word} {j : Nat} {i : Instr}
    (h : (loadConstant dst v)[j]? = some i) :
    (∃ op, i = plain op i.uses i.defs) ∧ i.defs = [dst] ∧ ∀ u ∈ i.uses, u = dst ∧ 0 < j := by
  obtain ⟨⟨place, value⟩, hplace, rfl⟩ := List.getElem?_map .. ▸ h |> Option.map_eq_some_iff.mp
  refine ⟨⟨_, rfl⟩, rfl, fun u hu => ?_⟩
  simp only [plain, uses] at hu
  by_cases hlow : place = .low
  · simp [hlow] at hu
  · rw [if_neg hlow] at hu
    refine ⟨List.mem_singleton.mp hu, Nat.pos_of_ne_zero fun hj => hlow ?_⟩
    subst hj
    simp [loadedWydes] at hplace
    exact hplace.1.symm

theorem length_loadConstant_pos (dst : Temp) (v : Word) : 0 < (loadConstant dst v).length := by
  simp [loadConstant, loadedWydes]

/-- The code of a slot: a constant is loaded for the offset, and one instruction follows. -/
theorem getElem?_slot {off : Temp} {offset : Word} {op : Opcode} {us ds : List Temp} {j : Nat}
    {i : Instr} (h : (loadConstant off offset ++ [plain op us ds])[j]? = some i) :
    (∃ op, i = plain op i.uses i.defs) ∧
    ((j + 1 < (loadConstant off offset ++ [plain op us ds]).length ∧ i.defs = [off] ∧
        ∀ u ∈ i.uses, u = off ∧ 0 < j) ∨
      (j + 1 = (loadConstant off offset ++ [plain op us ds]).length ∧ 0 < j ∧ i.defs = ds ∧
        i.uses = us)) := by
  have hpos := length_loadConstant_pos off offset
  simp only [List.length_append, List.length_singleton]
  rcases Nat.lt_or_ge j (loadConstant off offset).length with hlt | hge
  · rw [List.getElem?_append_left hlt] at h
    obtain ⟨hplain, hdefs, huses⟩ := getElem?_loadConstant h
    exact ⟨hplain, .inl ⟨by omega, hdefs, huses⟩⟩
  · rw [List.getElem?_append_right hge, List.getElem?_singleton] at h
    split at h
    · cases h
      exact ⟨⟨_, rfl⟩, .inr ⟨by omega, by omega, rfl, rfl⟩⟩
    · cases h

/-- Spill code around an instruction: loads if it uses the temp, and stores if it defines it. -/
structure Around (fp t : Temp) (offset : Word) (i : Instr) (value off₁ off₂ : Temp)
    (loads stores : List Instr) : Prop where
  loads : (t ∈ i.uses ∧ loads = loadSlot fp offset value off₁) ∨ (t ∉ i.uses ∧ loads = [])
  stores : (t ∈ i.defs ∧ stores = storeSlot fp offset value off₂) ∨ (t ∉ i.defs ∧ stores = [])

section Around

variable {fp t value off₁ off₂ : Temp} {offset : Word} {i : Instr} {loads stores : List Instr}
  (h : Around fp t offset i value off₁ off₂ loads stores)

include h

theorem Around.load {j : Nat} {instr : Instr} (hj : loads[j]? = some instr) :
    (∃ op, instr = plain op instr.uses instr.defs) ∧ ((j + 1 < loads.length ∧ instr.defs = [off₁] ∧
        ∀ u ∈ instr.uses, u = off₁ ∧ 0 < j) ∨
      (j + 1 = loads.length ∧ 0 < j ∧ instr.defs = [value] ∧ instr.uses = [fp, off₁])) := by
  rcases h.loads with ⟨-, rfl⟩ | ⟨-, rfl⟩
  · exact getElem?_slot hj
  · cases hj

theorem Around.store {j : Nat} {instr : Instr} (hj : stores[j]? = some instr) :
    (∃ op, instr = plain op instr.uses instr.defs) ∧ ((j + 1 < stores.length ∧ instr.defs = [off₂] ∧
        ∀ u ∈ instr.uses, u = off₂ ∧ 0 < j) ∨
      (j + 1 = stores.length ∧ 0 < j ∧ instr.defs = [] ∧ instr.uses = [value, fp, off₂])) := by
  rcases h.stores with ⟨-, rfl⟩ | ⟨-, rfl⟩
  · exact getElem?_slot hj
  · cases hj

theorem Around.loads_pos : t ∈ i.uses ↔ 1 < loads.length := by
  have hpos := length_loadConstant_pos off₁ offset
  rcases h.loads with ⟨hu, rfl⟩ | ⟨hu, rfl⟩
  · simp only [hu, loadSlot, List.length_append, List.length_singleton, true_iff]
    omega
  · simp [hu]

theorem Around.stores_pos : t ∈ i.defs ↔ 1 < stores.length := by
  have hpos := length_loadConstant_pos off₂ offset
  rcases h.stores with ⟨hu, rfl⟩ | ⟨hu, rfl⟩
  · simp only [hu, storeSlot, List.length_append, List.length_singleton, true_iff]
    omega
  · simp [hu]

theorem Around.loads_ne_one : loads.length ≠ 1 := by
  rcases h.loads with ⟨hu, -⟩ | ⟨-, rfl⟩
  · have := h.loads_pos.mp hu
    omega
  · simp

theorem Around.stores_ne_one : stores.length ≠ 1 := by
  rcases h.stores with ⟨hu, -⟩ | ⟨-, rfl⟩
  · have := h.stores_pos.mp hu
    omega
  · simp

end Around

/-- The temps that are made have the numbers behind the last one. -/
theorem mem_made_spilled {i : Instr} {n : Int} {u : Temp} :
    u ∈ (i.spilled fp t offset n).made ↔ n < u.index ∧ u.index ≤ (i.spilled fp t offset n).next := by
  have hindex : ∀ m : Int, u = ⟨m⟩ ↔ u.index = m := fun m => by
    cases u
    simp
  unfold spilled
  split
  · split <;> simp only [List.mem_cons, List.not_mem_nil, or_false, hindex] <;> omega
  · split
    · simp only [List.mem_cons, List.not_mem_nil, or_false, hindex]
      omega
    · simp only [List.not_mem_nil, false_iff, not_and]
      omega

theorem le_next_spilled (fp t : Temp) (offset : Word) (i : Instr) (n : Int) :
    n ≤ (i.spilled fp t offset n).next := by
  unfold spilled
  split
  · split <;> simp only <;> omega
  · split <;> simp only <;> omega

theorem le_next_spillList (fp t : Temp) (offset : Word) (is : List Instr) (n : Int) :
    n ≤ (spillList fp t offset is n).next := by
  induction is generalizing n with
  | nil => exact Int.le_refl _
  | cons i is ih => exact Int.le_trans (le_next_spilled fp t offset i n) (ih _)

theorem mem_made_spillList {is : List Instr} {n : Int} {u : Temp} :
    u ∈ (spillList fp t offset is n).made ↔
      n < u.index ∧ u.index ≤ (spillList fp t offset is n).next := by
  induction is generalizing n with
  | nil =>
    simp only [spillList, TempSet.not_mem_empty, false_iff]
    omega
  | cons i is ih =>
    have h₁ := le_next_spilled fp t offset i n
    have h₂ := le_next_spillList fp t offset is (i.spilled fp t offset n).next
    simp only [spillList, TempSet.mem_union, TempSet.mem_ofList, mem_made_spilled, ih]
    omega

/-- **What spilling makes of an instruction**: nothing if the temp does not occur in it, and otherwise
the renamed instruction with spill code around it. -/
theorem spilled_cases (fp t : Temp) (offset : Word) (i : Instr) (n : Int) :
    (t ∉ i.uses ∧ t ∉ i.defs ∧ i.spilled fp t offset n = ⟨[], i, [], [], n⟩) ∨
    ((t ∈ i.uses ∨ t ∈ i.defs) ∧ (i.spilled fp t offset n).instr = i.rename t ⟨n + 1⟩ ∧
      n + 1 ≤ (i.spilled fp t offset n).next ∧
      ∃ off₁ off₂ : Temp, Around fp t offset i ⟨n + 1⟩ off₁ off₂ (i.spilled fp t offset n).loads
          (i.spilled fp t offset n).stores ∧
        n + 1 < off₁.index ∧ n + 1 < off₂.index ∧ off₁ ≠ off₂ ∧
        (t ∈ i.uses → off₁.index ≤ (i.spilled fp t offset n).next) ∧
        (t ∈ i.defs → off₂.index ≤ (i.spilled fp t offset n).next)) := by
  unfold spilled
  by_cases hu : t ∈ i.uses
  · by_cases hd : t ∈ i.defs
    · simp only [hu, hd, if_true]
      refine .inr ⟨.inl trivial,
        trivial, by omega, ⟨n + 2⟩, ⟨n + 3⟩, ⟨.inl ⟨hu, rfl⟩, .inl ⟨hd, rfl⟩⟩, ?_⟩
      simp
    · simp only [hu, hd, if_true, if_false]
      refine .inr ⟨.inl trivial,
        trivial, by omega, ⟨n + 2⟩, ⟨n + 3⟩, ⟨.inl ⟨hu, rfl⟩, .inr ⟨hd, rfl⟩⟩, ?_⟩
      simp
  · by_cases hd : t ∈ i.defs
    · simp only [hu, hd, if_true, if_false]
      refine .inr ⟨.inr trivial,
        trivial, by omega, ⟨n + 3⟩, ⟨n + 2⟩, ⟨.inr ⟨hu, rfl⟩, .inl ⟨hd, rfl⟩⟩, ?_⟩
      simp
    · simp [hu, hd]

/-- Spill code defines temps that were made, and what the instruction defined apart from `t`. It uses
the frame pointer besides. -/
theorem temps_spilled {i j : Instr} {n : Int} (hj : j ∈ (i.spilled fp t offset n).instrs) :
    (∀ d ∈ j.defs, (d ∈ i.defs ∧ d ≠ t) ∨ d ∈ (i.spilled fp t offset n).made) ∧
    ∀ u ∈ j.uses, (u ∈ i.uses ∧ u ≠ t) ∨ u ∈ (i.spilled fp t offset n).made ∨ u = fp := by
  simp only [mem_made_spilled]
  rcases spilled_cases fp t offset i n with ⟨hu, hd, heq⟩ | ⟨-, hinstr, hnext, off₁, off₂, haround, h₁,
    h₂, -, hle₁, hle₂⟩
  -- The instruction does not mention `t` and stays as it is.
  · rw [heq, Spilled.instrs, List.nil_append, List.mem_singleton] at hj
    rw [hj]
    exact ⟨fun d hmem => .inl ⟨hmem, fun h => hd (h ▸ hmem)⟩,
      fun u hmem => .inl ⟨hmem, fun h => hu (h ▸ hmem)⟩⟩
  -- Renaming puts the new temp for `t` and keeps all others.
  have hrename : ∀ {us : List Temp} {u : Temp}, u ∈ us.map (fun w => if w = t then ⟨n + 1⟩ else w) →
      (u ∈ us ∧ u ≠ t) ∨ (n < u.index ∧ u.index ≤ (i.spilled fp t offset n).next) := by
    intro us u hmem
    obtain ⟨w, hw, rfl⟩ := List.mem_map.mp hmem
    by_cases hwt : w = t
    · rw [if_pos hwt]
      exact .inr ⟨Int.lt_succ n, hnext⟩
    · rw [if_neg hwt]
      exact .inl ⟨hw, hwt⟩
  rw [Spilled.instrs, hinstr, List.mem_append, List.mem_cons] at hj
  -- A load, the instruction itself or a store.
  rcases hj with hj | rfl | hj
  · have hu : t ∈ i.uses := haround.loads_pos.mpr (by
      have := List.length_pos_of_mem hj
      have := haround.loads_ne_one
      omega)
    obtain ⟨m, hm⟩ := List.mem_iff_getElem?.mp hj
    have hoff : n < off₁.index ∧ off₁.index ≤ (i.spilled fp t offset n).next := ⟨by omega, hle₁ hu⟩
    have hvalue : n < n + 1 ∧ n + 1 ≤ (i.spilled fp t offset n).next := ⟨by omega, hnext⟩
    rcases (haround.load hm).2 with ⟨-, hd, hus⟩ | ⟨-, -, hd, hus⟩
    · rw [hd]
      simp only [List.mem_singleton, forall_eq]
      refine ⟨.inr hoff, fun u hu => ?_⟩
      rw [(hus u hu).1]
      exact .inr (.inl hoff)
    · rw [hd, hus]
      simp [hoff, hvalue]
  -- The instruction itself has the new temp in the place of `t`.
  · rw [defs_rename, uses_rename]
    refine ⟨fun d hmem => hrename hmem, fun u hmem => ?_⟩
    rcases hrename hmem with h | h
    · exact .inl h
    · exact .inr (.inl h)
  · have hd : t ∈ i.defs := haround.stores_pos.mpr (by
      have := List.length_pos_of_mem hj
      have := haround.stores_ne_one
      omega)
    obtain ⟨m, hm⟩ := List.mem_iff_getElem?.mp hj
    have hoff : n < off₂.index ∧ off₂.index ≤ (i.spilled fp t offset n).next := ⟨by omega, hle₂ hd⟩
    have hvalue : n < n + 1 ∧ n + 1 ≤ (i.spilled fp t offset n).next := ⟨by omega, hnext⟩
    rcases (haround.store hm).2 with ⟨-, hd, hus⟩ | ⟨-, -, hd, hus⟩
    · rw [hd]
      simp only [List.mem_singleton, forall_eq]
      refine ⟨.inr hoff, fun u hu => ?_⟩
      rw [(hus u hu).1]
      exact .inr (.inl hoff)
    · rw [hd, hus]
      simp [hoff, hvalue]

theorem temps_spillList {is : List Instr} {n : Int} {j : Instr}
    (hj : j ∈ (spillList fp t offset is n).instrs) :
    (∀ d ∈ j.defs, (∃ i ∈ is, d ∈ i.defs ∧ d ≠ t) ∨ d ∈ (spillList fp t offset is n).made) ∧
    ∀ u ∈ j.uses, (∃ i ∈ is, u ∈ i.uses ∧ u ≠ t) ∨ u ∈ (spillList fp t offset is n).made ∨ u = fp := by
  induction is generalizing n with
  | nil => cases hj
  | cons i is ih =>
    simp only [spillList, TempSet.mem_union, TempSet.mem_ofList]
    rcases List.mem_append.mp hj with hj | hj
    -- An instruction of the first block.
    · obtain ⟨hdefs, huses⟩ := temps_spilled hj
      refine ⟨fun d hd => ?_, fun u hu => ?_⟩
      · rcases hdefs d hd with h | h
        · exact .inl ⟨i, List.mem_cons_self, h⟩
        · exact .inr (.inl h)
      · rcases huses u hu with h | h | h
        · exact .inl ⟨i, List.mem_cons_self, h⟩
        · exact .inr (.inl (.inl h))
        · exact .inr (.inr h)
    -- One of a later block, whose temps were made later.
    · obtain ⟨hdefs, huses⟩ := ih hj
      refine ⟨fun d hd => ?_, fun u hu => ?_⟩
      · rcases hdefs d hd with ⟨i', hi', h⟩ | h
        · exact .inl ⟨i', List.mem_cons_of_mem _ hi', h⟩
        · exact .inr (.inr h)
      · rcases huses u hu with ⟨i', hi', h⟩ | h | h
        · exact .inl ⟨i', List.mem_cons_of_mem _ hi', h⟩
        · exact .inr (.inl (.inr h))
        · exact .inr (.inr h)

/-- Spilling keeps the temps of an instruction other than `t`. -/
theorem mem_spilled (fp t : Temp) (offset : Word) (i : Instr) (n : Int) :
    ∃ j ∈ (i.spilled fp t offset n).instrs,
    (∀ u ∈ i.uses, u ≠ t → u ∈ j.uses) ∧ (∀ u ∈ i.defs, u ≠ t → u ∈ j.defs) ∧
      ∀ l, i = .label l → j = .label l := by
  refine ⟨(i.spilled fp t offset n).instr, by simp [Spilled.instrs], ?_⟩
  rcases spilled_cases fp t offset i n with ⟨-, -, heq⟩ | ⟨hmention, hinstr, -⟩
  · rw [heq]
    exact ⟨fun u hu _ => hu, fun u hu _ => hu, fun l hl => hl⟩
  · rw [hinstr, uses_rename, defs_rename]
    refine ⟨fun u hu hne => List.mem_map.mpr ⟨u, hu, if_neg hne⟩,
      fun u hu hne => List.mem_map.mpr ⟨u, hu, if_neg hne⟩, ?_⟩
    rintro l rfl
    simp [uses, defs] at hmention

theorem mem_spillList {is : List Instr} {n : Int} {i : Instr} (hi : i ∈ is) :
    ∃ j ∈ (spillList fp t offset is n).instrs, (∀ u ∈ i.uses, u ≠ t → u ∈ j.uses) ∧
      (∀ u ∈ i.defs, u ≠ t → u ∈ j.defs) ∧ ∀ l, i = .label l → j = .label l := by
  induction is generalizing n with
  | nil => cases hi
  | cons i' is ih =>
    rcases List.mem_cons.mp hi with rfl | hi
    · obtain ⟨j, hj, h⟩ := mem_spilled fp t offset i n
      exact ⟨j, List.mem_append_left _ hj, h⟩
    · obtain ⟨j, hj, h⟩ := ih hi
      exact ⟨j, List.mem_append_right _ hj, h⟩

/-- Spill code does not jump. -/
theorem jumps_spilled {i j : Instr} {n : Int} (hj : j ∈ (i.spilled fp t offset n).instrs) :
    j.jumps = [] ∨ (j.jumps = i.jumps ∧ j.flow = i.flow) := by
  rcases spilled_cases fp t offset i n with ⟨-, -, heq⟩ | ⟨-, hinstr, -, off₁, off₂, haround, -⟩
  · rw [heq, Spilled.instrs, List.nil_append, List.mem_singleton] at hj
    exact .inr (by rw [hj]; exact ⟨rfl, rfl⟩)
  rw [Spilled.instrs, hinstr, List.mem_append, List.mem_cons] at hj
  rcases hj with hj | rfl | hj
  · obtain ⟨m, hm⟩ := List.mem_iff_getElem?.mp hj
    obtain ⟨op, hop⟩ := (haround.load hm).1
    exact .inl (by rw [hop]; rfl)
  · right
    cases i <;> exact ⟨rfl, rfl⟩
  · obtain ⟨m, hm⟩ := List.mem_iff_getElem?.mp hj
    obtain ⟨op, hop⟩ := (haround.store hm).1
    exact .inl (by rw [hop]; rfl)

theorem jumps_spillList {is : List Instr} {n : Int} {j : Instr}
    (hj : j ∈ (spillList fp t offset is n).instrs) :
    j.jumps = [] ∨ ∃ i ∈ is, j.jumps = i.jumps ∧ j.flow = i.flow := by
  induction is generalizing n with
  | nil => cases hj
  | cons i is ih =>
    rcases List.mem_append.mp hj with hj | hj
    · rcases jumps_spilled hj with h | h
      · exact .inl h
      · exact .inr ⟨i, List.mem_cons_self, h⟩
    · rcases ih hj with h | ⟨i', hi', h⟩
      · exact .inl h
      · exact .inr ⟨i', List.mem_cons_of_mem _ hi', h⟩

end Instr

theorem le_temps_spill (c : Code) (t : Temp) (σ : Supply) :
    σ.temps ≤ ((c.spill t).run σ).2.temps := by
  obtain ⟨n, l⟩ := σ
  rw [Code.run_spill]
  exact Instr.le_next_spillList ..

end MmixBackend
