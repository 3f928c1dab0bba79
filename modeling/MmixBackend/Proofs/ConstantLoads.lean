import MmixBackend.Proofs.Assembly.Labels
import MmixBackend.Proofs.Instr.Meaning

/-!
# Loading constants

A constant is loaded in groups of sixteen bits: the low group is set, and every other group that is
not zero is added at its place. Selection does this with instructions over temps, the assembly
printer with lines of text for a fixed register. Both write the same groups.

## Main definitions

- `Instr.LoadsConstant`: what the instructions of a constant look like, what they do, and how they
  are printed.

## Main statements

- `Instr.loadsConstant_constant`: so does selection load every word.
-/

namespace MmixBackend

namespace Word

/-- A group has sixteen bits. -/
theorem wyde_le (v : Word) (i : Nat) : v.wyde i ≤ 65535 :=
  Nat.le_of_lt_succ (Nat.mod_lt _ (by decide))

/-- The places of the groups above the low one that are not zero. -/
def highPlaces (v : Word) : List WydePlace :=
  [WydePlace.mediumLow, .mediumHigh, .high].filter fun place => v.wyde place.position ≠ 0

theorem length_highPlaces_le (v : Word) : v.highPlaces.length ≤ 3 := List.length_filter_le _ _

theorem low_not_mem_highPlaces (v : Word) : WydePlace.low ∉ v.highPlaces := fun hmem =>
  absurd (List.mem_of_mem_filter hmem) (by decide)

end Word

namespace Instr

/-- The instruction that sets or adds a group of a word. -/
def loadGroup (dst : Temp) (v : Word) (place : WydePlace) : Instr :=
  plain (.loadWyde place (v.wyde place.position)) (if place = .low then [] else [dst]) [dst]

/-- The low group is loaded, and then the others. -/
theorem loadedWydes_eq_map (v : Word) :
    loadedWydes v = (WydePlace.low :: v.highPlaces).map fun place => (place, v.wyde place.position) := by
  rw [Execution.loadedWydes_eq, List.map_cons, Word.highPlaces, ← List.filterMap_eq_map,
    List.filterMap_filter]
  refine congrArg _ (List.filterMap_congr fun place hplace => ?_)
  have hlow : place ≠ .low := by
    rintro rfl
    exact absurd hplace (by decide)
  simp [hlow]

theorem loadConstant_eq_map (dst : Temp) (v : Word) :
    loadConstant dst v = (WydePlace.low :: v.highPlaces).map (loadGroup dst v) := by
  rw [loadConstant, loadedWydes_eq_map, List.map_map]
  rfl

/-- The written form of an instruction for a group. -/
theorem text_loadGroup (regs : Registers) (dst : Temp) (v : Word) (place : WydePlace) :
    (loadGroup dst v place).text regs
      = place.mnemonic ++ " " ++ regs.name dst ++ "," ++ toString (v.wyde place.position) := by
  have hother : ∀ template, Opcode.loadWyde place (v.wyde place.position) ≠ .other template :=
    fun _ h => nomatch h
  have hlabel : ∀ l ∈ (Opcode.loadWyde place (v.wyde place.position)).label?, l.Legible :=
    fun _ h => nomatch h
  refine (Opcode.expand_template regs (if place = .low then [] else [dst]) [dst] hother hlabel).trans ?_
  have hdst (uses : List Temp) : regs.shown uses [dst] [.define 0] = regs.name dst := by
    simp [Registers.shown, Registers.piece, Registers.slot]
  rw [Opcode.operands, List.map_cons, List.map_cons, hdst, Registers.shown_chars]
  apply String.toList_injective
  simp [Assembly.statement, Opcode.mnemonic]

/-- The instructions load the word into the temp, whatever it held before, and do nothing else. They
set the low group, and add each other group that is not zero. They are printed like the constants of
the assembly printer. -/
structure LoadsConstant (v : Word) (dst : Temp) (is : List Instr) : Prop where
  executes : ∀ (m : Machine) (left : Label → Execution.World → Word) (store : Temp → Word)
    (w : Execution.World),
    Relation.ReflTransGen (Execution.Steps (Execution.meaning m left) is) ⟨.at 0, store, w⟩
      ⟨.at is.length, Function.update store dst v, w⟩
  groups : is = plain (.loadWyde .low (v.wyde 0)) [] [dst] ::
    v.highPlaces.map fun place => plain (.loadWyde place (v.wyde place.position)) [dst] [dst]
  operands : ∀ i ∈ is, ∃ place value uses, i = plain (.loadWyde place value) uses [dst] ∧ value ≤ 65535
  length : is.length = 1 + v.highPlaces.length ∧ 1 ≤ is.length ∧ is.length ≤ 4
  printed : ∀ regs : Registers, is.map (fun i => Assembly.plain (i.text regs)) = Assembly.loadWord
    (regs.name dst) v

/-- **Selection loads every word exactly**, and as the assembly printer does. -/
theorem loadsConstant_constant (v : Word) (σ : Supply) :
    ∃ is dst, (constant v).run σ = ((is, dst), { σ with temps := σ.temps + 1 }) ∧ dst = ⟨σ.temps + 1⟩ ∧
      LoadsConstant v dst is := by
  have hrun : (constant v).run σ =
      ((loadConstant ⟨σ.temps + 1⟩ v, ⟨σ.temps + 1⟩), { σ with temps := σ.temps + 1 }) := rfl
  refine ⟨_, _, hrun, rfl, ?_⟩
  generalize (⟨σ.temps + 1⟩ : Temp) = dst
  have hgroups := loadConstant_eq_map dst v
  refine ⟨fun m left store w => ?_, ?_, fun i hi => ?_, ?_, fun regs => ?_⟩
  -- Run on any machine, the groups put the word together.
  · have hfalls : ∀ i ∈ loadConstant dst v, Execution.FallsThrough i := by
      rw [hgroups]
      exact List.forall_mem_map.mpr fun place _ => .plain _ _ _
    have hcode : loadConstant dst v = [] ++ loadConstant dst v ++ [] := (List.append_nil _).symm
    have hsteps := Execution.steps_performAll (Execution.meaning m left) hcode hfalls (store, w)
    rwa [Execution.performAll_loadConstant (Execution.loadsGroups_meaning m left)] at hsteps
  · rw [hgroups, List.map_cons]
    refine congrArg _ (List.map_congr_left fun place hplace => ?_)
    have hlow : place ≠ .low := fun h => v.low_not_mem_highPlaces (h ▸ hplace)
    rw [loadGroup, if_neg hlow]
  · rw [hgroups] at hi
    obtain ⟨place, -, rfl⟩ := List.mem_map.mp hi
    exact ⟨place, _, _, rfl, v.wyde_le _⟩
  -- The low group is always loaded, and of the three others those that are not zero.
  · have hle := v.length_highPlaces_le
    rw [hgroups, List.length_map, List.length_cons]
    omega
  · rw [hgroups, Assembly.loadWord, loadedWydes_eq_map, List.map_map, List.map_map]
    exact List.map_congr_left fun place _ => congrArg Assembly.plain (text_loadGroup regs dst v place)

/-- A negative number with a group that is zero between others. -/
example : (loadedWydes (-4294967295)).map (fun group => (group.1.mnemonic, group.2)) =
    [("SETL", 1), ("INCMH", 65535), ("INCH", 65535)] := by decide

end Instr

end MmixBackend
