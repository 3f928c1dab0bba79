import MmixBackend.Proofs.Assembly.DataSection
import MmixBackend.Proofs.Instr.Meaning

/-!
# Executing the start-up code

Before it calls the main function, the start-up code loads constants into general registers, group
by group, and adds. `execute?` does what such an instruction of the text does to the registers, and
nothing for directives and for instructions that only change special registers.

## Main statements

- `execute_loadWord`: a constant is loaded.
- `execute_startup`: the registers in which the start-up code leaves the stack and the heap.
-/

namespace MmixBackend.Assembly

open Execution (placed sum_placed loadedWydes_eq)

/-! ## §1 Instructions -/

/-- The value of decimal digits. -/
def number? (cs : List Char) : Option Nat :=
  if cs ≠ [] ∧ cs.all Char.isDigit then some (Nat.ofDigitChars 10 cs 0) else none

/-- The number of a general register. -/
def register? : List Char → Option Nat
  | '$' :: cs => number? cs
  | _ => none

/-- The value of an operand: what is in a register, or a number. -/
def operand? (regs : Nat → Word) (cs : List Char) : Option Word :=
  match register? cs with
  | some r => some (regs r)
  | none => (number? cs).map Int64.ofNat

/-- What an instruction of the start-up code does to the general registers. -/
def execute? (regs : Nat → Word) (l : Line) : Option (Nat → Word) :=
  match l.fields with
  | (mnemonic, [x, y, z]) =>
    if mnemonic = "ADD" then do
      return Function.update regs (← register? x) ((← operand? regs y) + (← operand? regs z))
    else none
  | (mnemonic, [x, y]) =>
    if mnemonic = "SET" then do return Function.update regs (← register? x) (← operand? regs y)
    else if mnemonic = "PUT" then some regs
    else do
      let place ← [WydePlace.low, .mediumLow, .mediumHigh, .high].find? fun place =>
        place.mnemonic = mnemonic
      let r ← register? x
      let value ← number? y
      return Function.update regs r ((if place = .low then 0 else regs r) + placed place value)
  | (mnemonic, _) => if mnemonic ∈ ["LOC", "GREG"] then some regs else none

/-! ## §2 Constants -/

theorem number?_toString (n : Nat) : number? (toString n).toList = some n := by
  have hdigits : (toString n).toList = Nat.toDigits 10 n := Nat.toList_repr
  have hall : (Nat.toDigits 10 n).all Char.isDigit = true :=
    List.all_eq_true.mpr fun c hc => Nat.isDigit_of_mem_toDigits (by decide) (by decide) hc
  rw [hdigits, number?, if_pos ⟨Nat.toDigits_ne_nil, hall⟩, Nat.ofDigitChars_toDigits
    (by decide) (by decide)]

theorem fields_wyde (place : WydePlace) (value : Nat) :
    Line.fields (plain (place.mnemonic ++ " " ++ "$0" ++ "," ++ toString value))
      = (place.mnemonic, [['$', '0'], (toString value).toList]) := by
  have hstatement : place.mnemonic ++ " " ++ "$0" ++ "," ++ toString value
      = statement place.mnemonic ["$0", toString value] := by
    apply String.toList_injective
    simp [statement]
  have hmnemonic : IsWord place.mnemonic := by cases place <;> decide
  have hoperands : ∀ o ∈ ["$0", toString value], IsWord o :=
    List.forall_mem_cons.mpr ⟨by decide, List.forall_mem_singleton.mpr (isWord_nat value)⟩
  rw [hstatement]
  exact fields_statement hmnemonic hoperands (by simp)

theorem execute_wyde (regs : Nat → Word) (place : WydePlace) (value : Nat) :
    execute? regs (plain (place.mnemonic ++ " " ++ "$0" ++ "," ++ toString value))
      = some (Function.update regs 0 ((if place = .low then 0 else regs 0) + placed place value)) := by
  have hfind : [WydePlace.low, .mediumLow, .mediumHigh, .high].find?
    (fun p => p.mnemonic = place.mnemonic)
      = some place := by cases place <;> rfl
  have hset : place.mnemonic ≠ "SET" ∧ place.mnemonic ≠ "PUT" := by cases place <;> decide
  have hregister : register? ['$', '0'] = some 0 := rfl
  rw [execute?, fields_wyde]
  simp only [hset, if_false, hfind, hregister, number?_toString, Option.bind_eq_bind, Option.bind_some]
  rfl

/-- The groups of a word above the low one are added; those that a load leaves out are zero. -/
theorem execute_groups (regs : Nat → Word) (v x : Word) {places : List WydePlace} (hlow : .low ∉ places) :
    ((places.filterMap fun place =>
        let value := v.wyde place.position
        if place = .low ∨ value ≠ 0 then some (place, value) else none).map fun (place, value) =>
          plain (place.mnemonic ++ " " ++ "$0" ++ "," ++ toString value)).foldlM execute?
            (Function.update regs 0 x)
      = some (Function.update regs 0
          (x + (places.map fun place => placed place (v.wyde place.position)).sum)) := by
  induction places generalizing x with
  | nil => simp
  | cons place places ih =>
    have hplace : place ≠ .low := fun h => hlow (h ▸ List.mem_cons_self)
    have hrest : .low ∉ places := fun h => hlow (List.mem_cons_of_mem _ h)
    rw [List.map_cons, List.sum_cons, ← Int64.add_assoc, ← ih _ hrest, List.filterMap_cons]
    by_cases hzero : v.wyde place.position = 0
    · have hplaced : placed place 0 = 0 := by simp [placed]
      simp only [hplace, hzero, hplaced, ne_eq, not_true_eq_false, or_self, if_false, Int64.add_zero]
    · simp only [hplace, hzero, ne_eq, not_false_eq_true, or_true, if_true, List.map_cons,
        List.foldlM_cons,
        execute_wyde, if_false, Function.update_self, Function.update_idem]
      rfl

/-- **A constant is loaded** group by group. -/
theorem execute_loadWord (regs : Nat → Word) (v : Word) :
    (loadWord "$0" v).foldlM execute? regs = some (Function.update regs 0 v) := by
  have hlow := execute_wyde regs .low (v.wyde 0)
  rw [if_pos rfl, Int64.zero_add] at hlow
  rw [loadWord, loadedWydes_eq, List.map_cons, List.foldlM_cons]
  dsimp only
  rw [hlow]
  exact (execute_groups regs v _ (by decide)).trans (by rw [sum_placed])

/-! ## §3 The start-up code -/

/-- The instructions before the first call. -/
def beforeCall (ls : List Line) : List Line := ls.takeWhile fun l => l.fields.1 ≠ "PUSHJ"

/-- The lines that prepare for constants. -/
def preparation : List Line :=
  [plain "LOC #100", ⟨"Main", "SET $0,252"⟩, plain "PUT rG,$0"] ++ List.replicate 4 (plain "GREG 0")

theorem fields_loadWord (v : Word) : ∀ l ∈ loadWord "$0" v, decide (l.fields.1 ≠ "PUSHJ") = true := by
  intro l hl
  obtain ⟨⟨place, value⟩, -, rfl⟩ := List.mem_map.mp hl
  have hmnemonic : place.mnemonic ≠ "PUSHJ" := by cases place <;> decide
  dsimp only
  rw [fields_wyde]
  exact decide_eq_true hmnemonic

theorem fields_call (k : Int) : (plain ("PUSHJ $" ++ toString k ++ ",_main")).fields.1 = "PUSHJ" := by
  have hstatement : "PUSHJ $" ++ toString k ++ ",_main" = statement "PUSHJ"
      ["$" ++ toString k, "_main"] := by
    apply String.toList_injective
    simp [statement]
  have hoperands : ∀ o ∈ ["$" ++ toString k, "_main"], IsWord o :=
    List.forall_mem_cons.mpr ⟨IsWord.append (by decide) (isWord_int k),
      List.forall_mem_singleton.mpr (by decide)⟩
  rw [hstatement, plain, fields_statement (by decide) hoperands (by simp)]

/-- Before it calls the main function, the start-up code loads two constants. -/
theorem beforeCall_startup (k : Int) (size : Word) : beforeCall (plain "LOC #100" :: startup k size)
    = preparation ++ (loadWord "$0" stackTop ++ ([plain "ADD $254,$0,0"] ++
        (loadWord "$0" (dataStart + size) ++ [plain "ADD $252,$0,0"]))) := by
  have hlines : plain "LOC #100" :: startup k size
      = preparation ++ (loadWord "$0" stackTop ++ ([plain "ADD $254,$0,0"] ++
          (loadWord "$0" (dataStart + size) ++ [plain "ADD $252,$0,0"])))
        ++ plain ("PUSHJ $" ++ toString k ++ ",_main") :: [plain "TRAP 0,Halt,0"] := by
    simp [preparation, startup]
  have hbefore : ∀ l ∈ preparation ++ (loadWord "$0" stackTop ++ ([plain "ADD $254,$0,0"] ++
      (loadWord "$0" (dataStart + size) ++ [plain "ADD $252,$0,0"]))),
        decide (l.fields.1 ≠ "PUSHJ") = true := by
    simp only [List.forall_mem_append]
    exact ⟨by decide, fields_loadWord _, by decide, fields_loadWord _, by decide⟩
  have hcall : (plain ("PUSHJ $" ++ toString k ++ ",_main") :: [plain "TRAP 0,Halt,0"]).takeWhile
      (fun l => decide (l.fields.1 ≠ "PUSHJ")) = [] := by
    refine List.takeWhile_cons_of_neg ?_
    rw [fields_call]
    decide
  rw [hlines, beforeCall, List.takeWhile_append_of_pos hbefore, hcall, List.append_nil]

/-- **The start-up code** leaves the start of the heap in `$252` and the top of the stack in `$254`. -/
theorem execute_startup (k : Int) (size : Word) (regs : Nat → Word) :
    ∃ regs', (beforeCall (plain "LOC #100" :: startup k size)).foldlM execute? regs = some regs' ∧
      regs' 252 = dataStart + size ∧ regs' 254 = stackTop := by
  have hpreparation : preparation.foldlM execute? regs = some (Function.update regs 0 252) := rfl
  have hstack (r : Nat → Word) : [plain "ADD $254,$0,0"].foldlM execute? r
      = some (Function.update r 254 (r 0 + 0)) := rfl
  have hheap (r : Nat → Word) : [plain "ADD $252,$0,0"].foldlM execute? r
      = some (Function.update r 252 (r 0 + 0)) := rfl
  rw [beforeCall_startup]
  simp only [List.foldlM_append, hpreparation, execute_loadWord, hstack, hheap, Option.bind_eq_bind,
    Option.bind_some]
  exact ⟨_, rfl, by simp, by simp⟩

end MmixBackend.Assembly
