import MmixBackend.Assembly
import MmixBackend.Proofs.Register.Allocation
import Mathlib.Logic.Function.Basic

/-!
# Colouring preserves execution

The meaning of operations is left open: an operation is any function from the values that it uses, and
from the memory and the remainder register, to the values that it defines, the new memory and a branch
decision. An instruction list can be executed over temps, or over registers once every temp has one.
Both executions take the same path, because the registers agree with the temps that are live. Moves
within one register change nothing there and can be left out.

## Main statements

- `Agree.step`: one instruction over temps and over registers.
- `Placed.step`: one instruction of the whole list and of the list without moves within a register.
- `coloring_preserves_execution`: runs of any length over temps and over registers.
-/

namespace MmixBackend.Execution

open InterferenceGraph

/-! ## §1 Executing an instruction list -/

/-- What an operation does: a value for each definition, the world afterwards, and the jump that is
taken, if one is. The world is the memory together with the remainder register. -/
structure Effect (V W : Type) where
  values : Nat → V
  world : W
  branch : Option Nat

/-- The meaning of operations, given the values of what they use. -/
abbrev Interpretation (V W : Type) := Opcode → List Label → List V → W → Effect V W

/-- Where temps are kept: the location of each, and what a call leaves in the locations. -/
structure Storage (L V W : Type) where
  location : Temp → L
  afterCall : Opcode → List V → W → (L → V) → L → V

/-- Where control is: at an instruction, or at a label outside of the list. -/
inductive Place where
  | at (pc : Nat)
  | left (label : Label)
  deriving DecidableEq

/-- A moment of an execution. -/
structure Config (L V W : Type) where
  place : Place
  store : L → V
  world : W

/-- The place of a label: its last occurrence in the list, or outside. -/
def goto (instrs : List Instr) (l : Label) : Place :=
  match (Liveness.labelIndex instrs)[l]? with
  | some j => .at j
  | none => .left l

/-- Where control goes behind the instruction at `pc`; nowhere if a jump has no target. -/
def nextPlace (instrs : List Instr) (pc : Nat) (flow : Flow) (target : Option Label) : Option Place :=
  match flow, target with
  | .call, _ => some (.at (pc + 1))
  | .next, some l => some (goto instrs l)
  | .next, none => some (.at (pc + 1))
  | .jump, some l => some (goto instrs l)
  | .jump, none => none

section Step

variable {L V W : Type} [DecidableEq L]

/-- Writes values into the locations of temps, one after the other. -/
def assign (location : Temp → L) (values : Nat → V) : (n : Nat) → List Temp → (L → V) → L → V
  | _, [], store => store
  | n, d :: ds, store =>
    assign location values (n + 1) ds (Function.update store (location d) (values n))

variable (meaning : Interpretation V W) (storage : Storage L V W) (instrs : List Instr)

/-- Executes an instruction that stands at `pc`. All uses are read before any definition is written. -/
def execute (pc : Nat) (store : L → V) (world : W) : Instr → Option (Config L V W)
  | .label _ => some ⟨.at (pc + 1), store, world⟩
  | .move src dst => some ⟨.at (pc + 1),
      Function.update store (storage.location dst) (store (storage.location src)), world⟩
  | .oper op uses defs jumps flow =>
    let values := uses.map fun t => store (storage.location t)
    let effect := meaning op jumps values world
    let store := if flow = .call then storage.afterCall op values world store else store
    (nextPlace instrs pc flow (effect.branch.bind (jumps[·]?))).map fun place =>
      ⟨place, assign storage.location effect.values 0 defs store, effect.world⟩

/-- One step, with the executed instruction; none if control has left the list. -/
def step (c : Config L V W) : Option (Instr × Config L V W) :=
  match c.place with
  | .left _ => none
  | .at pc => do
    let instr ← instrs[pc]?
    let c' ← execute meaning storage instrs pc c.store c.world instr
    return (instr, c')

/-- At most `n` steps: the executed instructions, each with the world behind it, and the end. -/
def run : (n : Nat) → Config L V W → List (Instr × W) × Config L V W
  | 0, c => ([], c)
  | n + 1, c =>
    match step meaning storage instrs c with
    | none => ([], c)
    | some (instr, c') =>
      let (path, last) := run n c'
      ((instr, c'.world) :: path, last)

end Step

/-! ## §2 Temps and registers -/

/-- Temps keep their values over a call. -/
def overTemps (V W : Type) : Storage Temp V W := ⟨id, fun _ _ _ store => store⟩

/-- The register of a temp. -/
def register (c : Code) (t : Temp) : Int := c.regs.getD t 0

/-- What calls do to registers. -/
abbrev Calls (V W : Type) := Opcode → List V → W → (Int → V) → Int → V

/-- Calls keep the registers `$0` to `$(k-1)` and the frame pointer. -/
def Keeps {V W : Type} (k : Int) (calls : Calls V W) : Prop :=
  ∀ op values world store r, (0 ≤ r ∧ r < k) ∨ r = frameRegister →
    calls op values world store r = store r

/-- Temps are read and written as their registers. -/
def overRegisters {V W : Type} (c : Code) (calls : Calls V W) : Storage Int V W :=
  ⟨register c, calls⟩

section Lockstep

variable {V W : Type} {k : Int} {c : Code} {s : Liveness.Solution}

theorem register_fp (h : Allocated k c s) : register c c.frame.fp = frameRegister := by
  simp [register, Std.TreeMap.getD_eq_getD_getElem?, h.fp]

/-- The registers that temps have are those that calls keep. -/
theorem register_kept (h : Allocated k c s) {t : Temp} (ht : Mentions c.instrs t) :
    (0 ≤ register c t ∧ register c t < k) ∨ register c t = frameRegister := by
  by_cases hfp : t = c.frame.fp
  · rw [hfp]
    exact .inr (register_fp h)
  · obtain ⟨r, hr, hbounds⟩ := h.register hfp ht
    have : register c t = r := by simp [register, Std.TreeMap.getD_eq_getD_getElem?, hr]
    rw [this]
    exact .inl hbounds

/-- A definition and a temp that is live behind it have different registers. -/
theorem register_ne (h : Allocated k c s) (hk : k ≤ maxRegisters) {pc : Nat} {instr : Instr}
    (hi : c.instrs[pc]? = some instr) (hfp : c.frame.fp ∉ instr.defs) {d t : Temp}
    (hd : d ∈ instr.defs) (ht : s.After pc t) (hmention : Mentions c.instrs t) (hne : d ≠ t) :
    register c d ≠ register c t := by
  have hdfp : d ≠ c.frame.fp := fun heq => hfp (heq ▸ hd)
  have hdmention : Mentions c.instrs d := ⟨instr, List.mem_of_getElem? hi, .inr hd⟩
  obtain ⟨r, hr, hr0, hrk⟩ := h.register hdfp hdmention
  have hreg : register c d = r := by simp [register, Std.TreeMap.getD_eq_getD_getElem?, hr]
  by_cases htfp : t = c.frame.fp
  · rw [htfp, register_fp h, hreg]
    have : maxRegisters = 251 := rfl
    have : frameRegister = 253 := rfl
    omega
  · obtain ⟨r', hr', -⟩ := h.register htfp hmention
    have hreg' : register c t = r' := by simp [register, Std.TreeMap.getD_eq_getD_getElem?, hr']
    have hdiff := h.different hi (.inr (.inl ⟨hd, ht⟩)) hne hdfp htfp hdmention hmention
    rw [hr, hr'] at hdiff
    rw [hreg, hreg']
    exact fun heq => hdiff (by rw [heq])

/-- Writing the definitions of an instruction keeps a temp and its location equal. -/
theorem assign_agree {L : Type} [DecidableEq L] {values : Nat → V} {n : Nat} {ds : List Temp}
    {temps : Temp → V} {regs : L → V} {location : Temp → L} {t : Temp}
    (hne : ∀ d ∈ ds, d ≠ t → location d ≠ location t)
    (hother : t ∉ ds → regs (location t) = temps t) :
    assign location values n ds regs (location t) = assign id values n ds temps t := by
  induction ds generalizing n temps regs with
  | nil => exact hother List.not_mem_nil
  | cons d ds ih =>
    refine ih (fun d' hd' => hne d' (List.mem_cons_of_mem _ hd')) fun ht => ?_
    by_cases hd : d = t
    · subst hd
      simp
    · have hloc := hne d List.mem_cons_self hd
      have hnot : t ∉ d :: ds := by simpa [Ne.symm hd] using ht
      rw [Function.update_of_ne (Ne.symm hloc), Function.update_of_ne (show t ≠ id d from Ne.symm hd)]
      exact hother hnot

/-- The temps whose values matter at a place: those live before an instruction, and at the exit those
that it needs. -/
def Needed (c : Code) (s : Liveness.Solution) : Place → Temp → Prop
  | .at pc, t => s.Before pc t
  | .left l, t => l = c.exit ∧ t ∈ c.liveAtExit

/-- The registers hold the temps that matter. -/
structure Agree (c : Code) (s : Liveness.Solution) (x : Config Temp V W) (y : Config Int V W) :
    Prop where
  place : y.place = x.place
  world : y.world = x.world
  values : ∀ t, Needed c s x.place t → Mentions c.instrs t → y.store (register c t) = x.store t

theorem before_lt (h : c.liveness = .ok s) {pc : Nat} {t : Temp} (ht : s.Before pc t) :
    pc < c.instrs.length := by
  rw [← Liveness.Solution.length_eq h]
  by_contra hge
  have hdefault : s.points.getD pc default = default := by
    rw [List.getD_eq_getElem?_getD, List.getElem?_eq_none (Nat.le_of_not_lt hge)]
    rfl
  have hmem : t ∈ (default : LivePoint).before := hdefault ▸ ht
  exact TempSet.not_mem_empty t hmem

/-- What matters at the next instruction is live behind one that falls through. -/
theorem after_of_next (h : c.liveness = .ok s) {pc : Nat} {instr : Instr}
    (hi : c.instrs[pc]? = some instr) (hflow : instr.flow ≠ .jump) {t : Temp}
    (ht : Needed c s (.at (pc + 1)) t) : s.After pc t :=
  (Liveness.Solution.respects h).flows
    ⟨instr, hi, .inl ⟨hflow, rfl, before_lt h ht⟩⟩ ht

/-- What matters at a jump target is live behind the jump. -/
theorem after_of_goto (h : c.liveness = .ok s) {pc : Nat} {instr : Instr}
    (hi : c.instrs[pc]? = some instr) (hflow : instr.flow ≠ .call) {l : Label} (hl : l ∈ instr.jumps)
    {t : Temp} (ht : Needed c s (goto c.instrs l) t) : s.After pc t := by
  have hrespects := Liveness.Solution.respects h
  unfold goto at ht
  cases hj : (Liveness.labelIndex c.instrs)[l]? with
  | some j =>
    rw [hj] at ht
    exact hrespects.flows ⟨instr, hi, .inr ⟨hflow, l, hl, hj⟩⟩ ht
  | none =>
    rw [hj] at ht
    obtain ⟨rfl, hexit⟩ := ht
    exact hrespects.leaves ⟨instr, hi, hflow, hl, Liveness.labelIndex_eq_none_iff.mp hj⟩
      Std.TreeMap.getElem?_insert_self hexit

theorem after_of_nextPlace (h : c.liveness = .ok s) {pc : Nat} {instr : Instr}
    (hi : c.instrs[pc]? = some instr) {branch : Option Nat} {place : Place}
    (hplace : nextPlace c.instrs pc instr.flow (branch.bind (instr.jumps[·]?)) = some place) {t : Temp}
    (ht : Needed c s place t) : s.After pc t := by
  have hjump : ∀ {l}, branch.bind (instr.jumps[·]?) = some l → l ∈ instr.jumps := by
    intro l hl
    obtain ⟨n, -, hn⟩ := Option.bind_eq_some_iff.mp hl
    exact List.mem_of_getElem? hn
  -- Control comes to the next instruction or to a target, and both are successors for liveness.
  cases hflow : instr.flow with
  | call =>
    rw [hflow] at hplace
    cases hplace
    exact after_of_next h hi (by simp [hflow]) ht
  | next =>
    rw [hflow] at hplace
    cases htarget : branch.bind (instr.jumps[·]?) with
    | none =>
      rw [htarget] at hplace
      cases hplace
      exact after_of_next h hi (by simp [hflow]) ht
    | some l =>
      rw [htarget] at hplace
      cases hplace
      exact after_of_goto h hi (by simp [hflow]) (hjump htarget) ht
  | jump =>
    rw [hflow] at hplace
    cases htarget : branch.bind (instr.jumps[·]?) with
    | none =>
      rw [htarget] at hplace
      cases hplace
    | some l =>
      rw [htarget] at hplace
      cases hplace
      exact after_of_goto h hi (by simp [hflow]) (hjump htarget) ht

variable (meaning : Interpretation V W) {calls : Calls V W}

/-- Executing an instruction over temps and over registers that agree before it. -/
theorem execute_agree (h : Allocated k c s) (hk : k ≤ maxRegisters)
    (hdefs : ∀ i ∈ c.instrs, c.frame.fp ∉ i.defs) (hcalls : Keeps k calls) {pc : Nat} {instr : Instr}
    (hi : c.instrs[pc]? = some instr) {temps : Temp → V} {regs : Int → V} (world : W)
    (hvalues : ∀ t, s.Before pc t → Mentions c.instrs t → regs (register c t) = temps t) :
    (execute meaning (overTemps V W) c.instrs pc temps world instr = none ∧
      execute meaning (overRegisters c calls) c.instrs pc regs world instr = none) ∨
    ∃ x' y', execute meaning (overTemps V W) c.instrs pc temps world instr = some x' ∧
      execute meaning (overRegisters c calls) c.instrs pc regs world instr = some y' ∧
      Agree c s x' y' := by
  have hmem : instr ∈ c.instrs := List.mem_of_getElem? hi
  have hrespects := Liveness.Solution.respects h.liveness
  -- What is used is live, and what is live behind and not defined is live before.
  have huse : ∀ t ∈ instr.uses, regs (register c t) = temps t := fun t ht =>
    hvalues t (hrespects.uses hi ht) ⟨instr, hmem, .inl ht⟩
  have hthrough : ∀ t, s.After pc t → Mentions c.instrs t → t ∉ instr.defs →
      regs (register c t) = temps t := fun t hafter hmention hdef =>
    hvalues t (hrespects.through hi hafter hdef) hmention
  -- A temp that is live behind has a register that nothing defined here shares.
  have hne : ∀ t, s.After pc t → Mentions c.instrs t → ∀ d ∈ instr.defs, d ≠ t →
      register c d ≠ register c t := fun t hafter hmention d hd hdt =>
    register_ne h hk hi (hdefs instr hmem) hd hafter hmention hdt
  cases instr with
  | label l =>
    refine .inr ⟨_, _, rfl, rfl, rfl, rfl, fun t ht hmention => ?_⟩
    exact hthrough t (after_of_next h.liveness hi (by simp [Instr.flow]) ht) hmention
      (by simp [Instr.defs])
  | move src dst =>
    refine .inr ⟨_, _, rfl, rfl, rfl, rfl, fun t ht hmention => ?_⟩
    have hafter := after_of_next h.liveness hi (by simp [Instr.flow]) ht
    show Function.update regs (register c dst) (regs (register c src)) (register c t)
      = Function.update temps dst (temps src) t
    -- Either `t` receives the value, or it keeps its own in another register.
    by_cases hdt : dst = t
    · subst hdt
      simpa using huse src (by simp [Instr.uses])
    · have hreg := hne t hafter hmention dst (by simp [Instr.defs]) hdt
      rw [Function.update_of_ne (Ne.symm hreg), Function.update_of_ne (Ne.symm hdt)]
      exact hthrough t hafter hmention (by simpa [Instr.defs] using Ne.symm hdt)
  | oper op uses defs jumps flow =>
    have hargs : (uses.map fun t => regs (register c t)) = uses.map fun t => temps t :=
      List.map_congr_left huse
    simp only [execute, overTemps, overRegisters, id_eq, hargs]
    generalize meaning op jumps (uses.map fun t => temps t) world = effect
    cases hplace : nextPlace c.instrs pc flow (effect.branch.bind (jumps[·]?)) with
    | none => exact .inl ⟨rfl, rfl⟩
    | some place =>
      refine .inr ⟨_, _, rfl, rfl, rfl, rfl, fun t ht hmention => ?_⟩
      have hafter := after_of_nextPlace h.liveness hi hplace ht
      refine assign_agree (hne t hafter hmention) fun hdef => ?_
      -- A call keeps the register of `t`, whichever it is.
      have hkept := hthrough t hafter hmention hdef
      by_cases hcall : flow = .call
      · simp only [hcall, if_true]
        rw [hcalls _ _ _ _ _ (register_kept h hmention)]
        exact hkept
      · simpa [hcall] using hkept

/-- **One instruction over temps and over registers.** -/
theorem Agree.step (h : Allocated k c s) (hk : k ≤ maxRegisters)
    (hdefs : ∀ i ∈ c.instrs, c.frame.fp ∉ i.defs) (hcalls : Keeps k calls) {x : Config Temp V W}
    {y : Config Int V W} (hxy : Agree c s x y) :
    (step meaning (overTemps V W) c.instrs x = none ∧
      step meaning (overRegisters c calls) c.instrs y = none) ∨
    ∃ instr x' y', step meaning (overTemps V W) c.instrs x = some (instr, x') ∧
      step meaning (overRegisters c calls) c.instrs y = some (instr, y') ∧ Agree c s x' y' := by
  obtain ⟨place, temps, world⟩ := x
  obtain ⟨place', regs, world'⟩ := y
  obtain ⟨hplace, hworld, hvalues⟩ := hxy
  cases hplace
  cases hworld
  cases place with
  | left l => exact .inl ⟨rfl, rfl⟩
  | «at» pc =>
    simp only [Execution.step]
    cases hi : c.instrs[pc]? with
    | none => exact .inl ⟨rfl, rfl⟩
    | some instr =>
      rcases execute_agree meaning h hk hdefs hcalls hi world hvalues with
        ⟨hx, hy⟩ | ⟨x', y', hx, hy, hagree⟩
      · exact .inl ⟨by simp [hx], by simp [hy]⟩
      · exact .inr ⟨instr, x', y', by simp [hx], by simp [hy], hagree⟩

/-- Runs over temps and over registers take the same path. -/
theorem Agree.run (h : Allocated k c s) (hk : k ≤ maxRegisters)
    (hdefs : ∀ i ∈ c.instrs, c.frame.fp ∉ i.defs) (hcalls : Keeps k calls) {x : Config Temp V W}
    {y : Config Int V W} (hxy : Agree c s x y) (n : Nat) :
    (run meaning (overRegisters c calls) c.instrs n y).1
        = (run meaning (overTemps V W) c.instrs n x).1 ∧
      Agree c s (run meaning (overTemps V W) c.instrs n x).2
        (run meaning (overRegisters c calls) c.instrs n y).2 := by
  induction n generalizing x y with
  | zero => exact ⟨rfl, hxy⟩
  | succ n ih =>
    rcases hxy.step meaning h hk hdefs hcalls with
      ⟨hx, hy⟩ | ⟨instr, x', y', hx, hy, hagree⟩
    · simp only [Execution.run, hx, hy]
      exact ⟨trivial, hxy⟩
    · obtain ⟨hpath, hlast⟩ := ih hagree
      simp only [Execution.run, hx, hy, hpath, hagree.world]
      exact ⟨trivial, hlast⟩

end Lockstep

/-! ## §3 Leaving out moves -/

/-- The instructions that are written: all but the moves within one register. -/
def written (regs : Std.TreeMap Temp Int) (instrs : List Instr) : List Instr :=
  instrs.filter fun i => !Assembly.isIdentityMove regs i

theorem written_cons (regs : Std.TreeMap Temp Int) (i : Instr) (is : List Instr) :
    written regs (i :: is)
      = if Assembly.isIdentityMove regs i then written regs is else i :: written regs is := by
  cases hmove : Assembly.isIdentityMove regs i <;> simp [written, hmove]

theorem written_append (regs : Std.TreeMap Temp Int) (xs ys : List Instr) :
    written regs (xs ++ ys) = written regs xs ++ written regs ys := List.filter_append ..

/-- The lines of a function are those of its written instructions. -/
theorem body_written (regs : Registers) (pending : List Label) (instrs : List Instr) :
    Assembly.body regs pending (written regs.colors instrs)
      = Assembly.body regs pending instrs := by
  induction instrs generalizing pending with
  | nil => rfl
  | cons i instrs ih =>
    cases i with
    | label l => exact ih (pending ++ [l])
    | oper op uses defs jumps flow =>
      show Assembly.labeled _ _ ++ Assembly.body regs [] (written regs.colors instrs) = _
      rw [ih]
      rfl
    | move src dst =>
      rw [written_cons]
      cases hmove : Assembly.isIdentityMove regs.colors (.move src dst) with
      | true => simp [Assembly.body, hmove, ih pending]
      | false => simp [Assembly.body, hmove, ih []]

section Skipping

variable {regs : Std.TreeMap Temp Int} {instrs : List Instr}

/-- The index among the written instructions of an instruction, or of the next one that is written. -/
def position (regs : Std.TreeMap Temp Int) (instrs : List Instr) (pc : Nat) : Nat :=
  (written regs (instrs.take pc)).length

theorem position_succ {pc : Nat} {i : Instr} (hi : instrs[pc]? = some i) :
    position regs instrs (pc + 1)
      = position regs instrs pc + if Assembly.isIdentityMove regs i then 0 else 1 := by
  unfold position
  rw [List.take_add_one, hi, written_append, List.length_append]
  cases hmove : Assembly.isIdentityMove regs i <;> simp [written, hmove]

theorem getElem?_written {pc : Nat} {i : Instr} (hi : instrs[pc]? = some i)
    (hmove : Assembly.isIdentityMove regs i = false) :
    (written regs instrs)[position regs instrs pc]? = some i := by
  obtain ⟨hlt, rfl⟩ := List.getElem?_eq_some_iff.mp hi
  have hsplit : instrs = instrs.take pc ++ instrs[pc] :: instrs.drop (pc + 1) := by simp
  have hwritten : written regs instrs
      = written regs (instrs.take pc) ++ instrs[pc] :: written regs (instrs.drop (pc + 1)) := by
    conv_lhs => rw [hsplit]
    rw [written_append, written_cons, hmove]
    rfl
  rw [hwritten]
  simp [position]

theorem position_of_length_le (regs : Std.TreeMap Temp Int) {pc : Nat} (hle : instrs.length ≤ pc) :
    position regs instrs pc = (written regs instrs).length := by
  rw [position, List.take_of_length_le hle]

/-- Leaving out moves moves labels to their positions. -/
theorem labelIndex_written (l : Label) :
    (Liveness.labelIndex (written regs instrs))[l]?
      = (Liveness.labelIndex instrs)[l]?.map (position regs instrs) := by
  induction instrs using List.reverseRecOn with
  | nil => simp [written, Liveness.labelIndex]
  | append_singleton instrs i ih =>
    -- Positions of labels that were found before do not change.
    have hold : (Liveness.labelIndex instrs)[l]?.map (position regs (instrs ++ [i]))
        = (Liveness.labelIndex instrs)[l]?.map (position regs instrs) := by
      cases hj : (Liveness.labelIndex instrs)[l]? with
      | none => rfl
      | some j =>
        have hlt : j < instrs.length :=
          (List.getElem?_eq_some_iff.mp (Liveness.labelIndex_eq_some_iff.mp hj).1).1
        simp [position, List.take_append_of_le_length (Nat.le_of_lt hlt)]
    rw [written_append, Liveness.labelIndex_append_singleton]
    cases i with
    | label l' =>
      have hsingle : written regs [.label l'] = [.label l'] := rfl
      rw [hsingle, Liveness.labelIndex_append_singleton]
      simp only [Std.TreeMap.getElem?_insert]
      by_cases hl : l' = l
      · simp [hl, position]
      · have hcompare : compare l' l ≠ .eq := fun h => hl (Std.LawfulEqOrd.eq_of_compare h)
        rw [if_neg hcompare, if_neg hcompare, ih, hold]
    | oper op uses defs jumps flow =>
      have hsingle : written regs [.oper op uses defs jumps flow] = [.oper op uses defs jumps flow] :=
        rfl
      rw [hsingle, Liveness.labelIndex_append_singleton, ih, hold]
    | move src dst =>
      cases hmove : Assembly.isIdentityMove regs (.move src dst) with
      | true =>
        have hsingle : written regs [.move src dst] = [] := by simp [written, hmove]
        rw [hsingle, List.append_nil, ih, hold]
      | false =>
        have hsingle : written regs [.move src dst] = [.move src dst] := by simp [written, hmove]
        rw [hsingle, Liveness.labelIndex_append_singleton, ih, hold]

/-- The place among the written instructions. -/
def Place.written (regs : Std.TreeMap Temp Int) (instrs : List Instr) : Place → Place
  | .at pc => .at (position regs instrs pc)
  | .left l => .left l

theorem goto_written (l : Label) :
    goto (written regs instrs) l = (goto instrs l).written regs instrs := by
  unfold goto
  rw [labelIndex_written]
  cases (Liveness.labelIndex instrs)[l]? <;> rfl

theorem nextPlace_written {pc : Nat} {i : Instr} (hi : instrs[pc]? = some i)
    (hmove : Assembly.isIdentityMove regs i = false) (flow : Flow) (target : Option Label) :
    nextPlace (written regs instrs) (position regs instrs pc) flow target
      = (nextPlace instrs pc flow target).map (Place.written regs instrs) := by
  have hnext : Place.at (position regs instrs pc + 1)
      = (Place.at (pc + 1)).written regs instrs := by
    simp [Place.written, position_succ hi, hmove]
  cases flow with
  | call => simp [nextPlace, hnext]
  | next => cases target <;> simp [nextPlace, hnext, goto_written]
  | jump => cases target <;> simp [nextPlace, goto_written]

end Skipping

section Written

variable {V W : Type} {c : Code} {y z : Config Int V W}

/-- The same moment with and without moves within one register. -/
structure Placed (c : Code) (y z : Config Int V W) : Prop where
  place : z.place = y.place.written c.regs c.instrs
  store : z.store = y.store
  world : z.world = y.world

/-- The number of instructions from a place to the end of the list. -/
def remaining (instrs : List Instr) : Place → Nat
  | .at pc => instrs.length - pc
  | .left _ => 0

theorem register_of_isIdentityMove {src dst : Temp}
    (h : Assembly.isIdentityMove c.regs (.move src dst) = true) : register c src = register c dst := by
  simp only [Assembly.isIdentityMove] at h
  simp only [register, Std.TreeMap.getD_eq_getD_getElem?]
  cases hsrc : c.regs[src]? with
  | none => simp [hsrc] at h
  | some r =>
    cases hdst : c.regs[dst]? with
    | none => simp [hsrc, hdst] at h
    | some r' => simpa [hsrc, hdst] using h

variable (meaning : Interpretation V W) (calls : Calls V W)

theorem execute_written (storage : Storage Int V W) {pc : Nat} {i : Instr}
    (hi : c.instrs[pc]? = some i) (hmove : Assembly.isIdentityMove c.regs i = false)
    (store : Int → V) (world : W) :
    execute meaning storage (written c.regs c.instrs) (position c.regs c.instrs pc) store world i
      = (execute meaning storage c.instrs pc store world i).map
          fun y => { y with place := y.place.written c.regs c.instrs } := by
  have hnext : position c.regs c.instrs (pc + 1) = position c.regs c.instrs pc + 1 := by
    simp [position_succ hi, hmove]
  cases i with
  | label l => simp [execute, Place.written, hnext]
  | move src dst => simp [execute, Place.written, hnext]
  | oper op uses defs jumps flow =>
    simp [execute, nextPlace_written hi hmove, Function.comp_def]

/-- **One instruction of the whole list.** A move within one register changes nothing; any other
instruction stands among the written ones. -/
theorem Placed.step (h : Placed c y z) :
    (step meaning (overRegisters c calls) c.instrs y = none ∧
      step meaning (overRegisters c calls) (written c.regs c.instrs) z = none) ∨
    (∃ instr y', Assembly.isIdentityMove c.regs instr = true ∧
      step meaning (overRegisters c calls) c.instrs y = some (instr, y') ∧ Placed c y' z ∧
      remaining c.instrs y'.place < remaining c.instrs y.place) ∨
    ∃ instr y' z', Assembly.isIdentityMove c.regs instr = false ∧
      step meaning (overRegisters c calls) c.instrs y = some (instr, y') ∧
      step meaning (overRegisters c calls) (written c.regs c.instrs) z = some (instr, z') ∧
      Placed c y' z' := by
  obtain ⟨place, store, world⟩ := y
  obtain ⟨place', store', world'⟩ := z
  obtain ⟨hplace, hstore, hworld⟩ := h
  cases hplace
  cases hstore
  cases hworld
  cases place with
  -- A machine that has left the list makes no step, and neither does the other.
  | left l => exact .inl ⟨rfl, rfl⟩
  | «at» pc =>
    simp only [Execution.step]
    cases hi : c.instrs[pc]? with
    | none =>
      have hend := position_of_length_le c.regs (List.getElem?_eq_none_iff.mp hi)
      exact .inl ⟨rfl, by simp [hend]⟩
    | some instr =>
      -- A move within one register is not written, so the machine of the written list waits.
      cases hmove : Assembly.isIdentityMove c.regs instr with
      | true =>
        cases instr with
        | label l => cases hmove
        | oper op uses defs jumps flow => cases hmove
        | move src dst =>
          refine .inr (.inl ⟨.move src dst, _, hmove, rfl, ⟨?_, ?_, rfl⟩, ?_⟩)
          · simp [Place.written, position_succ hi, hmove]
          -- The move copies a register to itself.
          · show store = Function.update store (register c dst) (store (register c src))
            rw [register_of_isIdentityMove hmove, Function.update_eq_self]
          · have hlt : pc < c.instrs.length := (List.getElem?_eq_some_iff.mp hi).1
            simp only [remaining]
            omega
      -- Any other instruction is written, and both machines execute it on the same store.
      | false =>
        have hexec := execute_written meaning (overRegisters c calls) hi hmove store world
        rw [getElem?_written hi hmove]
        cases hy : execute meaning (overRegisters c calls) c.instrs pc store world instr with
        | none =>
          rw [hy] at hexec
          exact .inl ⟨by simp [hy], by simp [hexec]⟩
        | some y' =>
          rw [hy] at hexec
          refine .inr (.inr ⟨instr, y', { y' with place := y'.place.written c.regs c.instrs }, hmove,
            ?_, ?_, ⟨rfl, rfl, rfl⟩⟩)
          · simp [hy]
          · simp [hexec]

/-- A run of the whole list has a run of the written instructions. -/
theorem Placed.exists_run_written (h : Placed c y z) (n : Nat) :
    ∃ m, (run meaning (overRegisters c calls) (written c.regs c.instrs) m z).1
        = (run meaning (overRegisters c calls) c.instrs n y).1.filter
            (fun e => !Assembly.isIdentityMove c.regs e.1) ∧
      Placed c (run meaning (overRegisters c calls) c.instrs n y).2
        (run meaning (overRegisters c calls) (written c.regs c.instrs) m z).2 := by
  induction n generalizing y z with
  | zero => exact ⟨0, rfl, h⟩
  | succ n ih =>
    rcases h.step meaning calls with ⟨hy, -⟩ | ⟨instr, y', hmove, hy, hplaced, -⟩ |
      ⟨instr, y', z', hmove, hy, hz, hplaced⟩
    · refine ⟨0, ?_⟩
      simp only [run, hy]
      exact ⟨rfl, h⟩
    · obtain ⟨m, hpath, hlast⟩ := ih hplaced
      refine ⟨m, ?_⟩
      simp only [run, hy]
      exact ⟨by simpa [hmove] using hpath, hlast⟩
    · obtain ⟨m, hpath, hlast⟩ := ih hplaced
      refine ⟨m + 1, ?_⟩
      simp only [run, hy, hz]
      exact ⟨by simp [hmove, hpath, hplaced.world], hlast⟩

/-- A run of the written instructions has a run of the whole list. Moves are skipped in front of every
step, which brings the end of the list nearer. -/
theorem Placed.exists_run_whole (h : Placed c y z) (m : Nat) :
    ∃ n, (run meaning (overRegisters c calls) (written c.regs c.instrs) m z).1
        = (run meaning (overRegisters c calls) c.instrs n y).1.filter
            (fun e => !Assembly.isIdentityMove c.regs e.1) ∧
      Placed c (run meaning (overRegisters c calls) c.instrs n y).2
        (run meaning (overRegisters c calls) (written c.regs c.instrs) m z).2 := by
  induction m generalizing y z with
  | zero => exact ⟨0, rfl, h⟩
  | succ m ih =>
    induction hrest : remaining c.instrs y.place using Nat.strongRecOn generalizing y with
    | ind rest skip =>
      rcases h.step meaning calls with ⟨-, hz⟩ | ⟨instr, y', hmove, hy, hplaced, hlt⟩ |
        ⟨instr, y', z', hmove, hy, hz, hplaced⟩
      · refine ⟨0, ?_⟩
        simp only [run, hz]
        exact ⟨rfl, h⟩
      · obtain ⟨n, hpath, hlast⟩ := skip _ (hrest ▸ hlt) hplaced rfl
        refine ⟨n + 1, ?_⟩
        rw [hpath]
        simp only [run, hy] at hlast ⊢
        exact ⟨by simp [hmove], hlast⟩
      · obtain ⟨n, hpath, hlast⟩ := ih hplaced
        refine ⟨n + 1, ?_⟩
        simp only [run, hy, hz]
        exact ⟨by simp [hmove, hpath, hplaced.world], hlast⟩

end Written



/-! ## §4 Allocated code -/

section Allocated

variable {V W : Type}

/-- An execution over registers has gone the way of one over temps: through the same instructions, some
left out, with the same world behind each of them, and to the same label. At the exit the return value
is in its register. -/
structure Follows (c : Code) (leftOut : Instr → Bool) (p : List (Instr × W) × Config Temp V W)
    (q : List (Instr × W) × Config Int V W) : Prop where
  path : q.1 = p.1.filter fun e => !leftOut e.1
  world : q.2.world = p.2.world
  left : ∀ l, q.2.place = .left l ↔ p.2.place = .left l
  result : p.2.place = .left c.exit → Mentions c.instrs c.frame.rv → c.frame.rv ∉ c.spills →
    ∃ r, c.regs[c.frame.rv]? = some r ∧ q.2.store r = p.2.store c.frame.rv

variable {k : Int} {c : Code} {s : Liveness.Solution}

theorem getElem?_regs_eq_register (h : Allocated k c s) {t : Temp} (ht : Mentions c.instrs t) :
    c.regs[t]? = some (register c t) := by
  have hsome : ∃ r, c.regs[t]? = some r := by
    by_cases hfp : t = c.frame.fp
    · exact ⟨_, hfp ▸ h.fp⟩
    · obtain ⟨r, hr, -⟩ := h.register hfp ht
      exact ⟨r, hr⟩
  obtain ⟨r, hr⟩ := hsome
  simp [register, Std.TreeMap.getD_eq_getD_getElem?, hr]

theorem Agree.result (h : Allocated k c s) {x : Config Temp V W} {y : Config Int V W}
    (hxy : Agree c s x y) (hplace : x.place = .left c.exit) (hmention : Mentions c.instrs c.frame.rv)
    (hspills : c.frame.rv ∉ c.spills) :
    ∃ r, c.regs[c.frame.rv]? = some r ∧ y.store r = x.store c.frame.rv := by
  refine ⟨_, getElem?_regs_eq_register h hmention, hxy.values _ ?_ hmention⟩
  rw [hplace]
  refine ⟨rfl, ?_⟩
  have hcontains : c.spills.contains c.frame.rv = false :=
    Bool.eq_false_iff.mpr fun h => hspills (Std.TreeMap.mem_iff_contains.mpr h)
  simp [Code.liveAtExit, hcontains]

/-- Leaving out moves keeps the way of an execution. -/
theorem Agree.follows (h : Allocated k c s) {p : List (Instr × W) × Config Temp V W}
    {path : List (Instr × W)} {y : Config Int V W} {q : List (Instr × W) × Config Int V W}
    (hpath : path = p.1) (hagree : Agree c s p.2 y)
    (hq : q.1 = path.filter fun e => !Assembly.isIdentityMove c.regs e.1)
    (hplaced : Placed c y q.2) : Follows c (Assembly.isIdentityMove c.regs) p q := by
  refine ⟨hpath ▸ hq, hplaced.world.trans hagree.world, fun l => ?_, fun hplace hmention hspills => ?_⟩
  · rw [hplaced.place, hagree.place]
    cases p.2.place <;> simp [Place.written]
  · rw [hplaced.store]
    exact hagree.result h hplace hmention hspills

/-- **Colouring preserves execution.** If an allocation with `k` registers ends with the code `c'`, then
whatever operations mean, as long as calls keep the registers `$0` to `$(k-1)` and the frame pointer,
and from registers that hold the temps live into the entry, the instructions of `c'` over registers go
the way of the instructions over temps, for any number of steps. So do the instructions that are
written, without the moves within one register: each run of the one has a run of the other. -/
theorem coloring_preserves_execution {c c' : Code} {σ σ' : Supply} {a : Allocation}
    (hrun : (c.allocate k).run σ = ((c', .ok a), σ'))
    (hhead : c.instrs.head? = some (.label c.entry))
    (hdefs : ∀ i ∈ c.instrs, c.frame.fp ∉ i.defs) (hold : c.frame.fp.index ≤ σ.temps) :
    c'.instrs.head? = some (.label c.entry) ∧ c'.entry = c.entry ∧ c'.exit = c.exit ∧
    (∀ window pending, Assembly.body ⟨c'.regs, window⟩ pending (written c'.regs c'.instrs)
      = Assembly.body ⟨c'.regs, window⟩ pending c'.instrs) ∧
    ∃ s, c'.liveness = .ok s ∧
      ∀ (V W : Type) (meaning : Interpretation V W) (calls : Calls V W), Keeps k calls →
      ∀ (temps : Temp → V) (regs : Int → V) (world : W),
      (∀ t r, s.Before 0 t → c'.regs[t]? = some r → regs r = temps t) →
      (∀ n, (run meaning (overRegisters c' calls) c'.instrs n ⟨.at 0, regs, world⟩).2.place
          = (run meaning (overTemps V W) c'.instrs n ⟨.at 0, temps, world⟩).2.place ∧
        Follows c' (fun _ => false)
          (run meaning (overTemps V W) c'.instrs n ⟨.at 0, temps, world⟩)
          (run meaning (overRegisters c' calls) c'.instrs n ⟨.at 0, regs, world⟩)) ∧
      (∀ n, ∃ m, Follows c' (Assembly.isIdentityMove c'.regs)
        (run meaning (overTemps V W) c'.instrs n ⟨.at 0, temps, world⟩)
        (run meaning (overRegisters c' calls) (written c'.regs c'.instrs) m ⟨.at 0, regs, world⟩)) ∧
      (∀ m, ∃ n, Follows c' (Assembly.isIdentityMove c'.regs)
        (run meaning (overTemps V W) c'.instrs n ⟨.at 0, temps, world⟩)
        (run meaning (overRegisters c' calls) (written c'.regs c'.instrs) m ⟨.at 0, regs, world⟩)) := by
  obtain ⟨hk, hcontinued, s, hs⟩ := allocated_of_allocate hdefs hold hrun
  have hfp : ∀ i ∈ c'.instrs, c'.frame.fp ∉ i.defs := by
    rw [hcontinued.frame]
    exact hcontinued.defs
  refine ⟨hcontinued.head _ hhead, hcontinued.entry, hcontinued.exit,
    fun window pending => body_written _ _ _, s, hs.liveness, ?_⟩
  intro V W meaning calls hcalls temps regs world hlive
  -- At the start the registers hold what is live into the code, and that is all that agreement asks for.
  have hstart : Agree c' s ⟨.at 0, temps, world⟩ ⟨.at 0, regs, world⟩ :=
    ⟨rfl, rfl, fun t ht hmention => hlive t _ ht (getElem?_regs_eq_register hs hmention)⟩
  have hagree := hstart.run meaning hs hk hfp hcalls
  have hplaced : Placed c' (⟨.at 0, regs, world⟩ : Config Int V W) ⟨.at 0, regs, world⟩ :=
    ⟨rfl, rfl, rfl⟩
  refine ⟨fun n => ?_, fun n => ?_, fun m => ?_⟩
  · obtain ⟨hpath, hlast⟩ := hagree n
    refine ⟨hlast.place, ?_, hlast.world, fun l => by rw [hlast.place], hlast.result hs⟩
    simpa using hpath
  · obtain ⟨m, hpath, hlast⟩ := hplaced.exists_run_written meaning calls n
    exact ⟨m, (hagree n).2.follows hs (hagree n).1 hpath hlast⟩
  · obtain ⟨n, hpath, hlast⟩ := hplaced.exists_run_whole meaning calls m
    exact ⟨n, (hagree n).2.follows hs (hagree n).1 hpath hlast⟩

end Allocated

/-- A function that counts up to zero from below and returns the last number before it. -/
def countUp : Code where
  frame := ⟨"_countUp", 0, 0, 8, ⟨1⟩, ⟨2⟩⟩
  entry := "L1"
  exit := "L2"
  instrs := [.label "L1", .plain (.loadWyde .low 5) [] [⟨3⟩], .plain .negate [⟨3⟩] [⟨4⟩],
    .label "L3", .move ⟨4⟩ ⟨2⟩, .plain .increment [⟨4⟩] [⟨5⟩], .move ⟨5⟩ ⟨4⟩,
    .oper (.branch "L3") [⟨4⟩] [] ["L3"] .next, .oper (.goto "L2") [] [] ["L2"] .jump]

/-- The operations of `countUp` on integers. -/
def counting : Interpretation Int Unit
  | .loadWyde _ v, _, _, _ => ⟨fun _ => v, (), none⟩
  | .negate, _, [v], _ => ⟨fun _ => -v, (), none⟩
  | .increment, _, [v], _ => ⟨fun _ => v + 1, (), none⟩
  | .branch _, _, [v], _ => ⟨fun _ => 0, (), if v = 0 then none else some 0⟩
  | .goto _, _, _, _ => ⟨fun _ => 0, (), some 0⟩
  | _, _, _, _ => ⟨fun _ => 0, (), none⟩

theorem coloring_preserves_countUp : ∃ c' a σ', (countUp.allocate 2).run ⟨5, 3⟩ = ((c', .ok a), σ') ∧
    ∀ n, (run counting (overRegisters c' fun _ _ _ store => store) c'.instrs n
        ⟨.at 0, fun _ => 0, ()⟩).1
      = (run counting (overTemps Int Unit) c'.instrs n ⟨.at 0, fun _ => 0, ()⟩).1 := by
  have hok : ((countUp.allocate 2).run ⟨5, 3⟩).1.2.toOption = some ⟨1, []⟩ := by decide +kernel
  cases hrun : (countUp.allocate 2).run ⟨5, 3⟩ with
  | mk result σ' =>
    obtain ⟨c', outcome⟩ := result
    rw [hrun] at hok
    cases outcome with
    | error fault => cases hok
    | ok a =>
      obtain ⟨-, -, -, -, s, -, hall⟩ :=
        coloring_preserves_execution hrun rfl (by decide) (by decide)
      have hcalls : Keeps 2 (fun _ _ _ store => store : Calls Int Unit) := fun _ _ _ _ _ _ => rfl
      obtain ⟨hruns, -, -⟩ := hall Int Unit counting _ hcalls (fun _ => 0) (fun _ => 0) ()
        fun _ _ _ _ => rfl
      refine ⟨c', a, σ', rfl, fun n => ?_⟩
      simpa using (hruns n).2.path

end MmixBackend.Execution
