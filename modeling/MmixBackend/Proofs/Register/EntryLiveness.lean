import MmixBackend.Proofs.IR.Assignment
import MmixBackend.Proofs.ControlFlow
import MmixBackend.Proofs.Label

/-!
# Nothing but the frame pointer is live into a function

The code of a body whose only temp is the frame pointer can be annotated with the temps that have a
value, starting with the frame pointer alone. Spilling keeps it so: a definition becomes a store and
every use loads a fresh temp right in front of itself, so the annotation loses the spilled temp
everywhere and gains nothing. Liveness is contained in the annotation, so at most the frame pointer
is live into the code.

Two executions that agree on the temps that are live go the same way, wherever temps are kept. So
code of this kind depends on nothing that its locations hold at its start, the frame pointer's
apart: registers may be overwritten before it, and temps have no values to begin with.

## Main statements

- `Assigns.spill`: spilling keeps annotations.
- `Alike.run`: executions that agree on what is live.
- `CodeChunk.ofBody_ensures`: the chunk of a body can be annotated.
- `only_frame_pointer_live_in`: the code of a body after any number of spills.
-/

namespace MmixBackend

open IR Relation InterferenceGraph Execution

/-! ## §1 Spilling -/

section Spilling

variable {fp t : Temp} {offset : Word} {known : List Promise} {A B C : Set Temp}

/-- What is left of a set of temps when `t` has moved to a slot, which is reached from the frame
pointer. -/
def unspilled (fp t : Temp) (A : Set Temp) : Set Temp := insert fp (A \ {t})

/-- The promises that are left. -/
def unspilledAll (fp t : Temp) (known : List Promise) : List Promise :=
  known.map fun p => (p.1, unspilled fp t p.2)

theorem mem_unspilledAll {l : Label} {S : Set Temp} (h : (l, S) ∈ known) :
    (l, unspilled fp t S) ∈ unspilledAll fp t known := List.mem_map_of_mem h

theorem fp_mem_unspilled : fp ∈ unspilled fp t A := Set.mem_insert fp _

theorem mem_unspilled {u : Temp} (h : u ∈ A) (hne : u ≠ t) : u ∈ unspilled fp t A := .inr ⟨h, hne⟩

theorem unspilled_mono (h : A ⊆ B) : unspilled fp t A ⊆ unspilled fp t B :=
  Set.insert_subset_insert (Set.sdiff_subset_sdiff_left h)

theorem unspilled_singleton : unspilled fp t {fp} = {fp} := by
  ext u
  simp +contextual [unspilled]

/-- The slot is loaded into the temp `value`. -/
theorem Assigns.loadSlot (hfp : fp ∈ A) (value off : Temp) :
    Assigns known A ((Instr.loadSlot fp offset value off).map Instr.footprint) (insert value A) := by
  have hoffset := Computes.loadConstant off offset known A (by simp)
  have hload : Assigns known (insert off A) ([Instr.plain .loadIndexed [fp, off] [value]].map
    Instr.footprint)
      (insert value (insert off A)) := .write (by simp [hfp]) value
  exact (hoffset.append_map hload).forget (Set.insert_subset_insert (Set.subset_insert off A))

/-- The temp `value` is stored into the slot. -/
theorem Assigns.storeSlot {value : Temp} (hfp : fp ∈ A) (hvalue : value ∈ A) (off : Temp) :
    Assigns known A ((Instr.storeSlot fp offset value off).map Instr.footprint) A := by
  have hoffset := Computes.loadConstant off offset known A (by simp)
  have hstore : Assigns known (insert off A)
      ([Instr.plain .storeIndexed [value, fp, off] []].map Instr.footprint) (insert off A) :=
    .read (by simp [hfp, hvalue])
  exact (hoffset.append_map hstore).forget (Set.subset_insert off A)

/-- The instruction itself, with the temp `value` in place of `t`. -/
theorem Assigns.renamed {i : Instr} {value : Temp} (h : Assigns known A [i.footprint] B)
    (hC : unspilled fp t A ⊆ C) (hvalue : t ∈ i.uses → value ∈ C) :
    Assigns (unspilledAll fp t known) C ([i.rename t value].map Instr.footprint)
      (unspilled fp t B ∪ {u | t ∈ i.defs ∧ u = value}) := by
  -- What an operation reads it still reads, `t` apart, and likewise what it writes.
  have hop : ∀ {reads writes targets stops}, (t ∈ reads → value ∈ C) →
      Assigns known A [.op reads writes targets stops] B → Assigns (unspilledAll fp t known) C
        [.op (reads.map fun u => if u = t then value else u)
          (writes.map fun u => if u = t then value else u) targets stops]
        (unspilled fp t B ∪ {u | t ∈ writes ∧ u = value}) := by
    rintro reads writes targets stops hvalue ⟨hreads, htargets, hB⟩
    have hkept : ∀ {S}, S ⊆ A ∪ {u | u ∈ writes} → unspilled fp t S ⊆
        C ∪ {u | u ∈ writes.map fun u => if u = t then value else u} := by
      rintro S hS u (rfl | ⟨hu, hne⟩)
      · exact .inl (hC fp_mem_unspilled)
      · refine (hS hu).imp (fun hA => hC (mem_unspilled hA hne)) fun hwrite => ?_
        exact List.mem_map.mpr ⟨u, hwrite, if_neg hne⟩
    refine ⟨fun u hu => ?_, fun l hl => ?_, ?_⟩
    · obtain ⟨v, hv, rfl⟩ := List.mem_map.mp hu
      split
      · next heq => exact hvalue (heq ▸ hv)
      · next hne => exact hC (mem_unspilled (hreads v hv) hne)
    · obtain ⟨S, hS, hSA⟩ := htargets l hl
      exact ⟨_, mem_unspilledAll hS, hkept hSA⟩
    · cases stops with
      | true => exact Set.subset_univ _
      | false =>
        refine Set.union_subset (hkept hB) ?_
        rintro u ⟨hwrite, rfl⟩
        exact .inr (List.mem_map.mpr ⟨t, hwrite, if_pos rfl⟩)
  cases i with
  | label l =>
    obtain ⟨S, hS, hSA, hB⟩ := h
    refine ⟨_, mem_unspilledAll hS, (unspilled_mono hSA).trans hC, ?_⟩
    exact Set.union_subset (unspilled_mono hB) fun u hu => (List.not_mem_nil hu.1).elim
  | move src dst => exact hop hvalue h
  | oper op uses defs jumps flow => exact hop hvalue h

/-- Spilling in one instruction. -/
theorem Assigns.spilled {i : Instr} (h : Assigns known A [i.footprint] B) (n : Int) :
    Assigns (unspilledAll fp t known) (unspilled fp t A)
      ((i.spilled fp t offset n).instrs.map Instr.footprint) (unspilled fp t B) := by
  unfold Instr.spilled
  -- Four cases: loads come in front of a use, stores behind a definition.
  by_cases hu : t ∈ i.uses
  · have hload : Assigns (unspilledAll fp t known) (unspilled fp t A)
        ((Instr.loadSlot fp offset ⟨n + 1⟩ ⟨n + 2⟩).map Instr.footprint)
        (insert ⟨n + 1⟩ (unspilled fp t A)) := .loadSlot fp_mem_unspilled _ _
    have hmiddle : Assigns (unspilledAll fp t known) (insert ⟨n + 1⟩ (unspilled fp t A))
        ([i.rename t ⟨n + 1⟩].map Instr.footprint) (unspilled fp t B ∪ {u | t ∈ i.defs ∧ u = ⟨n + 1⟩}) :=
      h.renamed (Set.subset_insert _ _) fun _ => Set.mem_insert _ _
    by_cases hd : t ∈ i.defs
    · simp only [if_pos hu, if_pos hd]
      have hstore : Assigns (unspilledAll fp t known) (unspilled fp t B ∪ {u | t ∈ i.defs ∧ u = ⟨n + 1⟩})
          ((Instr.storeSlot fp offset ⟨n + 1⟩ ⟨n + 3⟩).map Instr.footprint) _ :=
        .storeSlot (.inl fp_mem_unspilled) (.inr ⟨hd, rfl⟩) _
      exact (hload.append_map (hmiddle.append_map hstore)).forget Set.subset_union_left
    · simp only [if_pos hu, if_neg hd]
      exact (hload.append_map hmiddle).forget Set.subset_union_left
  · have hmiddle : Assigns (unspilledAll fp t known) (unspilled fp t A)
        ([i.rename t ⟨n + 1⟩].map Instr.footprint) (unspilled fp t B ∪ {u | t ∈ i.defs ∧ u = ⟨n + 1⟩}) :=
      h.renamed Set.Subset.rfl fun hmem => absurd hmem hu
    by_cases hd : t ∈ i.defs
    · simp only [if_neg hu, if_pos hd]
      have hstore : Assigns (unspilledAll fp t known) (unspilled fp t B ∪ {u | t ∈ i.defs ∧ u = ⟨n + 1⟩})
          ((Instr.storeSlot fp offset ⟨n + 1⟩ ⟨n + 2⟩).map Instr.footprint) _ :=
        .storeSlot (.inl fp_mem_unspilled) (.inr ⟨hd, rfl⟩) _
      exact (hmiddle.append_map hstore).forget Set.subset_union_left
    · simp only [if_neg hu, if_neg hd]
      rw [Execution.rename_eq_self hu hd] at hmiddle
      exact hmiddle.forget Set.subset_union_left

/-- **Spilling keeps annotations**, with the spilled temp left out everywhere. -/
theorem Assigns.spill {is : List Instr} (h : Assigns known A (is.map Instr.footprint) B) (n : Int) :
    Assigns (unspilledAll fp t known) (unspilled fp t A)
      ((Instr.spillList fp t offset is n).instrs.map Instr.footprint) (unspilled fp t B) := by
  induction is generalizing A n with
  | nil => exact unspilled_mono h
  | cons i is ih =>
    obtain ⟨C, hfirst, hrest⟩ := h.of_cons
    exact (hfirst.spilled n).append_map (ih hrest _)

end Spilling

/-- Code that reads no temp but the frame pointer before it has written it. The promises are made for its
labels and for its exit, where its value is. -/
structure Code.SelfContained (c : Code) : Prop where
  annotated : ∃ known : List Promise, (known.map Prod.fst).Nodup ∧
    (∀ p ∈ known, .label p.1 ∈ c.instrs ∨ p.1 = c.exit) ∧
    (∃ S, (c.exit, S) ∈ known ∧ ∀ t ∈ c.liveAtExit, t ∈ S) ∧
    Assigns known {c.frame.fp} (c.instrs.map Instr.footprint) ∅
  returns : ∀ t ∈ c.liveAtExit, Mentions c.instrs t

theorem Code.mem_liveAtExit {c : Code} {t : Temp} :
    t ∈ c.liveAtExit ↔ t = c.frame.rv ∧ c.frame.rv ∉ c.spills := by
  unfold Code.liveAtExit
  by_cases h : c.frame.rv ∈ c.spills
  · simp [h]
  · simp [h]

/-- Spilling leaves the labels of code in place, and the temps other than `t`. -/
theorem Code.mem_spilled {c : Code} {i : Instr} (hi : i ∈ c.instrs) (t : Temp) (n : Int) :
    ∃ j ∈ (c.spilled t n).instrs, (∀ u ∈ i.uses, u ≠ t → u ∈ j.uses) ∧
      (∀ u ∈ i.defs, u ≠ t → u ∈ j.defs) ∧ ∀ l, i = .label l → j = .label l :=
  Instr.mem_spillList hi

/-- **Spilling keeps code self-contained.** -/
theorem Code.SelfContained.spill {c c' : Code} (h : c.SelfContained) (hspill : c.SpillsTo c') :
    c'.SelfContained := by
  obtain ⟨t, ⟨n, l⟩, rfl⟩ := hspill
  obtain ⟨⟨known, hkeys, hlabels, ⟨S, hS, hexit⟩, hassigns⟩, hreturns⟩ := h
  rw [Code.run_spill]
  -- What is still live at the exit was live there before and is not `t`.
  have hlive : ∀ u ∈ (c.spilled t n).liveAtExit, u ∈ c.liveAtExit ∧ u ≠ t := by
    intro u hu
    obtain ⟨rfl, hgone⟩ := Code.mem_liveAtExit.mp hu
    rw [show (c.spilled t n).spills = c.spills.insert t c.nextSlot from rfl] at hgone
    simp only [Std.TreeMap.mem_insert, not_or, Std.LawfulEqCmp.compare_eq_iff_eq] at hgone
    exact ⟨Code.mem_liveAtExit.mpr ⟨rfl, hgone.2⟩, fun heq => hgone.1 heq.symm⟩
  constructor
  case annotated =>
    refine ⟨unspilledAll c.frame.fp t known, ?_, ?_, ⟨_, mem_unspilledAll hS, fun u hu => ?_⟩, ?_⟩
    · simpa [unspilledAll, Function.comp_def] using hkeys
    · intro p hp
      obtain ⟨q, hq, rfl⟩ := List.mem_map.mp hp
      refine (hlabels q hq).imp_left fun hmem => ?_
      obtain ⟨j, hj, -, -, hlabel⟩ := Code.mem_spilled hmem t n
      exact hlabel q.1 rfl ▸ hj
    · obtain ⟨hu, hne⟩ := hlive u hu
      exact mem_unspilled (hexit u hu) hne
    · have hall : Assigns (unspilledAll c.frame.fp t known) (unspilled c.frame.fp t {c.frame.fp})
          ((c.spilled t n).instrs.map Instr.footprint) (unspilled c.frame.fp t ∅) := hassigns.spill n
      rw [unspilled_singleton] at hall
      exact hall.forget (Set.empty_subset _)
  case returns =>
    intro u hu
    obtain ⟨hu, hne⟩ := hlive u hu
    obtain ⟨i, hi, hmention⟩ := hreturns u hu
    obtain ⟨j, hj, huses, hdefs, -⟩ := Code.mem_spilled hi t n
    exact ⟨j, hj, hmention.imp (huses u · hne) (hdefs u · hne)⟩

theorem Code.SelfContained.spillAll {c c' : Code} (h : c.SelfContained)
    (hspills : ReflTransGen Code.SpillsTo c c') : c'.SelfContained := by
  induction hspills with
  | refl => exact h
  | tail _ hspill ih => exact ih.spill hspill

/-- Nothing but the frame pointer is live into self-contained code. -/
theorem Code.SelfContained.live_in {c : Code} (h : c.SelfContained) :
    ∃ live, c.liveness = .ok live ∧ ∀ t, live.Before 0 t → t = c.frame.fp := by
  obtain ⟨known, hkeys, hlabels, ⟨S, hS, hexit⟩, hassigns⟩ := h.annotated
  refine live_of_assigns hassigns hkeys (fun p hp => ?_) fun l live hlive S' hS' t ht => ?_
  · refine (hlabels p hp).imp_right fun heq => ?_
    rw [heq]
    exact Std.TreeMap.mem_insert_self
  · simp only [Std.TreeMap.getElem?_insert, Std.LawfulEqCmp.compare_eq_iff_eq] at hlive
    split at hlive
    · next heq =>
      subst heq
      cases hlive
      rw [promise_unique hkeys hS' hS]
      exact hexit t ht
    · simp at hlive

/-! ## §2 Executions that agree on what is live -/

namespace Execution

variable {L V W : Type} [DecidableEq L] {c : Code} {s : Liveness.Solution}

/-- Two moments of executions over one kind of storage, alike in all that matters from there on. -/
structure Alike (storage : Storage L V W) (c : Code) (s : Liveness.Solution) (x y : Config L V W) :
    Prop where
  place : y.place = x.place
  world : y.world = x.world
  values : ∀ t, Needed c s x.place t → Mentions c.instrs t →
    y.store (storage.location t) = x.store (storage.location t)

/-- Calls leave the temps of the code alone. -/
def Storage.Preserves (storage : Storage L V W) (c : Code) : Prop :=
  ∀ op values world store t, Mentions c.instrs t →
    storage.afterCall op values world store (storage.location t) = store (storage.location t)

/-- A location holds the same after the same writes if it did before, or if one of them is to it. -/
theorem assign_congr {location : Temp → L} {values : Nat → V} {l : L} {n : Nat} {ds : List Temp}
    {store store' : L → V} (h : (∀ d ∈ ds, location d ≠ l) → store' l = store l) :
    assign location values n ds store' l = assign location values n ds store l := by
  induction ds generalizing n store store' with
  | nil => exact h (by simp)
  | cons d ds ih =>
    refine ih fun hne => ?_
    by_cases hd : location d = l
    · simp [← hd]
    · rw [Function.update_of_ne (Ne.symm hd), Function.update_of_ne (Ne.symm hd)]
      exact h (List.forall_mem_cons.mpr ⟨hd, hne⟩)

variable (meaning : Interpretation V W) {storage : Storage L V W}

/-- One instruction, executed from stores that agree on what is live in front of it. -/
theorem execute_alike (hlive : c.liveness = .ok s) (hcalls : storage.Preserves c) {pc : Nat}
    {instr : Instr} (hi : c.instrs[pc]? = some instr) {store store' : L → V} (world : W)
    (hvalues : ∀ t, s.Before pc t → Mentions c.instrs t →
      store' (storage.location t) = store (storage.location t)) :
    (execute meaning storage c.instrs pc store world instr = none ∧
      execute meaning storage c.instrs pc store' world instr = none) ∨
    ∃ x' y', execute meaning storage c.instrs pc store world instr = some x' ∧
      execute meaning storage c.instrs pc store' world instr = some y' ∧ Alike storage c s x' y' := by
  have hmem : instr ∈ c.instrs := List.mem_of_getElem? hi
  have hrespects := Liveness.Solution.respects hlive
  have huse : ∀ t ∈ instr.uses, store' (storage.location t) = store (storage.location t) := fun t ht =>
    hvalues t (hrespects.uses hi ht) ⟨instr, hmem, .inl ht⟩
  -- A location that no definition writes to holds what was live before.
  have hthrough : ∀ t, s.After pc t → Mentions c.instrs t →
      (∀ d ∈ instr.defs, storage.location d ≠ storage.location t) →
      store' (storage.location t) = store (storage.location t) := by
    intro t hafter hmention hne
    exact hvalues t (hrespects.through hi hafter fun hdef => hne t hdef rfl) hmention
  cases instr with
  | label l =>
    refine .inr ⟨_, _, rfl, rfl, rfl, rfl, fun t ht hmention => ?_⟩
    exact hthrough t (after_of_next hlive hi (by simp [Instr.flow]) ht) hmention (by simp [Instr.defs])
  | move src dst =>
    refine .inr ⟨_, _, rfl, rfl, rfl, rfl, fun t ht hmention => ?_⟩
    have hafter := after_of_next hlive hi (by simp [Instr.flow]) ht
    have hsrc := huse src (by simp [Instr.uses])
    have hassign : assign storage.location (fun _ => store (storage.location src)) 0 [dst] store'
          (storage.location t)
        = assign storage.location (fun _ => store (storage.location src)) 0 [dst] store
          (storage.location t) := assign_congr (hthrough t hafter hmention)
    simpa [assign, hsrc] using hassign
  | oper op uses defs jumps flow =>
    have hargs : (uses.map fun t => store' (storage.location t))
        = uses.map fun t => store (storage.location t) :=
      List.map_congr_left huse
    simp only [execute, hargs]
    generalize meaning op jumps (uses.map fun t => store (storage.location t)) world = effect
    cases hplace : nextPlace c.instrs pc flow (effect.branch.bind (jumps[·]?)) with
    | none => exact .inl ⟨rfl, rfl⟩
    | some place =>
      refine .inr ⟨_, _, rfl, rfl, rfl, rfl, fun t ht hmention => assign_congr fun hne => ?_⟩
      have hkept := hthrough t (after_of_nextPlace hlive hi hplace ht) hmention hne
      by_cases hcall : flow = .call
      · simp only [hcall, if_true, hcalls _ _ _ _ t hmention]
        exact hkept
      · simpa [hcall] using hkept

theorem Alike.step (hlive : c.liveness = .ok s) (hcalls : storage.Preserves c) {x y : Config L V W}
    (hxy : Alike storage c s x y) :
    (step meaning storage c.instrs x = none ∧ step meaning storage c.instrs y = none) ∨
    ∃ instr x' y', step meaning storage c.instrs x = some (instr, x') ∧
      step meaning storage c.instrs y = some (instr, y') ∧ Alike storage c s x' y' := by
  obtain ⟨place, store, world⟩ := x
  obtain ⟨place', store', world'⟩ := y
  obtain ⟨hplace, hworld, hvalues⟩ := hxy
  cases hplace
  cases hworld
  cases place with
  | left l => exact .inl ⟨rfl, rfl⟩
  | «at» pc =>
    simp only [Execution.step]
    cases hi : c.instrs[pc]? with
    | none => exact .inl ⟨rfl, rfl⟩
    | some instr =>
      rcases execute_alike meaning hlive hcalls hi world hvalues with ⟨hx, hy⟩ | ⟨x', y', hx, hy, hagree⟩
      · exact .inl ⟨by simp [hx], by simp [hy]⟩
      · exact .inr ⟨instr, x', y', by simp [hx], by simp [hy], hagree⟩

/-- **Executions that agree on what is live go the same way.** -/
theorem Alike.run (hlive : c.liveness = .ok s) (hcalls : storage.Preserves c) {x y : Config L V W}
    (hxy : Alike storage c s x y) (n : Nat) :
    (run meaning storage c.instrs n y).1 = (run meaning storage c.instrs n x).1 ∧
      Alike storage c s (run meaning storage c.instrs n x).2 (run meaning storage c.instrs n y).2 := by
  induction n generalizing x y with
  | zero => exact ⟨rfl, hxy⟩
  | succ n ih =>
    rcases hxy.step meaning hlive hcalls with ⟨hx, hy⟩ | ⟨instr, x', y', hx, hy, hagree⟩
    · simp only [Execution.run, hx, hy]
      exact ⟨trivial, hxy⟩
    · obtain ⟨hpath, hlast⟩ := ih hagree
      simp only [Execution.run, hx, hy, hpath, hagree.world]
      exact ⟨trivial, hlast⟩

/-- Whatever the temps are kept in, the code depends at its start on the location of the frame
pointer alone: two executions from there go the same way, end at the same place in the same world,
and leave the same result at the exit. -/
def DependsOnFramePointer (meaning : Interpretation V W) (storage : Storage L V W) (c : Code) : Prop :=
  ∀ (store store' : L → V) (world : W),
    store' (storage.location c.frame.fp) = store (storage.location c.frame.fp) → ∀ n,
    let x := run meaning storage c.instrs n ⟨.at 0, store, world⟩
    let y := run meaning storage c.instrs n ⟨.at 0, store', world⟩
    y.1 = x.1 ∧ y.2.place = x.2.place ∧ y.2.world = x.2.world ∧
      (x.2.place = .left c.exit → ∀ t ∈ c.liveAtExit,
        y.2.store (storage.location t) = x.2.store (storage.location t))

theorem dependsOnFramePointer (h : c.SelfContained)
    (hcalls : storage.Preserves c) : DependsOnFramePointer meaning storage c := by
  intro store store' world hfp n
  obtain ⟨live, hlive, hentry⟩ := h.live_in
  have hstart : Alike storage c live ⟨.at 0, store, world⟩ ⟨.at 0, store', world⟩ :=
    ⟨rfl, rfl, fun t ht _ => by rw [hentry t ht]; exact hfp⟩
  obtain ⟨hpath, hlast⟩ := hstart.run meaning hlive hcalls n
  refine ⟨hpath, hlast.place, hlast.world, fun hplace t ht => ?_⟩
  exact hlast.values t (by rw [hplace]; exact ⟨rfl, ht⟩) (h.returns t ht)

end Execution

/-! ## §3 The code of a body -/

/-- What holds of the chunk of a body whose only temp is the frame pointer. -/
structure IR.CodeChunk.Annotatable (frame : Frame) (chunk : IR.CodeChunk) (labels : List Label) :
    Prop where
  frame_eq : chunk.frame = frame
  canonical : ∀ s ∈ chunk.stmts, s.Canonical
  returns : ∃ e, .move (.temp frame.rv) e ∈ chunk.stmts
  annotated : Annotated {frame.rv} [] [chunk.exit] (chunk.entry :: labels) {frame.fp} chunk.stmts ∅

/-- The value of a body goes into the return temp. -/
theorem IR.Stmt.return_annotated {frame : Frame} {body : IR.Expr}
    (htemps : ∀ t ∈ body.temps, t = frame.fp) (hjumps : body.Enclosed) (σ : Supply) :
    Ensures (Stmt.move (.temp frame.rv) body).canonical σ fun ss _ =>
      (∃ e, .move (.temp frame.rv) e ∈ ss) ∧
      Annotated {frame.rv} [] [] body.labels {frame.fp} ss {frame.rv} := by
  rw [IR.Stmt.canonical]
  have hbody := body.canonical_annotated htemps hjumps σ {frame.rv} (Set.mem_singleton frame.fp)
  refine hbody.bind fun r _ ⟨B, _, hv, h⟩ => .pure ⟨⟨r.2, by simp⟩, ?_⟩
  have hall := h.append (.move (t := frame.rv) hv)
  rw [List.append_nil body.labels] at hall
  exact hall.forget (Set.singleton_subset_iff.mpr (Set.mem_insert _ _))

/-- **The chunk of a body can be annotated**: it starts with the frame pointer, jumps to its exit with the
return value, and has the two fresh labels around those of the body. -/
theorem IR.CodeChunk.ofBody_ensures {frame : Frame} {body : IR.Expr}
    (htemps : ∀ t ∈ body.temps, t = frame.fp) (hjumps : body.Enclosed) (σ : Supply) :
    Ensures (CodeChunk.ofBody frame body) σ fun chunk _ =>
      chunk.Annotatable frame body.labels ∧ chunk.entry = Label.numbered (σ.labels + 1) ∧
        chunk.exit = Label.numbered (σ.labels + 1 + 1) := by
  unfold IR.CodeChunk.ofBody
  refine .bind (P := fun l σ₁ => l = Label.numbered (σ.labels + 1) ∧ σ₁.labels = σ.labels + 1)
    (.of_succeeds (.lift ⟨rfl, rfl⟩)) fun entry σ₁ ⟨hentry, hσ₁⟩ => ?_
  refine .bind (P := fun l _ => l = Label.numbered (σ.labels + 1 + 1))
    (.of_succeeds (.lift (by rw [← hσ₁]; rfl))) fun exit σ₂ hexit => ?_
  -- The label and the jump are canonical as they are, so the body is annotated between them.
  have hannotated : Ensures
    (Stmt.canonical (.seq [.label entry, .move (.temp frame.rv) body, .jump exit])) σ₂
      fun ss _ => (∃ e, .move (.temp frame.rv) e ∈ ss) ∧
        Annotated {frame.rv} [] [exit] (entry :: body.labels) {frame.fp} ss ∅ := by
    rw [Stmt.canonical, Stmt.canonicalAll, Stmt.canonicalAll, Stmt.canonicalAll, Stmt.canonicalAll]
    refine .bind (P := fun first _ => first = [.label entry]) (.pure rfl) fun first σ₃ hfirst => ?_
    refine Ensures.bind (P := fun rest _ => (∃ e, .move (.temp frame.rv) e ∈ rest) ∧
      Annotated {frame.rv} [] [exit] body.labels {frame.fp} rest ∅) ?_ fun rest _ ⟨⟨e, he⟩, h⟩ => .pure ?_
    · refine (IR.Stmt.return_annotated htemps hjumps σ₃).bind fun value σ₄ ⟨⟨e, he⟩, h⟩ => ?_
      refine .bind (P := fun last _ => last = [.jump exit]) (.pure (by simp)) fun last _ hlast => .pure ?_
      subst hlast
      refine ⟨⟨e, List.mem_append_left _ he⟩, ?_⟩
      have hall := h.append (.jump (B := ∅) exit Set.Subset.rfl)
      rwa [List.append_nil body.labels] at hall
    · subst hfirst
      refine ⟨⟨e, List.mem_append_right _ he⟩, ?_⟩
      exact ((Annotated.label entry {frame.fp}).close (by simp) {frame.rv}).append h
  have hcanonical := Stmt.canonical_ensures
    (.seq [.label entry, .move (.temp frame.rv) body, .jump exit]) σ₂
  refine (hcanonical.and hannotated).bind fun stmts σ₃ ⟨hstmts, hreturns, h⟩ => .pure ?_
  exact ⟨⟨rfl, hstmts.canonical, hreturns, h⟩, hentry, hexit⟩

/-- **Selected code is self-contained**, if the labels around the body are not among its own. -/
theorem IR.CodeChunk.Annotatable.select {frame : Frame} {chunk : IR.CodeChunk} {labels : List Label}
    (h : chunk.Annotatable frame labels) (hnodup : (chunk.exit :: chunk.entry :: labels).Nodup)
    (mode : ArgPassing) (σ : Supply) :
    Ensures (chunk.select mode) σ fun c _ => c.SelfContained ∧ c.frame = frame := by
  unfold IR.CodeChunk.select
  refine (Stmt.selectAll_realizes mode chunk.stmts h.canonical σ).bind fun is _ his =>
    .pure ⟨?_, h.frame_eq⟩
  obtain ⟨sites, hkeys, -, hassigns⟩ := h.annotated.exists_sites
  constructor
  case annotated =>
    -- To the promises of the code comes the one for the exit, where the return temp is read.
    refine ⟨(chunk.exit, {frame.rv}) :: sites, ?_, ?_,
      ⟨{frame.rv}, List.mem_cons_self, fun t ht => ?_⟩, ?_⟩
    · simpa [hkeys] using hnodup
    · refine List.forall_mem_cons.mpr ⟨.inr rfl, fun p hp =>
        .inl (his.labels p.1 (Stmt.mem_labelsOf.mp ?_))⟩
      rw [h.annotated.labels_eq, ← hkeys]
      exact List.mem_map_of_mem hp
    · rw [← h.frame_eq]
      exact (Code.mem_liveAtExit.mp ht).1
    · rw [show chunk.frame = frame from h.frame_eq]
      apply his.assigns
      exact hassigns _ (List.subset_cons_self _ _) (by simp)
  case returns =>
    intro t ht
    obtain ⟨e, he⟩ := h.returns
    obtain ⟨v, hv⟩ := his.moves frame.rv e he
    have hrv : t = frame.rv := h.frame_eq ▸ (Code.mem_liveAtExit.mp ht).1
    exact ⟨_, hv, .inr (List.mem_singleton.mpr hrv)⟩

/-! ## §4 Whatever is spilled and wherever temps are kept -/

/-- On every path from the start of the code the temp is written before it is read; the exit reads
the return temp, unless that has been spilled. -/
def Code.WritesFirst (c : Code) (t : Temp) : Prop :=
  ¬Liveness.UsesAt c.instrs 0 t ∧
    (Liveness.UsedBehind c.instrs ((∅ : Std.TreeMap Label TempSet).insert c.exit c.liveAtExit) 0 t →
      Liveness.DefinesAt c.instrs 0 t)

theorem Code.SelfContained.writesFirst {c : Code} (h : c.SelfContained) {t : Temp}
    (hne : t ≠ c.frame.fp) :
    c.WritesFirst t := by
  obtain ⟨live, hlive, hentry⟩ := h.live_in
  have hrespects := Liveness.Solution.respects hlive
  refine ⟨fun ⟨i, hi, ht⟩ => hne (hentry t (hrespects.uses hi ht)), fun hused => ?_⟩
  by_contra hdefines
  -- A path that leaves the first instruction has a first instruction.
  obtain ⟨i, hi⟩ : ∃ i, c.instrs[0]? = some i := by
    rcases hused.cases with ⟨j, ⟨i, hi, -⟩, -⟩ | ⟨l, s, ⟨i, hi, -⟩, -⟩
    · exact ⟨i, hi⟩
    · exact ⟨i, hi⟩
  have hafter := (Liveness.Solution.after_iff hlive).mpr hused
  exact hne (hentry t (hrespects.through hi hafter fun hdef => hdefines ⟨i, hi, hdef⟩))

/-- Registers are assigned to self-contained code, possibly after some more spills. -/
theorem Code.SelfContained.allocate {c c' : Code} {k : Int} {σ σ' : Supply} {a : Allocation}
    (h : c.SelfContained) (hrun : (c.allocate k).run σ = ((c', .ok a), σ')) :
    c'.SelfContained ∧ ∃ live, Allocated k c' live := by
  obtain ⟨hmin, -, maxRounds, hrounds⟩ := allocate_eq_ok hrun
  obtain ⟨c₀, avoid, g, coloring, hc₀, hcolor, hspilled, rfl⟩ :=
    allocateRounds_induct (P := fun c₀ _ => ReflTransGen Code.SpillsTo c c₀)
      (fun c₁ σ₁ t _ h => ⟨h.tail ⟨t, σ₁, rfl⟩, rfl⟩) .refl hrounds
  have hk : 0 ≤ k := Int.le_trans (by decide) hmin
  exact ⟨⟨(h.spillAll hc₀).annotated, (h.spillAll hc₀).returns⟩, allocated_withColors hk hcolor hspilled⟩

/-- **Nothing but the frame pointer is live into a function.** Let the frame pointer be the only
temp of a body, its labels be distinct and not among those that are handed out next, and no jump
leave the statement that it stands in. Then the code that is selected for the chunk of the body has
a liveness after any number of spills, with at most the frame pointer live into the first
instruction. On every path from there each other temp is written before it is read, the return temp
at the exit included. So what the code does depends, of all temps, on the value of the frame pointer
alone; and if registers can be assigned, what is live into the code is kept in the register of the
frame pointer, and the code depends on the contents of no other register. -/
theorem only_frame_pointer_live_in {frame : Frame} {body : IR.Expr} {σ σ' τ τ' : Supply}
    {mode : ArgPassing} {chunk : IR.CodeChunk} {code code' : Code}
    (htemps : ∀ t ∈ body.temps, t = frame.fp) (hnodup : body.labels.Nodup) (hjumps : body.Enclosed)
    (hfresh : ∀ l ∈ body.labels, ∀ i, σ.labels < i → l ≠ Label.numbered i)
    (hchunk : (CodeChunk.ofBody frame body).run.run σ = (.ok chunk, σ'))
    (hcode : (chunk.select mode).run.run τ = (.ok code, τ'))
    (hspills : ReflTransGen Code.SpillsTo code code') :
    (∃ live, code'.liveness = .ok live ∧ ∀ t, live.Before 0 t → t = frame.fp) ∧
    (∀ t ≠ frame.fp, code'.WritesFirst t) ∧
    (∀ (V W : Type) (meaning : Interpretation V W), DependsOnFramePointer meaning (overTemps V W) code') ∧
    ∀ (k : Int) (ρ ρ' : Supply) (c : Code) (a : Allocation), (code'.allocate k).run ρ = ((c, .ok a), ρ') →
      (∃ live, c.liveness = .ok live ∧ ∀ t, live.Before 0 t → register c t = frameRegister) ∧
      ∀ (V W : Type) (meaning : Interpretation V W) (calls : Calls V W), Keeps k calls →
        DependsOnFramePointer meaning (overRegisters c calls) c := by
  obtain ⟨hannotatable, hentry, hexit⟩ := IR.CodeChunk.ofBody_ensures htemps hjumps σ chunk σ' hchunk
  -- The two labels of the chunk are new, so no label of the code stands twice.
  have hlabels : (chunk.exit :: chunk.entry :: body.labels).Nodup := by
    rw [hentry, hexit]
    have hne : Label.numbered (σ.labels + 1 + 1) ≠ Label.numbered (σ.labels + 1) := fun heq => by
      have := Label.numbered_injective heq
      omega
    simp only [List.nodup_cons, List.mem_cons, not_or]
    exact ⟨⟨hne, fun hl => hfresh _ hl _ (by omega) rfl⟩, fun hl => hfresh _ hl _ (by omega) rfl, hnodup⟩
  obtain ⟨hcode, hframe⟩ := hannotatable.select hlabels mode τ code τ' hcode
  have hframe' : code'.frame = frame :=
    (Code.kept_of_spills hspills (fun _ => True) fun _ => True).1.trans hframe
  -- That every temp is written before it is read survives spilling, and allocation spills only.
  have hself := hcode.spillAll hspills
  refine ⟨?_, fun t ht => hself.writesFirst (hframe' ▸ ht),
    fun V W meaning => ?_, fun k ρ ρ' c a hrun => ?_⟩
  · obtain ⟨live, hlive, hin⟩ := hself.live_in
    exact ⟨live, hlive, fun t ht => hframe' ▸ hin t ht⟩
  · exact dependsOnFramePointer meaning hself fun _ _ _ _ _ _ => rfl
  -- Behind an allocation the temps are in registers, and the frame pointer in its own.
  · obtain ⟨hself, live, hallocated⟩ := hself.allocate hrun
    refine ⟨⟨live, hallocated.liveness, fun t ht => ?_⟩, fun V W meaning calls hcalls => ?_⟩
    · obtain ⟨live', hlive', hin⟩ := hself.live_in
      rw [hallocated.liveness] at hlive'
      cases hlive'
      rw [hin t ht]
      exact register_fp hallocated
    · apply dependsOnFramePointer meaning hself
      intro op values world store t hmention
      exact hcalls op values world store _ (register_kept hallocated hmention)

/-- A function whose body counts the first parameter down in a loop inside of an operand. -/
def countDown : Frame × IR.Expr :=
  (⟨"_countDown", 0, 0, 8, ⟨1⟩, ⟨2⟩⟩,
    .binop .add (.mem (.binop .add (.temp ⟨1⟩) (.const 8)))
      (.sexpr (.seq [.label "again",
          .move (.mem (.binop .add (.temp ⟨1⟩) (.const 8)))
            (.binop .sub (.mem (.binop .add (.temp ⟨1⟩) (.const 8))) (.const 1)),
          .cjump (.mem (.binop .add (.temp ⟨1⟩) (.const 8))) "again" "end", .label "end"])
        (.mem (.binop .add (.temp ⟨1⟩) (.const 8)))))

/-- The return temp of the function may be spilled as well. -/
theorem only_frame_pointer_live_in_countDown : ∃ chunk σ' code τ' live,
    (CodeChunk.ofBody countDown.1 countDown.2).run.run ⟨2, 0⟩ = (.ok chunk, σ') ∧
    (chunk.select .immediate).run.run σ' = (.ok code, τ') ∧
    ((code.spill ⟨2⟩).run τ').1.1.liveness = .ok live ∧ ∀ t, live.Before 0 t → t = ⟨1⟩ := by
  have hselected : (let r := (CodeChunk.ofBody countDown.1 countDown.2).run.run ⟨2, 0⟩
      r.1.toOption.all fun chunk => ((chunk.select .immediate).run.run r.2).1.toOption.isSome) =
          true := by
    decide +kernel
  have hchunks : ((CodeChunk.ofBody countDown.1 countDown.2).run.run ⟨2, 0⟩).1.toOption.isSome =
      true := by
    decide +kernel
  rcases hchunk : (CodeChunk.ofBody countDown.1 countDown.2).run.run ⟨2, 0⟩ with ⟨_ | chunk, σ'⟩
  · rw [hchunk] at hchunks
    cases hchunks
  rcases hcode : (chunk.select .immediate).run.run σ' with ⟨_ | code, τ'⟩
  · simp [hchunk, hcode, Except.toOption] at hselected
  have hlabels : ∀ l ∈ countDown.2.labels, l.toList.head? ≠ some 'L' := by decide
  have hjumps : countDown.2.Enclosed := by
    simp [countDown, Expr.Enclosed, Stmt.Enclosed, Stmt.EnclosedAll, Stmt.Closed, Stmt.flatten,
      Stmt.flattenAll, Stmt.targetsOf, Stmt.labelsOf]
  have htemps : ∀ t ∈ countDown.2.temps, t = countDown.1.fp := by decide
  have hfresh : ∀ l ∈ countDown.2.labels, ∀ i, (0 : Int) < i → l ≠ Label.numbered i := by
    rintro l hl i - rfl
    exact hlabels _ hl (by simp [Label.numbered])
  obtain ⟨⟨live, hlive, hin⟩, -⟩ := only_frame_pointer_live_in htemps (by decide) hjumps
    hfresh hchunk hcode
    (.single ⟨⟨2⟩, τ', rfl⟩)
  exact ⟨chunk, σ', code, τ', live, rfl, hcode, hlive, hin⟩

end MmixBackend
