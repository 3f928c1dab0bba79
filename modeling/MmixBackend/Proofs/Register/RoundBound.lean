import MmixBackend.Proofs.Instr.Selection
import MmixBackend.Proofs.Register.Convergence

/-!
# Registers are enough for selected code

Whatever statements instructions are selected for, each instruction uses at most two temps and defines
at most one. So two registers are enough: allocation of selected code comes to an end for every number
of registers in its range, within one round for each temp of the code and one more.

## Main statements

- `IR.Expr.selectable_of_select`: what has been selected has the shape that can be selected.
- `IR.Stmt.fits_of_selectAll`: selected instructions are small.
- `allocation_converges`: allocation of code with small instructions succeeds, and that of selected code
  in particular.
-/

namespace MmixBackend

open IR InterferenceGraph

/-! ## §1 Selected instructions are small -/

theorem known_of_binary {op : BinOp} {fst snd dst : Temp} {is : List Instr}
    (h : Instr.binary op fst snd dst = .ok is) : op.Known := by
  cases op with
  | unknown code => cases h
  | _ => trivial

mutual

/-- An expression that has been selected has no holes, no statements, no unknown operators and no calls
of the wrong shape. -/
theorem IR.Expr.selectable_of_select {mode : ArgPassing} {n : Int} : ∀ (e : IR.Expr)
    {σ σ' : Supply} {r : List Instr × Temp}, (e.select mode).run.run σ = (.ok r, σ') →
    (∀ t ∈ e.temps, t.index ≤ n) → e.Selectable n
  | .absent, _, _, _, h, _ => by cases h
  | .sexpr _ _, _, _, _, h, _ => by cases h
  | .const _, _, _, _, _, _ | .name _, _, _, _, _, _ => trivial
  | .temp t, _, _, _, _, ht => ht t (List.mem_singleton_self t)
  | .mem addr, σ, _, _, h, ht => by
    rw [IR.Expr.select] at h
    obtain ⟨r, σ₁, haddr, -⟩ := run_bind_eq_ok h
    exact addr.selectable_of_select haddr ht
  | .binop op fst snd, σ, _, _, h, ht => by
    obtain ⟨ht₁, ht₂⟩ := List.forall_mem_append.mp ht
    rw [IR.Expr.select] at h
    obtain ⟨r₁, σ₁, hfst, h⟩ := run_bind_eq_ok h
    obtain ⟨r₂, σ₂, hsnd, h⟩ := run_bind_eq_ok h
    obtain ⟨dst, σ₃, -, h⟩ := run_bind_eq_ok h
    obtain ⟨is, σ₄, hop, -⟩ := run_bind_eq_ok h
    -- An operator that is not known would have stopped the selection.
    have hbinary : Instr.binary op r₁.2 r₂.2 dst = .ok is := (Prod.mk.inj hop).1
    exact ⟨known_of_binary hbinary, fst.selectable_of_select hfst ht₁,
      snd.selectable_of_select hsnd ht₂⟩
  | .unop op arg, σ, _, _, h, ht => by
    rw [IR.Expr.select] at h
    obtain ⟨r, σ₁, harg, h⟩ := run_bind_eq_ok h
    refine ⟨?_, arg.selectable_of_select harg ht⟩
    cases op with
    | unknown code =>
      obtain ⟨dst, σ₂, -, h⟩ := run_bind_eq_ok h
      cases h
    | neg | not => trivial
  | .call label offs args, σ, _, _, h, ht => by
    rw [IR.Expr.select] at h
    by_cases hlen : offs.length ≠ args.length
    · rw [if_pos hlen] at h
      cases h
    · rw [if_neg hlen] at h
      obtain ⟨r, σ₁, hargs, -⟩ := run_bind_eq_ok h
      exact ⟨not_not.mp hlen, Expr.selectableAll_of_selectArgs args hargs ht⟩

theorem IR.Expr.selectableAll_of_selectArgs {mode : ArgPassing} {n : Int} : ∀ (es : List IR.Expr)
    {σ σ' : Supply} {r : List Instr × List Temp}, (Expr.selectArgs mode es).run.run σ = (.ok r, σ') →
    (∀ t ∈ Expr.tempsAll es, t.index ≤ n) → Expr.SelectableAll n es
  | [], _, _, _, _, _ => trivial
  | e :: es, σ, _, _, h, ht => by
    obtain ⟨ht₁, ht₂⟩ := List.forall_mem_append.mp ht
    rw [IR.Expr.selectArgs] at h
    obtain ⟨r₁, σ₁, he, h⟩ := run_bind_eq_ok h
    obtain ⟨r₂, σ₂, hes, -⟩ := run_bind_eq_ok h
    exact ⟨e.selectable_of_select he ht₁, Expr.selectableAll_of_selectArgs es hes ht₂⟩

end

/-- The same for a statement that is not a sequence. -/
theorem IR.Stmt.selectable_of_select {mode : ArgPassing} {next : List IR.Stmt} {n : Int}
    {s : IR.Stmt} {σ σ' : Supply} {is : List Instr} (hseq : ∀ ss, s ≠ .seq ss)
    (h : (s.select mode next).run.run σ = (.ok is, σ')) (ht : ∀ t ∈ s.temps, t.index ≤ n) :
    s.Selectable n := by
  cases s with
  | absent => cases h
  | seq ss => exact absurd rfl (hseq ss)
  | jump l | label l => trivial
  | eval e =>
    rw [IR.Stmt.select] at h
    obtain ⟨r, σ₁, he, -⟩ := run_bind_eq_ok h
    exact e.selectable_of_select he ht
  | cjump cond pos neg =>
    rw [IR.Stmt.select] at h
    obtain ⟨r, σ₁, hcond, -⟩ := run_bind_eq_ok h
    exact cond.selectable_of_select hcond ht
  | move dst src =>
    obtain ⟨ht₁, ht₂⟩ := List.forall_mem_append.mp ht
    cases dst with
    | temp t =>
      rw [IR.Stmt.select] at h
      obtain ⟨r, σ₁, hsrc, -⟩ := run_bind_eq_ok h
      exact ⟨ht₁ t (List.mem_singleton_self t), src.selectable_of_select hsrc ht₂⟩
    | mem addr =>
      rw [IR.Stmt.select] at h
      obtain ⟨r₁, σ₁, haddr, h⟩ := run_bind_eq_ok h
      obtain ⟨r₂, σ₂, hsrc, -⟩ := run_bind_eq_ok h
      exact ⟨addr.selectable_of_select haddr ht₁, src.selectable_of_select hsrc ht₂⟩
    | _ => cases h

mutual

/-- The instructions that are selected for a statement are small, and work on temps that have been
handed out. -/
theorem IR.Stmt.fits_of_select {mode : ArgPassing} {next : List IR.Stmt} : ∀ (s : IR.Stmt)
    {σ σ' : Supply} {is : List Instr}, (s.select mode next).run.run σ = (.ok is, σ') →
    (∀ t ∈ s.temps, t.index ≤ σ.temps) → σ.temps ≤ σ'.temps ∧ ∀ i ∈ is, i.Fits σ'.temps
  | .seq ss, σ, σ', is, h, ht => by
    rw [IR.Stmt.select] at h
    exact Stmt.fits_of_selectAll ss h ht
  | .absent, _, _, _, h, ht | .eval _, _, _, _, h, ht | .move _ _, _, _, _, h, ht
  | .cjump _ _ _, _, _, _, h, ht | .jump _, _, _, _, h, ht | .label _, _, _, _, h, ht => by
    have hselectable := IR.Stmt.selectable_of_select (by simp) h ht
    obtain ⟨hle, hfrom⟩ := (IR.Stmt.select_spec mode next hselectable (Int.le_refl _)).of_run h
    exact ⟨hle, hfrom.fits⟩

theorem IR.Stmt.fits_of_selectAll {mode : ArgPassing} : ∀ (ss : List IR.Stmt) {σ σ' : Supply}
    {is : List Instr}, (Stmt.selectAll mode ss).run.run σ = (.ok is, σ') →
    (∀ t ∈ Stmt.tempsAll ss, t.index ≤ σ.temps) →
    σ.temps ≤ σ'.temps ∧ ∀ i ∈ is, i.Fits σ'.temps
  | [], σ, _, _, h, _ => by
    cases h
    exact ⟨Int.le_refl _, fun i hi => (List.not_mem_nil hi).elim⟩
  | s :: ss, σ, _, _, h, ht => by
    obtain ⟨ht₁, ht₂⟩ := List.forall_mem_append.mp ht
    rw [IR.Stmt.selectAll] at h
    obtain ⟨first, σ₁, hs, h⟩ := run_bind_eq_ok h
    obtain ⟨rest, σ₂, hss, h⟩ := run_bind_eq_ok h
    cases h
    obtain ⟨hle₁, hfirst⟩ := s.fits_of_select hs ht₁
    obtain ⟨hle₂, hrest⟩ := Stmt.fits_of_selectAll ss hss fun t ht => Int.le_trans (ht₂ t ht) hle₁
    refine ⟨Int.le_trans hle₁ hle₂, List.forall_mem_append.mpr ⟨fun i hi => ?_, hrest⟩⟩
    exact (hfirst i hi).mono hle₂

end

/-! ## §2 The bound -/

/-- The temps of the code have been handed out. -/
structure Code.HandedOut (c : Code) (σ : Supply) : Prop where
  fp : c.frame.fp.index ≤ σ.temps
  rv : c.frame.rv.index ≤ σ.temps
  temps : ∀ t, Mentions c.instrs t → t.index ≤ σ.temps

/-- Every jump leads to a label of the code or to its exit. -/
def Code.Closed (c : Code) : Prop :=
  ∀ i ∈ c.instrs, i.flow ≠ .call → ∀ l ∈ i.jumps, .label l ∈ c.instrs ∨ l = c.exit

/-- No instruction uses more than `k` temps or defines more than `k - 1`, the frame pointer apart. -/
def Code.Small (k : Int) (c : Code) : Prop :=
  ∀ i ∈ c.instrs, (Instr.distinctTemps c.frame.fp i.uses : Int) ≤ k ∧
    (Instr.distinctTemps c.frame.fp i.defs : Int) ≤ k - 1

/-- Allocation with `k` registers succeeds, with at most one round for each temp of the code and one
more. Only temps of the code as it was given are spilled, none of them twice, and the spill area grows
by a word for each. -/
def Code.Converges (k : Int) (c : Code) (σ : Supply) : Prop :=
  ∃ c' a σ', (c.allocate k).run σ = ((c', .ok a), σ') ∧
    a.rounds ≤ (c.temps.erase c.frame.fp).size + 1 ∧ a.spilled.Nodup ∧
    (∀ t ∈ a.spilled, Mentions c.instrs t ∧ t ≠ c.frame.fp) ∧
    c'.tempSize = c.tempSize + Int64.ofNat a.spilled.length * 8

theorem Code.converges {k : Int} {c : Code} {σ : Supply} (hmin : 2 ≤ k) (hmax : k ≤ 251)
    (hout : c.HandedOut σ) (hclosed : c.Closed) (hsmall : c.Small k) : c.Converges k σ := by
  have hpressure : ∀ i ∈ c.instrs, Instr.distinctTemps c.frame.fp i.uses ≤ k.toNat ∧
      Instr.distinctTemps c.frame.fp i.defs + 1 ≤ k.toNat := by
    intro i hi
    obtain ⟨huses, hdefs⟩ := hsmall i hi
    omega
  obtain ⟨c', a, σ', hrun, hrounds, hnodup, hspilled, hsize⟩ :=
    allocate_converges hmin hmax hout.fp hout.rv hout.temps hpressure hclosed
  refine ⟨c', a, σ', hrun, hrounds, hnodup, fun t ht => ?_, hsize⟩
  obtain ⟨hmem, hne⟩ := TempSet.mem_erase.mp (hspilled t ht)
  exact ⟨mem_temps.mp hmem, hne⟩

/-- The code of a chunk is small, and its temps have been handed out if those of the chunk have. -/
theorem Code.small_of_select {mode : ArgPassing} {chunk : CodeChunk} {σ σ' : Supply} {c : Code}
    (hrun : (chunk.select mode).run.run σ = (.ok c, σ')) (hfp : chunk.frame.fp.index ≤ σ.temps)
    (hrv : chunk.frame.rv.index ≤ σ.temps) (ht : ∀ t ∈ Stmt.tempsAll chunk.stmts, t.index ≤ σ.temps)
    {k : Int} (hk : 2 ≤ k) : c.HandedOut σ' ∧ c.Small k := by
  obtain ⟨instrs, σ₁, hselect, hrun⟩ := run_bind_eq_ok hrun
  cases hrun
  obtain ⟨hle, hfits⟩ := Stmt.fits_of_selectAll chunk.stmts hselect ht
  refine ⟨⟨Int.le_trans hfp hle, Int.le_trans hrv hle, ?_⟩, fun i hi => ?_⟩
  · rintro t ⟨i, hi, hmem⟩
    exact (hfits i hi).temps t (List.mem_append.mpr hmem)
  · have huses := (hfits i hi).uses
    have hdefs := (hfits i hi).defs
    have h₁ : Instr.distinctTemps chunk.frame.fp i.uses ≤ i.uses.length :=
      distinctTemps_le_length fun u hu _ => hu
    have h₂ : Instr.distinctTemps chunk.frame.fp i.defs ≤ i.defs.length :=
      distinctTemps_le_length fun u hu _ => hu
    dsimp only
    exact ⟨by omega, by omega⟩

/-- **Spilling converges.** For every number of registers in its range, allocation converges on code with
closed jumps and small instructions. The instructions of selected code are small for each of these
numbers, whatever the statements were. -/
theorem allocation_converges {k : Int} (hmin : 2 ≤ k) (hmax : k ≤ 251) :
    (∀ (c : Code) (σ : Supply), c.HandedOut σ → c.Closed → c.Small k → c.Converges k σ) ∧
    ∀ (mode : ArgPassing) (chunk : CodeChunk) (σ σ' : Supply) (c : Code),
      (chunk.select mode).run.run σ = (.ok c, σ') → chunk.frame.fp.index ≤ σ.temps →
      chunk.frame.rv.index ≤ σ.temps → (∀ t ∈ Stmt.tempsAll chunk.stmts, t.index ≤ σ.temps) →
      c.Closed → c.Small k ∧ c.Converges k σ' := by
  refine ⟨fun c σ hout hclosed hsmall => Code.converges hmin hmax hout hclosed hsmall, ?_⟩
  intro mode chunk σ σ' c hrun hfp hrv ht hclosed
  obtain ⟨hout, hsmall⟩ := Code.small_of_select hrun hfp hrv ht hmin
  exact ⟨hsmall, Code.converges hmin hmax hout hclosed hsmall⟩

/-- A function that calls another one with two arguments, the second of them far off the first. -/
def farCall : CodeChunk where
  frame := ⟨"_farCall", 0, 0, 4104, ⟨1⟩, ⟨2⟩⟩
  entry := "L1"
  exit := "L2"
  stmts := [.label "L1", .move (.temp ⟨2⟩) (.call "_far" [0, 4096] [.temp ⟨1⟩, .const 7]), .jump "L2"]

theorem allocation_converges_farCall : ∃ c σ',
    (farCall.select .immediate).run.run ⟨2, 2⟩ = (.ok c, σ') ∧ c.Small 2 ∧ c.Converges 2 σ' := by
  refine ⟨_, _, rfl, (allocation_converges (by decide) (by decide)).2 .immediate farCall _ _ _ rfl
    (by decide) (by decide) (by decide) ?_⟩
  show ∀ i ∈ _, _
  decide

end MmixBackend
