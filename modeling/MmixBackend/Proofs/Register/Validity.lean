import MmixBackend.Proofs.Instr.LivePaths
import MmixBackend.Proofs.Register.Convergence

/-!
# Finished allocations are valid

Code may be allocated more than once, with other numbers of registers, and an allocation that has
failed leaves behind what it has spilled. Whatever happened before, spilled temps are gone from the
code: spilling renames each occurrence, and the temps that it makes are new. So when an allocation
finishes, every temp of the code has a register, interfering temps have different ones, and no temp has
both a slot and a place in the code.

## Main statements

- `Code.Settled.allocate`: spilled temps stay gone, whether an allocation finishes or not.
- `allocation_valid`: what holds of the code that a finished allocation returns.
-/

namespace MmixBackend

open InterferenceGraph

namespace Code

/-! ## §1 Temps with a slot are gone -/

/-- The temps of the code have been handed out, and none of those with a slot occurs in it. -/
structure Settled (c : Code) (σ : Supply) : Prop where
  fp : c.frame.fp.index ≤ σ.temps
  temps : ∀ t, Mentions c.instrs t → t.index ≤ σ.temps
  slots : ∀ t ∈ c.spills, t ≠ c.frame.fp ∧ t.index ≤ σ.temps ∧ ¬Mentions c.instrs t

/-- Code that registers may be allocated for: code without slots whose temps have been handed out, and
code that an earlier allocation has left behind, be it finished or not. -/
inductive Ready : Code → Supply → Prop where
  | new {c : Code} {σ : Supply} (fp : c.frame.fp.index ≤ σ.temps)
      (temps : ∀ t, Mentions c.instrs t → t.index ≤ σ.temps) (slots : ∀ t, t ∉ c.spills) : Ready c σ
  | again {c c' : Code} {σ σ₁ σ' : Supply} {k : Int} {outcome : Except Fault Allocation}
      (before : Ready c σ) (run : (c.allocate k).run σ = ((c', outcome), σ₁))
      (later : σ₁.temps ≤ σ'.temps) : Ready c' σ'

variable {c c' : Code} {σ σ' : Supply}

theorem Settled.mono (h : c.Settled σ) (hσ : σ.temps ≤ σ'.temps) : c.Settled σ' where
  fp := Int.le_trans h.fp hσ
  temps t ht := Int.le_trans (h.temps t ht) hσ
  slots t ht := by
    obtain ⟨hfp, hle, hgone⟩ := h.slots t ht
    exact ⟨hfp, Int.le_trans hle hσ, hgone⟩

/-- Registers have nothing to do with temps and slots. -/
theorem Settled.withColors (h : c.Settled σ) (g : InterferenceGraph) (colors : Array (Option Nat)) :
    (c.withColors g colors).Settled σ :=
  ⟨h.fp, h.temps, h.slots⟩

theorem mem_spills_spill {t u : Temp} :
    u ∈ ((c.spill t).run σ).1.1.spills ↔ u = t ∨ u ∈ c.spills := by
  obtain ⟨n, l⟩ := σ
  rw [run_spill]
  simp only [Code.spilled, Std.TreeMap.mem_insert, Std.LawfulEqCmp.compare_eq_iff_eq]
  rw [eq_comm]

/-- **Spilling a temp keeps all temps with a slot out of the code.** -/
theorem Settled.spill (h : c.Settled σ) {t : Temp} (hfp : t ≠ c.frame.fp) (ht : t.index ≤ σ.temps) :
    ((c.spill t).run σ).1.1.Settled ((c.spill t).run σ).2 := by
  have hframe : ((c.spill t).run σ).1.1.frame = c.frame := rfl
  have hle := le_temps_spill c t σ
  constructor
  case fp => exact Int.le_trans h.fp hle
  case temps =>
    intro u hu
    rcases mentions_spill hu with ⟨hu, -⟩ | hmade | rfl
    · exact Int.le_trans (h.temps u hu) hle
    · exact (mem_made_spill hmade).2
    · exact Int.le_trans h.fp hle
  case slots =>
    intro u hu
    -- Temps with a slot are old, so none of them is made by the spilling.
    have hold : u ≠ c.frame.fp ∧ u.index ≤ σ.temps ∧ (Mentions c.instrs u → u = t) := by
      rcases mem_spills_spill.mp hu with rfl | hu
      · exact ⟨hfp, ht, fun _ => rfl⟩
      · obtain ⟨hne, hu, hgone⟩ := h.slots u hu
        exact ⟨hne, hu, fun hmention => absurd hmention hgone⟩
    refine ⟨hframe ▸ hold.1, Int.le_trans hold.2.1 hle, fun hmention => ?_⟩
    rcases mentions_spill hmention with ⟨hmention, hne⟩ | hmade | heq
    · exact hne (hold.2.2 hmention)
    · have := (mem_made_spill hmade).1
      have := hold.2.1
      omega
    · exact hold.1 heq

/-- A round keeps them out. -/
theorem Settled.spillAll (h : c.Settled σ) {k : Int} {avoid : TempSet} {g : InterferenceGraph}
    {coloring : Coloring} (hcolor : c.tryColor k avoid = .ok (g, coloring)) :
    ((c.spillAll avoid coloring.spilled).run σ).1.1.Settled
      ((c.spillAll avoid coloring.spilled).run σ).2 := by
  have hspilled := mentions_of_spilled hcolor
  refine (run_spillAll_induct
    (P := fun c₁ σ₁ => c₁.Settled σ₁ ∧ c₁.frame = c.frame ∧ σ.temps ≤ σ₁.temps)
    (fun c₁ σ₁ t ht h₁ => ?_) ⟨h, rfl, Int.le_refl _⟩ rfl).1
  obtain ⟨hsettled, hframe, hle⟩ := h₁
  obtain ⟨hfp, hmention⟩ := hspilled t ht
  have ht : t.index ≤ σ₁.temps := Int.le_trans (h.temps t hmention) hle
  exact ⟨hsettled.spill (hframe ▸ hfp) ht, hframe, Int.le_trans hle (le_temps_spill c₁ t σ₁)⟩

/-- All rounds keep them out, however they end. -/
theorem Settled.allocateRounds {k : Int} {maxRounds fuel rounds : Nat} {avoid : TempSet}
    {spilled : List Temp} {outcome : Except Fault Allocation} (h : c.Settled σ)
    (hrun : (c.allocateRounds k maxRounds fuel rounds avoid spilled).run σ = ((c', outcome), σ')) :
    c'.Settled σ' := by
  induction fuel generalizing rounds avoid spilled c σ with
  | zero =>
    cases hrun
    exact h
  | succ fuel ih =>
    unfold Code.allocateRounds at hrun
    cases hcolor : c.tryColor k avoid with
    | error fault =>
      rw [hcolor] at hrun
      cases hrun
      exact h
    | ok gc =>
      obtain ⟨g, coloring⟩ := gc
      rw [hcolor] at hrun
      simp only at hrun
      -- Without spills the round colours the code; otherwise the spills are settled before the next.
      by_cases hspilled : coloring.spilled.isEmpty = true
      · rw [if_pos hspilled] at hrun
        cases hrun
        exact h.withColors g coloring.colors
      · rw [if_neg hspilled, run_bind_state] at hrun
        exact ih (h.spillAll hcolor) hrun

/-- **Allocation keeps them out**, whether it finishes or not. -/
theorem Settled.allocate {k : Int} {outcome : Except Fault Allocation} (h : c.Settled σ)
    (hrun : (c.allocate k).run σ = ((c', outcome), σ')) : c'.Settled σ' := by
  unfold Code.allocate at hrun
  by_cases hk : k < minRegisters ∨ maxRegisters < k
  · rw [if_pos hk] at hrun
    cases hrun
    exact h
  · rw [if_neg hk] at hrun
    exact h.allocateRounds hrun

theorem Ready.settled (h : Ready c σ) : c.Settled σ := by
  induction h with
  | new hfp htemps hslots => exact ⟨hfp, htemps, fun t ht => absurd ht (hslots t)⟩
  | again _ hrun hlater ih => exact (ih.allocate hrun).mono hlater

end Code

/-! ## §2 Validity -/

/-- **Finished allocations are valid.** Let an allocation with `k` registers finish, of code as it was
selected or as earlier allocations have left it. Then the temps of the returned code and the frame
pointer, and no others, have registers: the frame pointer `$253`, every other temp one of `$0` to
`$(k-1)`. The live sets that the registers were assigned by solve the dataflow equations of the returned
code. After each instruction any two temps of the code that are live have different registers, and so
have a temp that the instruction defines and another one that is live. No temp with a slot occurs in the
code. -/
theorem allocation_valid {k : Int} {c c' : Code} {σ σ' : Supply} {a : Allocation}
    (hready : c.Ready σ) (hrun : (c.allocate k).run σ = ((c', .ok a), σ')) :
    (∀ t, (∃ r, c'.regs[t]? = some r) ↔ t = c'.frame.fp ∨ Mentions c'.instrs t) ∧
    c'.regs[c'.frame.fp]? = some 253 ∧
    (∀ t r, t ≠ c'.frame.fp → c'.regs[t]? = some r → 0 ≤ r ∧ r < k) ∧
    (∀ t ∈ c'.spills, ¬Mentions c'.instrs t) ∧
    ∃ s, c'.liveness = .ok s ∧
      Liveness.Solves c'.instrs ((∅ : Std.TreeMap Label TempSet).insert c'.exit c'.liveAtExit)
        s.Before s.After ∧
      ∀ i instr, c'.instrs[i]? = some instr →
        ∀ t u, t ≠ u → t ≠ c'.frame.fp → u ≠ c'.frame.fp → Mentions c'.instrs t →
          Mentions c'.instrs u → s.After i u → s.After i t ∨ t ∈ instr.defs →
          c'.regs[t]? ≠ c'.regs[u]? := by
  have hsettled := hready.settled.allocate hrun
  -- The last round has coloured all vertices, so its graph is that of the returned code.
  obtain ⟨hmin, -, maxRounds, hrounds⟩ := allocate_eq_ok hrun
  obtain ⟨c₀, avoid, g, coloring, -, hcolor, hnone, rfl⟩ :=
    allocateRounds_induct (P := fun _ _ => True) (fun _ _ _ _ _ => ⟨trivial, rfl⟩) trivial hrounds
  have hk : 0 ≤ k := Int.le_trans (by decide) hmin
  obtain ⟨s, hs⟩ := allocated_withColors hk hcolor hnone
  -- A temp with a register is the frame pointer or a vertex of the last graph.
  have hvertex : ∀ t r, t ≠ c₀.frame.fp → (c₀.withColors g coloring.colors).regs[t]? = some r →
      Mentions c₀.instrs t := by
    obtain ⟨s₀, -, rfl, rfl⟩ := tryColor_eq_ok hcolor
    intro t r ht hr
    have hg := wellFormed_build c₀.frame.fp c₀.instrs s₀.points
    have hsize := (Coloring.color_spec hg k.toNat avoid).1
    exact ((contains_build ..).mp (mem_index_of_register hg hsize ht hr)).2
  refine ⟨fun t => ⟨?_, ?_⟩, hs.fp, fun t r ht hr => ?_, fun t ht => (hsettled.slots t ht).2.2,
    s, hs.liveness, Liveness.Solution.solves hs.liveness, ?_⟩
  · rintro ⟨r, hr⟩
    by_cases ht : t = c₀.frame.fp
    · exact .inl ht
    · exact .inr (hvertex t r ht hr)
  · intro h
    by_cases ht : t = c₀.frame.fp
    · exact ⟨_, ht ▸ hs.fp⟩
    · obtain ⟨r, hr, -⟩ := hs.register ht (h.resolve_left ht)
      exact ⟨r, hr⟩
  · obtain ⟨r', hr', hbounds⟩ := hs.register ht (hvertex t r ht hr)
    rw [hr] at hr'
    cases hr'
    exact hbounds
  -- Two temps interfere if both are live, or if one is defined while the other is live.
  · intro i instr hi t u hne ht hu hmt hmu hlive hcause
    refine hs.different hi ?_ hne ht hu hmt hmu
    exact hcause.elim (fun h => .inl ⟨h, hlive⟩) fun h => .inr (.inl ⟨h, hlive⟩)

/-- A function that stores one number at another while a third one is live. -/
def storeBeside : Code where
  frame := ⟨"_storeBeside", 0, 0, 8, ⟨1⟩, ⟨2⟩⟩
  entry := "L1"
  exit := "L2"
  instrs := [.plain (.loadWyde .low 5) [] [⟨3⟩], .plain (.loadWyde .low 6) [] [⟨4⟩],
    .plain (.loadWyde .low 7) [] [⟨2⟩], .plain .storeAt [⟨3⟩, ⟨4⟩] [],
    .oper (.goto "L2") [] [] ["L2"] .jump]

/-- The function is allocated with two registers, and what that leaves behind is allocated once more
with three. -/
theorem allocation_valid_storeBeside : ∃ c₁ a₁ σ₁ c₂ a₂ σ₂,
    (storeBeside.allocate 2).run ⟨4, 2⟩ = ((c₁, .ok a₁), σ₁) ∧ a₁.spilled = [⟨3⟩, ⟨4⟩, ⟨2⟩] ∧
    (c₁.allocate 3).run σ₁ = ((c₂, .ok a₂), σ₂) ∧ ∀ t ∈ a₁.spilled, ¬Mentions c₂.instrs t := by
  have hboth : (let r₁ := (storeBeside.allocate 2).run ⟨4, 2⟩
      let r₂ := (r₁.1.1.allocate 3).run r₁.2
      (r₁.1.2.toOption, r₂.1.2.toOption, r₂.1.1.spills.keys))
      = (some ⟨4, [⟨3⟩, ⟨4⟩, ⟨2⟩]⟩, some ⟨1, []⟩, [⟨2⟩, ⟨3⟩, ⟨4⟩]) := by
    decide +kernel
  have htemps : ∀ t, Mentions storeBeside.instrs t → t.index ≤ 4 := by
    rintro t ⟨i, hi, ht⟩
    have hall : ∀ i ∈ storeBeside.instrs, ∀ t ∈ i.uses ++ i.defs, t.index ≤ 4 := by decide
    exact hall i hi t (List.mem_append.mpr ht)
  have hnew : storeBeside.Ready ⟨4, 2⟩ := .new (by decide) htemps fun t => by simp [storeBeside]
  rcases hrun₁ : (storeBeside.allocate 2).run ⟨4, 2⟩ with ⟨⟨c₁, o₁⟩, σ₁⟩
  rcases hrun₂ : (c₁.allocate 3).run σ₁ with ⟨⟨c₂, o₂⟩, σ₂⟩
  simp only [hrun₁, hrun₂, Prod.mk.injEq] at hboth
  obtain ⟨hfirst, hsecond, hslots⟩ := hboth
  cases o₁ with
  | error fault => cases hfirst
  | ok a₁ =>
    cases o₂ with
    | error fault => cases hsecond
    | ok a₂ =>
      cases hfirst
      obtain ⟨-, -, -, hgone, -⟩ := allocation_valid (hnew.again hrun₁ (Int.le_refl _)) hrun₂
      refine ⟨c₁, _, σ₁, c₂, a₂, σ₂, rfl, rfl, hrun₂, fun t ht => hgone t ?_⟩
      rw [← Std.TreeMap.mem_keys, hslots]
      revert t
      decide

end MmixBackend
