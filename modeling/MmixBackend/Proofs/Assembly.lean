import MmixBackend.Assembly
import MmixBackend.Proofs.Instr.Selection
import MmixBackend.Proofs.Register.Convergence

/-!
# Writing the assembly text

The only thing that can go wrong when the text is written is a function whose return value has neither
a register nor a slot. Spilling moves a temp of the code into a slot and forgets no other one, so a
return value that the code mentions has a location in the end.

## Main statements

- `allocate_sound`: allocation of sound code succeeds, and the return value has a location.
- `Assembly.exists_write_eq`: the text of functions with located return values is written in full.
-/

namespace MmixBackend

open InterferenceGraph

/-! ## §1 The location of the return value -/

/-- The temp occurs in the code or has a slot. -/
def Code.Locates (c : Code) (t : Temp) : Prop :=
  Mentions c.instrs t ∨ ∃ offset, c.spills[t]? = some offset

/-- Spilling a temp loses track of no temp. -/
theorem Code.Locates.spill {c : Code} {u : Temp} (h : c.Locates u) (t : Temp) (σ : Supply) :
    ((c.spill t).run σ).1.1.Locates u := by
  obtain ⟨n, l⟩ := σ
  rw [Code.run_spill]
  by_cases hu : u = t
  · -- The temp itself has got a slot.
    subst hu
    exact .inr ⟨_, Std.TreeMap.getElem?_insert_self⟩
  · rcases h with ⟨i, hi, hmention⟩ | ⟨offset, hoffset⟩
    · obtain ⟨j, hj, huses, hdefs, -⟩ := Instr.mem_spillList hi
      exact .inl ⟨j, hj, hmention.imp (fun hm => huses u hm hu) fun hm => hdefs u hm hu⟩
    · refine .inr ⟨offset, ?_⟩
      have hne : compare t u ≠ .eq := fun heq => hu (Std.LawfulEqOrd.eq_of_compare heq).symm
      rw [← hoffset]
      exact (Std.TreeMap.getElem?_insert).trans (if_neg hne)

/-- A function whose return value is somewhere can store it. -/
def Code.Returns (c : Code) : Prop := ∃ lines, Assembly.storeResult c = .ok lines

theorem returns_withColors {c : Code} {k : Int} {avoid : TempSet} {g : InterferenceGraph}
    {coloring : Coloring} (hk : 0 ≤ k) (hcolor : c.tryColor k avoid = .ok (g, coloring))
    (hspilled : coloring.spilled = []) (h : c.Locates c.frame.rv) :
    (c.withColors g coloring.colors).Returns := by
  obtain ⟨s, hs⟩ := allocated_withColors hk hcolor hspilled
  show ∃ lines, Assembly.storeResult (c.withColors g coloring.colors) = .ok lines
  unfold Assembly.storeResult
  cases hreg : (c.withColors g coloring.colors).regs[(c.withColors g coloring.colors).frame.rv]? with
  | some r => exact ⟨_, rfl⟩
  | none =>
    rcases h with hmention | ⟨offset, hoffset⟩
    · -- A temp of the code has a register, be it that of the frame pointer.
      by_cases hfp : c.frame.rv = c.frame.fp
      · have hreg' := hs.fp
        rw [show (c.withColors g coloring.colors).frame.fp
          = (c.withColors g coloring.colors).frame.rv from hfp.symm, hreg] at hreg'
        cases hreg'
      · obtain ⟨r, hr, -⟩ := hs.register hfp hmention
        rw [show c.frame.rv = (c.withColors g coloring.colors).frame.rv from rfl, hreg] at hr
        cases hr
    · rw [show (c.withColors g coloring.colors).spills[(c.withColors g coloring.colors).frame.rv]?
        = some offset from hoffset]
      exact ⟨_, rfl⟩

/-- **Allocation of sound code succeeds**, and the return value has a location. -/
theorem allocate_sound {c : Code} {k : Int} {σ : Supply} (hmin : minRegisters ≤ k)
    (hmax : k ≤ maxRegisters) (h : c.Sound σ.temps) :
    ∃ c' a σ', (c.allocate k).run σ = ((c', .ok a), σ') ∧ σ.temps ≤ σ'.temps ∧ c'.Returns := by
  have hk : 2 ≤ k := hmin
  have hbound : ∀ u, Mentions c.instrs u → u.index ≤ σ.temps := by
    rintro u ⟨i, hi, hu⟩
    exact (h.fits i hi).temps u (List.mem_append.mpr hu)
  have hpressure : ∀ i ∈ c.instrs, Instr.distinctTemps c.frame.fp i.uses ≤ k.toNat ∧
      Instr.distinctTemps c.frame.fp i.defs + 1 ≤ k.toNat := by
    intro i hi
    have huses : Instr.distinctTemps c.frame.fp i.uses ≤ i.uses.length :=
      distinctTemps_le_length fun u hu _ => hu
    have hdefs : Instr.distinctTemps c.frame.fp i.defs ≤ i.defs.length :=
      distinctTemps_le_length fun u hu _ => hu
    have hfits := h.fits i hi
    exact ⟨by have := hfits.uses; omega, by have := hfits.defs; omega⟩
  obtain ⟨c', a, σ', hrun, -⟩ := allocate_converges hmin hmax h.fp h.rv hbound hpressure h.closed
  obtain ⟨-, -, maxRounds, hrounds⟩ := allocate_eq_ok hrun
  have hstart : c.Locates c.frame.rv := by
    obtain ⟨v, hv⟩ := h.returns
    exact .inl ⟨_, hv, .inr (List.mem_singleton_self _)⟩
  -- The invariant of the rounds: the return value stays located and the supply grows.
  obtain ⟨c₀, avoid, g, coloring, ⟨hframe, hlocates, hle⟩, hcolor, hspilled, rfl⟩ :=
    allocateRounds_induct
      (P := fun c₁ σ₁ => c₁.frame = c.frame ∧ c₁.Locates c.frame.rv ∧ σ.temps ≤ σ₁.temps)
      (fun c₁ σ₁ t _ h₁ => ⟨⟨h₁.1, h₁.2.1.spill t σ₁, h₁.2.2.trans (le_temps_spill c₁ t σ₁)⟩, rfl⟩)
      ⟨rfl, hstart, Int.le_refl _⟩ hrounds
  refine ⟨_, a, σ', hrun, hle, ?_⟩
  exact returns_withColors (by omega) hcolor hspilled (hframe ▸ hlocates)

/-! ## §2 The text -/

namespace Assembly

theorem functions_snd (k : Int) : ∀ {cs : List Code}, (∀ c ∈ cs, c.Returns) →
    (functions k cs).2 = none
  | [], _ => rfl
  | c :: cs, h => by
    obtain ⟨⟨store, hstore⟩, hcs⟩ := List.forall_mem_cons.mp h
    rw [functions, hstore]
    exact functions_snd k hcs

/-- **The text is written in full** if every function can store its return value. -/
theorem exists_write_eq (k : Int) (data : List StaticData) {cs : List Code}
    (h : ∀ c ∈ cs, c.Returns) : ∃ text, write k data cs = (text, none) := by
  have hfun : functions k cs = ((functions k cs).1, none) := by
    rw [← functions_snd k h]
  unfold write lines
  rw [hfun]
  exact ⟨_, rfl⟩

end Assembly

end MmixBackend
