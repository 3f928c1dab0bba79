import MmixBackend.Proofs.Register.Spilling

/-!
# What a finished allocation guarantees

An allocation ends with a round without spills. Its code has a register for every temp: the register
of the frame pointer for the frame pointer, one of the `k` registers for each other temp, and different
registers for temps that interfere. Whatever spilling keeps therefore holds of the code that an
allocation returns.

## Main statements

- `allocateRounds_induct`: what spilling keeps holds in the last round.
- `Allocated`: the guarantees of a finished allocation.
- `allocated_of_allocate`: a finished allocation has them.
-/

namespace MmixBackend

open InterferenceGraph

/-! ## §1 The registers of a colouring -/

/-- A fold that gives each coloured vertex of a list its register. -/
theorem foldl_registers {f : Std.TreeMap Temp Int → Vertex × Option Nat → Std.TreeMap Temp Int}
    (hsome : ∀ regs v (n : Nat), f regs (v, some n) = regs.insert v.temp (n : Int))
    (hnone : ∀ regs v, f regs (v, none) = regs)
    {ps : List (Vertex × Option Nat)} (hnodup : (ps.map (·.1.temp)).Nodup)
    (regs : Std.TreeMap Temp Int) :
    (∀ v (n : Nat), (v, some n) ∈ ps → (ps.foldl f regs)[v.temp]? = some (n : Int)) ∧
      ∀ t, t ∉ ps.map (·.1.temp) → (ps.foldl f regs)[t]? = regs[t]? := by
  induction ps generalizing regs with
  | nil => simp
  | cons p ps ih =>
    obtain ⟨w, color⟩ := p
    obtain ⟨hw, hnodup'⟩ := List.nodup_cons.mp hnodup
    rw [List.foldl_cons]
    cases color with
    | none =>
      rw [hnone]
      obtain ⟨hmem, hother⟩ := ih hnodup' regs
      refine ⟨fun v n hv => ?_, fun t ht => ?_⟩
      · rcases List.mem_cons.mp hv with hv | hv
        · cases hv
        · exact hmem v n hv
      · exact hother t fun h => ht (List.mem_cons_of_mem _ h)
    | some c =>
      rw [hsome]
      obtain ⟨hmem, hother⟩ := ih hnodup' (regs.insert w.temp (c : Int))
      refine ⟨fun v n hv => ?_, fun t ht => ?_⟩
      · rcases List.mem_cons.mp hv with hv | hv
        · cases hv
          -- Later vertices are other temps, so they do not overwrite the register.
          rw [hother _ hw]
          exact Std.TreeMap.getElem?_insert_self
        · exact hmem v n hv
      · rw [hother t fun h => ht (List.mem_cons_of_mem _ h)]
        have hne : w.temp ≠ t := fun heq => ht (heq ▸ List.mem_cons_self)
        simp [Std.TreeMap.getElem?_insert, hne]

/-- The temps of the vertices are different. -/
theorem InterferenceGraph.WellFormed.nodup_temps {g : InterferenceGraph} (h : g.WellFormed) :
    (g.vertices.toList.map (·.temp)).Nodup := by
  rw [List.Nodup, List.pairwise_map, List.pairwise_iff_getElem]
  intro i j hi hj hij heq
  simp only [Array.getElem_toList] at heq
  have h₁ := h.index_iff.mpr ⟨g.vertices[i], Array.getElem?_eq_getElem (by simpa using hi), rfl⟩
  have h₂ := h.index_iff.mpr ⟨g.vertices[j], Array.getElem?_eq_getElem (by simpa using hj), rfl⟩
  rw [heq, h₂] at h₁
  cases h₁
  exact Nat.lt_irrefl _ hij

theorem map_temp_zip {g : InterferenceGraph} {colors : Array (Option Nat)}
    (hsize : colors.size = g.vertices.size) :
    (g.vertices.toList.zip colors.toList).map (·.1.temp) = g.vertices.toList.map (·.temp) := by
  show (g.vertices.toList.zip colors.toList).map (Vertex.temp ∘ Prod.fst) = _
  rw [← List.map_map, List.map_fst_zip (by simp [hsize])]

/-- The register of a temp is the colour of its vertex. -/
theorem getElem?_regs_withColors {c : Code} {g : InterferenceGraph} (hg : g.WellFormed)
    {colors : Array (Option Nat)} (hsize : colors.size = g.vertices.size) {t : Temp} {i n : Nat}
    (ht : t ≠ c.frame.fp) (hi : g.index[t]? = some i) (hcolor : colors.getD i none = some n) :
    (c.withColors g colors).regs[t]? = some (n : Int) := by
  obtain ⟨v, hv, rfl⟩ := hg.index_iff.mp hi
  have hlt : i < g.vertices.size := (Array.getElem?_eq_some_iff.mp hv).1
  have hmem : (v, some n) ∈ g.vertices.toList.zip colors.toList := by
    refine List.mem_of_getElem? (i := i) (List.getElem?_zip_eq_some.mpr ⟨by simpa using hv, ?_⟩)
    simp only [Array.getD_eq_getD_getElem?] at hcolor
    have hlt' : i < colors.size := hsize ▸ hlt
    simp only [Array.getElem?_toList]
    rw [Array.getElem?_eq_getElem hlt'] at hcolor ⊢
    simpa using hcolor
  have hnodup : ((g.vertices.toList.zip colors.toList).map (·.1.temp)).Nodup := by
    rw [map_temp_zip hsize]
    exact hg.nodup_temps
  have hne : compare c.frame.fp v.temp ≠ .eq := fun h => ht (Std.LawfulEqOrd.eq_of_compare h).symm
  unfold Code.withColors
  simp only [Std.TreeMap.getElem?_insert, if_neg hne]
  exact (foldl_registers (fun _ _ _ => rfl) (fun _ _ => rfl) hnodup ∅).1 v n hmem

/-- Only temps with a vertex and the frame pointer have registers. -/
theorem mem_index_of_register {c : Code} {g : InterferenceGraph} (hg : g.WellFormed)
    {colors : Array (Option Nat)} (hsize : colors.size = g.vertices.size) {t : Temp} {r : Int}
    (ht : t ≠ c.frame.fp) (hr : (c.withColors g colors).regs[t]? = some r) : t ∈ g.index := by
  have hne : compare c.frame.fp t ≠ .eq := fun h => ht (Std.LawfulEqOrd.eq_of_compare h).symm
  unfold Code.withColors at hr
  simp only [Std.TreeMap.getElem?_insert, if_neg hne] at hr
  have hmem : t ∈ g.vertices.toList.map (·.temp) := by
    by_contra hnot
    have hnodup := hg.nodup_temps
    rw [← map_temp_zip hsize] at hnot hnodup
    rw [(foldl_registers (fun _ _ _ => rfl) (fun _ _ => rfl) hnodup ∅).2 t hnot] at hr
    simp at hr
  obtain ⟨v, hv, rfl⟩ := List.mem_map.mp hmem
  obtain ⟨i, hi⟩ := List.mem_iff_getElem?.mp hv
  rw [Std.TreeMap.mem_iff_isSome_getElem?, hg.index_iff.mpr ⟨v, by simpa using hi, rfl⟩]
  rfl

theorem getElem?_regs_fp (c : Code) (g : InterferenceGraph) (colors : Array (Option Nat)) :
    (c.withColors g colors).regs[c.frame.fp]? = some frameRegister :=
  Std.TreeMap.getElem?_insert_self

/-! ## §2 Rounds -/

theorem tryColor_eq_ok {c : Code} {k : Int} {avoid : TempSet} {g : InterferenceGraph}
    {coloring : Coloring} (h : c.tryColor k avoid = .ok (g, coloring)) :
    ∃ s, c.liveness = .ok s ∧ g = build c.frame.fp c.instrs s.points ∧
      coloring = g.color k.toNat avoid := by
  unfold Code.tryColor at h
  cases hp : c.checkPressure k with
  | error e =>
    rw [hp] at h
    cases h
  | ok u =>
    cases hs : c.liveness with
    | error e =>
      rw [hp, hs] at h
      cases h
    | ok s =>
      rw [hp, hs] at h
      cases h
      exact ⟨s, rfl, rfl, rfl⟩

/-- Spilled temps are vertices: temps of the code other than the frame pointer. -/
theorem mentions_of_spilled {c : Code} {k : Int} {avoid : TempSet} {g : InterferenceGraph}
    {coloring : Coloring} (h : c.tryColor k avoid = .ok (g, coloring)) :
    ∀ t ∈ coloring.spilled, t ≠ c.frame.fp ∧ Mentions c.instrs t := by
  obtain ⟨s, -, rfl, rfl⟩ := tryColor_eq_ok h
  intro t ht
  exact (contains_build ..).mp (Coloring.mem_index_of_spilled (wellFormed_build ..) ht)

/-- Spilling several temps keeps what spilling one temp keeps. -/
theorem run_spillAll_induct {P : Code → Supply → Prop} {ts : List Temp} {c c' : Code}
    {made made' : TempSet} {σ σ' : Supply}
    (hspill : ∀ c σ, ∀ t ∈ ts, P c σ → P ((c.spill t).run σ).1.1 ((c.spill t).run σ).2)
    (hP : P c σ) (hrun : (c.spillAll made ts).run σ = ((c', made'), σ')) : P c' σ' := by
  induction ts generalizing c made σ with
  | nil =>
    cases hrun
    exact hP
  | cons t ts ih =>
    rw [Code.spillAll, run_bind_state] at hrun
    exact ih (fun c σ t ht => hspill c σ t (List.mem_cons_of_mem _ ht))
      (hspill c σ t List.mem_cons_self hP) hrun

/-- **What spilling keeps holds in the last round** of a finished allocation: its code is that of the
last round with the registers of a colouring without spills. -/
theorem allocateRounds_induct {P : Code → Supply → Prop} {k : Int} {maxRounds : Nat}
    (hspill : ∀ c σ t, t ≠ c.frame.fp → P c σ →
      P ((c.spill t).run σ).1.1 ((c.spill t).run σ).2 ∧
        ((c.spill t).run σ).1.1.frame = c.frame)
    {fuel rounds : Nat} {avoid : TempSet} {spilled : List Temp} {c c' : Code} {σ σ' : Supply}
    {a : Allocation} (hP : P c σ)
    (hrun : (c.allocateRounds k maxRounds fuel rounds avoid spilled).run σ = ((c', .ok a), σ')) :
    ∃ c₀ avoid₀ g coloring, P c₀ σ' ∧ c₀.tryColor k avoid₀ = .ok (g, coloring) ∧
      coloring.spilled = [] ∧ c' = c₀.withColors g coloring.colors := by
  induction fuel generalizing rounds avoid spilled c σ with
  | zero => cases hrun
  | succ fuel ih =>
    unfold Code.allocateRounds at hrun
    cases hcolor : c.tryColor k avoid with
    | error fault =>
      rw [hcolor] at hrun
      cases hrun
    | ok gc =>
      obtain ⟨g, coloring⟩ := gc
      rw [hcolor] at hrun
      simp only at hrun
      by_cases hspilled : coloring.spilled.isEmpty = true
      · rw [if_pos hspilled] at hrun
        cases hrun
        exact ⟨c, avoid, g, coloring, hP, hcolor, List.isEmpty_iff.mp hspilled, rfl⟩
      · rw [if_neg hspilled, run_bind_state] at hrun
        -- Temps are spilled one after the other, and none of them is the frame pointer.
        refine ih ?_ hrun
        have hne := fun t ht => (mentions_of_spilled hcolor t ht).1
        refine (run_spillAll_induct (P := fun c₁ σ₁ => P c₁ σ₁ ∧ c₁.frame = c.frame)
          (fun c₁ σ₁ t ht h₁ => ?_) ⟨hP, rfl⟩ rfl).1
        obtain ⟨h₂, hframe⟩ := hspill c₁ σ₁ t (h₁.2 ▸ hne t ht) h₁.1
        exact ⟨h₂, hframe.trans h₁.2⟩

/-- Allocation starts the rounds with a number of registers in its range. -/
theorem allocate_eq_ok {k : Int} {c c' : Code} {σ σ' : Supply} {a : Allocation}
    (hrun : (c.allocate k).run σ = ((c', .ok a), σ')) : minRegisters ≤ k ∧ k ≤ maxRegisters ∧
      ∃ maxRounds, (c.allocateRounds k maxRounds maxRounds 0 ∅ []).run σ = ((c', .ok a), σ') := by
  unfold Code.allocate at hrun
  by_cases hk : k < minRegisters ∨ maxRegisters < k
  · rw [if_pos hk] at hrun
    cases hrun
  · rw [if_neg hk] at hrun
    exact ⟨by omega, by omega, _, hrun⟩

/-! ## §3 Guarantees -/

/-- What a finished allocation with `k` registers guarantees of its code and of its liveness. -/
structure Allocated (k : Int) (c : Code) (s : Liveness.Solution) : Prop where
  liveness : c.liveness = .ok s
  fp : c.regs[c.frame.fp]? = some frameRegister
  register : ∀ {t}, t ≠ c.frame.fp → Mentions c.instrs t → ∃ r, c.regs[t]? = some r ∧ 0 ≤ r ∧ r < k
  different : ∀ {i : Nat} {instr : Instr} {a b : Temp}, c.instrs[i]? = some instr →
    Interfere instr (s.points.getD i default).after a b → a ≠ b → a ≠ c.frame.fp →
    b ≠ c.frame.fp → Mentions c.instrs a → Mentions c.instrs b → c.regs[a]? ≠ c.regs[b]?

theorem allocated_withColors {c : Code} {k : Int} {avoid : TempSet} {g : InterferenceGraph}
    {coloring : Coloring} (hk : 0 ≤ k) (h : c.tryColor k avoid = .ok (g, coloring))
    (hspilled : coloring.spilled = []) : ∃ s, Allocated k (c.withColors g coloring.colors) s := by
  obtain ⟨s, hs, rfl, rfl⟩ := tryColor_eq_ok h
  have hg := wellFormed_build c.frame.fp c.instrs s.points
  obtain ⟨hsize, hproper, hlt, hall⟩ := Coloring.color_spec hg k.toNat avoid
  -- Every temp but the frame pointer has a vertex, and this has a colour.
  have hcolor : ∀ t, t ≠ c.frame.fp → Mentions c.instrs t → ∃ i n,
      (build c.frame.fp c.instrs s.points).index[t]? = some i ∧
      ((build c.frame.fp c.instrs s.points).color k.toNat avoid).colors.getD i none = some n ∧
      n < k.toNat := by
    intro t ht hmention
    have hmem := (contains_build c.frame.fp c.instrs s.points t).mpr ⟨ht, hmention⟩
    obtain ⟨i, hi⟩ := Option.isSome_iff_exists.mp (Std.TreeMap.mem_iff_isSome_getElem?.mp hmem)
    obtain ⟨n, hn⟩ := Option.isSome_iff_exists.mp (hall hspilled i (hg.index_lt hi))
    exact ⟨i, n, hi, hn, hlt i n hn⟩
  refine ⟨s, hs, getElem?_regs_fp .., fun {t} ht hmention => ?_, fun {i instr a b} hi hint hne ha hb
    hma hmb heq => ?_⟩
  · obtain ⟨i, n, hi, hn, hnk⟩ := hcolor t ht hmention
    exact ⟨n, getElem?_regs_withColors hg hsize ht hi hn, by omega, by omega⟩
  · obtain ⟨x, n, hx, hn, -⟩ := hcolor a ha hma
    obtain ⟨y, m, hy, hm, -⟩ := hcolor b hb hmb
    rw [getElem?_regs_withColors (c := c) hg hsize ha hx hn,
      getElem?_regs_withColors (c := c) hg hsize hb hy hm] at heq
    have hnm : n = m := by
      have := Option.some.inj heq
      omega
    have hlt' : i < s.points.length := by
      rw [Liveness.Solution.length_eq hs]
      exact (List.getElem?_eq_some_iff.mp hi).1
    have hpoint : s.points[i]? = some (s.points.getD i default) := by
      simp [hlt']
    obtain ⟨x', y', hx', hy', hadj⟩ := (adjacent_build c.frame.fp c.instrs s.points a b).mpr
      ⟨hne, ⟨ha, hma⟩, ⟨hb, hmb⟩, i, instr, _, hi, hpoint, hint⟩
    rw [hx] at hx'
    rw [hy] at hy'
    cases hx'
    cases hy'
    exact hproper x y n hadj hn (hnm ▸ hm)

/-- What the rounds of an allocation keep of the code `c` that they were started with. -/
structure Code.Continued (c c₁ : Code) (σ : Supply) : Prop where
  frame : c₁.frame = c.frame
  entry : c₁.entry = c.entry
  exit : c₁.exit = c.exit
  /-- The frame pointer is not a temp that will be made. -/
  old : c.frame.fp.index ≤ σ.temps
  defs : ∀ i ∈ c₁.instrs, c.frame.fp ∉ i.defs
  head : ∀ l, c.instrs.head? = some (.label l) → c₁.instrs.head? = some (.label l)

theorem Instr.head?_spillList {fp t : Temp} {offset : Word} {is : List Instr} {n : Int} {l : Label}
    (h : is.head? = some (.label l)) :
    (spillList fp t offset is n).instrs.head? = some (.label l) := by
  cases is with
  | nil => cases h
  | cons i is =>
    cases h
    simp [spillList, spilled, Spilled.instrs, uses, Instr.defs]

theorem Code.Continued.spill {c c₁ : Code} {σ : Supply} (h : c.Continued c₁ σ) (t : Temp) :
    c.Continued ((c₁.spill t).run σ).1.1 ((c₁.spill t).run σ).2 := by
  obtain ⟨n, l⟩ := σ
  rw [Code.run_spill]
  refine ⟨h.frame, h.entry, h.exit, ?_, ?_, ?_⟩
  · exact Int.le_trans h.old (Instr.le_next_spillList ..)
  · intro i hi hfp
    rcases (Instr.temps_spillList hi).1 _ hfp with ⟨j, hj, hd, -⟩ | hmade
    · exact h.defs j hj hd
    · have hlt := (Instr.mem_made_spillList.mp hmade).1
      have hle : c.frame.fp.index ≤ n := h.old
      omega
  · intro l' hl'
    exact Instr.head?_spillList (h.head l' hl')

/-- **A finished allocation has its guarantees**, and spilling has kept the frame pointer undefined. -/
theorem allocated_of_allocate {k : Int} {c c' : Code} {σ σ' : Supply} {a : Allocation}
    (hdefs : ∀ i ∈ c.instrs, c.frame.fp ∉ i.defs) (hold : c.frame.fp.index ≤ σ.temps)
    (hrun : (c.allocate k).run σ = ((c', .ok a), σ')) :
    k ≤ maxRegisters ∧ c.Continued c' σ' ∧ ∃ s, Allocated k c' s := by
  obtain ⟨hmin, hmax, maxRounds, hrounds⟩ := allocate_eq_ok hrun
  have hstart : c.Continued c σ := ⟨rfl, rfl, rfl, hold, hdefs, fun _ h => h⟩
  obtain ⟨c₀, avoid, g, coloring, hc₀, hcolor, hspilled, rfl⟩ :=
    allocateRounds_induct (P := c.Continued)
      (fun c₁ σ₁ t _ h => ⟨h.spill t, (h.spill t).frame.trans h.frame.symm⟩) hstart hrounds
  have hk : 0 ≤ k := Int.le_trans (by decide) hmin
  exact ⟨hmax, ⟨hc₀.frame, hc₀.entry, hc₀.exit, hc₀.old, hc₀.defs, hc₀.head⟩,
    allocated_withColors hk hcolor hspilled⟩

end MmixBackend
