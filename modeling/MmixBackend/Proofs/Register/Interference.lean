import MmixBackend.Register.Interference
import MmixBackend.Proofs.Instr.Liveness

/-!
# What an interference graph contains

The graph of an instruction list has a vertex for every temp but the frame pointer, each vertex lists
its neighbours once, and neighbourhood is symmetric. Two temps are neighbours exactly if they are
different and one of them is live after an instruction that defines the other one or after which the
other one is live too.

## Main statements

- `wellFormed_build`: the graph is well-formed.
- `contains_build`: which temps are vertices.
- `adjacent_build`: which temps are neighbours.
-/

namespace MmixBackend.InterferenceGraph

/-! ## §1 Well-formed graphs -/

/-- The table of vertices is right, and neighbourhood is symmetric and without loops and doubles. -/
structure WellFormed (g : InterferenceGraph) : Prop where
  index_iff : ∀ {t : Temp} {i : Nat}, g.index[t]? = some i ↔ ∃ v, g.vertices[i]? = some v ∧ v.temp = t
  symm : ∀ {i j : Nat}, j ∈ g.neighbors i → i ∈ g.neighbors j
  irrefl : ∀ {i : Nat}, i ∉ g.neighbors i
  lt_size : ∀ {i j : Nat}, j ∈ g.neighbors i → j < g.vertices.size
  nodup : ∀ i : Nat, (g.neighbors i).toList.Nodup

/-- The vertices of two temps are neighbours. -/
def Adjacent (g : InterferenceGraph) (s t : Temp) : Prop :=
  ∃ i j, g.index[s]? = some i ∧ g.index[t]? = some j ∧ j ∈ g.neighbors i

variable {g : InterferenceGraph}

theorem WellFormed.index_lt (h : g.WellFormed) {t : Temp} {i : Nat} (hi : g.index[t]? = some i) :
    i < g.vertices.size := by
  obtain ⟨v, hv, -⟩ := h.index_iff.mp hi
  exact (Array.getElem?_eq_some_iff.mp hv).1

theorem WellFormed.index_injective (h : g.WellFormed) {s t : Temp} {i : Nat}
    (hs : g.index[s]? = some i) (ht : g.index[t]? = some i) : s = t := by
  obtain ⟨v, hv, rfl⟩ := h.index_iff.mp hs
  obtain ⟨w, hw, rfl⟩ := h.index_iff.mp ht
  rw [hv] at hw
  cases hw
  rfl

theorem neighbors_empty (i : Nat) : ({} : InterferenceGraph).neighbors i = #[] := by
  simp [neighbors]

theorem wellFormed_empty : ({} : InterferenceGraph).WellFormed where
  index_iff := by simp
  symm := by simp [neighbors_empty]
  irrefl := by simp [neighbors_empty]
  lt_size := by simp [neighbors_empty]
  nodup := by simp [neighbors_empty]

/-! ## §2 Adding a vertex -/

theorem neighbors_addVertex (g : InterferenceGraph) (t : Temp) (i : Nat) :
    (g.addVertex t).neighbors i = g.neighbors i := by
  unfold addVertex
  split
  · rfl
  · by_cases hi : i = g.vertices.size
    · subst hi
      simp [neighbors]
    · simp [neighbors, Array.getElem?_push, hi]

theorem WellFormed.addVertex (h : g.WellFormed) (t : Temp) : (g.addVertex t).WellFormed where
  symm := by
    simp only [neighbors_addVertex]
    exact h.symm
  irrefl := by
    simp only [neighbors_addVertex]
    exact h.irrefl
  lt_size := by
    intro i j hj
    rw [neighbors_addVertex] at hj
    have hlt := h.lt_size hj
    unfold InterferenceGraph.addVertex
    split
    · exact hlt
    · simp only [Array.size_push]
      omega
  nodup := by
    simp only [neighbors_addVertex]
    exact h.nodup
  index_iff := by
    intro u i
    unfold InterferenceGraph.addVertex
    -- A temp that has a vertex already leaves the graph as it is.
    by_cases ht : g.index.contains t = true
    · rw [if_pos ht]
      exact h.index_iff
    · rw [if_neg ht]
      simp only [Std.TreeMap.getElem?_insert, Array.getElem?_push]
      by_cases hu : compare t u = .eq
      · -- The new vertex is the last one.
        obtain rfl : t = u := Std.LawfulEqOrd.eq_of_compare hu
        have hnone : g.index[t]? = none := by simpa using ht
        simp only [Std.LawfulEqOrd.compare_eq_iff_eq, if_true, Option.some.injEq]
        constructor
        · rintro rfl
          exact ⟨{ temp := t }, by simp, rfl⟩
        · rintro ⟨v, hv, hvt⟩
          split at hv
          · rename_i hi
            exact hi.symm
          · have := h.index_iff.mpr ⟨v, hv, hvt⟩
            rw [hnone] at this
            cases this
      · have hne : t ≠ u := fun heq => hu (by rw [heq]; exact Std.ReflOrd.compare_self)
        rw [if_neg hu, h.index_iff]
        constructor
        · rintro ⟨v, hv, hvt⟩
          have hlt := (Array.getElem?_eq_some_iff.mp hv).1
          exact ⟨v, by rw [if_neg (by omega)]; exact hv, hvt⟩
        · rintro ⟨v, hv, hvt⟩
          split at hv
          · cases hv
            exact absurd hvt hne
          · exact ⟨v, hv, hvt⟩

theorem contains_addVertex (g : InterferenceGraph) (t u : Temp) :
    u ∈ (g.addVertex t).index ↔ u = t ∨ u ∈ g.index := by
  unfold addVertex
  by_cases ht : g.index.contains t = true
  · rw [if_pos ht]
    constructor
    · exact .inr
    · rintro (rfl | h)
      · exact ht
      · exact h
  · rw [if_neg ht]
    simp only [Std.TreeMap.mem_insert, Std.LawfulEqOrd.compare_eq_iff_eq]
    rw [eq_comm]

/-! ## §3 Adding an edge -/

theorem getElem?_link {vertices : Array Vertex} {i j x : Nat} :
    (link vertices i j)[x]? = if i = x then
      vertices[x]?.map fun v => { v with neighbors := v.neighbors.push j } else vertices[x]? := by
  rw [link, Array.getElem?_modify]

/-- The neighbours after a new edge between the vertices `i` and `j`. -/
theorem neighbors_link {vertices : Array Vertex} {index : Std.TreeMap Temp Nat} {i j : Nat}
    (hi : i < vertices.size) (hj : j < vertices.size) (hij : i ≠ j) (x : Nat) :
    neighbors ⟨link (link vertices i j) j i, index⟩ x
      = if x = i then (neighbors ⟨vertices, index⟩ i).push j
        else if x = j then (neighbors ⟨vertices, index⟩ j).push i
        else neighbors ⟨vertices, index⟩ x := by
  simp only [neighbors, getElem?_link]
  by_cases hxi : x = i
  · subst hxi
    simp [Ne.symm hij, hi]
  · by_cases hxj : x = j
    · subst hxj
      simp [hij, hj, hxi]
    · simp [Ne.symm hxi, Ne.symm hxj, hxi, hxj]

/-- An edge is added to vertices that are different and no neighbours yet, and then it is there. -/
theorem addEdge_cases (h : g.WellFormed) (s t : Temp) :
    (g.addEdge s t = g ∧
      ∀ i j, g.index[s]? = some i → g.index[t]? = some j → i = j ∨ j ∈ g.neighbors i) ∨
    ∃ i j, g.index[s]? = some i ∧ g.index[t]? = some j ∧ i ≠ j ∧ j ∉ g.neighbors i ∧
      (g.addEdge s t).index = g.index ∧ (g.addEdge s t).vertices = link (link g.vertices i j) j i ∧
      ∀ x, (g.addEdge s t).neighbors x = if x = i then (g.neighbors i).push j
        else if x = j then (g.neighbors j).push i else g.neighbors x := by
  unfold addEdge
  cases hs : g.index[s]? with
  | none => exact .inl ⟨rfl, by simp⟩
  | some i =>
    cases ht : g.index[t]? with
    | none => exact .inl ⟨rfl, by simp⟩
    | some j =>
      -- Loops and edges that are there already are left out.
      by_cases hcond : i = j ∨ (g.neighbors i).contains j = true
      · refine .inl ⟨by simp only [if_pos hcond], ?_⟩
        rintro i' j' hi' hj'
        cases hi'
        cases hj'
        exact hcond.imp_right fun hmem => by simpa using hmem
      · have hne : i ≠ j := fun heq => hcond (.inl heq)
        have hnew : j ∉ g.neighbors i := fun hmem => hcond (.inr (by simpa using hmem))
        refine .inr ⟨i, j, rfl, rfl, hne, hnew, ?_⟩
        simp only [if_neg hcond]
        exact ⟨trivial, trivial, neighbors_link (h.index_lt hs) (h.index_lt ht) hne⟩

theorem index_addEdge (h : g.WellFormed) (s t : Temp) : (g.addEdge s t).index = g.index := by
  rcases addEdge_cases h s t with ⟨heq, -⟩ | ⟨_, _, -, -, -, -, hindex, -⟩
  · rw [heq]
  · exact hindex

theorem WellFormed.addEdge (h : g.WellFormed) (s t : Temp) : (g.addEdge s t).WellFormed := by
  rcases addEdge_cases h s t with ⟨heq, -⟩ | ⟨i, j, hi, hj, hij, hnew, hindex, hvertices, hnbrs⟩
  · rw [heq]
    exact h
  have hi' := h.index_lt hi
  have hj' := h.index_lt hj
  -- No vertex is added.
  have hsize : (g.addEdge s t).vertices.size = g.vertices.size := by
    rw [hvertices]
    simp [link]
  -- Every neighbour is an old one or comes from the new edge.
  have hmem : ∀ x y, y ∈ (g.addEdge s t).neighbors x ↔
      y ∈ g.neighbors x ∨ (x = i ∧ y = j) ∨ (x = j ∧ y = i) := by
    intro x y
    rw [hnbrs]
    by_cases hxi : x = i
    · subst hxi
      simp [hij]
    · by_cases hxj : x = j
      · subst hxj
        simp [hxi]
      · simp [hxi, hxj]
  -- The index, then that neighbours are mutual, not a vertex itself, in range and listed once.
  refine ⟨?_, ?_, ?_, ?_, ?_⟩
  · intro u x
    rw [hindex, h.index_iff, hvertices]
    simp only [getElem?_link]
    by_cases hxi : i = x
    · subst hxi
      simp [Ne.symm hij]
    · by_cases hxj : j = x
      · subst hxj
        simp [hxi]
      · simp [hxi, hxj]
  · intro x y hy
    rw [hmem] at hy ⊢
    rcases hy with hy | ⟨rfl, rfl⟩ | ⟨rfl, rfl⟩
    · exact .inl (h.symm hy)
    · exact .inr (.inr ⟨rfl, rfl⟩)
    · exact .inr (.inl ⟨rfl, rfl⟩)
  · intro x hx
    rcases (hmem x x).mp hx with hx | ⟨rfl, heq⟩ | ⟨rfl, heq⟩
    · exact h.irrefl hx
    · exact hij heq
    · exact hij heq.symm
  · intro x y hy
    rw [hsize]
    rcases (hmem x y).mp hy with hy | ⟨-, rfl⟩ | ⟨-, rfl⟩
    · exact h.lt_size hy
    · exact hj'
    · exact hi'
  · intro x
    rw [hnbrs]
    have hnew' : i ∉ g.neighbors j := fun hmem => hnew (h.symm hmem)
    split
    · simpa [List.nodup_append, h.nodup i] using fun y hy => by
        rintro rfl
        exact hnew (by simpa using hy)
    · split
      · simpa [List.nodup_append, h.nodup j] using fun y hy => by
          rintro rfl
          exact hnew' (by simpa using hy)
      · exact h.nodup x

/-- Neighbours after adding an edge. -/
theorem adjacent_addEdge (h : g.WellFormed) {s t a b : Temp} : (g.addEdge s t).Adjacent a b ↔
    g.Adjacent a b ∨ (a ≠ b ∧ a ∈ g.index ∧ b ∈ g.index ∧ ((a = s ∧ b = t) ∨ (a = t ∧ b = s))) := by
  rcases addEdge_cases h s t with ⟨heq, hthere⟩ | ⟨i, j, hi, hj, hij, hnew, hindex, -, hnbrs⟩
  · rw [heq]
    constructor
    · exact .inl
    · rintro (hadj | ⟨hne, ha, hb, hab⟩)
      · exact hadj
      · -- The edge was there already.
        obtain ⟨x, hx⟩ := Option.isSome_iff_exists.mp (Std.TreeMap.mem_iff_isSome_getElem?.mp ha)
        obtain ⟨y, hy⟩ := Option.isSome_iff_exists.mp (Std.TreeMap.mem_iff_isSome_getElem?.mp hb)
        rcases hab with ⟨rfl, rfl⟩ | ⟨rfl, rfl⟩
        · rcases hthere x y hx hy with rfl | hmem
          · exact absurd (h.index_injective hx hy) hne
          · exact ⟨x, y, hx, hy, hmem⟩
        · rcases hthere y x hy hx with rfl | hmem
          · exact absurd (h.index_injective hx hy) hne
          · exact ⟨x, y, hx, hy, h.symm hmem⟩
  -- A new edge: only two lists of neighbours are longer than before.
  · simp only [Adjacent, hindex, hnbrs]
    constructor
    · rintro ⟨x, y, hx, hy, hmem⟩
      -- Only the two ends of the edge have a new neighbour, namely each other.
      by_cases hxi : x = i
      · subst hxi
        simp only [if_true, Array.mem_push] at hmem
        rcases hmem with hmem | rfl
        · exact .inl ⟨x, y, hx, hy, hmem⟩
        · obtain rfl := h.index_injective hx hi
          obtain rfl := h.index_injective hy hj
          refine .inr ⟨fun heq => ?_, Std.TreeMap.mem_iff_isSome_getElem?.mpr (by simp [hx]),
            Std.TreeMap.mem_iff_isSome_getElem?.mpr (by simp [hy]), .inl ⟨rfl, rfl⟩⟩
          rw [heq, hy] at hx
          cases hx
          exact hij rfl
      · by_cases hxj : x = j
        · subst hxj
          simp only [hxi, if_false, if_true, Array.mem_push] at hmem
          rcases hmem with hmem | rfl
          · exact .inl ⟨x, y, hx, hy, hmem⟩
          · obtain rfl := h.index_injective hx hj
            obtain rfl := h.index_injective hy hi
            refine .inr ⟨fun heq => ?_, Std.TreeMap.mem_iff_isSome_getElem?.mpr (by simp [hx]),
              Std.TreeMap.mem_iff_isSome_getElem?.mpr (by simp [hy]), .inr ⟨rfl, rfl⟩⟩
            rw [heq, hy] at hx
            cases hx
            exact hij rfl
        · simp only [hxi, hxj, if_false] at hmem
          exact .inl ⟨x, y, hx, hy, hmem⟩
    -- Old neighbours are kept in all lists, also in those that have grown.
    · rintro (⟨x, y, hx, hy, hmem⟩ | ⟨-, -, -, ⟨rfl, rfl⟩ | ⟨rfl, rfl⟩⟩)
      · refine ⟨x, y, hx, hy, ?_⟩
        split
        · rename_i hxi
          subst hxi
          simp [hmem]
        · split
          · rename_i hxj
            subst hxj
            simp [hmem]
          · exact hmem
      · exact ⟨i, j, hi, hj, by simp⟩
      · exact ⟨j, i, hj, hi, by simp [Ne.symm hij]⟩

/-! ## §4 The graph of an instruction list -/

/-- Adds an edge for each pair of a list. -/
def addPairs (g : InterferenceGraph) (ps : List (Temp × Temp)) : InterferenceGraph :=
  ps.foldl (fun g p => g.addEdge p.1 p.2) g

theorem addPairs_append (g : InterferenceGraph) (ps qs : List (Temp × Temp)) :
    g.addPairs (ps ++ qs) = (g.addPairs ps).addPairs qs := by
  simp [addPairs]

/-- Adding edges keeps the vertices, and the new neighbours are the temps of the pairs. -/
theorem addPairs_spec (h : g.WellFormed) (ps : List (Temp × Temp)) :
    (g.addPairs ps).WellFormed ∧ (g.addPairs ps).index = g.index ∧
      ∀ a b, (g.addPairs ps).Adjacent a b ↔ g.Adjacent a b ∨
        (a ≠ b ∧ a ∈ g.index ∧ b ∈ g.index ∧ ((a, b) ∈ ps ∨ (b, a) ∈ ps)) := by
  induction ps generalizing g with
  | nil => exact ⟨h, rfl, fun a b => by simp [addPairs]⟩
  | cons p ps ih =>
    obtain ⟨hwf, hindex, hadj⟩ := ih (h.addEdge p.1 p.2)
    have hkeep := index_addEdge h p.1 p.2
    refine ⟨hwf, hindex.trans hkeep, fun a b => ?_⟩
    show ((g.addEdge p.1 p.2).addPairs ps).Adjacent a b ↔ _
    rw [hadj, adjacent_addEdge h, hkeep]
    simp only [List.mem_cons, Prod.ext_iff]
    grind

/-- The pairs of different places of a list. -/
def pairsOf : List Temp → List (Temp × Temp)
  | [] => []
  | t :: ts => ts.map (t, ·) ++ pairsOf ts

theorem mem_pairsOf (ts : List Temp) {a b : Temp} (hne : a ≠ b) :
    ((a, b) ∈ pairsOf ts ∨ (b, a) ∈ pairsOf ts) ↔ a ∈ ts ∧ b ∈ ts := by
  induction ts with
  | nil => simp [pairsOf]
  | cons t ts ih =>
    simp only [pairsOf, List.mem_append, List.mem_map, Prod.mk.injEq, List.mem_cons]
    grind

theorem addEdges_eq (g : InterferenceGraph) (s : Temp) (ts : List Temp) :
    g.addEdges s ts = g.addPairs (ts.map (s, ·)) := by
  simp [addEdges, addPairs, List.foldl_map]

theorem addClique_eq (g : InterferenceGraph) (ts : List Temp) :
    g.addClique ts = g.addPairs (pairsOf ts) := by
  induction ts generalizing g with
  | nil => rfl
  | cons t ts ih => rw [addClique, ih, addEdges_eq, pairsOf, addPairs_append]

/-- The pairs of temps that interfere because of one instruction. -/
def interferences (instr : Instr) (after : TempSet) : List (Temp × Temp) :=
  pairsOf after.toList ++ instr.defs.flatMap fun d => after.toList.map (d, ·)

theorem addInstr_eq (g : InterferenceGraph) (instr : Instr) (after : TempSet) :
    g.addInstr instr after = g.addPairs (interferences instr after) := by
  rw [addInstr, interferences, addPairs_append, addClique_eq]
  generalize g.addPairs (pairsOf after.toList) = g'
  induction instr.defs generalizing g' with
  | nil => rfl
  | cons d ds ih => rw [List.foldl_cons, ih, List.flatMap_cons, addPairs_append, addEdges_eq]

theorem build_eq (fp : Temp) (instrs : List Instr) (live : List LivePoint) :
    build fp instrs live = (ofTemps fp instrs).addPairs
      ((instrs.zip live).flatMap fun (instr, p) => interferences instr p.after) := by
  unfold build
  generalize ofTemps fp instrs = g
  induction instrs.zip live generalizing g with
  | nil => rfl
  | cons ip ips ih =>
    obtain ⟨instr, p⟩ := ip
    rw [List.foldl_cons, ih, List.flatMap_cons, addPairs_append]
    simp only [addInstr_eq]

/-- Vertices are added for the temps of a list other than `fp`. -/
theorem addTemps_spec (h : g.WellFormed) (fp : Temp) (ts : List Temp)
    (hnone : ∀ i, g.neighbors i = #[]) :
    (ts.foldl (fun g t => if t = fp then g else g.addVertex t) g).WellFormed ∧
      (∀ i, (ts.foldl (fun g t => if t = fp then g else g.addVertex t) g).neighbors i = #[]) ∧
      ∀ u, u ∈ (ts.foldl (fun g t => if t = fp then g else g.addVertex t) g).index ↔
        u ∈ g.index ∨ (u ≠ fp ∧ u ∈ ts) := by
  induction ts generalizing g with
  | nil => exact ⟨h, hnone, by simp⟩
  | cons t ts ih =>
    rw [List.foldl_cons]
    by_cases ht : t = fp
    · rw [if_pos ht]
      obtain ⟨hwf, hnbrs, hmem⟩ := ih h hnone
      refine ⟨hwf, hnbrs, fun u => ?_⟩
      rw [hmem]
      grind
    · rw [if_neg ht]
      obtain ⟨hwf, hnbrs, hmem⟩ := ih (h.addVertex t) fun i => by rw [neighbors_addVertex, hnone]
      refine ⟨hwf, hnbrs, fun u => ?_⟩
      rw [hmem, contains_addVertex]
      grind

/-- A temp that an instruction of a list uses or defines. -/
def Mentions (instrs : List Instr) (t : Temp) : Prop :=
  ∃ instr ∈ instrs, t ∈ instr.uses ∨ t ∈ instr.defs

theorem ofTemps_spec (fp : Temp) (instrs : List Instr) :
    (ofTemps fp instrs).WellFormed ∧ (∀ i, (ofTemps fp instrs).neighbors i = #[]) ∧
      ∀ u, u ∈ (ofTemps fp instrs).index ↔ u ≠ fp ∧ Mentions instrs u := by
  suffices key : ∀ g : InterferenceGraph, g.WellFormed → (∀ i, g.neighbors i = #[]) →
      let g' := instrs.foldl (fun g instr =>
        (instr.uses ++ instr.defs).foldl (fun g t => if t = fp then g else g.addVertex t) g) g
      g'.WellFormed ∧ (∀ i, g'.neighbors i = #[]) ∧
        ∀ u, u ∈ g'.index ↔ u ∈ g.index ∨ (u ≠ fp ∧ Mentions instrs u) by
    simpa [ofTemps] using key {} wellFormed_empty neighbors_empty
  induction instrs with
  | nil =>
    intro g h hnone
    exact ⟨h, hnone, by simp [Mentions]⟩
  | cons instr instrs ih =>
    intro g h hnone
    obtain ⟨hwf, hnbrs, hmem⟩ := addTemps_spec h fp (instr.uses ++ instr.defs) hnone
    obtain ⟨hwf', hnbrs', hmem'⟩ := ih _ hwf hnbrs
    refine ⟨hwf', hnbrs', fun u => (hmem' u).trans ?_⟩
    rw [hmem]
    simp only [Mentions, List.mem_cons, List.mem_append]
    grind

section Build

variable (fp : Temp) (instrs : List Instr) (live : List LivePoint)

theorem wellFormed_build : (build fp instrs live).WellFormed := by
  rw [build_eq]
  exact (addPairs_spec (ofTemps_spec fp instrs).1 _).1

/-- The vertices are the temps of the list other than `fp`. -/
theorem contains_build (t : Temp) :
    t ∈ (build fp instrs live).index ↔ t ≠ fp ∧ Mentions instrs t := by
  rw [build_eq, (addPairs_spec (ofTemps_spec fp instrs).1 _).2.1]
  exact (ofTemps_spec fp instrs).2.2 t

/-- Two temps interfere because of an instruction and what is live after it. -/
def Interfere (instr : Instr) (after : TempSet) (a b : Temp) : Prop :=
  (a ∈ after ∧ b ∈ after) ∨ (a ∈ instr.defs ∧ b ∈ after) ∨ (b ∈ instr.defs ∧ a ∈ after)

/-- **The edges of the graph**: two different vertices are neighbours exactly if they interfere because
of some instruction. -/
theorem adjacent_build (a b : Temp) : (build fp instrs live).Adjacent a b ↔
    a ≠ b ∧ (a ≠ fp ∧ Mentions instrs a) ∧ (b ≠ fp ∧ Mentions instrs b) ∧
      ∃ (i : Nat) (instr : Instr) (p : LivePoint), instrs[i]? = some instr ∧ live[i]? = some p ∧
        Interfere instr p.after a b := by
  obtain ⟨hwf, hnbrs, hmem⟩ := ofTemps_spec fp instrs
  rw [build_eq, (addPairs_spec hwf _).2.2, hmem, hmem]
  -- The graph starts without edges, so all edges come from pairs.
  have hnone : ¬(ofTemps fp instrs).Adjacent a b := by
    rintro ⟨i, j, -, -, hj⟩
    rw [hnbrs] at hj
    simp at hj
  simp only [hnone, false_or]
  refine and_congr_right fun hne => and_congr_right fun _ => and_congr_right fun _ => ?_
  have hzip : ∀ ip, ip ∈ instrs.zip live ↔
      ∃ i : Nat, instrs[i]? = some ip.1 ∧ live[i]? = some ip.2 := by
    intro ip
    rw [List.mem_iff_getElem?]
    exact exists_congr fun i => List.getElem?_zip_eq_some
  have hpair : ∀ instr (after : TempSet), ((a, b) ∈ interferences instr after ∨
      (b, a) ∈ interferences instr after) ↔ Interfere instr after a b := by
    intro instr after
    have := mem_pairsOf after.toList hne
    simp only [interferences, Interfere, List.mem_append, List.mem_flatMap, List.mem_map,
      Prod.mk.injEq]
    change _ ↔ (a ∈ after.toList ∧ b ∈ after.toList) ∨ (a ∈ instr.defs ∧ b ∈ after.toList) ∨
      (b ∈ instr.defs ∧ a ∈ after.toList)
    grind
  simp only [List.mem_flatMap, Prod.exists, hzip]
  constructor
  · rintro (⟨instr, p, ⟨i, hi, hp⟩, hmem⟩ | ⟨instr, p, ⟨i, hi, hp⟩, hmem⟩)
    · exact ⟨i, instr, p, hi, hp, (hpair instr p.after).mp (.inl hmem)⟩
    · exact ⟨i, instr, p, hi, hp, (hpair instr p.after).mp (.inr hmem)⟩
  · rintro ⟨i, instr, p, hi, hp, hint⟩
    rcases (hpair instr p.after).mpr hint with hmem | hmem
    · exact .inl ⟨instr, p, ⟨i, hi, hp⟩, hmem⟩
    · exact .inr ⟨instr, p, ⟨i, hi, hp⟩, hmem⟩

end Build

end MmixBackend.InterferenceGraph
