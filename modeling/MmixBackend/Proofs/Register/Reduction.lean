import MmixBackend.Proofs.Register.Coloring
import Mathlib.Data.Finset.Filter
import Mathlib.Data.Finset.Range

/-!
# Reduction and colouring of an arbitrary graph

Colouring works on any graph that adding vertices and edges leads to, whatever instructions it comes
from. The reduction passes through a sequence of states. In each of them the degree of a vertex that
is still there counts its neighbours that are still there, and the worklist has those below `k`. So
the reduction stops only when nothing is left, and a vertex that is taken off with a low degree
finds a colour when the vertices come back in the opposite order: those of its neighbours that have
a colour by then were there when it was taken off.

## Main statements

- `Passes.next`: a state of the reduction is the last one or has one more vertex taken off.
- `Passes.supports`: neighbours that are back before a vertex were there when it was taken off.
- `colored_of_built`: what the reduction and the colouring of any graph come to.
-/

namespace MmixBackend

namespace InterferenceGraph

/-- The graphs that adding vertices and edges one after the other leads to. -/
inductive Built : InterferenceGraph → Prop
  | empty : Built {}
  | addVertex {g : InterferenceGraph} (h : Built g) (t : Temp) : Built (g.addVertex t)
  | addEdge {g : InterferenceGraph} (h : Built g) (s t : Temp) : Built (g.addEdge s t)

theorem Built.wellFormed {g : InterferenceGraph} (h : g.Built) : g.WellFormed := by
  induction h with
  | empty => exact wellFormed_empty
  | addVertex _ t ih => exact ih.addVertex t
  | addEdge _ s t ih => exact ih.addEdge s t

end InterferenceGraph

namespace Coloring

variable {g : InterferenceGraph} {k : Nat} {avoid : TempSet}

/-! ## §1 The worklist has low vertices only -/

/-- No vertex of the worklist is a potential spill. -/
def Listed (r : Reduction) : Prop := ∀ i ∈ r.worklist, r.stage i ≠ .high

theorem Listed.detach {r : Reduction} (h : Listed r) (j : Nat) : Listed (detach k r j) := by
  by_cases hj : r.stage j = .removed
  · simpa [Coloring.detach, hj] using h
  rcases detach_cases (k := k) r j hj with ⟨-, -, heq⟩ | ⟨-, heq⟩
  · -- The vertex that comes onto the worklist is low from now on.
    intro i hi
    rw [heq] at hi ⊢
    show (r.stages.setIfInBounds j .low).getD i .removed ≠ .high
    rw [stage_set r j i .low (lt_of_stage hj)]
    by_cases hij : j = i
    · simp [hij]
    · rw [if_neg hij]
      apply h
      simpa [Ne.symm hij] using hi
  · rw [heq]
    exact h

theorem Listed.foldl_detach {r : Reduction} (h : Listed r) (js : List Nat) :
    Listed (js.foldl (Coloring.detach k) r) := by
  induction js generalizing r with
  | nil => exact h
  | cons j js ih => exact ih (h.detach j)

theorem Listed.remove {r : Reduction} (h : Listed r) {i : Nat} (hi : i < r.stages.size)
    {worklist : List Nat} (hsub : worklist ⊆ r.worklist) :
    Listed (remove k g { r with worklist } i) := by
  unfold Coloring.remove
  rw [← Array.foldl_toList]
  apply Listed.foldl_detach
  intro j hj
  show (r.stages.setIfInBounds i .removed).getD j .removed ≠ .high
  rw [stage_set r i j .removed hi]
  by_cases hij : i = j
  · simp [hij]
  · rw [if_neg hij]
    exact h j (hsub hj)

theorem popLow_subset {stages : Array Stage} {worklist rest : List Nat} {i : Nat}
    (h : popLow stages worklist = some (i, rest)) : rest ⊆ worklist := by
  induction worklist with
  | nil => cases h
  | cons x worklist ih =>
    unfold popLow at h
    split at h
    · cases h
      exact List.subset_cons_self _ _
    · exact List.subset_cons_of_subset _ (ih h)

theorem Listed.step {r r' : Reduction} (h : Listed r)
    (hstep : reduceStep k g avoid r = some r') : Listed r' := by
  unfold reduceStep at hstep
  cases hpop : popLow r.stages r.worklist with
  | some popped =>
    rw [hpop] at hstep
    cases hstep
    have hi : r.stage popped.1 = .low := (popLow_eq_some hpop).1
    apply h.remove (lt_of_stage (by simp [hi]))
    exact popLow_subset hpop
  | none =>
    rw [hpop] at hstep
    obtain ⟨i, hpick, rfl⟩ := Option.map_eq_some_iff.mp hstep
    have hi := ((pickSpill_spec (g := g) avoid r (List.range g.vertices.size)).2 i hpick).1
    exact h.remove (lt_of_stage (by simp [hi])) (List.nil_subset _)

theorem listed_start (k : Nat) (g : InterferenceGraph) : Listed (start k g) := by
  intro i hi
  have hlow : (start k g).degrees.getD i 0 < k :=
    of_decide_eq_true (List.mem_filter.mp (List.mem_reverse.mp hi)).2
  simp only [start, Reduction.stage, Array.getD_eq_getD_getElem?, Array.getElem?_map] at hlow ⊢
  cases hd : g.vertices[i]? with
  | none => simp
  | some v =>
    have hfew : ¬k ≤ v.neighbors.size := by simpa [hd] using hlow
    simp [hfew]

/-! ## §2 The states of the reduction -/

/-- The states that the reduction passes through. -/
inductive Passes (k : Nat) (g : InterferenceGraph) (avoid : TempSet) : Reduction → Prop
  | start : Passes k g avoid (start k g)
  | step {r r' : Reduction} (h : Passes k g avoid r) (hstep : reduceStep k g avoid r = some r') :
      Passes k g avoid r'

/-- The reduction takes the vertex off when it leaves the state. -/
def TakesOff (k : Nat) (g : InterferenceGraph) (avoid : TempSet) (r : Reduction) (i : Nat) : Prop :=
  ∃ r', reduceStep k g avoid r = some r' ∧ r'.stack = i :: r.stack

namespace Passes

variable {r r' : Reduction}

theorem invariant (hg : g.WellFormed) (h : Passes k g avoid r) : Reducing k g [] r ∧ Listed r := by
  induction h with
  | start => exact ⟨reducing_start hg, listed_start k g⟩
  | step _ hstep ih =>
    obtain ⟨hr, hlisted⟩ := ih
    refine ⟨?_, hlisted.step hstep⟩
    rcases hr.step hg avoid with ⟨hnone, -⟩ | ⟨r'', _, heq, -, hr'', -⟩
    · rw [hstep] at hnone
      cases hnone
    · rw [hstep] at heq
      cases heq
      exact hr''

/-- A state is the last one, with all vertices taken off, or one more vertex is taken off. It is a low
one, unless all that are left are high. -/
theorem next (hg : g.WellFormed) (h : Passes k g avoid r) :
    (reduceStep k g avoid r = none ∧ ∀ i, r.stage i = .removed) ∨
      ∃ r' i, reduceStep k g avoid r = some r' ∧ r'.stack = i :: r.stack ∧ r.stage i ≠ .removed ∧
        (r.stage i = .low ∨ ∀ j, r.stage j ≠ .low) := by
  rcases (h.invariant hg).1.step hg avoid with hlast | ⟨r', i, heq, hi, -, hstack, hwhy⟩
  · exact .inl hlast
  · exact .inr ⟨r', i, heq, hstack, hi, hwhy.imp_right And.left⟩

theorem takesOff (hg : g.WellFormed) (h : Passes k g avoid r)
    (hstep : reduceStep k g avoid r = some r') : ∃ i, r'.stack = i :: r.stack := by
  rcases h.next hg with ⟨hnone, -⟩ | ⟨r'', i, heq, hstack, -⟩
  · rw [hstep] at hnone
    cases hnone
  · rw [hstep] at heq
    cases heq
    exact ⟨i, hstack⟩

/-- A vertex is still there if it is not on the stack. -/
theorem stage_eq_removed_iff (hg : g.WellFormed) (h : Passes k g avoid r) {i : Nat}
    (hi : i < g.vertices.size) : r.stage i = .removed ↔ i ∈ r.stack :=
  (h.invariant hg).1.removed_iff i hi

/-- The degree of a vertex that is still there counts its neighbours that are still there. -/
theorem degree_eq (hg : g.WellFormed) (h : Passes k g avoid r) {i : Nat} (hi : i < g.vertices.size)
    (hthere : i ∉ r.stack) :
    r.degree i = ((g.neighbors i).toList.filter fun j => j ∉ r.stack).length := by
  have hstage : r.stage i ≠ .removed := fun heq => hthere ((h.stage_eq_removed_iff hg hi).mp heq)
  have hdegree : r.degree i = remaining g r i := by simpa using (h.invariant hg).1.degree i hstage
  rw [hdegree, remaining]
  refine congrArg List.length (List.filter_congr fun j hj => ?_)
  have hiff := h.stage_eq_removed_iff hg (hg.lt_size (Array.mem_toList_iff.mp hj))
  simp [hiff]

/-- The worklist has the vertices below `k`, among those that are still there. -/
theorem mem_worklist_iff (hg : g.WellFormed) (h : Passes k g avoid r) {i : Nat}
    (hi : i < g.vertices.size) (hthere : i ∉ r.stack) : i ∈ r.worklist ↔ r.degree i < k := by
  obtain ⟨hr, hlisted⟩ := h.invariant hg
  have hstage : r.stage i ≠ .removed := fun heq => hthere ((h.stage_eq_removed_iff hg hi).mp heq)
  rw [← hr.low_iff i hstage]
  refine ⟨fun hmem => ?_, hr.low_mem i⟩
  cases hs : r.stage i with
  | low => rfl
  | high => exact absurd hs (hlisted i hmem)
  | removed => exact absurd hs hstage

/-- No state has more vertices taken off than there are. -/
theorem length_stack_le (hg : g.WellFormed) (h : Passes k g avoid r) :
    r.stack.length ≤ g.vertices.size := by
  have hr := (h.invariant hg).1
  have hsub : r.stack ⊆ List.range g.vertices.size := fun i hi => List.mem_range.mpr (hr.stack_lt i hi)
  simpa using (List.subperm_of_subset hr.stack_nodup hsub).length_le

/-- From every state the remaining vertices are taken off in as many steps as there are vertices left. -/
theorem reduceLoop_eq (hg : g.WellFormed) (h : Passes k g avoid r) :
    reduceLoop k g avoid (g.vertices.size - r.stack.length) r
      = reduceLoop k g avoid g.vertices.size (Coloring.start k g) := by
  induction h with
  | start => rfl
  | step hr hstep ih =>
    obtain ⟨i, hstack⟩ := hr.takesOff hg hstep
    have hle := (hr.step hstep).length_stack_le hg
    rw [hstack, List.length_cons] at hle ⊢
    rw [← ih, ← Nat.succ_pred_eq_of_pos (Nat.sub_pos_of_lt hle), reduceLoop, hstep]
    congr 1

/-- What has been taken off lies at the bottom of the stack from then on. -/
theorem suffix_reduceLoop (hg : g.WellFormed) (fuel : Nat) (h : Passes k g avoid r) :
    r.stack <:+ (reduceLoop k g avoid fuel r).stack := by
  induction fuel generalizing r with
  | zero => exact List.suffix_rfl
  | succ fuel ih =>
    unfold reduceLoop
    split
    · next r' hstep =>
      obtain ⟨i, hstack⟩ := h.takesOff hg hstep
      apply List.IsSuffix.trans _ (ih (h.step hstep))
      exact hstack ▸ List.suffix_cons i r.stack
    · exact List.suffix_rfl

theorem suffix_reduce (hg : g.WellFormed) (h : Passes k g avoid r) : r.stack <:+ reduce k g avoid := by
  rw [reduce, ← h.reduceLoop_eq hg]
  exact h.suffix_reduceLoop hg _

/-- The state that the reduction stops in is one that it passes through. -/
theorem reduceLoop (fuel : Nat) (h : Passes k g avoid r) :
    Passes k g avoid (reduceLoop k g avoid fuel r) := by
  induction fuel generalizing r with
  | zero => exact h
  | succ fuel ih =>
    unfold Coloring.reduceLoop
    split
    · next hstep => exact ih (h.step hstep)
    · exact h

/-- The last state of all. -/
theorem last (k : Nat) (g : InterferenceGraph) (avoid : TempSet) :
    Passes k g avoid (Coloring.reduceLoop k g avoid g.vertices.size (Coloring.start k g)) :=
  reduceLoop _ .start

/-- What is on the stack has been taken off. -/
theorem exists_takesOff (hg : g.WellFormed) (h : Passes k g avoid r) {i : Nat} (hi : i ∈ r.stack) :
    ∃ r', Passes k g avoid r' ∧ TakesOff k g avoid r' i := by
  induction h with
  | start => cases hi
  | step hr hstep ih =>
    obtain ⟨j, hstack⟩ := hr.takesOff hg hstep
    rw [hstack] at hi
    rcases List.mem_cons.mp hi with rfl | hi
    · exact ⟨_, hr, _, hstep, hstack⟩
    · exact ih hi

end Passes

/-- The reduction does not stop before all vertices are taken off. -/
theorem reduceStep_reduceLoop (hg : g.WellFormed) :
    reduceStep k g avoid (reduceLoop k g avoid g.vertices.size (start k g)) = none := by
  have hlast := Passes.last k g avoid
  rcases hlast.next hg with ⟨hnone, -⟩ | ⟨r', i, -, -, hi, -⟩
  · exact hnone
  · -- A vertex that is still there would be on the stack.
    have hlt : i < g.vertices.size := (hlast.invariant hg).1.stages_size ▸ lt_of_stage hi
    exact absurd ((hlast.stage_eq_removed_iff hg hlt).mpr (mem_reduce hg avoid hlt)) hi

/-- The reduction takes off every vertex once. -/
theorem perm_reduce (hg : g.WellFormed) : (reduce k g avoid).Perm (List.range g.vertices.size) := by
  have hlast := Passes.last k g avoid
  have hr := (hlast.invariant hg).1
  refine (List.perm_ext_iff_of_nodup hr.stack_nodup List.nodup_range).mpr fun i => ?_
  rw [List.mem_range]
  exact ⟨hr.stack_lt i, mem_reduce hg avoid⟩

/-! ## §3 Spilled vertices -/

theorem leastFree_eq_none {used : List Nat} (h : leastFree k used = none) {c : Nat} (hc : c < k) :
    c ∈ used := by
  simpa using List.find?_eq_none.mp h c (List.mem_range.mpr hc)

/-- Colouring leaves the vertices alone that are not in the order. -/
theorem getD_assignFrom {order : List Nat} {colors : Array (Option Nat)} {i : Nat} (hi : i ∉ order) :
    (assignFrom k g colors order).1.getD i none = colors.getD i none := by
  induction order generalizing colors with
  | nil => rfl
  | cons x order ih =>
    obtain ⟨hne, hi⟩ := not_or.mp (List.mem_cons.not.mp hi)
    unfold assignFrom
    cases leastFree k (neighborColors g colors x) with
    | some c =>
      refine (ih hi).trans ?_
      rw [getD_setIfInBounds, if_neg fun h => hne h.1.symm]
    | none => exact ih hi

/-- A spilled vertex stays without a colour, and its neighbours have all of them. -/
theorem saturated_of_spilled {order : List Nat} {colors : Array (Option Nat)} (hnodup : order.Nodup)
    (hcolored : ∀ i, (colors.getD i none).isSome → i ∉ order) {i : Nat}
    (hi : i ∈ (assignFrom k g colors order).2) :
    (assignFrom k g colors order).1.getD i none = none ∧
      ∀ c < k, ∃ j ∈ g.neighbors i, (assignFrom k g colors order).1.getD j none = some c := by
  induction order generalizing colors with
  | nil => cases hi
  | cons x order ih =>
    obtain ⟨hx, hnodup'⟩ := List.nodup_cons.mp hnodup
    unfold assignFrom at hi ⊢
    -- Colouring another vertex keeps the invariant that no vertex of the order has a colour yet.
    cases hfree : leastFree k (neighborColors g colors x) with
    | some c =>
      rw [hfree] at hi
      refine ih hnodup' (fun y hy => ?_) hi
      rw [getD_setIfInBounds] at hy
      split at hy
      · next h => exact h.1 ▸ hx
      · exact fun hmem => hcolored y hy (List.mem_cons_of_mem _ hmem)
    | none =>
      rw [hfree] at hi
      rcases List.mem_cons.mp hi with rfl | hi
      · refine ⟨(getD_assignFrom hx).trans ?_, fun c hc => ?_⟩
        · by_contra hsome
          exact hcolored i (Option.isSome_iff_ne_none.mpr hsome) List.mem_cons_self
        · -- The colours of the neighbours are final: none of them comes later in the order.
          obtain ⟨j, hj, hjc⟩ := mem_neighborColors.mp (leastFree_eq_none hfree hc)
          refine ⟨j, hj, (getD_assignFrom fun hmem => ?_).trans hjc⟩
          exact hcolored j (by simp [hjc]) (List.mem_cons_of_mem _ hmem)
      · exact ih hnodup' (fun y hy hmem => hcolored y hy (List.mem_cons_of_mem _ hmem)) hi

/-- A vertex with fewer than `k` neighbours apart from those behind it is supported in its order. -/
theorem supported_at {i : Nat} {rest : List Nat}
    (hfew : ((g.neighbors i).toList.filter (· ∉ rest)).length < k) {before : List Nat}
    (hbefore : i ∉ before) (hrest : i ∉ rest) :
    Supported k g (· = i) (before ++ i :: rest) := by
  induction before with
  | nil =>
    refine ⟨fun _ => hfew, ?_⟩
    clear hfew
    induction rest with
    | nil => trivial
    | cons x rest ih =>
      obtain ⟨hne, hrest⟩ := not_or.mp (List.mem_cons.not.mp hrest)
      exact ⟨fun heq => absurd heq.symm hne, ih hrest⟩
  | cons x before ih =>
    obtain ⟨hne, hbefore⟩ := not_or.mp (List.mem_cons.not.mp hbefore)
    exact ⟨fun heq => absurd heq.symm hne, ih hbefore⟩

/-- The vertices without a colour after the reduction. -/
def spilledVertices (k : Nat) (g : InterferenceGraph) (avoid : TempSet) : List Nat :=
  (assignFrom k g (Array.replicate g.vertices.size none) (reduce k g avoid)).2

theorem not_mem_of_replicate {order : List Nat} {n : Nat} :
    ∀ i, ((Array.replicate n (none : Option Nat)).getD i none).isSome → i ∉ order := by
  intro i hi
  rw [getD_replicate_none] at hi
  cases hi

/-- A vertex that is taken off with a low degree gets a colour. -/
theorem Passes.not_spilled (hg : g.WellFormed) {r : Reduction} (h : Passes k g avoid r) {i : Nat}
    (hoff : TakesOff k g avoid r i) (hlow : r.degree i < k) : i ∉ spilledVertices k g avoid := by
  obtain ⟨r', hstep, hstack⟩ := hoff
  obtain ⟨before, horder⟩ := (h.step hstep).suffix_reduce hg
  rw [hstack] at horder
  have hnodup : (reduce k g avoid).Nodup := (perm_reduce hg).nodup_iff.mpr List.nodup_range
  have hparts := horder ▸ hnodup
  rw [List.nodup_append, List.nodup_cons] at hparts
  obtain ⟨-, ⟨hrest, -⟩, hdisjoint⟩ := hparts
  have hbefore : i ∉ before := fun hmem => hdisjoint i hmem i List.mem_cons_self rfl
  -- The neighbours that come back before it were there when it was taken off.
  have hi : i < g.vertices.size := by
    have hperm : (reduce k g avoid).Perm (List.range g.vertices.size) := perm_reduce hg
    rw [← List.mem_range, ← hperm.mem_iff, ← horder]
    simp
  have hfew : ((g.neighbors i).toList.filter (· ∉ r.stack)).length < k := h.degree_eq hg hi hrest ▸ hlow
  intro hspilled
  exact not_of_spilled (P := (· = i)) hnodup (horder ▸ supported_at hfew hbefore hrest)
    not_mem_of_replicate i hspilled rfl

/-- **If every set of vertices has one with fewer than `k` neighbours in the set**, the reduction
takes off low vertices only. -/
theorem Passes.degree_lt (hg : g.WellFormed)
    (hdegenerate : ∀ is : Finset Nat, is.Nonempty → (∀ i ∈ is, i < g.vertices.size) →
      ∃ i ∈ is, ((g.neighbors i).toList.filter (· ∈ is)).length < k)
    {r : Reduction} (h : Passes k g avoid r) {i : Nat} (hoff : TakesOff k g avoid r i) :
    r.degree i < k := by
  have hr := (h.invariant hg).1
  obtain ⟨r', hstep, hstack⟩ := hoff
  rcases h.next hg with ⟨hnone, -⟩ | ⟨r'', j, heq, hstack', hj, hwhy⟩
  · rw [hstep] at hnone
    cases hnone
  rw [hstep] at heq
  cases heq
  obtain rfl : i = j := (List.cons.inj (hstack.symm.trans hstack')).1
  rcases hwhy with hlow | hnolow
  · exact (hr.low_iff i hj).mp hlow
  · -- Otherwise the vertices that are left would be a set without a vertex of low degree.
    have hlt : i < g.vertices.size := hr.stages_size ▸ lt_of_stage hj
    have hthere : ∀ {x}, x ∈ (Finset.range g.vertices.size).filter (· ∉ r.stack) ↔
        x < g.vertices.size ∧ x ∉ r.stack := by simp
    obtain ⟨x, hx, hfew⟩ := hdegenerate ((Finset.range g.vertices.size).filter (· ∉ r.stack))
      ⟨i, hthere.mpr ⟨hlt, fun hmem => hj ((h.stage_eq_removed_iff hg hlt).mpr hmem)⟩⟩
      fun x hx => (hthere.mp hx).1
    obtain ⟨hxlt, hxthere⟩ := hthere.mp hx
    have hsame : ((g.neighbors x).toList.filter fun y => y ∈ (Finset.range g.vertices.size).filter
      (· ∉ r.stack))
        = (g.neighbors x).toList.filter (· ∉ r.stack) := by
      refine List.filter_congr fun y hy => ?_
      have := hg.lt_size (Array.mem_toList_iff.mp hy)
      simp [this]
    rw [hsame, ← h.degree_eq hg hxlt hxthere] at hfew
    have hstage : r.stage x ≠ .removed := fun heq => hxthere ((h.stage_eq_removed_iff hg hxlt).mp heq)
    exact absurd ((hr.low_iff x hstage).mpr hfew) (hnolow x)

theorem mem_spilled_iff {t : Temp} : t ∈ (g.color k avoid).spilled ↔
    ∃ i v, i ∈ spilledVertices k g avoid ∧ g.vertices[i]? = some v ∧ v.temp = t := by
  show t ∈ (spilledVertices k g avoid).filterMap _ ↔ _
  simp only [List.mem_filterMap, Option.map_eq_some_iff]
  grind

/-- The vertices without a colour are the spilled ones. -/
theorem mem_spilledVertices_iff (hg : g.WellFormed) {i : Nat} (hi : i < g.vertices.size) :
    i ∈ spilledVertices k g avoid ↔ (g.color k avoid).colors.getD i none = none := by
  have hnodup : (reduce k g avoid).Nodup := (perm_reduce hg).nodup_iff.mpr List.nodup_range
  refine ⟨fun h => (saturated_of_spilled hnodup not_mem_of_replicate h).1, fun hnone => ?_⟩
  obtain ⟨-, -, -, -, hall⟩ := assignFrom_spec (k := k) hg (reduce k g avoid)
    (proper_replicate g g.vertices.size) fun i c hc => by
      rw [getD_replicate_none] at hc
      cases hc
  refine (hall i (mem_reduce hg avoid hi) (by simpa using hi)).resolve_right fun hsome => ?_
  rw [show (assignFrom k g (Array.replicate g.vertices.size none) (reduce k g avoid)).1.getD i none = none
    from hnone] at hsome
  cases hsome

/-! ## §4 The colouring of a graph -/

/-- What the reduction and the colouring of a graph with `k` colours come to. -/
structure Colored (k : Nat) (g : InterferenceGraph) (avoid : TempSet) : Prop where
  /-- The reduction stops because there is nothing left. -/
  stops : reduceStep k g avoid (reduceLoop k g avoid g.vertices.size (start k g)) = none
  /-- Every vertex has been taken off once. -/
  once : (reduce k g avoid).Perm (List.range g.vertices.size)
  /-- Every step takes off one vertex. -/
  step : ∀ r r', Passes k g avoid r → reduceStep k g avoid r = some r' → ∃ i, r'.stack = i :: r.stack
  /-- In every state the degree of a vertex that is still there is the number of its neighbours that are
  still there. -/
  degree : ∀ r, Passes k g avoid r → ∀ i < g.vertices.size, i ∉ r.stack →
    r.degree i = ((g.neighbors i).toList.filter fun j => j ∉ r.stack).length
  /-- In every state the worklist has, of the vertices that are still there, those with a low degree. -/
  worklist : ∀ r, Passes k g avoid r → ∀ i < g.vertices.size, i ∉ r.stack →
    (i ∈ r.worklist ↔ r.degree i < k)
  /-- Colours are below `k`. -/
  color_lt : ∀ i c, (g.color k avoid).colors.getD i none = some c → c < k
  /-- The spilled temps are those of the vertices without a colour. -/
  spilled_iff : ∀ t, t ∈ (g.color k avoid).spilled ↔
    ∃ i v, g.vertices[i]? = some v ∧ v.temp = t ∧ (g.color k avoid).colors.getD i none = none
  /-- Neighbours have different colours. -/
  proper : ∀ i j c, j ∈ g.neighbors i → (g.color k avoid).colors.getD i none = some c →
    (g.color k avoid).colors.getD j none ≠ some c
  /-- The neighbours of a vertex without a colour have all colours. -/
  saturated : ∀ i < g.vertices.size, (g.color k avoid).colors.getD i none = none →
    ∀ c < k, ∃ j ∈ g.neighbors i, (g.color k avoid).colors.getD j none = some c
  /-- A vertex that is taken off with a low degree has a colour in the end. -/
  low : ∀ r i, Passes k g avoid r → TakesOff k g avoid r i → r.degree i < k →
    ((g.color k avoid).colors.getD i none).isSome
  /-- If every set of vertices has one with fewer than `k` neighbours in the set, nothing is spilled. -/
  degenerate : (∀ is : Finset Nat, is.Nonempty → (∀ i ∈ is, i < g.vertices.size) →
    ∃ i ∈ is, ((g.neighbors i).toList.filter (· ∈ is)).length < k) → (g.color k avoid).spilled = []

/-- **Reduction and colouring of any graph**, with any number of colours and any temps to be avoided. -/
theorem colored_of_built (hbuilt : g.Built) (k : Nat) (avoid : TempSet) : Colored k g avoid := by
  have hg := hbuilt.wellFormed
  obtain ⟨-, hproper, hlt, -⟩ := color_spec hg k avoid
  have hnodup : (reduce k g avoid).Nodup := (perm_reduce hg).nodup_iff.mpr List.nodup_range
  have hsize : ∀ {i : Nat} {v : Vertex}, g.vertices[i]? = some v → i < g.vertices.size := fun hv =>
    (Array.getElem?_eq_some_iff.mp hv).1
  have hoff_lt : ∀ {r i}, Passes k g avoid r → TakesOff k g avoid r i → i < g.vertices.size := by
    rintro r i hr ⟨r', hstep, hstack⟩
    apply ((hr.step hstep).invariant hg).1.stack_lt
    simp [hstack]
  refine
    { stops := reduceStep_reduceLoop hg
      once := perm_reduce hg
      step := fun r r' hr hstep => hr.takesOff hg hstep
      degree := fun r hr i hi hthere => hr.degree_eq hg hi hthere
      worklist := fun r hr i hi hthere => hr.mem_worklist_iff hg hi hthere
      color_lt := hlt
      proper := hproper
      spilled_iff := fun t => ?_
      saturated := fun i hi hnone => ?_
      low := fun r i hr hoff hlow => ?_
      degenerate := fun hdegenerate => ?_ }
  · rw [mem_spilled_iff]
    constructor
    · rintro ⟨i, v, hi, hv, ht⟩
      exact ⟨i, v, hv, ht, (mem_spilledVertices_iff hg (hsize hv)).mp hi⟩
    · rintro ⟨i, v, hv, ht, hnone⟩
      exact ⟨i, v, (mem_spilledVertices_iff hg (hsize hv)).mpr hnone, hv, ht⟩
  · exact (saturated_of_spilled hnodup not_mem_of_replicate ((mem_spilledVertices_iff hg hi).mpr hnone)).2
  · rw [Option.isSome_iff_ne_none]
    intro hnone
    exact hr.not_spilled hg hoff hlow ((mem_spilledVertices_iff hg (hoff_lt hr hoff)).mpr hnone)
  · refine List.eq_nil_iff_forall_not_mem.mpr fun t ht => ?_
    obtain ⟨i, v, hi, hv, -⟩ := mem_spilled_iff.mp ht
    -- The vertex has been taken off at some point, and its degree was low then.
    have hlast := Passes.last k g avoid
    obtain ⟨r, hr, hoff⟩ := hlast.exists_takesOff hg (mem_reduce hg avoid (hsize hv))
    exact hr.not_spilled hg hoff (hr.degree_lt hg hdegenerate hoff) hi

/-- Four temps that all interfere with each other. -/
def fourClique : InterferenceGraph :=
  let g : InterferenceGraph := [1, 2, 3, 4].foldl (fun g n => g.addVertex ⟨n⟩) {}
  ((((((g.addEdge ⟨1⟩ ⟨2⟩).addEdge ⟨1⟩ ⟨3⟩).addEdge ⟨1⟩ ⟨4⟩).addEdge ⟨2⟩ ⟨3⟩).addEdge ⟨2⟩
    ⟨4⟩).addEdge ⟨3⟩ ⟨4⟩)

theorem built_fourClique : fourClique.Built :=
  ((((((((((.empty : InterferenceGraph.Built {}).addVertex ⟨1⟩).addVertex ⟨2⟩).addVertex ⟨3⟩).addVertex
    ⟨4⟩).addEdge ⟨1⟩ ⟨2⟩).addEdge ⟨1⟩ ⟨3⟩).addEdge ⟨1⟩ ⟨4⟩).addEdge ⟨2⟩ ⟨3⟩).addEdge ⟨2⟩
      ⟨4⟩).addEdge ⟨3⟩ ⟨4⟩

/-- With three colours one of the four temps is spilled, and not the one to be avoided. -/
theorem colored_of_built_fourClique : fourClique.Built ∧
    Colored 3 fourClique (TempSet.ofList [⟨1⟩]) ∧
    (fourClique.color 3 (TempSet.ofList [⟨1⟩])).spilled = [⟨2⟩] :=
  ⟨built_fourClique, colored_of_built built_fourClique 3 _, by decide +kernel⟩

end Coloring

end MmixBackend
