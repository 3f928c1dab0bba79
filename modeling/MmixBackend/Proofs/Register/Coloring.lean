import MmixBackend.Register.Coloring
import MmixBackend.Proofs.Register.Interference
import Mathlib.Data.List.Nodup

/-!
# Colouring is proper, and vertices with few neighbours get a colour

Two facts about graph colouring. Whatever the order, neighbours never get the same colour. And the
reduction takes every vertex off the graph, low vertices first, so that a vertex can remain without a
colour only if the reduction had to pick it as a potential spill.

## Main statements

- `assignFrom_spec`: neighbours have different colours, and what has no colour is spilled.
- `mem_reduce`: the reduction takes every vertex off the graph.
- `color_spec`: without spills every vertex has a colour.
- `not_avoided_of_spilled`: avoided vertices are not spilled if each set of them has a vertex with
  fewer than `k` neighbours in the set.
-/

namespace MmixBackend.Coloring

variable {g : InterferenceGraph} {k : Nat}

/-! ## §1 Assigning colours -/

theorem leastFree_eq_some {used : List Nat} {c : Nat} (h : leastFree k used = some c) :
    c < k ∧ c ∉ used := by
  refine ⟨List.mem_range.mp (List.mem_of_find?_eq_some h), fun hmem => ?_⟩
  have := List.find?_some h
  simp [hmem] at this

/-- With fewer than `k` used colours one of `k` colours is free. -/
theorem exists_leastFree {used : List Nat} (h : used.length < k) : ∃ c, leastFree k used = some c := by
  cases hfree : leastFree k used with
  | some c => exact ⟨c, rfl⟩
  | none =>
    -- Otherwise the used colours would contain all `k` colours.
    have hsub : List.range k ⊆ used := by
      intro c hc
      have := List.find?_eq_none.mp hfree c hc
      simpa using this
    have := (List.subperm_of_subset List.nodup_range hsub).length_le
    rw [List.length_range] at this
    omega

/-- Neighbours have different colours. -/
def Proper (g : InterferenceGraph) (colors : Array (Option Nat)) : Prop :=
  ∀ i j c, j ∈ g.neighbors i → colors.getD i none = some c → colors.getD j none ≠ some c

theorem getD_setIfInBounds (colors : Array (Option Nat)) (i j : Nat) (c : Option Nat) :
    (colors.setIfInBounds i c).getD j none
      = if i = j ∧ j < colors.size then c else colors.getD j none := by
  simp only [Array.getD_eq_getD_getElem?, Array.getElem?_setIfInBounds]
  by_cases hij : i = j
  · subst hij
    by_cases hlt : i < colors.size
    · simp [hlt]
    · simp [hlt]
  · simp [hij]

theorem mem_neighborColors {colors : Array (Option Nat)} {i c : Nat} :
    c ∈ neighborColors g colors i ↔ ∃ j ∈ g.neighbors i, colors.getD j none = some c := by
  simp [neighborColors, List.mem_filterMap]

/-- A colour that no neighbour has keeps a colouring proper. -/
theorem Proper.set (hg : g.WellFormed) {colors : Array (Option Nat)} (h : Proper g colors) {i c : Nat}
    (hc : c ∉ neighborColors g colors i) : Proper g (colors.setIfInBounds i (some c)) := by
  have hnew : ∀ j ∈ g.neighbors i, colors.getD j none ≠ some c := fun j hj heq =>
    hc (mem_neighborColors.mpr ⟨j, hj, heq⟩)
  intro x y d hy hx
  rw [getD_setIfInBounds] at hx ⊢
  by_cases hxi : i = x ∧ x < colors.size
  · rw [if_pos hxi] at hx
    cases hx
    obtain ⟨rfl, -⟩ := hxi
    have hne : ¬(i = y ∧ y < colors.size) := fun hyi => hg.irrefl (hyi.1 ▸ hy)
    rw [if_neg hne]
    exact hnew y hy
  · rw [if_neg hxi] at hx
    by_cases hyi : i = y ∧ y < colors.size
    · rw [if_pos hyi]
      obtain ⟨rfl, -⟩ := hyi
      rintro heq
      cases heq
      exact hnew x (hg.symm hy) hx
    · rw [if_neg hyi]
      exact h x y d hy hx

/-- **Colouring in any order**: the colouring stays proper, colours stay below `k`, no vertex loses its
colour, and every vertex of the order has a colour or is spilled. -/
theorem assignFrom_spec (hg : g.WellFormed) (order : List Nat) {colors : Array (Option Nat)}
    (hproper : Proper g colors) (hlt : ∀ i c, colors.getD i none = some c → c < k) :
    (assignFrom k g colors order).1.size = colors.size ∧
      Proper g (assignFrom k g colors order).1 ∧
      (∀ i c, (assignFrom k g colors order).1.getD i none = some c → c < k) ∧
      (∀ i, (colors.getD i none).isSome → ((assignFrom k g colors order).1.getD i none).isSome) ∧
      ∀ i ∈ order, i < colors.size → i ∈ (assignFrom k g colors order).2 ∨
        ((assignFrom k g colors order).1.getD i none).isSome := by
  induction order generalizing colors with
  | nil => exact ⟨rfl, hproper, hlt, fun _ h => h, by simp⟩
  | cons i order ih =>
    unfold assignFrom
    -- A vertex with a free colour gets the least; one without is spilled and leaves the colours alone.
    cases hfree : leastFree k (neighborColors g colors i) with
    | some c =>
      obtain ⟨hck, hnew⟩ := leastFree_eq_some hfree
      have hlt' : ∀ x d, (colors.setIfInBounds i (some c)).getD x none = some d → d < k := by
        intro x d hd
        rw [getD_setIfInBounds] at hd
        by_cases hx : i = x ∧ x < colors.size
        · rw [if_pos hx] at hd
          cases hd
          exact hck
        · rw [if_neg hx] at hd
          exact hlt x d hd
      obtain ⟨hsize, hproper', hlt'', hkeep, hall⟩ := ih (hproper.set hg hnew) hlt'
      rw [Array.size_setIfInBounds] at hsize hall
      refine ⟨hsize, hproper', hlt'', fun x hx => hkeep x ?_, fun x hx hxs => ?_⟩
      · rw [getD_setIfInBounds]
        split
        · rfl
        · exact hx
      · rcases List.mem_cons.mp hx with rfl | hx
        · refine .inr (hkeep x ?_)
          rw [getD_setIfInBounds, if_pos ⟨rfl, hxs⟩]
          rfl
        · exact hall x hx hxs
    | none =>
      obtain ⟨hsize, hproper', hlt'', hkeep, hall⟩ := ih hproper hlt
      refine ⟨hsize, hproper', hlt'', hkeep, fun x hx hxs => ?_⟩
      rcases List.mem_cons.mp hx with rfl | hx
      · exact .inl List.mem_cons_self
      · exact (hall x hx hxs).imp_left (List.mem_cons_of_mem _)

/-- Vertices with property `P` have fewer than `k` neighbours apart from those behind them. -/
def Supported (k : Nat) (g : InterferenceGraph) (P : Nat → Prop) : List Nat → Prop
  | [] => True
  | i :: rest => (P i → ((g.neighbors i).toList.filter (· ∉ rest)).length < k) ∧
    Supported k g P rest

theorem length_filterMap_le {f : Nat → Option Nat} {p : Nat → Bool}
    (h : ∀ y, (f y).isSome → p y = true) {ys : List Nat} :
    (ys.filterMap f).length ≤ (ys.filter p).length := by
  induction ys with
  | nil => simp
  | cons y ys ih =>
    cases hy : f y with
    | none =>
      rw [List.filterMap_cons_none hy]
      exact Nat.le_trans ih ((List.sublist_cons_self y ys).filter p).length_le
    | some c =>
      rw [List.filterMap_cons_some hy, List.filter_cons_of_pos (h y (by simp [hy]))]
      exact Nat.succ_le_succ ih

/-- A vertex is spilled only if too many of its neighbours were coloured before it. -/
theorem not_of_spilled {P : Nat → Prop} {order : List Nat} {colors : Array (Option Nat)}
    (hnodup : order.Nodup) (hsupported : Supported k g P order)
    (hcolored : ∀ i, (colors.getD i none).isSome → i ∉ order) :
    ∀ i ∈ (assignFrom k g colors order).2, ¬P i := by
  induction order generalizing colors with
  | nil => simp [assignFrom]
  | cons i order ih =>
    obtain ⟨hfew, hrest⟩ := hsupported
    obtain ⟨hi, hnodup'⟩ := List.nodup_cons.mp hnodup
    unfold assignFrom
    -- A coloured vertex supports nothing that comes later; a spilled one has no free colour.
    cases hfree : leastFree k (neighborColors g colors i) with
    | some c =>
      refine ih hnodup' hrest fun x hx => ?_
      rw [getD_setIfInBounds] at hx
      split at hx
      · rename_i h
        rw [← h.1]
        exact hi
      · exact fun hmem => hcolored x hx (List.mem_cons_of_mem _ hmem)
    | none =>
      intro x hx hP
      rcases List.mem_cons.mp hx with rfl | hx
      · -- The coloured neighbours do not stand behind the vertex, so there are fewer than `k`.
        have hle : (neighborColors g colors x).length
            ≤ ((g.neighbors x).toList.filter (· ∉ order)).length :=
          length_filterMap_le fun y hy => by
            simpa using fun hmem => hcolored y hy (List.mem_cons_of_mem _ hmem)
        obtain ⟨c, hc⟩ := exists_leastFree (Nat.lt_of_le_of_lt hle (hfew hP))
        rw [hfree] at hc
        cases hc
      · exact ih hnodup' hrest (fun y hy hmem => hcolored y hy (List.mem_cons_of_mem _ hmem)) x hx hP

/-! ## §2 The reduction -/

/-- The number of neighbours of a vertex that have not been taken off. -/
def remaining (g : InterferenceGraph) (r : Reduction) (i : Nat) : Nat :=
  ((g.neighbors i).toList.filter fun j => r.stage j ≠ .removed).length

/-- What the reduction keeps. The vertices of `pending` are neighbours of the vertex just taken off that
do not know it yet. -/
structure Reducing (k : Nat) (g : InterferenceGraph) (pending : List Nat) (r : Reduction) : Prop where
  degrees_size : r.degrees.size = g.vertices.size
  stages_size : r.stages.size = g.vertices.size
  degree : ∀ i, r.stage i ≠ .removed →
    r.degree i = remaining g r i + if i ∈ pending then 1 else 0
  low_iff : ∀ i, r.stage i ≠ .removed → (r.stage i = .low ↔ r.degree i < k)
  low_mem : ∀ i, r.stage i = .low → i ∈ r.worklist
  removed_iff : ∀ i < g.vertices.size, r.stage i = .removed ↔ i ∈ r.stack
  stack_lt : ∀ i ∈ r.stack, i < g.vertices.size
  stack_nodup : r.stack.Nodup

theorem lt_of_stage {r : Reduction} {i : Nat} (h : r.stage i ≠ .removed) : i < r.stages.size := by
  rcases Nat.lt_or_ge i r.stages.size with hlt | hge
  · exact hlt
  · exact absurd (by simp [Reduction.stage, Array.getD_eq_getD_getElem?, hge]) h

theorem stage_set (r : Reduction) (i j : Nat) (s : Stage) (hi : i < r.stages.size) :
    (r.stages.setIfInBounds i s).getD j .removed = if i = j then s else r.stage j := by
  simp only [Reduction.stage, Array.getD_eq_getD_getElem?, Array.getElem?_setIfInBounds]
  by_cases hij : i = j
  · subst hij
    simp [hi]
  · simp [hij]

theorem degree_set (r : Reduction) (i j d : Nat) (hi : i < r.degrees.size) :
    (r.degrees.setIfInBounds i d).getD j 0 = if i = j then d else r.degree j := by
  simp only [Reduction.degree, Array.getD_eq_getD_getElem?, Array.getElem?_setIfInBounds]
  by_cases hij : i = j
  · subst hij
    simp [hi]
  · simp [hij]

/-- What `detach` does to a vertex that is still there. -/
theorem detach_cases (r : Reduction) (j : Nat) (hj : r.stage j ≠ .removed) :
    (r.degree j - 1 + 1 = k ∧ r.stage j = .high ∧ detach k r j = { r with
      degrees := r.degrees.setIfInBounds j (r.degree j - 1)
      stages := r.stages.setIfInBounds j .low
      worklist := j :: r.worklist }) ∨
    (¬(r.degree j - 1 + 1 = k ∧ r.stage j = .high) ∧ detach k r j = { r with
      degrees := r.degrees.setIfInBounds j (r.degree j - 1) }) := by
  unfold detach
  rw [if_neg hj]
  have hstage : (Reduction.stage { r with degrees := r.degrees.setIfInBounds j (r.degree j - 1) } j)
      = r.stage j := rfl
  simp only [hstage]
  by_cases h : r.degree j - 1 + 1 = k ∧ r.stage j = .high
  · exact .inl ⟨h.1, h.2, by rw [if_pos h]⟩
  · exact .inr ⟨h, by rw [if_neg h]⟩

section Detach

variable {r : Reduction} {j : Nat}

theorem detach_of_removed (h : r.stage j = .removed) : detach k r j = r := by
  unfold detach
  rw [if_pos h]

theorem size_degrees_detach (hj : r.stage j ≠ .removed) :
    (detach k r j).degrees.size = r.degrees.size := by
  rcases detach_cases (k := k) r j hj with ⟨-, -, heq⟩ | ⟨-, heq⟩ <;> rw [heq] <;> simp

theorem size_stages_detach (hj : r.stage j ≠ .removed) : (detach k r j).stages.size = r.stages.size := by
  rcases detach_cases (k := k) r j hj with ⟨-, -, heq⟩ | ⟨-, heq⟩ <;> rw [heq]
  simp

theorem stack_detach (r : Reduction) (j : Nat) : (detach k r j).stack = r.stack := by
  by_cases hj : r.stage j = .removed
  · rw [detach_of_removed hj]
  · rcases detach_cases (k := k) r j hj with ⟨-, -, heq⟩ | ⟨-, heq⟩ <;> rw [heq]

theorem degree_detach (hj : r.stage j ≠ .removed) (hlt : j < r.degrees.size) (i : Nat) :
    (detach k r j).degree i = if j = i then r.degree j - 1 else r.degree i := by
  rcases detach_cases (k := k) r j hj with ⟨-, -, heq⟩ | ⟨-, heq⟩ <;> rw [heq] <;> exact degree_set
    r j i _ hlt

/-- A high vertex becomes low when its degree passes `k`. -/
theorem stage_detach (hj : r.stage j ≠ .removed) (i : Nat) : (detach k r j).stage i =
    if j = i ∧ r.degree j - 1 + 1 = k ∧ r.stage j = .high then .low else r.stage i := by
  rcases detach_cases (k := k) r j hj with ⟨hk, hhigh, heq⟩ | ⟨hnot, heq⟩
  · rw [heq, ← if_congr (iff_self_and.mpr fun _ => ⟨hk, hhigh⟩) rfl rfl]
    exact stage_set r j i .low (lt_of_stage hj)
  · rw [heq, if_neg fun h => hnot h.2]
    rfl

theorem removed_detach (hj : r.stage j ≠ .removed) (i : Nat) :
    (detach k r j).stage i = .removed ↔ r.stage i = .removed := by
  rw [stage_detach hj]
  split
  · next h =>
    obtain ⟨rfl, -, -⟩ := h
    exact iff_of_false (by decide) hj
  · rfl

theorem remaining_detach (hj : r.stage j ≠ .removed) (i : Nat) :
    remaining g (detach k r j) i = remaining g r i := by
  simp only [remaining, ne_eq, removed_detach hj]

/-- A vertex that becomes low is put on the worklist. -/
theorem low_mem_detach (h : ∀ i, r.stage i = .low → i ∈ r.worklist) (hj : r.stage j ≠ .removed) {i : Nat}
    (hi : (detach k r j).stage i = .low) : i ∈ (detach k r j).worklist := by
  rw [stage_detach hj] at hi
  rcases detach_cases (k := k) r j hj with ⟨hk, hhigh, heq⟩ | ⟨hnot, heq⟩
  · rw [heq]
    by_cases hij : j = i
    · exact hij ▸ List.mem_cons_self
    · rw [if_neg fun h => hij h.1] at hi
      exact List.mem_cons_of_mem _ (h i hi)
  · rw [if_neg fun h => hnot h.2] at hi
    rw [heq]
    exact h i hi

theorem stage_eq_high {i : Nat} (hremoved : r.stage i ≠ .removed) (hlow : r.stage i ≠ .low) :
    r.stage i = .high := by
  cases hs : r.stage i with
  | low => exact absurd hs hlow
  | high => rfl
  | removed => exact absurd hs hremoved

end Detach

/-- A neighbour learns that the vertex has been taken off. -/
theorem Reducing.detach {r : Reduction} {j : Nat} {pending : List Nat}
    (h : Reducing k g (j :: pending) r) (hj : j ∉ pending) :
    Reducing k g pending (detach k r j) := by
  by_cases hstage : r.stage j = .removed
  · -- A vertex that has been taken off is left alone.
    rw [detach_of_removed hstage]
    refine { h with degree := fun i hi => ?_ }
    have hne : i ≠ j := fun hij => hi (hij ▸ hstage)
    simpa [hne] using h.degree i hi
  -- A neighbour that is left has one remaining neighbour less, and its degree is lowered by one.
  have hlt : j < r.degrees.size := h.degrees_size ▸ h.stages_size ▸ lt_of_stage hstage
  have hdegree : r.degree j = remaining g r j + 1 := by simpa using h.degree j hstage
  refine ⟨(size_degrees_detach hstage).trans h.degrees_size, (size_stages_detach hstage).trans
    h.stages_size,
    fun i hi => ?_, fun i hi => ?_, fun i => low_mem_detach h.low_mem hstage, fun i hi => ?_, ?_, ?_⟩
  · rw [degree_detach hstage hlt, remaining_detach hstage]
    by_cases hij : j = i
    · subst hij
      simp [hj, hdegree]
    · have hi := h.degree i (mt (removed_detach hstage i).mpr hi)
      simpa [hij, Ne.symm hij] using hi
  · rw [stage_detach hstage, degree_detach hstage hlt]
    have hiff := h.low_iff i (mt (removed_detach hstage i).mpr hi)
    by_cases hij : j = i
    · subst hij
      -- Low stays low, and high stays high unless the degree passes `k`.
      rw [if_pos rfl]
      by_cases hlow : r.stage j = .low
      · have hdegree' := hiff.mp hlow
        have hnot : r.stage j ≠ .high := by simp [hlow]
        rw [if_neg fun h => hnot h.2.2]
        exact iff_of_true hlow (by omega)
      · have hdegree' := mt hiff.mpr hlow
        by_cases hpass : r.degree j - 1 + 1 = k
        · rw [if_pos ⟨rfl, hpass, stage_eq_high hstage hlow⟩]
          exact iff_of_true rfl (by omega)
        · rw [if_neg fun h => hpass h.2.1]
          exact iff_of_false hlow (by omega)
    · simpa [hij] using hiff
  · rw [removed_detach hstage, stack_detach]
    exact h.removed_iff i hi
  · rw [stack_detach]
    exact h.stack_lt
  · rw [stack_detach]
    exact h.stack_nodup

theorem Reducing.foldl_detach {r : Reduction} {pending : List Nat} (h : Reducing k g pending r)
    (hnodup : pending.Nodup) : Reducing k g [] (pending.foldl (Coloring.detach k) r) := by
  induction pending generalizing r with
  | nil => exact h
  | cons j pending ih =>
    obtain ⟨hj, hnodup'⟩ := List.nodup_cons.mp hnodup
    exact ih (h.detach hj) hnodup'

theorem stack_foldl_detach (r : Reduction) (js : List Nat) :
    (js.foldl (Coloring.detach k) r).stack = r.stack := by
  induction js generalizing r with
  | nil => rfl
  | cons j js ih => rw [List.foldl_cons, ih, stack_detach]

theorem length_filter_of_nodup {p : Nat → Bool} {xs : List Nat} (hnodup : xs.Nodup) {i : Nat}
    (hi : p i = true) : (xs.filter p).length
      = (xs.filter fun j => p j && decide (j ≠ i)).length + if i ∈ xs then 1 else 0 := by
  induction xs with
  | nil => simp
  | cons x xs ih =>
    obtain ⟨hx, hnodup'⟩ := List.nodup_cons.mp hnodup
    have hrest := ih hnodup'
    by_cases hxi : x = i
    · subst hxi
      rw [if_neg hx] at hrest
      simp [hi, hrest]
    · by_cases hp : p x = true
      · simp only [List.filter_cons, hp, hxi, ne_eq, not_false_eq_true, decide_true, Bool.and_true,
          if_true, List.length_cons, List.mem_cons, Ne.symm hxi, false_or]
        simp only [ne_eq] at hrest
        omega
      · simp only [List.filter_cons, hp, Bool.false_and, Bool.false_eq_true, if_false, List.mem_cons,
          Ne.symm hxi, false_or]
        exact hrest

/-- Taking off a vertex that is still there, when the worklist lists all other low vertices. -/
theorem Reducing.remove (hg : g.WellFormed) {r : Reduction} (h : Reducing k g [] r) {i : Nat}
    (hi : r.stage i ≠ .removed) (worklist : List Nat)
    (hlow : ∀ j, j ≠ i → r.stage j = .low → j ∈ worklist) :
    Reducing k g [] (remove k g { r with worklist } i) ∧
      (remove k g { r with worklist } i).stack = i :: r.stack := by
  have hlt : i < r.stages.size := lt_of_stage hi
  unfold Coloring.remove
  rw [← Array.foldl_toList]
  refine ⟨Reducing.foldl_detach ?_ (hg.nodup i), stack_foldl_detach _ _⟩
  -- Before the neighbours are told, only the vertex itself has another stage.
  have hstage : ∀ j, Reduction.stage { r with
      worklist, stages := r.stages.setIfInBounds i .removed, stack := i :: r.stack } j
        = if i = j then .removed else r.stage j := fun j => stage_set r i j .removed hlt
  have hkept : ∀ j, Reduction.stage { r with
      worklist, stages := r.stages.setIfInBounds i .removed, stack := i :: r.stack } j ≠ .removed →
        j ≠ i ∧ r.stage j ≠ .removed := by
    intro j hj
    rw [hstage] at hj
    by_cases hij : i = j
    · simp [hij] at hj
    · exact ⟨Ne.symm hij, by simpa [hij] using hj⟩
  refine ⟨h.degrees_size, by simpa using h.stages_size, fun j hj => ?_, fun j hj => ?_,
    fun j hj => ?_, fun j hj => ?_, fun j hj => ?_, ?_⟩
  · -- The vertex counted among the remaining neighbours of its neighbours.
    obtain ⟨hji, hr⟩ := hkept j hj
    have hdegree : r.degree j = remaining g r j := by simpa using h.degree j hr
    have hsplit := length_filter_of_nodup (p := fun x => decide (r.stage x ≠ .removed)) (hg.nodup j)
      (i := i) (by simpa using hi)
    have hsame : (fun x => decide (Reduction.stage { r with
        worklist, stages := r.stages.setIfInBounds i .removed, stack := i :: r.stack } x ≠ .removed))
        = fun x => decide (r.stage x ≠ .removed) && decide (x ≠ i) := by
      funext x
      rw [hstage]
      by_cases hix : i = x
      · simp [hix]
      · simp [hix, Ne.symm hix]
    show r.degree j = _
    rw [hdegree, remaining, remaining, hsplit, hsame]
    congr 1
    have hsymm : i ∈ (g.neighbors j).toList ↔ j ∈ (g.neighbors i).toList := by
      simp only [Array.mem_toList_iff]
      exact ⟨hg.symm, hg.symm⟩
    simp only [hsymm]
  · obtain ⟨hji, hr⟩ := hkept j hj
    rw [hstage, if_neg (Ne.symm hji)]
    exact h.low_iff j hr
  · rw [hstage] at hj
    by_cases hij : i = j
    · simp [hij] at hj
    · exact hlow j (Ne.symm hij) (by simpa [hij] using hj)
  · rw [hstage]
    by_cases hij : i = j
    · simp [hij]
    · simp only [hij, if_false, List.mem_cons, Ne.symm hij, false_or]
      exact h.removed_iff j hj
  · rcases List.mem_cons.mp hj with rfl | hj
    · exact h.stages_size ▸ hlt
    · exact h.stack_lt j hj
  · refine List.nodup_cons.mpr ⟨fun hmem => hi ?_, h.stack_nodup⟩
    exact (h.removed_iff i (h.stack_lt i hmem)).mpr hmem

theorem popLow_eq_some {stages : Array Stage} {worklist rest : List Nat} {i : Nat}
    (h : popLow stages worklist = some (i, rest)) : stages.getD i .removed = .low ∧
      ∀ j ∈ worklist, stages.getD j .removed = .low → j = i ∨ j ∈ rest := by
  induction worklist with
  | nil => cases h
  | cons x worklist ih =>
    unfold popLow at h
    by_cases hx : stages.getD x .removed = .low
    · rw [if_pos hx] at h
      cases h
      exact ⟨hx, fun j hj _ => List.mem_cons.mp hj⟩
    · rw [if_neg hx] at h
      obtain ⟨hi, hrest⟩ := ih h
      refine ⟨hi, fun j hj hlow => ?_⟩
      rcases List.mem_cons.mp hj with rfl | hj
      · exact absurd hlow hx
      · exact hrest j hj hlow

theorem popLow_eq_none {stages : Array Stage} {worklist : List Nat}
    (h : popLow stages worklist = none) : ∀ j ∈ worklist, stages.getD j .removed ≠ .low := by
  induction worklist with
  | nil => simp
  | cons x worklist ih =>
    unfold popLow at h
    by_cases hx : stages.getD x .removed = .low
    · rw [if_pos hx] at h
      cases h
    · rw [if_neg hx] at h
      intro j hj
      rcases List.mem_cons.mp hj with rfl | hj
      · exact hx
      · exact ih h j hj

/-- The temp of a vertex is to be avoided as a spill. -/
def Avoided (g : InterferenceGraph) (avoid : TempSet) (i : Nat) : Prop :=
  ∃ v, g.vertices[i]? = some v ∧ v.temp ∈ avoid

/-- An avoided vertex comes before another one only if that is avoided too. -/
theorem avoided_of_spillBefore {avoid : TempSet} {r : Reduction} {i j : Nat}
    (hi : Avoided g avoid i) (h : spillBefore g avoid r i j = true) : Avoided g avoid j := by
  obtain ⟨v, hv, hmem⟩ := hi
  unfold spillBefore at h
  cases hj : g.vertices[j]? with
  | none => simp [hv, hmem, hj] at h
  | some w =>
    by_cases hw : w.temp ∈ avoid
    · exact ⟨w, hj, hw⟩
    · simp [hv, hmem, hj, hw] at h

/-- An avoided vertex stays behind one that is not. -/
theorem spillBefore_of_avoided {avoid : TempSet} {r : Reduction} {i j : Nat}
    (hi : ¬Avoided g avoid i) (hj : Avoided g avoid j) : spillBefore g avoid r i j = true := by
  obtain ⟨w, hw, hmem⟩ := hj
  unfold spillBefore
  cases hv : g.vertices[i]? with
  | none => simp [hv, hw, hmem]
  | some v =>
    have hnot : v.temp ∉ avoid := fun h => hi ⟨v, hv, h⟩
    simp [hv, hw, hmem, hnot]

/-- The potential spill is a high vertex, and an avoided one only if all high vertices are avoided. -/
theorem pickSpill_spec (avoid : TempSet) (r : Reduction) (is : List Nat) :
    let best := is.foldl (fun best i =>
      if r.stage i = .high then
        match best with
        | none => some i
        | some b => if spillBefore g avoid r i b then some i else best
      else best) none
    (best = none → ∀ i ∈ is, r.stage i ≠ .high) ∧
      ∀ b, best = some b → r.stage b = .high ∧
        (Avoided g avoid b → ∀ i ∈ is, r.stage i = .high → Avoided g avoid i) := by
  -- The fold goes from left to right, so the induction adds a vertex at the end.
  induction is using List.reverseRecOn with
  | nil => simp
  | append_singleton is i ih =>
    simp only [List.foldl_append, List.foldl_cons, List.foldl_nil] at ih ⊢
    generalize is.foldl _ none = best at ih ⊢
    obtain ⟨hnone, hsome⟩ := ih
    by_cases hi : r.stage i = .high
    · rw [if_pos hi]
      cases best with
      | none =>
        -- The first high vertex.
        refine ⟨fun h => absurd h (by simp), fun b hb => ?_⟩
        cases hb
        refine ⟨hi, fun havoid j hj hhigh => ?_⟩
        rcases List.mem_append.mp hj with hj | hj
        · exact absurd hhigh (hnone rfl j hj)
        · rwa [List.mem_singleton.mp hj]
      | some b =>
        obtain ⟨hb, hall⟩ := hsome b rfl
        refine ⟨fun h => ?_, fun c hc => ?_⟩
        · simp only at h
          split at h <;> cases h
        · simp only at hc
          by_cases hbefore : spillBefore g avoid r i b = true
          -- The new vertex is better, so it is avoided only if the old one is.
          · rw [if_pos hbefore] at hc
            cases hc
            refine ⟨hi, fun havoid j hj hhigh => ?_⟩
            rcases List.mem_append.mp hj with hj | hj
            · exact hall (avoided_of_spillBefore havoid hbefore) j hj hhigh
            · rwa [List.mem_singleton.mp hj]
          -- The old vertex stays. It would have lost to a new one that is not avoided.
          · rw [if_neg hbefore] at hc
            cases hc
            refine ⟨hb, fun havoid j hj hhigh => ?_⟩
            rcases List.mem_append.mp hj with hj | hj
            · exact hall havoid j hj hhigh
            · rw [List.mem_singleton.mp hj]
              by_contra hnot
              exact hbefore (spillBefore_of_avoided hnot havoid)
    · rw [if_neg hi]
      refine ⟨fun h j hj => ?_, fun b hb => ⟨(hsome b hb).1, fun havoid j hj hhigh => ?_⟩⟩
      · rcases List.mem_append.mp hj with hj | hj
        · exact hnone h j hj
        · rwa [List.mem_singleton.mp hj]
      · rcases List.mem_append.mp hj with hj | hj
        · exact (hsome b hb).2 havoid j hj hhigh
        · rw [List.mem_singleton.mp hj] at hhigh
          exact absurd hhigh hi

/-- One step takes off a low vertex, or a potential spill when no vertex is low; it fails only when no
vertex is left. -/
theorem Reducing.step (hg : g.WellFormed) (avoid : TempSet) {r : Reduction} (h : Reducing k g [] r) :
    (reduceStep k g avoid r = none ∧ ∀ i, r.stage i = .removed) ∨
      ∃ r' i, reduceStep k g avoid r = some r' ∧ r.stage i ≠ .removed ∧ Reducing k g [] r' ∧
        r'.stack = i :: r.stack ∧ (r.stage i = .low ∨ ((∀ j, r.stage j ≠ .low) ∧
          (Avoided g avoid i → ∀ j, r.stage j ≠ .removed → Avoided g avoid j))) := by
  unfold reduceStep
  -- Low vertices are on the worklist, so there are none if none is found there.
  cases hpop : popLow r.stages r.worklist with
  | some popped =>
    obtain ⟨i, rest⟩ := popped
    obtain ⟨hlow, hrest⟩ := popLow_eq_some hpop
    have hi : r.stage i = .low := hlow
    obtain ⟨hr', hstack⟩ := h.remove hg (i := i) (by rw [hi]; simp) rest
      fun j hji hj => (hrest j (h.low_mem j hj) hj).resolve_left hji
    exact .inr ⟨_, i, rfl, by rw [hi]; simp, hr', hstack, .inl hi⟩
  | none =>
    have hnolow : ∀ j, r.stage j ≠ .low := fun j hj => popLow_eq_none hpop j (h.low_mem j hj) hj
    have hhigh : ∀ j, r.stage j ≠ .removed → r.stage j = .high := by
      intro j hj
      cases hs : r.stage j with
      | low => exact absurd hs (hnolow j)
      | high => rfl
      | removed => exact absurd hs hj
    have hlt : ∀ j, r.stage j ≠ .removed → j ∈ List.range g.vertices.size := fun j hj =>
      List.mem_range.mpr (h.stages_size ▸ lt_of_stage hj)
    obtain ⟨hnone, hsome⟩ := pickSpill_spec (g := g) avoid r (List.range g.vertices.size)
    cases hpick : pickSpill g avoid r with
    | none =>
      refine .inl ⟨rfl, fun i => ?_⟩
      by_contra hi
      exact hnone hpick i (hlt i hi) (hhigh i hi)
    | some i =>
      obtain ⟨hi, hall⟩ := hsome i hpick
      obtain ⟨hr', hstack⟩ := h.remove hg (i := i) (by rw [hi]; simp) []
        fun j _ hj => absurd hj (hnolow j)
      exact .inr ⟨_, i, rfl, by rw [hi]; simp, hr', hstack, .inr ⟨hnolow, fun havoid j hj =>
        hall havoid j (hlt j hj) (hhigh j hj)⟩⟩

theorem reducing_start (hg : g.WellFormed) : Reducing k g [] (start k g) := by
  have hdegree : ∀ i, (start k g).degree i = (g.neighbors i).size := by
    intro i
    simp only [start, Reduction.degree, Array.getD_eq_getD_getElem?, Array.getElem?_map,
      InterferenceGraph.neighbors]
    cases g.vertices[i]? <;> rfl
  -- Nothing has been taken off, so the stage is that of the degree.
  have hstage : ∀ i, (start k g).stage i = if i < g.vertices.size then
      (if k ≤ (start k g).degree i then .high else .low) else .removed := by
    intro i
    rw [hdegree]
    simp only [start, Reduction.stage, Array.getD_eq_getD_getElem?, Array.getElem?_map,
      InterferenceGraph.neighbors]
    by_cases hi : i < g.vertices.size
    · simp [hi]
    · simp [hi]
  have hthere : ∀ i, (start k g).stage i ≠ .removed → i < g.vertices.size := by
    intro i hi
    by_contra hlt
    rw [hstage, if_neg hlt] at hi
    exact hi rfl
  refine ⟨by simp [start], by simp [start], fun i hi => ?_, fun i hi => ?_, fun i hi => ?_,
    fun i hi => ?_, by simp [start], by simp [start]⟩
  · -- At the start every neighbour is there.
    rw [hdegree, remaining, List.filter_eq_self.mpr]
    · simp
    · intro j hj
      have hlt := hg.lt_size (Array.mem_toList_iff.mp hj)
      rw [hstage, if_pos hlt]
      split <;> simp
  · rw [hstage, if_pos (hthere i hi)]
    by_cases hk : k ≤ (start k g).degree i
    · simp [hk]
    · simp [hk]
      omega
  · have hlt : i < g.vertices.size := hthere i (by rw [hi]; simp)
    rw [hstage, if_pos hlt] at hi
    have hdeg : (start k g).degree i < k := by
      by_contra hk
      rw [if_pos (by omega)] at hi
      cases hi
    exact List.mem_reverse.mpr (List.mem_filter.mpr
      ⟨List.mem_range.mpr (by simpa using hlt), decide_eq_true hdeg⟩)
  · rw [hstage, if_pos hi]
    have : (start k g).stack = [] := rfl
    rw [this]
    split <;> simp

/-- The reduction takes off every vertex. Avoided vertices have few remaining neighbours when they are
taken off, if every set of them has a vertex with fewer than `k` neighbours in the set. -/
theorem reduceLoop_spec (hg : g.WellFormed) (avoid : TempSet) {fuel : Nat} {r : Reduction}
    (h : Reducing k g [] r) (hfuel : g.vertices.size ≤ fuel + r.stack.length) :
    (reduceLoop k g avoid fuel r).stack.Nodup ∧
      (∀ i < g.vertices.size, i ∈ (reduceLoop k g avoid fuel r).stack) ∧
      ((∀ is : List Nat, is ≠ [] → (∀ i ∈ is, Avoided g avoid i) →
          ∃ i ∈ is, ((g.neighbors i).toList.filter (· ∈ is)).length < k) →
        Supported k g (Avoided g avoid) r.stack →
        Supported k g (Avoided g avoid) (reduceLoop k g avoid fuel r).stack) := by
  have hstackLen : r.stack.length ≤ g.vertices.size := by
    have hsub : r.stack ⊆ List.range g.vertices.size := fun i hi =>
      List.mem_range.mpr (h.stack_lt i hi)
    simpa using (List.subperm_of_subset h.stack_nodup hsub).length_le
  induction fuel generalizing r with
  | zero =>
    refine ⟨h.stack_nodup, fun i hi => ?_, fun _ hs => hs⟩
    -- The stack has as many elements as there are vertices, so it has all of them.
    have hsub : r.stack ⊆ List.range g.vertices.size := fun i hi =>
      List.mem_range.mpr (h.stack_lt i hi)
    have hperm := (List.subperm_of_subset h.stack_nodup hsub).perm_of_length_le (by simp; omega)
    exact hperm.mem_iff.mpr (List.mem_range.mpr hi)
  | succ fuel ih =>
    unfold reduceLoop
    -- Either nothing is left, or a vertex goes onto the stack and the induction goes on.
    rcases h.step hg avoid with ⟨heq, hall⟩ | ⟨r', i, heq, hi, hr', hstack, hwhy⟩
    · rw [heq]
      exact ⟨h.stack_nodup, fun i hi => (h.removed_iff i hi).mp (hall i), fun _ hs => hs⟩
    · rw [heq]
      have hlen : r'.stack.length = r.stack.length + 1 := by rw [hstack]; rfl
      have hstackLen' : r'.stack.length ≤ g.vertices.size := by
        have hsub : r'.stack ⊆ List.range g.vertices.size := fun i hi =>
          List.mem_range.mpr (hr'.stack_lt i hi)
        simpa using (List.subperm_of_subset hr'.stack_nodup hsub).length_le
      obtain ⟨hnodup, hmem, hsupported⟩ := ih hr' (by omega) hstackLen'
      refine ⟨hnodup, hmem, fun hdegenerate hs => hsupported hdegenerate ?_⟩
      rw [hstack]
      refine ⟨fun havoid => ?_, hs⟩
      -- What is not on the stack is still there.
      have hcount : ∀ j, ((g.neighbors j).toList.filter (· ∉ r.stack)).length = remaining g r j := by
        intro j
        refine congrArg List.length (List.filter_congr fun x hx => ?_)
        have := h.removed_iff x (hg.lt_size (Array.mem_toList_iff.mp hx))
        simp [this]
      -- The degree that is kept in the reduction counts the neighbours that are left.
      have hdegree : ∀ j, r.stage j ≠ .removed → r.degree j = remaining g r j := fun j hj => by
        simpa using h.degree j hj
      rw [hcount, ← hdegree i hi]
      rcases hwhy with hlow | ⟨hnolow, hall⟩
      · exact (h.low_iff i hi).mp hlow
      · -- Otherwise all remaining vertices are avoided and none is low.
        obtain ⟨j, hj, hfew⟩ := hdegenerate
          ((List.range g.vertices.size).filter fun x => r.stage x ≠ .removed)
          (List.ne_nil_of_mem (List.mem_filter.mpr
            ⟨List.mem_range.mpr (h.stages_size ▸ lt_of_stage hi), by simpa using hi⟩))
          fun x hx => hall havoid x (by simpa using (List.mem_filter.mp hx).2)
        have hj' : r.stage j ≠ .removed := by simpa using (List.mem_filter.mp hj).2
        have hsame : ((g.neighbors j).toList.filter (· ∈ (List.range g.vertices.size).filter
            fun x => r.stage x ≠ .removed)).length = remaining g r j := by
          refine congrArg List.length (List.filter_congr fun x hx => ?_)
          have := hg.lt_size (Array.mem_toList_iff.mp hx)
          simp [this]
        rw [hsame, ← hdegree j hj'] at hfew
        exact absurd ((h.low_iff j hj').mpr hfew) (hnolow j)

/-! ## §3 Colouring a graph -/

theorem mem_reduce (hg : g.WellFormed) (avoid : TempSet) {i : Nat} (hi : i < g.vertices.size) :
    i ∈ reduce k g avoid :=
  (reduceLoop_spec hg avoid (reducing_start hg) (by simp)).2.1 i hi

theorem getD_replicate_none (n i : Nat) : (Array.replicate n (none : Option Nat)).getD i none = none := by
  simp only [Array.getD_eq_getD_getElem?, Array.getElem?_replicate]
  split <;> rfl

theorem proper_replicate (g : InterferenceGraph) (n : Nat) :
    Proper g (Array.replicate n none) := by
  intro i j c _ hi
  rw [getD_replicate_none] at hi
  cases hi

/-- Neighbours have different colours below `k`, and without spills every vertex has a colour. -/
theorem color_spec (hg : g.WellFormed) (k : Nat) (avoid : TempSet) :
    (g.color k avoid).colors.size = g.vertices.size ∧ Proper g (g.color k avoid).colors ∧
      (∀ i c, (g.color k avoid).colors.getD i none = some c → c < k) ∧
      ((g.color k avoid).spilled = [] → ∀ i < g.vertices.size,
        ((g.color k avoid).colors.getD i none).isSome) := by
  obtain ⟨hsize, hproper, hlt, -, hall⟩ := assignFrom_spec (k := k) hg (reduce k g avoid)
    (proper_replicate g g.vertices.size) fun i c hi => by
      rw [getD_replicate_none] at hi
      cases hi
  rw [Array.size_replicate] at hsize hall
  refine ⟨hsize, hproper, hlt, fun hnone i hi => ?_⟩
  refine (hall i (mem_reduce hg avoid hi) hi).resolve_left fun hspilled => ?_
  have hmem : g.vertices[i].temp ∈ (g.color k avoid).spilled :=
    List.mem_filterMap.mpr ⟨i, hspilled, by simp [hi]⟩
  rw [hnone] at hmem
  cases hmem

theorem spilled_sublist (k : Nat) (g : InterferenceGraph) (colors : Array (Option Nat))
    (order : List Nat) : (assignFrom k g colors order).2.Sublist order := by
  induction order generalizing colors with
  | nil => exact .slnil
  | cons i order ih =>
    unfold assignFrom
    cases leastFree k (neighborColors g colors i) with
    | some c => exact (ih _).cons _
    | none => exact (ih _).cons_cons _

/-- No temp is spilled twice. -/
theorem nodup_spilled (hg : g.WellFormed) (avoid : TempSet) : (g.color k avoid).spilled.Nodup := by
  obtain ⟨hnodup, -⟩ := reduceLoop_spec (k := k) hg avoid (reducing_start hg)
    (Nat.le_add_right g.vertices.size _)
  refine List.Nodup.filterMap (fun i j t hi hj => ?_) ((spilled_sublist ..).nodup hnodup)
  obtain ⟨v, hv, rfl⟩ := Option.map_eq_some_iff.mp hi
  obtain ⟨w, hw, heq⟩ := Option.map_eq_some_iff.mp hj
  have hi' := hg.index_iff.mpr ⟨v, hv, rfl⟩
  have hj' := hg.index_iff.mpr ⟨w, hw, rfl⟩
  rw [heq, hi'] at hj'
  exact Option.some.inj hj'

/-- Spilled temps are temps of the graph. -/
theorem mem_index_of_spilled (hg : g.WellFormed) {avoid : TempSet} {t : Temp}
    (ht : t ∈ (g.color k avoid).spilled) : t ∈ g.index := by
  obtain ⟨i, -, hi⟩ := List.mem_filterMap.mp ht
  obtain ⟨v, hv, rfl⟩ := Option.map_eq_some_iff.mp hi
  exact Std.TreeMap.mem_iff_isSome_getElem?.mpr
    (by rw [hg.index_iff.mpr ⟨v, hv, rfl⟩]; rfl)

/-- **Avoided temps are not spilled** if every set of them has a vertex with fewer than `k` neighbours
in the set. -/
theorem not_avoided_of_spilled (hg : g.WellFormed) {avoid : TempSet}
    (hdegenerate : ∀ is : List Nat, is ≠ [] → (∀ i ∈ is, Avoided g avoid i) →
      ∃ i ∈ is, ((g.neighbors i).toList.filter (· ∈ is)).length < k)
    {t : Temp} (ht : t ∈ (g.color k avoid).spilled) : t ∉ avoid := by
  obtain ⟨hnodup, -, hsupported⟩ := reduceLoop_spec (k := k) hg avoid (reducing_start hg)
    (Nat.le_add_right g.vertices.size _)
  obtain ⟨i, hi, hit⟩ := List.mem_filterMap.mp ht
  obtain ⟨v, hv, rfl⟩ := Option.map_eq_some_iff.mp hit
  intro hmem
  refine not_of_spilled hnodup (hsupported hdegenerate trivial) (fun j hj => ?_) i hi ⟨v, hv, hmem⟩
  rw [getD_replicate_none] at hj
  cases hj

end MmixBackend.Coloring
