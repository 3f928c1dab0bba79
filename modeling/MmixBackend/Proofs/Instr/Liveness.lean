import MmixBackend.Instr.Liveness
import MmixBackend.Proofs.Instr.TempSet
import MmixBackend.Proofs.Results
import Mathlib.Data.List.Induction

/-!
# Liveness solves the dataflow equations

The sweeps over an instruction list end with sets that satisfy the dataflow equations, and they are
contained in every other solution. Solutions are read as a pair of predicates, one for the temps before
and one for the temps after each instruction, so that other analyses can be compared with liveness.

## Main statements

- `labelIndex_eq_some_iff`: a label stands for its last occurrence.
- `solve_eq_ok_iff`: the analysis succeeds exactly if no jump leads to an unknown label.
- `Solution.respects`: the sets that the analysis finds satisfy the equations.
- `Solution.least`: they are contained in all sets that do.
-/

namespace MmixBackend.Liveness

/-! ## §1 Labels -/

theorem labelIndex_append_singleton (instrs : List Instr) (i : Instr) :
    labelIndex (instrs ++ [i]) = match i with
      | .label l => (labelIndex instrs).insert l instrs.length
      | _ => labelIndex instrs := by
  unfold labelIndex
  rw [List.zipIdx_append, List.foldl_append]
  cases i <;> simp

/-- The index of a label is that of its last occurrence. -/
theorem labelIndex_eq_some_iff {instrs : List Instr} {l : Label} {j : Nat} :
    (labelIndex instrs)[l]? = some j ↔
      instrs[j]? = some (.label l) ∧ ∀ j' > j, instrs[j']? ≠ some (.label l) := by
  induction instrs using List.reverseRecOn with
  | nil => simp [labelIndex]
  | append_singleton instrs i ih =>
    rw [labelIndex_append_singleton]
    by_cases hi : i = .label l
    · subst hi
      simp only [Std.TreeMap.getElem?_insert_self, Option.some.injEq]
      constructor
      · rintro rfl
        refine ⟨by simp, fun j' hj' => ?_⟩
        rw [List.getElem?_eq_none (by simp; omega)]
        simp
      · rintro ⟨hj, hlast⟩
        -- The occurrence at the end is the last one.
        have hlt : j < instrs.length + 1 := by simpa using (List.getElem?_eq_some_iff.mp hj).1
        rcases Nat.lt_or_ge j instrs.length with h | h
        · exact absurd (by simp) (hlast instrs.length h)
        · omega
    · have hkeep : (match i with
          | .label l => (labelIndex instrs).insert l instrs.length
          | _ => labelIndex instrs)[l]? = (labelIndex instrs)[l]? := by
        cases i with
        | label l' =>
          have hne : l' ≠ l := fun h => hi (by rw [h])
          simp [Std.TreeMap.getElem?_insert, hne]
        | _ => rfl
      have hget : ∀ j : Nat, (instrs ++ [i])[j]? = some (Instr.label l) ↔
          instrs[j]? = some (Instr.label l) := by
        intro j
        rcases Nat.lt_trichotomy j instrs.length with h | h | h
        · rw [List.getElem?_append_left h]
        · subst h
          simp [hi]
        · rw [List.getElem?_eq_none (by simp; omega), List.getElem?_eq_none (by omega)]
      rw [hkeep, ih, hget]
      exact and_congr_right fun _ => forall₂_congr fun j' _ => not_congr (hget j').symm

theorem labelIndex_eq_none_iff {instrs : List Instr} {l : Label} :
    (labelIndex instrs)[l]? = none ↔ .label l ∉ instrs := by
  induction instrs using List.reverseRecOn with
  | nil => simp [labelIndex]
  | append_singleton instrs i ih =>
    rw [labelIndex_append_singleton]
    cases i with
    | label l' =>
      by_cases hl : l' = l
      · subst hl
        simp
      · simp [Std.TreeMap.getElem?_insert, hl, ih, Ne.symm hl]
    | _ => simpa using ih

@[simp] theorem mem_labelIndex {instrs : List Instr} {l : Label} :
    l ∈ labelIndex instrs ↔ .label l ∈ instrs := by
  rw [Std.TreeMap.mem_iff_isSome_getElem?, Option.isSome_iff_ne_none, ne_eq,
    labelIndex_eq_none_iff, not_not]

/-! ## §2 Edges -/

/-- Control can pass from the instruction at `i` to the one at `j`. -/
def Successor (instrs : List Instr) (i j : Nat) : Prop :=
  ∃ instr, instrs[i]? = some instr ∧
    ((instr.flow ≠ .jump ∧ j = i + 1 ∧ j < instrs.length) ∨
      (instr.flow ≠ .call ∧ ∃ l ∈ instr.jumps, (labelIndex instrs)[l]? = some j))

/-- Control can leave the list from the instruction at `i` to the label `l`. -/
def Leaves (instrs : List Instr) (i : Nat) (l : Label) : Prop :=
  ∃ instr, instrs[i]? = some instr ∧ instr.flow ≠ .call ∧ l ∈ instr.jumps ∧ .label l ∉ instrs

/-- Every jump leads to a label of the list or to one of the exits. -/
def ClosedJumps (instrs : List Instr) (exits : Std.TreeMap Label TempSet) : Prop :=
  ∀ instr ∈ instrs, instr.flow ≠ .call → ∀ l ∈ instr.jumps, .label l ∈ instrs ∨ l ∈ exits

variable {instrs : List Instr} {exits : Std.TreeMap Label TempSet}

/-- The edges that jump targets add. -/
theorem addTargets_spec {labels : Std.TreeMap Label Nat} {ls : List Label} {e e' : Edges}
    (h : addTargets labels exits e ls = .ok e') :
    (∀ j, j ∈ e'.succs ↔ j ∈ e.succs ∨ ∃ l ∈ ls, labels[l]? = some j) ∧
      (∀ t, t ∈ e'.exits ↔ t ∈ e.exits ∨
        ∃ l ∈ ls, labels[l]? = none ∧ ∃ s, exits[l]? = some s ∧ t ∈ s) := by
  induction ls generalizing e with
  | nil =>
    cases h
    simp
  | cons l ls ih =>
    unfold addTargets at h
    -- A target in the list is a successor; for one outside the temps that are live there are added.
    cases hl : labels[l]? with
    | some j =>
      rw [hl] at h
      obtain ⟨hsuccs, hexits⟩ := ih h
      constructor
      · intro j'
        rw [hsuccs]
        simp only [List.mem_append, List.mem_cons]
        grind
      · intro t
        rw [hexits]
        simp only [List.mem_cons]
        grind
    | none =>
      cases hx : exits[l]? with
      | some live =>
        rw [hl, hx] at h
        obtain ⟨hsuccs, hexits⟩ := ih h
        constructor
        · intro j'
          rw [hsuccs]
          simp only [List.mem_cons]
          grind
        · intro t
          rw [hexits]
          simp only [TempSet.mem_union, List.mem_cons]
          grind
      | none =>
        rw [hl, hx] at h
        cases h

theorem addTargets_eq_ok_iff {labels : Std.TreeMap Label Nat} {ls : List Label} {e : Edges} :
    (∃ e', addTargets labels exits e ls = .ok e') ↔ ∀ l ∈ ls, l ∈ labels ∨ l ∈ exits := by
  induction ls generalizing e with
  | nil => simp [addTargets]
  | cons l ls ih =>
    unfold addTargets
    cases hl : labels[l]? with
    | some j =>
      have hmem : l ∈ labels := Std.TreeMap.mem_iff_isSome_getElem?.mpr (by simp [hl])
      simp [ih, hmem]
    | none =>
      have hmem : l ∉ labels := fun h => by
        simpa [hl] using Std.TreeMap.mem_iff_isSome_getElem?.mp h
      cases hx : exits[l]? with
      | some live =>
        have hmem' : l ∈ exits := Std.TreeMap.mem_iff_isSome_getElem?.mpr (by simp [hx])
        simp [ih, hmem']
      | none =>
        have hmem' : l ∉ exits := fun h => by
          simpa [hx] using Std.TreeMap.mem_iff_isSome_getElem?.mp h
        simp [hmem, hmem']

theorem edgesOf_spec {i : Nat} {instr : Instr} {e : Edges} (hi : instrs[i]? = some instr)
    (h : edgesOf (labelIndex instrs) exits instrs.length i instr = .ok e) :
    (∀ j, j ∈ e.succs ↔ Successor instrs i j) ∧
      (∀ t, t ∈ e.exits ↔ ∃ l, Leaves instrs i l ∧ ∃ s, exits[l]? = some s ∧ t ∈ s) := by
  have hsucc : ∀ j, Successor instrs i j ↔
      ((instr.flow ≠ .jump ∧ j = i + 1 ∧ j < instrs.length) ∨
        (instr.flow ≠ .call ∧ ∃ l ∈ instr.jumps, (labelIndex instrs)[l]? = some j)) := by
    simp [Successor, hi]
  have hleaves : ∀ l, Leaves instrs i l ↔
      instr.flow ≠ .call ∧ l ∈ instr.jumps ∧ (labelIndex instrs)[l]? = none := by
    simp [Leaves, hi]
  have hfall : ∀ j, j ∈ (if instr.flow ≠ .jump ∧ i + 1 < instrs.length then [i + 1] else []) ↔
      instr.flow ≠ .jump ∧ j = i + 1 ∧ j < instrs.length := by
    intro j
    split
    · simp
      grind
    · simp
      grind
  unfold edgesOf at h
  -- The target of a call is no successor, since control comes back behind the call.
  by_cases hcall : instr.flow = .call
  · simp only [hcall, if_true, Except.ok.injEq] at h
    subst h
    refine ⟨fun j => ?_, fun t => ?_⟩
    · rw [hsucc]
      simpa [hcall] using hfall j
    · simp [hleaves, hcall]
  · simp only [hcall, if_false] at h
    obtain ⟨hsuccs, hexits⟩ := addTargets_spec h
    refine ⟨fun j => ?_, fun t => ?_⟩
    · rw [hsuccs, hsucc, hfall]
      simp [hcall]
    · rw [hexits]
      simp only [hleaves]
      simp [hcall, and_assoc]

theorem edgesOf_eq_ok_iff {i : Nat} {instr : Instr} :
    (∃ e, edgesOf (labelIndex instrs) exits instrs.length i instr = .ok e) ↔
      (instr.flow ≠ .call → ∀ l ∈ instr.jumps, .label l ∈ instrs ∨ l ∈ exits) := by
  unfold edgesOf
  by_cases hcall : instr.flow = .call
  · simp [hcall]
  · simp only [hcall, if_false, addTargets_eq_ok_iff, mem_labelIndex, ne_eq, not_false_eq_true,
      true_implies]

/-- The control flow can be found exactly if all jumps are closed. -/
theorem edges_eq_ok_iff : (∃ es, edges instrs exits = .ok es) ↔ ClosedJumps instrs exits := by
  unfold edges
  simp only [exists_mapM_ok_iff, edgesOf_eq_ok_iff]
  constructor
  · intro h instr hmem
    obtain ⟨i, hi⟩ := List.mem_iff_getElem?.mp hmem
    exact h (instr, i) (List.mem_zipIdx_iff_getElem?.mpr hi)
  · rintro h ⟨instr, i⟩ hmem
    exact h instr (List.mem_of_getElem? (List.mem_zipIdx_iff_getElem?.mp hmem))

/-- What the edges of a list are. -/
theorem edges_spec {es : List Edges} (h : edges instrs exits = .ok es) :
    es.length = instrs.length ∧ ∀ i e, es[i]? = some e →
      (∀ j, j ∈ e.succs ↔ Successor instrs i j) ∧
      (∀ t, t ∈ e.exits ↔ ∃ l, Leaves instrs i l ∧ ∃ s, exits[l]? = some s ∧ t ∈ s) := by
  obtain ⟨hlen, hget⟩ := mapM_ok_getElem? h
  have hlen' : es.length = instrs.length := by simpa using hlen
  refine ⟨hlen', fun i e he => ?_⟩
  have hlt : i < instrs.length := hlen' ▸ (List.getElem?_eq_some_iff.mp he).1
  have hinstr : instrs[i]? = some instrs[i] := List.getElem?_eq_getElem hlt
  obtain ⟨e', he', hedges⟩ := hget i (instrs[i], i) (by simp [hinstr])
  rw [he] at he'
  cases he'
  exact edgesOf_spec hinstr hedges

/-- The nodes of a list, one for each instruction. -/
theorem getElem?_nodes {es : List Edges} {n : Node} {i : Nat} : (nodes instrs es)[i]? = some n ↔
    ∃ instr e, instrs[i]? = some instr ∧ es[i]? = some e ∧
      n = ⟨i, .ofList instr.uses, .ofList instr.defs, e⟩ := by
  unfold nodes
  simp only [List.getElem?_map, List.getElem?_zipIdx, Option.map_map, Option.map_eq_some_iff,
    Prod.exists, List.getElem?_zip_eq_some, Nat.zero_add]
  constructor
  · rintro ⟨instr, e, ⟨hinstr, he⟩, rfl⟩
    exact ⟨instr, e, hinstr, he, rfl⟩
  · rintro ⟨instr, e, hinstr, he, rfl⟩
    exact ⟨instr, e, ⟨hinstr, he⟩, rfl⟩

/-! ## §3 One visit and one sweep -/

section Sweeps

variable {points : Array LivePoint} {n : Node}

theorem mem_foldl_union {js : List Nat} {f : Nat → TempSet} {s : TempSet} {t : Temp} :
    t ∈ js.foldl (fun s j => s ∪ f j) s ↔ t ∈ s ∨ ∃ j ∈ js, t ∈ f j := by
  induction js generalizing s with
  | nil => simp
  | cons j js ih => simp [ih, or_assoc]

theorem mem_update_after {p : LivePoint} {t : Temp} : t ∈ (update points n p).after ↔
    t ∈ p.after ∨ t ∈ n.edges.exits ∨ ∃ j ∈ n.edges.succs, t ∈ (points.getD j default).before := by
  simp only [update, mem_foldl_union, TempSet.mem_union, or_assoc]

theorem mem_update_before {p : LivePoint} {t : Temp} : t ∈ (update points n p).before ↔
    t ∈ p.before ∨ (t ∈ (update points n p).after ∧ t ∉ n.defs) := by
  simp [update]

/-- The sets are contained in the given predicates. -/
def Below (before after : Nat → Temp → Prop) (points : Array LivePoint) : Prop :=
  ∀ i, (∀ t ∈ (points.getD i default).before, before i t) ∧
    ∀ t ∈ (points.getD i default).after, after i t

/-- The predicates satisfy the equations of one instruction. -/
structure Node.Respected (n : Node) (before after : Nat → Temp → Prop) : Prop where
  uses : ∀ t ∈ n.uses, before n.index t
  through : ∀ t, after n.index t → t ∉ n.defs → before n.index t
  flows : ∀ j ∈ n.edges.succs, ∀ t, before j t → after n.index t
  leaves : ∀ t ∈ n.edges.exits, after n.index t

theorem getD_setIfInBounds (points : Array LivePoint) (i j : Nat) (p : LivePoint) :
    (points.setIfInBounds i p).getD j default
      = if i = j ∧ j < points.size then p else points.getD j default := by
  simp only [Array.getD_eq_getD_getElem?, Array.getElem?_setIfInBounds]
  by_cases hij : i = j
  · subst hij
    by_cases hlt : i < points.size
    · simp [hlt]
    · simp [hlt]
  · simp [hij]

/-- A visit stays below every pair of predicates that satisfies the equations. -/
theorem Below.visit {before after : Nat → Temp → Prop} (h : Below before after points)
    (hn : n.Respected before after) (changed : Bool) :
    Below before after (visit n (points, changed)).1 := by
  -- A visit adds only what one of the equations demands, first behind the instruction and then before it.
  have hafter : ∀ t ∈ (update points n (points.getD n.index default)).after, after n.index t := by
    intro t ht
    rcases mem_update_after.mp ht with ht | ht | ⟨j, hj, ht⟩
    · exact (h n.index).2 t ht
    · exact hn.leaves t ht
    · exact hn.flows j hj t ((h j).1 t ht)
  have hbefore : ∀ t ∈ (update points n (points.getD n.index default)).before,
      before n.index t := by
    intro t ht
    rcases mem_update_before.mp ht with ht | ⟨ht, hdef⟩
    · exact (h n.index).1 t ht
    · exact hn.through t (hafter t ht) hdef
  unfold Liveness.visit
  simp only
  split
  · exact h
  · intro i
    simp only [getD_setIfInBounds]
    split
    · rename_i hi
      rw [← hi.1]
      exact ⟨hbefore, hafter⟩
    · exact h i

/-- The number of elements of the sets of a list. -/
def totalSize : List LivePoint → Nat
  | [] => 0
  | p :: ps => p.before.size + p.after.size + totalSize ps

theorem totalSize_lt_set {ps : List LivePoint} {i : Nat} {p q : LivePoint} (hp : ps[i]? = some p)
    (hlt : p.before.size + p.after.size < q.before.size + q.after.size) :
    totalSize ps < totalSize (ps.set i q) := by
  induction ps generalizing i with
  | nil => cases hp
  | cons p' ps ih =>
    cases i with
    | zero =>
      cases hp
      simp only [List.set_cons_zero, totalSize]
      omega
    | succ i =>
      have := ih hp
      simp only [List.set_cons_succ, totalSize]
      omega

theorem totalSize_le {ps : List LivePoint} {bound : Nat}
    (h : ∀ p ∈ ps, p.before.size + p.after.size ≤ bound) : totalSize ps ≤ ps.length * bound := by
  induction ps with
  | nil => exact Nat.zero_le _
  | cons p ps ih =>
    have hp := h p List.mem_cons_self
    have hps := ih fun p' hp' => h p' (List.mem_cons_of_mem _ hp')
    simp only [totalSize, List.length_cons, Nat.succ_mul]
    omega

/-- The number of elements of all sets. -/
def weight (points : Array LivePoint) : Nat := totalSize points.toList

theorem eq_of_sets_eq {p q : LivePoint} (hbefore : p.before = q.before) (hafter : p.after = q.after) :
    p = q := by
  cases p
  cases q
  simp_all

/-- A visit that changes something adds a temp to a set. -/
theorem weight_lt_visit (hn : n.index < points.size)
    (hne : update points n (points.getD n.index default) ≠ points.getD n.index default) :
    weight points < weight (points.setIfInBounds n.index
      (update points n (points.getD n.index default))) := by
  have hold : points.toList[n.index]? = some (points.getD n.index default) := by
    simp [Array.getD_eq_getD_getElem?, hn]
  unfold weight
  rw [Array.toList_setIfInBounds]
  refine totalSize_lt_set hold ?_
  have hbefore : ∀ t ∈ (points.getD n.index default).before,
      t ∈ (update points n (points.getD n.index default)).before :=
    fun t ht => mem_update_before.mpr (.inl ht)
  have hafter : ∀ t ∈ (points.getD n.index default).after,
      t ∈ (update points n (points.getD n.index default)).after :=
    fun t ht => mem_update_after.mpr (.inl ht)
  have h₁ := TempSet.size_le_of_subset hbefore
  have h₂ := TempSet.size_le_of_subset hafter
  -- One of the two sets has grown.
  by_cases heq : (points.getD n.index default).before
      = (update points n (points.getD n.index default)).before
  · have hafter_ne : (points.getD n.index default).after
        ≠ (update points n (points.getD n.index default)).after :=
      fun h => hne (eq_of_sets_eq heq.symm h.symm)
    have := TempSet.size_lt_of_subset hafter hafter_ne
    omega
  · have := TempSet.size_lt_of_subset hbefore heq
    omega

/-- What a sweep does: the sets keep their number and their bounds; if one of them has grown the weight
has grown, and otherwise the equations hold. -/
theorem sweep_spec {ns : List Node} (hns : ∀ n ∈ ns, n.index < points.size) :
    (sweep ns points).1.size = points.size ∧
      (∀ i, ∀ t ∈ (points.getD i default).before, t ∈ ((sweep ns points).1.getD i default).before) ∧
      (∀ before after, (∀ n ∈ ns, n.Respected before after) → Below before after points →
        Below before after (sweep ns points).1) ∧
      weight points ≤ weight (sweep ns points).1 ∧
      ((sweep ns points).2 = true → weight points < weight (sweep ns points).1) ∧
      ((sweep ns points).2 = false → (sweep ns points).1 = points ∧
        ∀ n ∈ ns, update points n (points.getD n.index default) = points.getD n.index default) := by
  -- By induction on the list. The six parts need each other: growth of the sets gives growth of
  -- the weight, and without it nothing has changed for the nodes behind either.
  induction ns with
  | nil =>
    refine ⟨rfl, fun _ _ h => h, fun _ _ _ h => h, Nat.le_refl _, fun h => ?_,
      fun _ => ⟨rfl, by simp⟩⟩
    cases h
  | cons n ns ih =>
    obtain ⟨hsize, hgrows, hbelow, hle, hchanged, hsame⟩ :=
      ih fun n' hn' => hns n' (List.mem_cons_of_mem _ hn')
    -- A sweep goes from the back of the list, so the first node is visited last.
    have hstep : sweep (n :: ns) points = visit n (sweep ns points) := rfl
    have hn : n.index < (sweep ns points).1.size := by
      rw [hsize]
      exact hns n List.mem_cons_self
    have hvisit : ∀ before after, (∀ n' ∈ n :: ns, n'.Respected before after) →
        Below before after points → Below before after (visit n (sweep ns points)).1 :=
      fun before after hr hb => (hbelow before after
        (fun n' hn' => hr n' (List.mem_cons_of_mem _ hn')) hb).visit (hr n List.mem_cons_self) _
    rw [hstep]
    -- Either the visit changes nothing, or the weight grows with it.
    by_cases heq : update (sweep ns points).1 n ((sweep ns points).1.getD n.index default)
        = (sweep ns points).1.getD n.index default
    · have hkeep : visit n (sweep ns points) = sweep ns points := by
        simp only [visit, heq, if_true]
      rw [hkeep] at hvisit ⊢
      refine ⟨hsize, hgrows, hvisit, hle, hchanged, fun h => ?_⟩
      obtain ⟨hpoints, hall⟩ := hsame h
      rw [hpoints] at heq
      refine ⟨hpoints, fun n' hn' => ?_⟩
      rcases List.mem_cons.mp hn' with rfl | hn'
      · exact heq
      · exact hall n' hn'
    · have hset : visit n (sweep ns points) = ((sweep ns points).1.setIfInBounds n.index
          (update (sweep ns points).1 n ((sweep ns points).1.getD n.index default)), true) := by
        simp only [visit, heq, if_false]
      rw [hset] at hvisit ⊢
      -- The visit has added a temp to one set and taken none away.
      have hlt := weight_lt_visit hn heq
      have hgrows' : ∀ i, ∀ t ∈ (points.getD i default).before,
          t ∈ (((sweep ns points).1.setIfInBounds n.index (update (sweep ns points).1 n
            ((sweep ns points).1.getD n.index default))).getD i default).before := by
        intro i t ht
        rw [getD_setIfInBounds]
        by_cases hi : n.index = i ∧ i < (sweep ns points).1.size
        · rw [if_pos hi]
          obtain ⟨rfl, -⟩ := hi
          exact mem_update_before.mpr (.inl (hgrows _ t ht))
        · rw [if_neg hi]
          exact hgrows i t ht
      refine ⟨by simpa using hsize, hgrows', hvisit, Nat.le_of_lt (Nat.lt_of_le_of_lt hle hlt),
        fun _ => Nat.lt_of_le_of_lt hle hlt, fun h => ?_⟩
      cases h

/-- All equations hold. -/
def Stable (ns : List Node) (points : Array LivePoint) : Prop :=
  ∀ n ∈ ns, update points n (points.getD n.index default) = points.getD n.index default

/-- Sweeps come to an end: as long as something changes the weight grows, and it cannot grow beyond
the number of sets times the number of candidates. -/
theorem iterate_spec {ns : List Node} {all : TempSet}
    (hall : ∀ n ∈ ns, n.Respected (fun _ t => t ∈ all) (fun _ t => t ∈ all)) :
    ∀ {fuel : Nat} (passes : Nat) {points : Array LivePoint}, (∀ n ∈ ns, n.index < points.size) →
    Below (fun _ t => t ∈ all) (fun _ t => t ∈ all) points →
    2 * points.size * all.size < weight points + fuel →
    (iterate ns fuel passes points).1.size = points.size ∧
      Stable ns (iterate ns fuel passes points).1 ∧
      (∀ i, ∀ t ∈ (points.getD i default).before,
        t ∈ ((iterate ns fuel passes points).1.getD i default).before) ∧
      ∀ before after, (∀ n ∈ ns, n.Respected before after) → Below before after points →
        Below before after (iterate ns fuel passes points).1 := by
  intro fuel
  induction fuel with
  | zero =>
    intro passes points _ hbelow hweight
    -- The weight is not beyond its bound, so there is fuel left.
    exfalso
    have hle : weight points ≤ points.toList.length * (2 * all.size) := by
      refine totalSize_le fun p hp => ?_
      obtain ⟨i, hi⟩ := List.mem_iff_getElem?.mp hp
      have hget : points.getD i default = p := by
        rw [Array.getElem?_toList] at hi
        simp [Array.getD_eq_getD_getElem?, hi]
      have h₁ := TempSet.size_le_of_subset (hget ▸ (hbelow i).1)
      have h₂ := TempSet.size_le_of_subset (hget ▸ (hbelow i).2)
      omega
    have : points.toList.length * (2 * all.size) = 2 * points.size * all.size := by
      rw [Array.length_toList, Nat.mul_left_comm, Nat.mul_assoc]
    omega
  | succ fuel ih =>
    intro passes points hindex hbelow hweight
    obtain ⟨hsize, hgrows, hkeep, -, hchanged, hsame⟩ := sweep_spec hindex
    unfold iterate
    cases hsweep : sweep ns points with
    | mk points' changed =>
      rw [hsweep] at hsize hgrows hkeep hchanged hsame
      cases changed with
      | true =>
        have hlt := hchanged rfl
        simp only at hsize hgrows hkeep hlt
        -- The sweep has used one unit of fuel and added at least one to the weight.
        have hrest := ih (passes + 1) (fun n hn => hsize ▸ hindex n hn)
          (hkeep _ _ hall hbelow) (by rw [hsize]; omega)
        rw [hsize] at hrest
        exact ⟨hrest.1, hrest.2.1, fun i t ht => hrest.2.2.1 i t (hgrows i t ht),
          fun before after hr hb => hrest.2.2.2 before after hr (hkeep before after hr hb)⟩
      | false =>
        -- A sweep that changes nothing ends the iteration, and the equations hold.
        obtain ⟨hpoints, hstable⟩ := hsame rfl
        simp only at hpoints
        subst hpoints
        exact ⟨rfl, hstable, fun _ _ ht => ht, fun _ _ _ hb => hb⟩

end Sweeps

/-! ## §4 Solutions -/

/-- Temps before and after every instruction that satisfy the dataflow equations as inclusions. -/
structure Respects (instrs : List Instr) (exits : Std.TreeMap Label TempSet)
    (before after : Nat → Temp → Prop) : Prop where
  uses : ∀ {i instr t}, instrs[i]? = some instr → t ∈ instr.uses → before i t
  through : ∀ {i instr t}, instrs[i]? = some instr → after i t → t ∉ instr.defs → before i t
  flows : ∀ {i j t}, Successor instrs i j → before j t → after i t
  leaves : ∀ {i l s t}, Leaves instrs i l → exits[l]? = some s → t ∈ s → after i t

namespace Solution

/-- A temp is live before the instruction at `i`. -/
def Before (s : Solution) (i : Nat) (t : Temp) : Prop := t ∈ (s.points.getD i default).before

/-- A temp is live after the instruction at `i`. -/
def After (s : Solution) (i : Nat) (t : Temp) : Prop := t ∈ (s.points.getD i default).after

end Solution

theorem solve_eq_ok_iff : (∃ s, solve instrs exits = .ok s) ↔ ClosedJumps instrs exits := by
  rw [← edges_eq_ok_iff]
  unfold solve
  cases edges instrs exits with
  | error e => simp [bind, Except.bind]
  | ok es => simp [bind, Except.bind, pure, Except.pure]

/-- The liveness of a function is found if its jumps stay inside or go to its exit. -/
theorem exists_liveness_eq_ok {c : Code}
    (h : ∀ i ∈ c.instrs, i.flow ≠ .call → ∀ l ∈ i.jumps, .label l ∈ c.instrs ∨ l = c.exit) :
    ∃ s, c.liveness = .ok s := by
  refine solve_eq_ok_iff.mpr fun i hi hflow l hl => ?_
  rcases h i hi hflow l hl with hmem | rfl
  · exact .inl hmem
  · exact .inr Std.TreeMap.mem_insert_self

theorem mem_candidates {ns : List Node} {t : Temp} :
    t ∈ candidates ns ↔ ∃ n ∈ ns, t ∈ n.uses ∨ t ∈ n.edges.exits := by
  suffices h : ∀ s : TempSet, t ∈ ns.foldl (fun s n => (s ∪ n.uses) ∪ n.edges.exits) s ↔
      t ∈ s ∨ ∃ n ∈ ns, t ∈ n.uses ∨ t ∈ n.edges.exits by
    simpa [candidates] using h ∅
  intro s
  induction ns generalizing s with
  | nil => simp
  | cons n ns ih => simp [ih, or_assoc]

/-! ### The start of the sweeps -/

theorem getD_start (ns : List Node) (i : Nat) :
    (start ns).getD i default = (ns[i]?.map fun n => { before := n.uses : LivePoint }).getD default := by
  simp [start, Array.getD_eq_getD_getElem?]

theorem size_start (ns : List Node) : (start ns).size = ns.length := by
  simp [start]

theorem index_of_getElem?_nodes {es : List Edges} {i : Nat} {n : Node}
    (h : (nodes instrs es)[i]? = some n) :
    n.index = i := by
  obtain ⟨_, _, -, -, rfl⟩ := getElem?_nodes.mp h
  rfl

theorem index_lt_size_start {es : List Edges} :
    ∀ n ∈ nodes instrs es, n.index < (start (nodes instrs es)).size := by
  intro n hn
  obtain ⟨i, hi⟩ := List.mem_iff_getElem?.mp hn
  rw [size_start, index_of_getElem?_nodes hi]
  exact (List.getElem?_eq_some_iff.mp hi).1

/-- At first a temp is live before the instructions that use it and nowhere else. -/
theorem below_start {es : List Edges} {before after : Nat → Temp → Prop}
    (h : ∀ n ∈ nodes instrs es, n.Respected before after) :
    Below before after (start (nodes instrs es)) := by
  intro i
  rw [getD_start]
  cases hn : (nodes instrs es)[i]? with
  | none =>
    exact ⟨fun t ht => (TempSet.not_mem_empty t ht).elim, fun t ht =>
      (TempSet.not_mem_empty t ht).elim⟩
  | some n =>
    refine ⟨fun t ht => ?_, fun t ht => (TempSet.not_mem_empty t ht).elim⟩
    exact index_of_getElem?_nodes hn ▸ (h n (List.mem_of_getElem? hn)).uses t ht

/-- The equations hold if everything that is ever live is live everywhere. -/
theorem respected_candidates (ns : List Node) :
    ∀ n ∈ ns, n.Respected (fun _ t => t ∈ candidates ns) (fun _ t => t ∈ candidates ns) := fun n hn =>
  { uses := fun _ ht => mem_candidates.mpr ⟨n, hn, .inl ht⟩
    through := fun _ ht _ => ht
    flows := fun _ _ _ ht => ht
    leaves := fun _ ht => mem_candidates.mpr ⟨n, hn, .inr ht⟩ }

/-- What a solution is made of: the sets after the last sweep. -/
theorem solve_spec {s : Solution} (h : solve instrs exits = .ok s) :
    ∃ es, edges instrs exits = .ok es ∧ s.points.length = instrs.length ∧
      Stable (nodes instrs es) s.points.toArray ∧
      (∀ i n, (nodes instrs es)[i]? = some n → ∀ t ∈ n.uses, s.Before i t) ∧
      ∀ before after, (∀ n ∈ nodes instrs es, n.Respected before after) →
        Below before after s.points.toArray := by
  unfold solve at h
  cases hes : edges instrs exits with
  | error e =>
    rw [hes] at h
    cases h
  | ok es =>
    have hpoints : s.points = (iterate (nodes instrs es) (enoughSweeps (nodes instrs es)) 0
        (start (nodes instrs es))).1.toList := by
      rw [hes] at h
      exact congrArg Solution.points (Except.ok.inj h).symm
    have hlen : (nodes instrs es).length = instrs.length := by
      simp [nodes, (edges_spec hes).1]
    -- Every sweep but the last adds a candidate somewhere, so there are enough sweeps.
    have hfuel : 2 * (start (nodes instrs es)).size * (candidates (nodes instrs es)).size
        < weight (start (nodes instrs es)) + enoughSweeps (nodes instrs es) := by
      rw [size_start, enoughSweeps]
      omega
    have hcandidates := respected_candidates (nodes instrs es)
    obtain ⟨hsize, hstable, hgrows, hkeep⟩ := iterate_spec hcandidates 0 index_lt_size_start
      (below_start hcandidates) hfuel
    refine ⟨es, rfl, ?_, ?_, fun i n hn t ht => ?_, fun before after hr => ?_⟩
    · rw [hpoints, Array.length_toList, hsize, size_start, hlen]
    · rw [hpoints]
      exact hstable
    · have hmem : t ∈ ((start (nodes instrs es)).getD i default).before := by
        rw [getD_start, hn]
        exact ht
      have hlive := hgrows i t hmem
      simpa [Solution.Before, hpoints, Array.getD_eq_getD_getElem?] using hlive
    · rw [hpoints]
      exact hkeep before after hr (below_start hr)

/-- The live sets of a solution, read from the array that the sweeps work on. -/
theorem getD_toArray (points : List LivePoint) (i : Nat) :
    points.toArray.getD i default = points.getD i default := by
  simp [Array.getD_eq_getD_getElem?, List.getD_eq_getElem?_getD]

/-- The equations of the nodes are the equations of the list. -/
theorem respects_iff {es : List Edges} (hes : edges instrs exits = .ok es)
    {before after : Nat → Temp → Prop} : Respects instrs exits before after ↔
      ∀ n ∈ nodes instrs es, n.Respected before after := by
  obtain ⟨hlen, hedges⟩ := edges_spec hes
  constructor
  · intro h n hn
    obtain ⟨i, hi⟩ := List.mem_iff_getElem?.mp hn
    obtain ⟨instr, e, hinstr, he, rfl⟩ := getElem?_nodes.mp hi
    obtain ⟨hsuccs, hexits⟩ := hedges i e he
    exact
      { uses := fun t ht => h.uses hinstr (TempSet.mem_ofList.mp ht)
        through := fun t ht hdef => h.through hinstr ht fun hmem =>
          hdef (TempSet.mem_ofList.mpr hmem)
        flows := fun j hj t ht => h.flows ((hsuccs j).mp hj) ht
        leaves := fun t ht => by
          obtain ⟨l, hleaves, s, hs, hts⟩ := (hexits t).mp ht
          exact h.leaves hleaves hs hts }
  · intro h
    -- Every instruction has edges, hence a node.
    have hnode : ∀ i instr, instrs[i]? = some instr → ∃ e, es[i]? = some e ∧
        Node.Respected ⟨i, .ofList instr.uses, .ofList instr.defs, e⟩ before after := by
      intro i instr hinstr
      have hlt : i < es.length := hlen ▸ (List.getElem?_eq_some_iff.mp hinstr).1
      refine ⟨es[i], List.getElem?_eq_getElem hlt, h _ (List.mem_of_getElem? (i := i) ?_)⟩
      exact getElem?_nodes.mpr ⟨instr, es[i], hinstr, List.getElem?_eq_getElem hlt, rfl⟩
    refine ⟨?_, ?_, ?_, ?_⟩
    · intro i instr t hinstr ht
      obtain ⟨e, -, hn⟩ := hnode i instr hinstr
      exact hn.uses t (TempSet.mem_ofList.mpr ht)
    · intro i instr t hinstr ht hdef
      obtain ⟨e, -, hn⟩ := hnode i instr hinstr
      exact hn.through t ht fun hmem => hdef (TempSet.mem_ofList.mp hmem)
    · intro i j t hsucc ht
      obtain ⟨instr, hinstr, -⟩ := id hsucc
      obtain ⟨e, he, hn⟩ := hnode i instr hinstr
      exact hn.flows j (((hedges i e he).1 j).mpr hsucc) t ht
    · intro i l s t hleaves hs ht
      obtain ⟨instr, hinstr, -⟩ := id hleaves
      obtain ⟨e, he, hn⟩ := hnode i instr hinstr
      exact hn.leaves t (((hedges i e he).2 t).mpr ⟨l, hleaves, s, hs, ht⟩)

namespace Solution

variable {s : Solution}

theorem length_eq (h : solve instrs exits = .ok s) : s.points.length = instrs.length := by
  obtain ⟨_, -, hlen, -⟩ := solve_spec h
  exact hlen

/-- **Soundness**: the sets that the analysis finds satisfy the dataflow equations. -/
theorem respects (h : solve instrs exits = .ok s) :
    Respects instrs exits s.Before s.After := by
  obtain ⟨es, hes, hlen, hstable, huses, -⟩ := solve_spec h
  rw [respects_iff hes]
  intro n hn
  obtain ⟨i, hi⟩ := List.mem_iff_getElem?.mp hn
  have hindex : n.index = i := by
    obtain ⟨_, _, -, -, rfl⟩ := getElem?_nodes.mp hi
    rfl
  have heq := hstable n hn
  rw [getD_toArray] at heq
  -- The sets do not change under the equations, so they already contain what these add.
  have hafter : ∀ t, t ∈ (update s.points.toArray n (s.points.getD n.index default)).after →
      s.After n.index t := fun t ht => by rwa [heq] at ht
  refine ⟨fun t ht => hindex ▸ huses i n hi t ht, fun t ht hdef => ?_, fun j hj t ht => ?_,
    fun t ht => hafter t (mem_update_after.mpr (.inr (.inl ht)))⟩
  · show t ∈ (s.points.getD n.index default).before
    rw [← heq, mem_update_before]
    exact .inr ⟨by rw [heq]; exact ht, hdef⟩
  · refine hafter t (mem_update_after.mpr (.inr (.inr ⟨j, hj, ?_⟩)))
    rw [getD_toArray]
    exact ht

/-- **Minimality**: the sets that the analysis finds are contained in every solution. -/
theorem least (h : solve instrs exits = .ok s) {before after : Nat → Temp → Prop}
    (hr : Respects instrs exits before after) :
    (∀ i t, s.Before i t → before i t) ∧ ∀ i t, s.After i t → after i t := by
  obtain ⟨es, hes, -, -, -, hbelow⟩ := solve_spec h
  have hb := hbelow before after ((respects_iff hes).mp hr)
  refine ⟨fun i t ht => (hb i).1 t ?_, fun i t ht => (hb i).2 t ?_⟩
  · rw [getD_toArray]
    exact ht
  · rw [getD_toArray]
    exact ht

end Solution

end MmixBackend.Liveness
