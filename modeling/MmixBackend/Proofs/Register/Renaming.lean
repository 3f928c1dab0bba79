import MmixBackend.Proofs.Register.Interference
import MmixBackend.Register.Allocation

/-!
# Renaming temps in order

The numbers of temps show up nowhere in the finished code, but they order the live sets, and through these
the edges of the interference graph and the choices that colouring makes. Only the order counts: under a
renaming that keeps it, every analysis of an instruction list does the same with the renamed temps.

## Main statements

- `Renaming.solve_map`: live sets are renamed.
- `Renaming.Graphs.build`: the interference graph has the same vertices and edges under new names.
- `Renaming.Graphs.color`: its colouring is the same, and the renamed temps are spilled.
-/

namespace MmixBackend

/-- A renaming of temps that keeps their order. -/
structure Renaming where
  /-- The new name of a temp. -/
  apply : Temp → Temp
  lt_of_lt : ∀ {s t : Temp}, s < t → apply s < apply t

namespace Renaming

instance : CoeFun Renaming fun _ => Temp → Temp := ⟨Renaming.apply⟩

variable (ρ : Renaming)

@[simp] theorem lt_iff {s t : Temp} : ρ s < ρ t ↔ s < t := by
  refine ⟨fun h => ?_, ρ.lt_of_lt⟩
  by_contra hst
  by_cases hts : t < s
  · have h₁ : (ρ t).index < (ρ s).index := ρ.lt_of_lt hts
    have h₂ : (ρ s).index < (ρ t).index := h
    omega
  · rw [TempSet.eq_of_not_lt hst hts] at h
    exact Int.lt_irrefl _ h

@[simp] theorem eq_iff {s t : Temp} : ρ s = ρ t ↔ s = t := by
  refine ⟨fun h => TempSet.eq_of_not_lt ?_ ?_, congrArg _⟩
  · rw [← ρ.lt_iff, h]
    exact Int.lt_irrefl _
  · rw [← ρ.lt_iff, h]
    exact Int.lt_irrefl _

theorem injective : Function.Injective ρ := fun _ _ => ρ.eq_iff.mp

/-! ## §1 Sets -/

/-- A set under its new names. -/
def set (s : TempSet) : TempSet where
  toList := s.toList.map ρ
  sorted := s.sorted.map _ fun _ _ => ρ.lt_of_lt

theorem set_injective : Function.Injective ρ.set := by
  rintro ⟨xs, _⟩ ⟨ys, _⟩ h
  have hlists : xs.map ρ = ys.map ρ := congrArg TempSet.toList h
  simp [List.map_injective_iff.mpr ρ.injective hlists]

theorem set_eq_of_toList {s : TempSet} {s' : TempSet} (h : s'.toList = s.toList.map ρ) :
    s' = ρ.set s := by
  cases s'
  simp only at h
  subst h
  rfl

@[simp] theorem set_empty : ρ.set ∅ = ∅ := rfl

@[simp] theorem mem_set {s : TempSet} {t : Temp} : ρ t ∈ ρ.set s ↔ t ∈ s :=
  List.mem_map_of_injective ρ.injective

@[simp] theorem size_set (s : TempSet) : (ρ.set s).size = s.size := List.length_map _

theorem insertSorted_map (t : Temp) (us : List Temp) :
    TempSet.insertSorted (ρ t) (us.map ρ) = (TempSet.insertSorted t us).map ρ := by
  induction us with
  | nil => rfl
  | cons u us ih =>
    simp only [List.map_cons, TempSet.insertSorted, lt_iff, ih]
    split
    · simp
    · split <;> simp

@[simp] theorem set_insert (s : TempSet) (t : Temp) : ρ.set (s.insert t) = (ρ.set s).insert (ρ t) :=
  (ρ.set_eq_of_toList (ρ.insertSorted_map t s.toList)).symm

theorem mergeSorted_map (ts us : List Temp) :
    TempSet.mergeSorted (ts.map ρ) (us.map ρ) = (TempSet.mergeSorted ts us).map ρ := by
  induction ts generalizing us with
  | nil => rfl
  | cons t ts ih =>
    simp only [List.map_cons, TempSet.mergeSorted]
    -- The head is merged into the second list, whose elements are passed one by one.
    induction us with
    | nil => simpa [TempSet.mergeHead] using ih []
    | cons u us ihu =>
      simp only [List.map_cons, TempSet.mergeHead, lt_iff]
      split
      · simpa using ih (u :: us)
      · split
        · simpa using ihu
        · simpa using ih us

@[simp] theorem set_union (a b : TempSet) : ρ.set (a ∪ b) = ρ.set a ∪ ρ.set b :=
  (ρ.set_eq_of_toList (ρ.mergeSorted_map a.toList b.toList)).symm

theorem set_filter {keep keep' : Temp → Bool} (h : ∀ t, keep' (ρ t) = keep t) (s : TempSet) :
    ρ.set (s.filter keep) = (ρ.set s).filter keep' := by
  refine (ρ.set_eq_of_toList ?_).symm
  show (s.toList.map ρ).filter keep' = (s.toList.filter keep).map ρ
  rw [List.filter_map]
  exact congrArg _ (List.filter_congr fun t _ => h t)

@[simp] theorem set_diff (a b : TempSet) : ρ.set (a \ b) = ρ.set a \ ρ.set b :=
  ρ.set_filter (fun t => by simp) a

@[simp] theorem set_erase (s : TempSet) (t : Temp) : ρ.set (s.erase t) = (ρ.set s).erase (ρ t) :=
  ρ.set_filter (fun u => by simp) s

@[simp] theorem set_ofList (ts : List Temp) : ρ.set (.ofList ts) = .ofList (ts.map ρ) := by
  suffices h : ∀ s, ρ.set (ts.foldl TempSet.insert s) = (ts.map ρ).foldl TempSet.insert (ρ.set s) from h ∅
  induction ts with
  | nil => exact fun _ => rfl
  | cons t ts ih =>
    intro s
    rw [List.foldl_cons, ih, List.map_cons, List.foldl_cons, set_insert]

/-- A temp gets the same entry in both tables. -/
theorem getElem?_insert {α : Type} {table table' : Std.TreeMap Temp α}
    (h : ∀ t : Temp, table'[ρ t]? = table[t]?) (t : Temp) (a : α) (u : Temp) :
    (table'.insert (ρ t) a)[ρ u]? = (table.insert t a)[u]? := by
  rw [Std.TreeMap.getElem?_insert, Std.TreeMap.getElem?_insert, h u]
  simp only [Std.LawfulEqCmp.compare_eq_iff_eq, ρ.eq_iff]

/-! ## §2 Instructions -/

/-- An instruction under its new names. -/
def instr : Instr → Instr
  | .oper op uses defs jumps flow => .oper op (uses.map ρ) (defs.map ρ) jumps flow
  | .move src dst => .move (ρ src) (ρ dst)
  | .label l => .label l

@[simp] theorem uses_instr (i : Instr) : (ρ.instr i).uses = i.uses.map ρ := by cases i <;> rfl

@[simp] theorem defs_instr (i : Instr) : (ρ.instr i).defs = i.defs.map ρ := by cases i <;> rfl

@[simp] theorem jumps_instr (i : Instr) : (ρ.instr i).jumps = i.jumps := by cases i <;> rfl

@[simp] theorem flow_instr (i : Instr) : (ρ.instr i).flow = i.flow := by cases i <;> rfl

@[simp] theorem pressure_instr (fp : Temp) (i : Instr) : (ρ.instr i).pressure (ρ fp) = i.pressure fp := by
  have h : ∀ ts : List Temp, Instr.distinctTemps (ρ fp) (ts.map ρ) = Instr.distinctTemps fp ts := by
    intro ts
    rw [Instr.distinctTemps, ← set_ofList, ← set_erase, size_set, Instr.distinctTemps]
  simp only [Instr.pressure, uses_instr, defs_instr, h]

/-! ## §3 Live sets -/

/-- What is live around an instruction, under its new names. -/
def point (p : LivePoint) : LivePoint := ⟨ρ.set p.before, ρ.set p.after⟩

theorem point_injective : Function.Injective ρ.point := by
  rintro ⟨b, a⟩ ⟨b', a'⟩ h
  obtain ⟨hb, ha⟩ := LivePoint.mk.inj h
  exact LivePoint.mk.injEq .. ▸ ⟨ρ.set_injective hb, ρ.set_injective ha⟩

/-- Edges with renamed exits. -/
def edges (e : Liveness.Edges) : Liveness.Edges := { e with exits := ρ.set e.exits }

/-- A node with renamed sets. -/
def node (n : Liveness.Node) : Liveness.Node :=
  { n with uses := ρ.set n.uses, defs := ρ.set n.defs, edges := ρ.edges n.edges }

section Liveness

open Liveness

theorem labelIndex_map (is : List Instr) : labelIndex (is.map ρ.instr) = labelIndex is := by
  unfold labelIndex
  rw [List.zipIdx_map, List.foldl_map]
  congr 1
  funext labels ⟨i, n⟩
  cases i <;> rfl

/-- The exits of two functions that differ in the names of temps. -/
def Exits (exits exits' : Std.TreeMap Label TempSet) : Prop :=
  ∀ l : Label, exits'[l]? = exits[l]?.map ρ.set

variable {ρ} {exits exits' : Std.TreeMap Label TempSet}

theorem addTargets_map (h : ρ.Exits exits exits') (labels : Std.TreeMap Label Nat) (e : Edges)
    (ls : List Label) : addTargets labels exits' (ρ.edges e) ls
      = (addTargets labels exits e ls).map ρ.edges := by
  induction ls generalizing e with
  | nil => rfl
  | cons l ls ih =>
    simp only [addTargets]
    cases labels[l]? with
    | some j => exact ih { e with succs := e.succs ++ [j] }
    | none =>
      simp only [h l]
      cases exits[l]? with
      | some live =>
        simp only [Option.map_some]
        rw [← ih { e with exits := e.exits ∪ live }]
        simp [Renaming.edges]
      | none => rfl

theorem edgesOf_map (h : ρ.Exits exits exits') (labels : Std.TreeMap Label Nat) (n i : Nat)
    (instr : Instr) :
    edgesOf labels exits' n i (ρ.instr instr) = (edgesOf labels exits n i instr).map ρ.edges := by
  simp only [edgesOf, flow_instr, jumps_instr]
  split
  · rfl
  · exact addTargets_map h labels
      { succs := if instr.flow ≠ .jump ∧ i + 1 < n then [i + 1] else [] } instr.jumps

theorem mapM_map_except {α β γ δ ε : Type} {f : α → Except ε β} {f' : γ → Except ε δ}
    {g : α → γ} {k : β → δ} (h : ∀ a, f' (g a) = (f a).map k) (xs : List α) :
    (xs.map g).mapM f' = (xs.mapM f).map (List.map k) := by
  induction xs with
  | nil => rfl
  | cons x xs ih =>
    rw [List.map_cons, List.mapM_cons, List.mapM_cons, h, ih]
    cases f x with
    | error e => rfl
    | ok y => cases xs.mapM f <;> rfl

theorem edges_map (h : ρ.Exits exits exits') (is : List Instr) :
    Liveness.edges (is.map ρ.instr) exits' = (Liveness.edges is exits).map (List.map ρ.edges) := by
  unfold Liveness.edges
  rw [List.zipIdx_map, labelIndex_map, List.length_map]
  refine mapM_map_except ?_ _
  rintro ⟨i, n⟩
  exact edgesOf_map h _ _ n i

variable (ρ)

theorem nodes_map (is : List Instr) (es : List Edges) :
    nodes (is.map ρ.instr) (es.map ρ.edges) = (nodes is es).map ρ.node := by
  unfold nodes
  rw [List.zip_map, List.zipIdx_map, List.map_map, List.map_map]
  refine List.map_congr_left ?_
  rintro ⟨⟨i, e⟩, n⟩ _
  simp [node, Prod.map]

theorem getD_map_point (points : Array LivePoint) (j : Nat) :
    (points.map ρ.point).getD j default = ρ.point (points.getD j default) := by
  by_cases hj : j < points.size
  · simp [Array.getD, hj]
  · simp only [Array.getD, Array.size_map, hj, dite_false]
    rfl

theorem update_map (points : Array LivePoint) (n : Node) (p : LivePoint) :
    update (points.map ρ.point) (ρ.node n) (ρ.point p) = ρ.point (update points n p) := by
  have hafter : ∀ (js : List Nat) (s : TempSet),
      js.foldl (fun s j => s ∪ ((points.map ρ.point).getD j default).before) (ρ.set s)
        = ρ.set (js.foldl (fun s j => s ∪ (points.getD j default).before) s) := by
    intro js
    induction js with
    | nil => exact fun _ => rfl
    | cons j js ih =>
      intro s
      rw [List.foldl_cons, List.foldl_cons, getD_map_point, ← ih]
      simp [point]
  have hstart : (ρ.point p).after ∪ (ρ.node n).edges.exits = ρ.set (p.after ∪ n.edges.exits) := by
    simp [point, node, Renaming.edges]
  have hsuccs : (ρ.node n).edges.succs = n.edges.succs := rfl
  have hdefs : (ρ.node n).defs = ρ.set n.defs := rfl
  simp only [update, hstart, hsuccs, hdefs, hafter]
  simp [point]

theorem visit_map (n : Node) (points : Array LivePoint) (changed : Bool) :
    visit (ρ.node n) (points.map ρ.point, changed)
      = ((visit n (points, changed)).1.map ρ.point, (visit n (points, changed)).2) := by
  simp only [visit]
  have hindex : (ρ.node n).index = n.index := rfl
  rw [hindex, getD_map_point, update_map]
  simp only [ρ.point_injective.eq_iff]
  split
  · rfl
  · simp [Array.map_setIfInBounds]

theorem sweep_map (ns : List Node) (points : Array LivePoint) :
    sweep (ns.map ρ.node) (points.map ρ.point)
      = ((sweep ns points).1.map ρ.point, (sweep ns points).2) := by
  unfold sweep
  induction ns with
  | nil => rfl
  | cons n ns ih => rw [List.map_cons, List.foldr_cons, List.foldr_cons, ih, visit_map]

theorem iterate_map (ns : List Node) (fuel passes : Nat) (points : Array LivePoint) :
    iterate (ns.map ρ.node) fuel passes (points.map ρ.point)
      = ((iterate ns fuel passes points).1.map ρ.point, (iterate ns fuel passes points).2) := by
  induction fuel generalizing passes points with
  | zero => rfl
  | succ fuel ih =>
    simp only [iterate, sweep_map]
    rcases sweep ns points with ⟨points', _ | _⟩
    · rfl
    · exact ih (passes + 1) points'

theorem start_map (ns : List Node) : start (ns.map ρ.node) = (start ns).map ρ.point := by
  simp [start, node, point]

theorem candidates_map (ns : List Node) : candidates (ns.map ρ.node) = ρ.set (candidates ns) := by
  suffices h : ∀ s, (ns.map ρ.node).foldl (fun s n => (s ∪ n.uses) ∪ n.edges.exits) (ρ.set s)
      = ρ.set (ns.foldl (fun s n => (s ∪ n.uses) ∪ n.edges.exits) s) from h ∅
  induction ns with
  | nil => exact fun _ => rfl
  | cons n ns ih =>
    intro s
    rw [List.map_cons, List.foldl_cons, List.foldl_cons, ← ih]
    simp [node, Renaming.edges]

/-- The result of an analysis under new names. -/
def solution (s : Solution) : Solution := { s with points := s.points.map ρ.point }

variable {ρ}

/-- **Live sets are renamed.** The analysis finds the same edges, so it takes the same sweeps and
stops with the same faults. -/
theorem solve_map (h : ρ.Exits exits exits') (is : List Instr) :
    solve (is.map ρ.instr) exits' = (solve is exits).map ρ.solution := by
  unfold solve
  rw [edges_map h]
  cases Liveness.edges is exits with
  | error e => rfl
  | ok es =>
    have hsweeps : enoughSweeps (nodes (is.map ρ.instr) (es.map ρ.edges)) = enoughSweeps
        (nodes is es) := by
      simp only [enoughSweeps, nodes_map, candidates_map, size_set, List.length_map]
    simp only [Except.map, bind, Except.bind, pure, Except.pure, hsweeps]
    rw [nodes_map, start_map, iterate_map]
    simp [solution]

end Liveness

/-! ## §4 Interference graphs -/

/-- A vertex under its new name. -/
def vertex (v : Vertex) : Vertex := { v with temp := ρ v.temp }

/-- Two graphs that differ in the names of temps. -/
structure Graphs (g g' : InterferenceGraph) : Prop where
  vertices : g'.vertices = g.vertices.map ρ.vertex
  index : ∀ t : Temp, g'.index[ρ t]? = g.index[t]?

/-- A pair of temps under its new names. -/
def pair (p : Temp × Temp) : Temp × Temp := (ρ p.1, ρ p.2)

theorem link_map (vertices : Array Vertex) (i j : Nat) :
    InterferenceGraph.link (vertices.map ρ.vertex) i j
      = (InterferenceGraph.link vertices i j).map ρ.vertex := by
  apply Array.ext
  · simp [InterferenceGraph.link]
  · intro n hn _
    simp only [InterferenceGraph.link, Array.size_modify, Array.size_map] at hn
    simp only [InterferenceGraph.link, Array.getElem_modify, Array.getElem_map]
    split <;> rfl

theorem pairsOf_map (ts : List Temp) :
    InterferenceGraph.pairsOf (ts.map ρ) = (InterferenceGraph.pairsOf ts).map ρ.pair := by
  induction ts with
  | nil => rfl
  | cons t ts ih => simp [InterferenceGraph.pairsOf, ih, pair]

theorem interferences_map (i : Instr) (after : TempSet) :
    InterferenceGraph.interferences (ρ.instr i) (ρ.set after)
      = (InterferenceGraph.interferences i after).map ρ.pair := by
  have hset : (ρ.set after).toList = after.toList.map ρ := rfl
  simp only [InterferenceGraph.interferences, hset, pairsOf_map, defs_instr, List.map_append,
    List.flatMap_map, List.map_flatMap, List.map_map]
  rfl

namespace Graphs

variable {ρ} {g g' : InterferenceGraph}

theorem empty : ρ.Graphs {} {} := ⟨by simp, by simp⟩

theorem neighbors (h : ρ.Graphs g g') (i : Nat) : g'.neighbors i = g.neighbors i := by
  unfold InterferenceGraph.neighbors
  rw [h.vertices, Array.getElem?_map]
  cases g.vertices[i]? <;> rfl

theorem size (h : ρ.Graphs g g') : g'.vertices.size = g.vertices.size := by
  rw [h.vertices, Array.size_map]

theorem addVertex (h : ρ.Graphs g g') (t : Temp) : ρ.Graphs (g.addVertex t) (g'.addVertex (ρ t)) := by
  have hcontains : g'.index.contains (ρ t) = g.index.contains t := by
    rw [Std.TreeMap.contains_eq_isSome_getElem?, Std.TreeMap.contains_eq_isSome_getElem?, h.index]
  unfold InterferenceGraph.addVertex
  rw [hcontains]
  split
  · exact h
  · constructor
    · simp [h.vertices, vertex]
    · rw [h.size]
      exact ρ.getElem?_insert h.index t _

theorem addEdge (h : ρ.Graphs g g') (s t : Temp) : ρ.Graphs (g.addEdge s t) (g'.addEdge (ρ s) (ρ t)) := by
  simp only [InterferenceGraph.addEdge, h.index, h.neighbors]
  split
  · split
    · exact h
    · refine ⟨?_, h.index⟩
      rw [h.vertices, link_map, link_map]
  · exact h

theorem addPairs (h : ρ.Graphs g g') (ps : List (Temp × Temp)) :
    ρ.Graphs (g.addPairs ps) (g'.addPairs (ps.map ρ.pair)) := by
  induction ps generalizing g g' with
  | nil => exact h
  | cons p ps ih => exact ih (h.addEdge p.1 p.2)

variable (ρ)

theorem ofTemps (fp : Temp) (is : List Instr) :
    ρ.Graphs (.ofTemps fp is) (.ofTemps (ρ fp) (is.map ρ.instr)) := by
  have htemps : ∀ (ts : List Temp) {g g' : InterferenceGraph}, ρ.Graphs g g' →
      ρ.Graphs (ts.foldl (fun g t => if t = fp then g else g.addVertex t) g)
        ((ts.map ρ).foldl (fun g t => if t = ρ fp then g else g.addVertex t) g') := by
    intro ts
    induction ts with
    | nil => exact fun h => h
    | cons t ts ih =>
      intro g g' h
      simp only [List.map_cons, List.foldl_cons, ρ.eq_iff]
      split
      · exact ih h
      · exact ih (h.addVertex t)
  -- The fold is started with any graph, since it is an induction over the list.
  suffices h : ∀ {g g' : InterferenceGraph}, ρ.Graphs g g' → ρ.Graphs
      (is.foldl (fun g i =>
        (i.uses ++ i.defs).foldl (fun g t => if t = fp then g else g.addVertex t) g) g)
      ((is.map ρ.instr).foldl (fun g i =>
        (i.uses ++ i.defs).foldl (fun g t => if t = ρ fp then g else g.addVertex t) g) g') from h empty
  induction is with
  | nil => exact fun h => h
  | cons i is ih =>
    intro g g' h
    rw [List.map_cons, List.foldl_cons, List.foldl_cons]
    apply ih
    rw [uses_instr, defs_instr, ← List.map_append]
    exact htemps _ h

/-- **The interference graph under new names** has the same vertices in the same order, with the same
neighbours. -/
theorem build (fp : Temp) (is : List Instr) (live : List LivePoint) :
    ρ.Graphs (.build fp is live) (.build (ρ fp) (is.map ρ.instr) (live.map ρ.point)) := by
  rw [InterferenceGraph.build_eq, InterferenceGraph.build_eq, List.zip_map, List.flatMap_map]
  have hpairs := (ofTemps ρ fp is).addPairs
    ((is.zip live).flatMap fun q => InterferenceGraph.interferences q.1 q.2.after)
  rw [List.map_flatMap] at hpairs
  simp only [← interferences_map] at hpairs
  exact hpairs

/-! ## §5 Colouring -/

variable {ρ}

theorem start (h : ρ.Graphs g g') (k : Nat) : Coloring.start k g' = Coloring.start k g := by
  have hdegrees : g'.vertices.map (·.neighbors.size) = g.vertices.map (·.neighbors.size) := by
    rw [h.vertices, Array.map_map]
    rfl
  simp only [Coloring.start, hdegrees]

theorem remove (h : ρ.Graphs g g') (k : Nat) (r : Coloring.Reduction) (i : Nat) :
    Coloring.remove k g' r i = Coloring.remove k g r i := by
  simp only [Coloring.remove, h.neighbors]

theorem pickSpill (h : ρ.Graphs g g') (avoid : TempSet) (r : Coloring.Reduction) :
    Coloring.pickSpill g' (ρ.set avoid) r = Coloring.pickSpill g avoid r := by
  have hbefore : ∀ i j, Coloring.spillBefore g' (ρ.set avoid) r i j = Coloring.spillBefore g
      avoid r i j := by
    have hvertex : ∀ n : Nat, g'.vertices[n]? = g.vertices[n]?.map ρ.vertex := by
      intro n
      rw [h.vertices, Array.getElem?_map]
    intro i j
    simp only [Coloring.spillBefore, hvertex]
    cases g.vertices[i]? <;> cases g.vertices[j]? <;> simp [vertex]
  simp only [Coloring.pickSpill, h.size, hbefore]

theorem reduceLoop (h : ρ.Graphs g g') (k : Nat) (avoid : TempSet) (fuel : Nat) (r : Coloring.Reduction) :
    Coloring.reduceLoop k g' (ρ.set avoid) fuel r = Coloring.reduceLoop k g avoid fuel r := by
  have hstep : ∀ r, Coloring.reduceStep k g' (ρ.set avoid) r = Coloring.reduceStep k g avoid r := by
    intro r
    have hremove : Coloring.remove k g' = Coloring.remove k g := by
      funext r i
      exact h.remove k r i
    simp only [Coloring.reduceStep, h.pickSpill, hremove]
  induction fuel generalizing r with
  | zero => rfl
  | succ fuel ih =>
    simp only [Coloring.reduceLoop, hstep]
    cases Coloring.reduceStep k g avoid r with
    | none => rfl
    | some r' => exact ih r'

theorem assignFrom (h : ρ.Graphs g g') (k : Nat) (colors : Array (Option Nat)) (order : List Nat) :
    Coloring.assignFrom k g' colors order = Coloring.assignFrom k g colors order := by
  have hcolors : ∀ colors i, Coloring.neighborColors g' colors i = Coloring.neighborColors g
      colors i := by
    intro colors i
    simp only [Coloring.neighborColors, h.neighbors]
  induction order generalizing colors with
  | nil => rfl
  | cons i order ih => simp only [Coloring.assignFrom, hcolors, ih]

/-- **The colouring under new names** gives each vertex the same colour, and the renamed temps are
spilled. -/
theorem color (h : ρ.Graphs g g') (k : Nat) (avoid : TempSet) :
    g'.color k (ρ.set avoid) = ⟨(g.color k avoid).colors, (g.color k avoid).spilled.map ρ⟩ := by
  have hreduce : Coloring.reduce k g' (ρ.set avoid) = Coloring.reduce k g avoid := by
    simp only [Coloring.reduce, h.start, h.size, h.reduceLoop]
  simp only [InterferenceGraph.color, hreduce, h.size, h.assignFrom, List.map_filterMap]
  congr 2
  funext i
  rw [h.vertices, Array.getElem?_map]
  cases g.vertices[i]? <;> rfl

end Graphs

end Renaming

end MmixBackend
