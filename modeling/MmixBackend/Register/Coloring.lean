import MmixBackend.Register.Interference

/-!
# Graph colouring

Colouring with `k` colours has two halves. `reduce` takes the vertices off the graph one by one and
stacks them: as long as there is a vertex with fewer than `k` remaining neighbours the one found
last, and otherwise a potential spill. Potential spills are chosen among the temps that are not to be
avoided, if there are such, by the greatest number of remaining neighbours, the first of several.
`assign` takes the vertices off the stack and gives each the least colour that no coloured neighbour
has. A vertex whose neighbours use up all colours is spilled.
-/

namespace MmixBackend

namespace Coloring

/-- Where a vertex stands in the reduction. -/
inductive Stage where
  /-- Fewer than `k` remaining neighbours. -/
  | low
  /-- At least `k` remaining neighbours: a potential spill. -/
  | high
  /-- Taken off the graph. -/
  | removed
  deriving DecidableEq, Inhabited, Repr

/-- The state of the reduction. -/
structure Reduction where
  /-- The number of remaining neighbours of every vertex. -/
  degrees : Array Nat
  stages : Array Stage
  /-- The vertices that became low, the last one first. -/
  worklist : List Nat
  /-- The vertices taken off, the last one first. -/
  stack : List Nat
  deriving Inhabited

/-- The state before the first removal. -/
def start (k : Nat) (g : InterferenceGraph) : Reduction :=
  let degrees := g.vertices.map (·.neighbors.size)
  { degrees
    stages := degrees.map fun d => if k ≤ d then .high else .low
    worklist := ((List.range degrees.size).filter fun i => degrees.getD i 0 < k).reverse
    stack := [] }

/-- The stage of a vertex. -/
def Reduction.stage (r : Reduction) (i : Nat) : Stage := r.stages.getD i .removed

/-- The number of remaining neighbours of a vertex. -/
def Reduction.degree (r : Reduction) (i : Nat) : Nat := r.degrees.getD i 0

/-- Takes note that a neighbour of `j` has been removed. -/
def detach (k : Nat) (r : Reduction) (j : Nat) : Reduction :=
  if r.stage j = .removed then r
  else
    let d := r.degree j - 1
    let r := { r with degrees := r.degrees.setIfInBounds j d }
    -- The vertex passes from `k` remaining neighbours to fewer exactly here.
    if d + 1 = k ∧ r.stage j = .high then
      { r with stages := r.stages.setIfInBounds j .low, worklist := j :: r.worklist }
    else r

/-- Takes a vertex off the graph. -/
def remove (k : Nat) (g : InterferenceGraph) (r : Reduction) (i : Nat) : Reduction :=
  (g.neighbors i).foldl (detach k)
    { r with stages := r.stages.setIfInBounds i .removed, stack := i :: r.stack }

/-- The low vertex found last and the worklist behind it. -/
def popLow (stages : Array Stage) : List Nat → Option (Nat × List Nat)
  | [] => none
  | i :: rest => if stages.getD i .removed = .low then some (i, rest) else popLow stages rest

/-- Whether `i` is a better choice for a potential spill than `j`. -/
def spillBefore (g : InterferenceGraph) (avoid : TempSet) (r : Reduction) (i j : Nat) : Bool :=
  let avoided n := match g.vertices[n]? with
    | some v => decide (v.temp ∈ avoid)
    | none => false
  match avoided i, avoided j with
  | true, false => false
  | false, true => true
  | _, _ => r.degree j < r.degree i

/-- The best potential spill. -/
def pickSpill (g : InterferenceGraph) (avoid : TempSet) (r : Reduction) : Option Nat :=
  (List.range g.vertices.size).foldl (fun best i =>
    if r.stage i = .high then
      match best with
      | none => some i
      | some b => if spillBefore g avoid r i b then some i else best
    else best) none

/-- Removes one vertex, if there is one left. -/
def reduceStep (k : Nat) (g : InterferenceGraph) (avoid : TempSet) (r : Reduction) :
    Option Reduction :=
  match popLow r.stages r.worklist with
  | some (i, rest) => some (remove k g { r with worklist := rest } i)
  | none => (pickSpill g avoid r).map (remove k g { r with worklist := [] })

/-- Removes at most `fuel` vertices. -/
def reduceLoop (k : Nat) (g : InterferenceGraph) (avoid : TempSet) : Nat → Reduction → Reduction
  | 0, r => r
  | fuel + 1, r =>
    match reduceStep k g avoid r with
    | some r' => reduceLoop k g avoid fuel r'
    | none => r

/-- Takes every vertex off the graph; the result lists them, the last one first. -/
def reduce (k : Nat) (g : InterferenceGraph) (avoid : TempSet) : List Nat :=
  (reduceLoop k g avoid g.vertices.size (start k g)).stack

/-- The least colour below `k` that is not in a list. -/
def leastFree (k : Nat) (used : List Nat) : Option Nat :=
  (List.range k).find? fun c => !used.contains c

/-- The colours of the coloured neighbours of a vertex. -/
def neighborColors (g : InterferenceGraph) (colors : Array (Option Nat)) (i : Nat) : List Nat :=
  (g.neighbors i).toList.filterMap fun j => colors.getD j none

/-- Colours the vertices of a list in order, and lists those for which no colour is left. -/
def assignFrom (k : Nat) (g : InterferenceGraph) (colors : Array (Option Nat)) :
    List Nat → Array (Option Nat) × List Nat
  | [] => (colors, [])
  | i :: rest =>
    match leastFree k (neighborColors g colors i) with
    | some c => assignFrom k g (colors.setIfInBounds i (some c)) rest
    | none =>
      let (colors, spilled) := assignFrom k g colors rest
      (colors, i :: spilled)

end Coloring

/-- The outcome of colouring a graph. -/
structure Coloring where
  /-- The colour of each vertex. -/
  colors : Array (Option Nat)
  /-- The temps without a colour, in the order in which they were found. -/
  spilled : List Temp
  deriving Inhabited

namespace InterferenceGraph

/-- Colours a graph with `k` colours, spilling temps of `avoid` only if nothing else is left. -/
def color (g : InterferenceGraph) (k : Nat) (avoid : TempSet) : Coloring :=
  let (colors, spilled) := Coloring.assignFrom k g (Array.replicate g.vertices.size none)
    (Coloring.reduce k g avoid)
  { colors, spilled := spilled.filterMap fun i => g.vertices[i]?.map Vertex.temp }

end InterferenceGraph

end MmixBackend
