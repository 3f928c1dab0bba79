import MmixBackend.Instr.Liveness

/-!
# Interference graphs

The vertices are the temps of a function, the frame pointer apart, numbered in the order of their
first appearance. Two temps interfere when both are live after the same instruction, and a defined
temp interferes with everything live after its definition. Each vertex lists its neighbours in the
order in which the edges were found.
-/

namespace MmixBackend

/-- A temp with its neighbours. -/
structure Vertex where
  temp : Temp
  neighbors : Array Nat := #[]
  deriving Inhabited

/-- An undirected graph over temps. -/
structure InterferenceGraph where
  vertices : Array Vertex := #[]
  /-- The number of the vertex of a temp. -/
  index : Std.TreeMap Temp Nat := ∅

namespace InterferenceGraph

/-- The neighbours of a vertex. -/
def neighbors (g : InterferenceGraph) (i : Nat) : Array Nat :=
  match g.vertices[i]? with
  | some v => v.neighbors
  | none => #[]

/-- Adds a vertex for a temp unless it has one. -/
def addVertex (g : InterferenceGraph) (t : Temp) : InterferenceGraph :=
  if g.index.contains t then g
  else { vertices := g.vertices.push { temp := t }, index := g.index.insert t g.vertices.size }

/-- Records `j` as a neighbour of `i`. -/
def link (vertices : Array Vertex) (i j : Nat) : Array Vertex :=
  vertices.modify i fun v => { v with neighbors := v.neighbors.push j }

/-- Adds an edge between the vertices of two different temps unless it is there already. -/
def addEdge (g : InterferenceGraph) (s t : Temp) : InterferenceGraph :=
  match g.index[s]?, g.index[t]? with
  | some i, some j =>
    if i = j ∨ (g.neighbors i).contains j then g
    else { g with vertices := link (link g.vertices i j) j i }
  | _, _ => g

/-- Adds an edge from a temp to each temp of a list. -/
def addEdges (g : InterferenceGraph) (s : Temp) (ts : List Temp) : InterferenceGraph :=
  ts.foldl (fun g t => g.addEdge s t) g

/-- Adds the edges between any two temps of a list. -/
def addClique (g : InterferenceGraph) : List Temp → InterferenceGraph
  | [] => g
  | t :: ts => (g.addEdges t ts).addClique ts

/-- Adds the edges that one instruction causes, given what is live after it. -/
def addInstr (g : InterferenceGraph) (instr : Instr) (after : TempSet) : InterferenceGraph :=
  instr.defs.foldl (fun g d => g.addEdges d after.toList) (g.addClique after.toList)

/-- The graph with a vertex for every temp of an instruction list but `fp`. -/
def ofTemps (fp : Temp) (instrs : List Instr) : InterferenceGraph :=
  instrs.foldl (fun g instr =>
    (instr.uses ++ instr.defs).foldl (fun g t => if t = fp then g else g.addVertex t) g) {}

/-- The interference graph of an instruction list with the given liveness. Temps without a vertex,
such as the frame pointer, take part in no edge. -/
def build (fp : Temp) (instrs : List Instr) (live : List LivePoint) : InterferenceGraph :=
  (instrs.zip live).foldl (fun g (instr, p) => g.addInstr instr p.after) (ofTemps fp instrs)

end InterferenceGraph

end MmixBackend
