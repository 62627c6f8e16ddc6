import Peephole.Circuit.Basic

/-!
# Graphs

What there is to read in a circuit once its neighbourhoods are known: gates under vertex names, and
for every vertex those right before and right after it. How these are kept is left open. Orders,
depths and inspections need nothing else, and are defined on graphs.
-/

namespace Peephole

/-- The gates and the edges of a circuit. -/
structure Graph where
  /-- The number of wires. -/
  width : Nat
  /-- The gates by vertex, in ascending order. -/
  gates : List (VertexId × Gate)
  /-- The vertices with an edge to a vertex, ascending. -/
  predecessors : VertexId → List VertexId
  /-- The vertices that a vertex has an edge to, ascending. -/
  successors : VertexId → List VertexId

namespace Graph

/-- The vertices, in ascending order. -/
def ids (c : Graph) : List VertexId := c.gates.map (·.1)

/-- The gate of a vertex. -/
def gate? (c : Graph) (v : VertexId) : Option Gate := c.gates.lookup v

/-- Whether a vertex is in the graph. -/
def contains (c : Graph) (v : VertexId) : Bool := (c.gate? v).isSome

end Graph

/-- The graph of a circuit, read off its strands. -/
def Circuit.graph (c : Circuit) : Graph where
  width := c.width
  gates := c.gates
  predecessors := c.predecessors
  successors := c.successors

namespace Circuit

variable (c : Circuit)

@[simp] theorem width_graph : c.graph.width = c.width := rfl

@[simp] theorem gates_graph : c.graph.gates = c.gates := rfl

@[simp] theorem predecessors_graph : c.graph.predecessors = c.predecessors := rfl

@[simp] theorem successors_graph : c.graph.successors = c.successors := rfl

@[simp] theorem ids_graph : c.graph.ids = c.ids := rfl

@[simp] theorem gate?_graph : c.graph.gate? = c.gate? := rfl

@[simp] theorem contains_graph : c.graph.contains = c.contains := rfl

end Circuit

end Peephole
