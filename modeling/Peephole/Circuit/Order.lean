import Peephole.Circuit.Graph
import Peephole.Circuit.Traversal
import Peephole.Netlist.Basic

/-!
# Orders of a circuit

* `Graph.order` lists all vertices so that, in an acyclic graph, each comes before its successors.
  In a fresh circuit the order is that of the positions.
* `Graph.gatesInOrder` and `Circuit.toNetlist`: the gates in that order.
* `Graph.misplaced?` finds a vertex that an order puts too late.
* `Graph.depth`: the length of the longest chain.
-/

namespace Peephole

namespace Graph

/-- All vertices. Traversals start at the highest names, and follow successors in ascending
order. -/
def order (c : Graph) : List VertexId :=
  Traversal.lastLeftFirst c.successors c.ids c.ids.reverse

/-- The gates in order. -/
def gatesInOrder (c : Graph) : List Gate := c.order.filterMap c.gate?

/-! ## Depth -/

/-- The order by which depths are computed. Traversals start at the lowest names, and follow
successors in descending order. -/
def schedule (c : Graph) : List VertexId :=
  Traversal.lastLeftFirst (fun v => (c.successors v).reverse) c.ids c.ids

/-- The first vertex of a list that has a predecessor neither before it nor itself gives the
highest such predecessor. -/
def misplaced? (c : Graph) (before : List VertexId) : List VertexId → Option VertexId
  | [] => none
  | v :: rest =>
      match ((c.predecessors v).filter fun p => !(v :: before).contains p).getLast? with
      | some p => some p
      | none => c.misplaced? (v :: before) rest

/-- The number of vertices on the longest chain that ends in `v`, given those of the vertices
before it. -/
def chainLength (c : Graph) (known : List (VertexId × Nat)) (v : VertexId) : Nat :=
  ((c.predecessors v).map fun p => (known.lookup p).getD 0).foldl max 0 + 1

/-- The chain lengths of the vertices of a list, the last one first. -/
def chainLengths (c : Graph) (vs : List VertexId) : List (VertexId × Nat) :=
  vs.foldl (fun known v => (v, c.chainLength known v) :: known) []

/-- The number of vertices on the longest chain. A graph with a cycle has none. -/
def depth (c : Graph) : Except Circuit.Error Nat :=
  match c.misplaced? [] c.schedule with
  | some v => .error (.unsound (.cycleThrough v))
  | none => .ok (((c.chainLengths c.schedule).map (·.2)).foldl max 0)

end Graph

/-! ## Circuits -/

namespace Circuit

/-- All vertices, in the order of the graph. -/
def order (c : Circuit) : List VertexId := c.graph.order

/-- The gates in order. -/
def gatesInOrder (c : Circuit) : List Gate := c.graph.gatesInOrder

theorem order_graph (c : Circuit) : c.graph.order = c.order := rfl

theorem order_eq (c : Circuit) :
    c.order = Traversal.lastLeftFirst c.successors c.ids c.ids.reverse :=
  rfl

theorem gatesInOrder_eq (c : Circuit) : c.gatesInOrder = c.order.filterMap c.gate? := rfl

/-- The number of vertices on the longest chain. A circuit with a cycle has none. -/
def depth (c : Circuit) : Except Error Nat := c.graph.depth

end Circuit

/-- The circuit of a netlist. -/
def Netlist.toCircuit (n : Netlist) : Except Circuit.Error Circuit :=
  Circuit.build n.width n.gates

/-- The netlist of a circuit. -/
def Circuit.toNetlist (c : Circuit) : Netlist := ⟨c.width, c.gatesInOrder⟩

end Peephole
