import Peephole.Circuit.Order

/-!
# Inspection

`Graph.inspect` checks that a graph is that of a sound circuit: its edges go both ways between gates
that share a wire, they form no cycle, and they are exactly the steps from a gate to the next one on
a wire. The first flaw found is reported.
-/

namespace Peephole

namespace Graph

open Circuit (Error)

/-! ## Edges -/

/-- What is wrong with the edge to a successor. -/
def successorDefect? (c : Graph) (v : VertexId) (g : Gate) (s : VertexId) : Option Defect :=
  match c.gate? s with
  | none => some (.danglingSuccessor v s)
  | some h =>
      if !(c.predecessors s).contains v then some (.oneWayEdge v s)
      else if !g.sharesWire h then some (.disjointEdge v s)
      else none

/-- What is wrong with the edge from a predecessor. -/
def predecessorDefect? (c : Graph) (v p : VertexId) : Option Defect :=
  if c.contains p && (c.successors p).contains v then none
  else some (.unmatchedPredecessor v p)

/-- The first flaw in the edges of a vertex. -/
def edgeDefect? (c : Graph) (p : VertexId × Gate) : Option Defect :=
  ((c.successors p.1).findSome? (c.successorDefect? p.1 p.2)).or
    ((c.predecessors p.1).findSome? (c.predecessorDefect? p.1))

/-- Whether the edges form a cycle. -/
def isCyclic (c : Graph) : Bool := (c.misplaced? [] c.schedule).isSome

/-! ## Wires -/

/-- What was met along an order: the last vertex on each wire, and the pairs of vertices that
follow each other on a wire. -/
structure Walk where
  /-- The last vertex on each wire. -/
  last : List (Wire × VertexId) := []
  /-- The pairs of vertices that follow each other on a wire. -/
  pairs : List (VertexId × VertexId) := []

/-- Goes through wires of the gate at `v`. -/
def walkWires (c : Graph) (v : VertexId) (gate : String) (k : Walk) :
    List Wire → Except Error Walk
  | [] => .ok k
  | w :: rest =>
      if c.width ≤ w.toNat then .error (.wireOutOfRange w c.width gate)
      else
        match k.last.lookup w with
        | none => c.walkWires v gate { k with last := (w, v) :: k.last } rest
        | some p =>
            if (c.predecessors v).contains p then
              c.walkWires v gate ⟨(w, v) :: k.last, (p, v) :: k.pairs⟩ rest
            else .error (.unsound (.brokenWire w p v))

/-- Goes through vertices in order. -/
def walk (c : Graph) (k : Walk) : List VertexId → Except Error Walk
  | [] => .ok k
  | v :: rest =>
      match c.gate? v with
      | none => c.walk k rest
      | some g =>
          match c.walkWires v g.name k g.wires with
          | .ok k => c.walk k rest
          | .error e => .error e

/-- The first edge of a vertex that no wire accounts for. -/
def skippingEdge? (c : Graph) (pairs : List (VertexId × VertexId)) (v : VertexId) :
    Option Defect :=
  ((c.successors v).find? fun s => !pairs.contains (v, s)).map (.skippingEdge v)

/-- Checks that the graph is that of a sound circuit. -/
def inspect (c : Graph) : Except Error Unit :=
  match c.gates.findSome? c.edgeDefect? with
  | some d => .error (.unsound d)
  | none =>
      if c.isCyclic then .error (.unsound .cyclic)
      else
        match c.walk {} c.order with
        | .error e => .error e
        | .ok k =>
            match c.ids.findSome? (c.skippingEdge? k.pairs) with
            | some d => .error (.unsound d)
            | none => .ok ()

end Graph

/-- Checks that the circuit is sound. Its neighbours are read off its strands, so that there is
nothing to check them against. -/
def Circuit.inspect (c : Circuit) : Except Circuit.Error Unit := c.graph.inspect

end Peephole
