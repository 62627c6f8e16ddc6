import Peephole.Circuit.Strand
import Peephole.Gate.Basic

/-!
# What can go wrong with a circuit

A `Defect` is what an inspection finds in a circuit that is not sound. A `Circuit.Error` is why an
operation on a circuit was refused.
-/

namespace Peephole

/-- The text of a vertex. -/
def vertexText (v : VertexId) : String := "v" ++ toString v

/-- The text of a wire. -/
def wireText (w : Wire) : String := "q" ++ toString w.toNat

/-- A flaw in the structure of a circuit. -/
inductive Defect where
  /-- A successor is not in the circuit. -/
  | danglingSuccessor (v successor : VertexId)
  /-- A successor does not know the vertex as a predecessor. -/
  | oneWayEdge (v successor : VertexId)
  /-- The gates at the ends of an edge have no wire in common. -/
  | disjointEdge (v successor : VertexId)
  /-- A predecessor does not know the vertex as a successor. -/
  | unmatchedPredecessor (v predecessor : VertexId)
  /-- The edges form a cycle. -/
  | cyclic
  /-- The edges form a cycle, and this vertex comes too late in every attempt to order them. -/
  | cycleThrough (v : VertexId)
  /-- Two gates that follow each other on a wire are not linked. -/
  | brokenWire (wire : Wire) (before v : VertexId)
  /-- An edge joins gates that do not follow each other on any wire. -/
  | skippingEdge (v successor : VertexId)
  /-- The neighbours that are kept for a vertex are not those on its wires. -/
  | staleNeighbours (v : VertexId)
  /-- A vertex is not on the wire it was looked for. -/
  | offWire (v : VertexId) (wire : Wire)

/-- The text of a flaw. -/
def Defect.message : Defect → String
  | .danglingSuccessor v s => vertexText v ++ " has dangling successor " ++ vertexText s
  | .oneWayEdge v s =>
      "edge " ++ vertexText v ++ " -> " ++ vertexText s ++ " missing from predecessors of "
        ++ vertexText s
  | .disjointEdge v s =>
      "edge " ++ vertexText v ++ " -> " ++ vertexText s ++ " joins gates on disjoint wires"
  | .unmatchedPredecessor v p =>
      vertexText v ++ " lists " ++ vertexText p ++ " as predecessor without a matching edge"
  | .cyclic => "Graph contains a cycle"
  | .cycleThrough v => "cycle through " ++ vertexText v
  | .brokenWire w p v =>
      "wire " ++ wireText w ++ " is broken between " ++ vertexText p ++ " and " ++ vertexText v
  | .skippingEdge v s =>
      "edge " ++ vertexText v ++ " -> " ++ vertexText s ++ " skips a vertex on every shared wire"
  | .staleNeighbours v => "adjacency of " ++ vertexText v ++ " disagrees with its wire links"
  | .offWire v w => vertexText v ++ " is not on wire " ++ wireText w

/-- Why an operation on a circuit is refused. -/
inductive Circuit.Error where
  /-- A gate has a wire that the circuit does not have. -/
  | wireOutOfRange (wire : Wire) (width : Nat) (gate : String)
  /-- A gate has a wire twice. -/
  | repeatedWire (wire : Wire) (gate : String)
  /-- There is no such vertex. -/
  | noVertex (v : VertexId)
  /-- The second vertex does not directly follow the first. -/
  | notAdjacent (first second : VertexId)
  /-- The circuit is not sound. -/
  | unsound (defect : Defect)

/-- The text of an error. -/
def Circuit.Error.message : Circuit.Error → String
  | .wireOutOfRange w width gate =>
      "Qubit " ++ wireText w ++ " out of range for " ++ toString width ++ "-qubit circuit (gate: "
        ++ gate ++ ")"
  | .repeatedWire w gate =>
      "Duplicate qubit " ++ wireText w ++ " in operation (gate: " ++ gate ++ ")"
  | .noVertex v => "Vertex " ++ vertexText v ++ " not found in DAG"
  | .notAdjacent a b =>
      "Vertex " ++ vertexText b ++ " is not an immediate successor of vertex " ++ vertexText a
  | .unsound defect => "Invalid DAG structure: " ++ defect.message

end Peephole
