import Peephole.Circuit.Basic
import Peephole.Circuit.Traversal

/-!
# Neighbourhoods

What the optimizer asks about the surroundings of a vertex. All searches go by ascending names, so
that the first hit is determined.
-/

namespace Peephole.Circuit

/-- The gate of a vertex that has to be in the circuit. -/
def gateOf (c : Circuit) (v : VertexId) : Except Error Gate :=
  match c.gate? v with
  | some g => .ok g
  | none => .error (.noVertex v)

/-- All `(a, b)` with `a` a successor of `v` and `b` a successor of `a`. -/
def forwardPairs (c : Circuit) (v : VertexId) : List (VertexId × VertexId) :=
  (c.successors v).flatMap fun a => (c.successors a).map fun b => (a, b)

/-- The successor of a vertex that has exactly one. -/
def onlySuccessor? (c : Circuit) (v : VertexId) : Option VertexId :=
  match c.successors v with
  | [a] => some a
  | _ => none

/-- Whether the vertex holds a gate that satisfies `p`. -/
def holds (c : Circuit) (p : Gate → Bool) (v : VertexId) : Bool := (c.gate? v).any p

/-- The first successor whose gate satisfies `p`. -/
def successorWhere? (c : Circuit) (v : VertexId) (p : Gate → Bool) : Option VertexId :=
  (c.successors v).find? (c.holds p)

/-- The first predecessor whose gate satisfies `p`. -/
def predecessorWhere? (c : Circuit) (v : VertexId) (p : Gate → Bool) : Option VertexId :=
  (c.predecessors v).find? (c.holds p)

/-- Whether `goal` can be reached from `start` by a successor other than `via`. A vertex can move
past others only if every way to them leads through the one it moves past first. -/
def hasDetour (c : Circuit) (start via goal : VertexId) : Bool :=
  Traversal.meets c.successors c.ids goal ((c.successors start).filter (· ≠ via)).reverse []

end Peephole.Circuit
