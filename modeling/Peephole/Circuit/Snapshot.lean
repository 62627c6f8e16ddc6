import Peephole.Circuit.Order

/-!
# Snapshots

A snapshot keeps the gates of a circuit in order, with the names of their vertices. Restoring it
builds a fresh circuit, in which the names are the positions; the renumbering tells which vertex
became which.
-/

namespace Peephole

/-- Old names with new ones. -/
abbrev Renumbering := List (VertexId × VertexId)

/-- The gates of a circuit, kept to be restored. -/
structure Snapshot where
  /-- The number of wires. -/
  width : Nat
  /-- The gates in order, with their vertices. -/
  entries : List (VertexId × Gate)

/-- The gates of a graph in order. -/
def Graph.snapshot (c : Graph) : Snapshot where
  width := c.width
  entries := c.order.filterMap fun v => (c.gate? v).map fun g => (v, g)

/-- The gates of a circuit in order. -/
def Circuit.snapshot (c : Circuit) : Snapshot := c.graph.snapshot

theorem Circuit.snapshot_eq (c : Circuit) :
    c.snapshot = ⟨c.width, c.order.filterMap fun v => (c.gate? v).map fun g => (v, g)⟩ :=
  rfl

namespace Snapshot

/-- The gates in order. -/
def gates (s : Snapshot) : List Gate := s.entries.map (·.2)

/-- The new name of every vertex that was kept. -/
def renumbering (s : Snapshot) : Renumbering :=
  s.entries.zipIdx.map fun p => (p.1.1, p.2)

/-- The circuit built afresh. -/
def restore (s : Snapshot) : Except Circuit.Error (Renumbering × Circuit) :=
  (Circuit.build s.width s.gates).map fun c => (s.renumbering, c)

end Snapshot

end Peephole
