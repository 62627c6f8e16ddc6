import Peephole.Circuit.Graph
import Peephole.Dict

/-!
# Arenas

An arena keeps a circuit vertex by vertex. Each vertex has its gate and, for every wire it is on, a
link to the vertex before it there and to the one after. Its predecessors and successors are kept
beside the links they come from, and are computed again when links change.

* `Arena.build`: one scan over a gate list, which links each gate to the last one on every wire.
* `Arena.graph`: the gates, with the neighbours that are kept.
-/

namespace Peephole

/-- The neighbours of a vertex on one wire. -/
structure Link where
  /-- The vertex right before. -/
  prev : Option VertexId
  /-- The vertex right after. -/
  next : Option VertexId

/-- The vertices that a link leads to. -/
def Link.ends (l : Link) : List VertexId := l.prev.toList ++ l.next.toList

/-- What an arena keeps of a vertex. -/
structure Vertex where
  /-- The gate it holds. -/
  gate : Gate
  /-- Its links, by wire. -/
  links : Dict Wire Link
  /-- The vertices right before it on its wires, ascending. -/
  predecessors : List VertexId
  /-- The vertices right after it on its wires, ascending. -/
  successors : List VertexId

namespace Vertex

/-- A vertex without links. -/
def new (g : Gate) : Vertex := ⟨g, .empty, [], []⟩

/-- The predecessors that the links name. -/
def linkedPredecessors (x : Vertex) : List VertexId :=
  Circuit.ascending (x.links.entries.filterMap fun e => e.2.prev)

/-- The successors that the links name. -/
def linkedSuccessors (x : Vertex) : List VertexId :=
  Circuit.ascending (x.links.entries.filterMap fun e => e.2.next)

/-- The vertex with its neighbours computed again from its links. -/
def refreshed (x : Vertex) : Vertex :=
  { x with predecessors := x.linkedPredecessors, successors := x.linkedSuccessors }

/-- Whether the neighbours that are kept are not those that the links name. -/
def isStale (x : Vertex) : Bool :=
  x.predecessors != x.linkedPredecessors || x.successors != x.linkedSuccessors

/-- The vertex with a link on one more wire, where it is the last and comes after `p`, if that is a
vertex. -/
def addLink (w : Wire) (p : Option VertexId) (x : Vertex) : Vertex :=
  { x with
    links := x.links.insert w ⟨p, none⟩
    predecessors := p.elim x.predecessors (Circuit.insertId · x.predecessors) }

/-- The vertex with `v` right after it on a wire. -/
def followedBy (v : VertexId) (w : Wire) (x : Vertex) : Vertex :=
  { x with
    links := x.links.modify w fun l => { l with next := some v }
    successors := Circuit.insertId v x.successors }

end Vertex

/-- A circuit, kept vertex by vertex. -/
structure Arena where
  /-- The number of wires. -/
  width : Nat
  /-- The vertices by name. -/
  vertices : Dict VertexId Vertex

namespace Arena

/-- The arena without vertices. -/
def empty (width : Nat) : Arena := ⟨width, .empty⟩

/-- The vertex of a name. -/
def vertex? (a : Arena) (v : VertexId) : Option Vertex := a.vertices.get? v

/-- The gate of a vertex. -/
def gate? (a : Arena) (v : VertexId) : Option Gate := (a.vertex? v).map Vertex.gate

/-- The link of a vertex on a wire. -/
def link? (a : Arena) (v : VertexId) (w : Wire) : Option Link :=
  (a.vertex? v).bind fun x => x.links.get? w

/-- The gates, with the neighbours that are kept. -/
def graph (a : Arena) : Graph where
  width := a.width
  gates := a.vertices.entries.map fun e => (e.1, e.2.gate)
  predecessors v := (a.vertex? v).elim [] Vertex.predecessors
  successors v := (a.vertex? v).elim [] Vertex.successors

/-- The arena with one vertex changed. -/
def update (a : Arena) (v : VertexId) (f : Vertex → Vertex) : Arena :=
  { a with vertices := a.vertices.modify v f }

/-- The arena with one more vertex. -/
def insert (a : Arena) (v : VertexId) (x : Vertex) : Arena :=
  { a with vertices := a.vertices.insert v x }

/-! ## Building -/

/-- An arena as far as it is built, with the last vertex on each wire. -/
structure Scan where
  /-- The vertices so far. -/
  arena : Arena
  /-- The last vertex on each wire that has one. -/
  last : Dict Wire VertexId

/-- The arena with `v` right after `p` on a wire, if there is such a vertex. -/
def follow (a : Arena) (p : Option VertexId) (v : VertexId) (w : Wire) : Arena :=
  match p with
  | none => a
  | some p => a.update p (.followedBy v w)

/-- Links a new vertex to the last one on each of its wires. -/
def Scan.linkWires (v : VertexId) (s : Scan) (x : Vertex) : List Wire → Scan × Vertex
  | [] => (s, x)
  | w :: rest =>
      let p := s.last.get? w
      Scan.linkWires v ⟨s.arena.follow p v w, s.last.insert w v⟩ (x.addLink w p) rest

/-- The scan after one more gate, which becomes the vertex `v`. -/
def Scan.add (v : VertexId) (s : Scan) (g : Gate) : Scan :=
  let (s, x) := s.linkWires v (.new g) g.wires
  { s with arena := s.arena.insert v x }

/-- Goes through the gates from position `v` on. -/
def scan (v : VertexId) (s : Scan) : List Gate → Except Circuit.Error Scan
  | [] => .ok s
  | g :: rest =>
      match Circuit.checkWires s.arena.width g.name [] g.wires with
      | .ok () => scan (v + 1) (s.add v g) rest
      | .error e => .error e

/-- The arena of a gate list, where the names are the positions. -/
def build (width : Nat) (gates : List Gate) : Except Circuit.Error Arena :=
  (scan 0 ⟨.empty width, .empty⟩ gates).map Scan.arena

end Arena

end Peephole
