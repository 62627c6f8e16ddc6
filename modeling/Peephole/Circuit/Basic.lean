import Peephole.Circuit.Error

/-!
# Circuits

A circuit holds its gates under vertex names and, for every wire, the strand of the vertices on
it. Two vertices are joined by an edge when one directly follows the other on some strand; gates
that share no wire are not ordered. The strands are data of their own: a gate may be overwritten
without its vertex moving to other strands. No strand has a vertex twice, which is part of what a
circuit is.

* `Circuit.successors` and `Circuit.predecessors`: the neighbours of a vertex, ascending.
* `Circuit.build`: the circuit of a gate list, where the names are the positions.
-/

namespace Peephole

/-- A circuit, by its gates and its strands. -/
structure Circuit where
  /-- The number of wires. -/
  width : Nat
  /-- The gates by vertex, in ascending order. -/
  gates : List (VertexId × Gate)
  /-- The strands by wire. -/
  strands : List (Wire × List VertexId)
  /-- No strand has a vertex twice. -/
  nodup : ∀ s ∈ strands, s.2.Nodup

namespace Circuit

/-- The circuit without gates. -/
def empty (width : Nat) : Circuit := ⟨width, [], [], by simp⟩

/-- The vertices, in ascending order. -/
def ids (c : Circuit) : List VertexId := c.gates.map (·.1)

/-- The number of gates. -/
def size (c : Circuit) : Nat := c.gates.length

/-- The gate of a vertex. -/
def gate? (c : Circuit) (v : VertexId) : Option Gate := c.gates.lookup v

/-- Whether a vertex is in the circuit. -/
def contains (c : Circuit) (v : VertexId) : Bool := (c.gate? v).isSome

/-- The strand of a wire; a wire that no gate was ever on has an empty one. -/
def strand (c : Circuit) (w : Wire) : List VertexId := (c.strands.lookup w).getD []

/-- The vertices whose gate has this name, in ascending order. -/
def idsNamed (c : Circuit) (name : String) : List VertexId :=
  (c.gates.filter fun p => p.2.name = name).map (·.1)

/-! ## Neighbours -/

/-- A vertex put in its place in an ascending list, once. -/
def insertId (v : VertexId) : List VertexId → List VertexId
  | [] => [v]
  | a :: rest =>
      if v < a then v :: a :: rest
      else if v = a then a :: rest
      else a :: insertId v rest

/-- The members of a list, ascending and each once. -/
def ascending (vs : List VertexId) : List VertexId := vs.foldr insertId []

theorem mem_insertId {v x : VertexId} {vs : List VertexId} :
    x ∈ insertId v vs ↔ x = v ∨ x ∈ vs := by
  induction vs with
  | nil => simp [insertId]
  | cons a rest ih =>
      unfold insertId
      split
      · simp
      · split
        · rename_i h
          subst h
          simp
        · simp only [List.mem_cons, ih]
          constructor
          · rintro (h | h | h) <;> simp [h]
          · rintro (h | h | h) <;> simp [h]

theorem mem_ascending {x : VertexId} {vs : List VertexId} : x ∈ ascending vs ↔ x ∈ vs := by
  induction vs with
  | nil => simp [ascending]
  | cons a rest ih =>
      have : ascending (a :: rest) = insertId a (ascending rest) := rfl
      rw [this, mem_insertId, ih, List.mem_cons]

/-- The vertices right after `v` on its strands, ascending. -/
def successors (c : Circuit) (v : VertexId) : List VertexId :=
  ascending (c.strands.filterMap fun s => Strand.next? v s.2)

/-- The vertices right before `v` on its strands, ascending. -/
def predecessors (c : Circuit) (v : VertexId) : List VertexId :=
  ascending (c.strands.filterMap fun s => Strand.prev? v s.2)

/-! ## Building -/

/-- A gate fits a circuit when its wires are in range and differ from each other; the first wire
that fails decides the error. `seen` are the wires before. -/
def checkWires (width : Nat) (gate : String) (seen : List Wire) : List Wire → Except Error Unit
  | [] => .ok ()
  | w :: rest =>
      if width ≤ w.toNat then .error (.wireOutOfRange w width gate)
      else if seen.contains w then .error (.repeatedWire w gate)
      else checkWires width gate (w :: seen) rest

/-- Checks the gates in order. -/
def checkGates (width : Nat) : List Gate → Except Error Unit
  | [] => .ok ()
  | g :: rest =>
      match checkWires width g.name [] g.wires with
      | .ok () => checkGates width rest
      | .error e => .error e

/-- The positions of the gates on a wire. -/
def positionsOn (w : Wire) (gates : List Gate) : List VertexId :=
  (gates.zipIdx.filter fun p => p.1.touches w).map (·.2)

theorem positionsOn_sublist (gates : List Gate) (w : Wire) :
    (positionsOn w gates).Sublist (List.range gates.length) := by
  rw [positionsOn, List.range_eq_range', ← List.zipIdx_map_snd]
  exact List.filter_sublist.map _

/-- The circuit of a gate list. -/
def ofGates (width : Nat) (gates : List Gate) : Circuit where
  width := width
  gates := gates.zipIdx.map fun p => (p.2, p.1)
  strands := (gates.flatMap Gate.wires).eraseDups.map fun w => (w, positionsOn w gates)
  nodup := by
    intro s hs
    obtain ⟨w, -, rfl⟩ := List.mem_map.1 hs
    exact List.nodup_range.sublist (positionsOn_sublist gates w)

/-- The circuit of a gate list whose gates fit it. -/
def build (width : Nat) (gates : List Gate) : Except Error Circuit :=
  match checkGates width gates with
  | .ok () => .ok (ofGates width gates)
  | .error e => .error e

end Circuit

end Peephole
