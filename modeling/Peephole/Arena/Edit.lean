import Peephole.Arena.Basic
import Peephole.Circuit.Edit
import Peephole.Circuit.Inspection
import Peephole.Circuit.Snapshot

/-!
# Edits of an arena

The operations change an arena link by link. One that fails half way would leave what it has changed
by then: an action returns the arena also with an error.

* `splice` makes two vertices neighbours on a wire, `refresh` computes the neighbours of a vertex
  again.
* `remove` and `commute` are made of these.
* `inspect` checks the graph, and then the neighbours against the links.
-/

namespace Peephole.Arena

/-- What is done to an arena, and may fail. -/
abbrev Action := ExceptT Circuit.Error (StateM Arena)

/-- What an action returns, and the arena it leaves. -/
def Action.on {α : Type} (x : Action α) (a : Arena) : Except Circuit.Error α × Arena :=
  StateT.run (ExceptT.run x) a

/-- The vertex of a name. -/
def entry (v : VertexId) : Action Vertex := do
  match (← get).vertex? v with
  | some x => pure x
  | none => throw (.noVertex v)

/-- Changes the link of a vertex on a wire. -/
def relink (v : VertexId) (w : Wire) (f : Link → Link) : Action Unit := do
  let x ← entry v
  match x.links.get? w with
  | some _ => modify (·.update v fun x => { x with links := x.links.modify w f })
  | none => throw (.unsound (.offWire v w))

/-- Changes the link of a vertex on a wire, if there is a vertex. -/
def relinkEnd (v : Option VertexId) (w : Wire) (f : Link → Link) : Action Unit :=
  match v with
  | some v => relink v w f
  | none => pure ()

/-- Makes two vertices neighbours on a wire, or one of them the end of it. -/
def splice (w : Wire) (before after : Option VertexId) : Action Unit := do
  relinkEnd before w fun l => { l with next := after }
  relinkEnd after w fun l => { l with prev := before }

/-- Computes the neighbours of a vertex again. -/
def refresh (v : VertexId) : Action Unit := do
  let _ ← entry v
  modify (·.update v Vertex.refreshed)

/-! ## Removal -/

/-- The arena without a vertex. Links to it are left as they are. -/
def erase (a : Arena) (v : VertexId) : Arena := { a with vertices := a.vertices.erase v }

/-- Takes a vertex out and joins what was before and after it on every wire. Returns the gate it
held. -/
def remove (v : VertexId) : Action Gate := do
  let x ← entry v
  modify (·.erase v)
  x.links.entries.forM fun e => splice e.1 e.2.prev e.2.next
  (Circuit.ascending (x.links.entries.flatMap fun e => e.2.ends)).forM refresh
  pure x.gate.markRemoved

/-! ## Commutation -/

/-- A wire where two vertices follow each other. -/
structure Site where
  /-- The wire. -/
  wire : Wire
  /-- The vertex before the first. -/
  before : Option VertexId
  /-- The vertex after the second. -/
  after : Option VertexId

/-- The vertices around a site. -/
def Site.ends (s : Site) : List VertexId := s.before.toList ++ s.after.toList

/-- Where two vertices meet: the links of the first one that are on a wire of the second, `b`. There
is no answer if one of them leads elsewhere. -/
def sites? (b : VertexId) (y : Vertex) : List (Wire × Link) → Option (List Site)
  | [] => some []
  | (w, l) :: rest =>
      match y.links.get? w with
      | none => sites? b y rest
      | some other =>
          if l.next = some b then (sites? b y rest).map (⟨w, l.prev, other.next⟩ :: ·) else none

/-- Exchanges two vertices that follow each other at a site. -/
def exchange (a b : VertexId) (s : Site) : Action Unit := do
  splice s.wire s.before (some b)
  splice s.wire (some b) (some a)
  splice s.wire (some a) s.after

/-- Exchanges two vertices, so that `b` comes before `a`. -/
def commute (a b : VertexId) : Action Unit := do
  let x ← entry a
  if x.successors.contains b then
    let y ← entry b
    match sites? b y x.links.entries with
    | none => throw (.notAdjacent a b)
    | some sites =>
        sites.forM (exchange a b)
        (Circuit.ascending (a :: b :: sites.flatMap Site.ends)).forM refresh
  else throw (.notAdjacent a b)

/-! ## Gates in place -/

/-- The arena with the gate of one vertex changed. -/
def withGate (a : Arena) (v : VertexId) (f : Gate → Gate) : Arena :=
  a.update v fun x => { x with gate := f x.gate }

/-- Changes the gate of a vertex that has to be there. -/
def overwrite (v : VertexId) (f : Gate → Gate) : Action Unit := do
  let _ ← entry v
  modify (·.withGate v f)

/-- Carries out an edit. -/
def apply : Circuit.Edit → Action Unit
  | .remove v => do
      let _ ← remove v
  | .commute a b => commute a b
  | .setKind v kind => overwrite v fun g => { g with kind }
  | .setWires v target controls => overwrite v fun g => { g with target, controls }
  | .turn v θ => modify (·.withGate v (Gate.turn θ))

/-! ## Inspection and snapshots -/

/-- Checks that the arena is sound. -/
def inspect (a : Arena) : Except Circuit.Error Unit :=
  match a.graph.inspect with
  | .error e => .error e
  | .ok () =>
      match a.vertices.entries.find? fun e => e.2.isStale with
      | some e => .error (.unsound (.staleNeighbours e.1))
      | none => .ok ()

/-- The gates of an arena in order. -/
def snapshot (a : Arena) : Snapshot := a.graph.snapshot

/-- Puts an arena built afresh in place of what was there, and tells the new names. -/
def restore (s : Snapshot) : Action Renumbering := do
  match build s.width s.gates with
  | .ok a =>
      set a
      pure s.renumbering
  | .error e => throw e

end Peephole.Arena
