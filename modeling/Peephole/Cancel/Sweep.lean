import Peephole.Cancel.Search

/-!
# Cancellation of rotations and controlled nots

A sweep searches once from each candidate that is in the circuit when it starts, by ascending
name. A search that rolls back gives the vertices new names, and the candidates that wait are
renamed with them; those that are gone by then are dropped.
-/

namespace Peephole.Cancel

/-- The candidate at a vertex. -/
def candidateAt? (c : Circuit) (v : VertexId) : Option Candidate :=
  (c.gate? v).bind Candidate.ofGate?

/-- The vertices that hold candidates, ascending. -/
def candidates (c : Circuit) : List VertexId :=
  (c.gates.filter fun p => (Candidate.ofGate? p.2).isSome).map (·.1)

/-- The vertices that wait, after a search. -/
def Outcome.rename (pending : List VertexId) : Outcome → List VertexId
  | .rolledBack names => pending.filterMap fun v => names.lookup v
  | _ => pending

theorem Outcome.length_rename_le (pending : List VertexId) (o : Outcome) :
    (o.rename pending).length ≤ pending.length := by
  cases o with
  | rolledBack names => exact List.length_filterMap_le _ _
  | merged => exact Nat.le_refl _
  | unchanged => exact Nat.le_refl _

/-- Searches from the vertices that wait. -/
def sweepFrom (c : Circuit) (pending : List VertexId) : Run Unit :=
  match pending with
  | [] => .done c ()
  | v :: rest =>
      match candidateAt? c v with
      | none => sweepFrom c rest
      | some k => (search k c v).andThen fun d o => sweepFrom d (o.rename rest)
termination_by pending.length
decreasing_by
  · simp
  · have := o.length_rename_le rest
    simp only [List.length_cons]
    omega

/-- One sweep, with the number of gates it removed. -/
def sweep (c : Circuit) : Run Nat :=
  (sweepFrom c (candidates c)).andThen fun d _ => .done d (c.size - d.size)

end Peephole.Cancel
