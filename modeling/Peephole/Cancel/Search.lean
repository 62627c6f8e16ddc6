import Peephole.Cancel.Candidate
import Peephole.Circuit.Snapshot
import Peephole.Run

/-!
# The search for a partner

A search merges its candidate with a partner if there is one at hand; else it slides the candidate
forward and looks again. Each slide leaves fewer vertices ahead of the candidate, so the search
ends. If it ends without a partner, the circuit goes back to what it was before the first slide.
-/

namespace Peephole.Cancel

/-- How a search ended. -/
inductive Outcome where
  /-- The candidate met its partner. -/
  | merged
  /-- Nothing was done. -/
  | unchanged
  /-- The circuit was rebuilt from its snapshot, and its vertices have new names. -/
  | rolledBack (names : Renumbering)

/-- The event of a merge. -/
def Candidate.merged (v partner : VertexId) : Candidate → Event
  | .rotation => .rotationMerged v partner
  | .cnot => .cnotCancelled v partner

/-- Ends a search without a partner. `saved` is the circuit before the first slide, if any. -/
def giveUp (c : Circuit) (v : VertexId) (saved : Option Snapshot) : Run Outcome :=
  match saved with
  | none => .done c .unchanged
  | some s =>
      match s.restore with
      | .ok (names, d) => .after (.rollingBack v) (.done d (.rolledBack names))
      | .error e => .after (.rollingBack v) (.failed c (.circuit e))

/-- Goes on with a search. -/
def seek (k : Candidate) (c : Circuit) (v : VertexId) (saved : Option Snapshot) : Run Outcome :=
  match k.merge? c v with
  | .error e => .failed c (.circuit e)
  | .ok (some m) =>
      match c.applyAll m.edits with
      | (d, none) => .after (k.merged v m.partner) (.done d .merged)
      | (d, some e) => .failed d (.circuit e)
  | .ok none =>
      match k.slide? c v with
      | .error e => .failed c (.circuit e)
      | .ok (some (a :: rest)) =>
          match _h : c.applyAll ((a :: rest).map (.commute v)) with
          | (d, none) => .after (.slid v) (seek k d v (some (saved.getD c.snapshot)))
          | (d, some e) => .failed d (.circuit e)
      | .ok _ => giveUp c v saved
termination_by c.ahead v
decreasing_by exact Circuit.ahead_applyAll_commute _h (List.cons_ne_nil _ _)

/-- The search from a vertex, which has to hold a candidate of this kind. -/
def search (k : Candidate) (c : Circuit) (v : VertexId) : Run Outcome :=
  match c.gateOf v with
  | .error e => .failed c (.circuit e)
  | .ok g =>
      if Candidate.ofGate? g = some k then seek k c v none
      else .failed c (.unexpectedGate v k.expected g.name)

end Peephole.Cancel
