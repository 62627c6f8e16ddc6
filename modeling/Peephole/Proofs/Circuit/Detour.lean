import Mathlib.Algebra.GroupWithZero.Nat
import Peephole.Proofs.Circuit.Inspection
import Peephole.Proofs.Circuit.Neighbours
import Peephole.Proofs.Gate
import Peephole.Proofs.Run

/-!
# The search for a detour

The search for a second way keeps a stack of vertices to look at. A vertex may come onto the stack
once for every edge that leads to it, but it puts its successors there only at its first turn. So
the number of edges bounds the number of turns, also where the edges form a cycle.

* `Traversal.Looks`: one turn of a search; `Looks.meets_eq`: it does not change the answer.
* `Traversal.descent_looks`: every turn lowers what may still come to the top of the stack.
* `Search.exists_ended`: a search ends with nothing on the stack, or with its goal on top.
-/

namespace Peephole

open Relation (TransGen ReflTransGen)

namespace Traversal

variable {below : VertexId → List VertexId} {live : List VertexId} {goal : VertexId}

/-- A search under way: the vertices to look at, the next one first, and those visited. -/
structure Search where
  stack : List VertexId
  visited : List VertexId

/-- One turn of a search that has not met its goal. -/
inductive Looks (below : VertexId → List VertexId) (live : List VertexId) (goal : VertexId) :
    Search → Search → Prop where
  /-- A vertex is visited for the first time. -/
  | visit {v : VertexId} {rest visited : List VertexId} (hne : v ≠ goal)
      (hv : v ∈ live ∧ v ∉ visited) :
      Looks below live goal ⟨v :: rest, visited⟩
        ⟨pushed below (v :: visited) v ++ rest, v :: visited⟩
  /-- A vertex is passed over. -/
  | pass {v : VertexId} {rest visited : List VertexId} (hne : v ≠ goal)
      (hv : ¬ (v ∈ live ∧ v ∉ visited)) :
      Looks below live goal ⟨v :: rest, visited⟩ ⟨rest, visited⟩

/-- How many vertices can come to the top of the stack: those on it, and those below the vertices
that were not visited yet. -/
def Search.weight (below : VertexId → List VertexId) (live : List VertexId) (s : Search) : Nat :=
  s.stack.length + ((unseen live s.visited).map fun v => (below v).length).sum

/-- What is below a vertex is put on the stack at its first visit only. -/
theorem length_add_sum_unseen (below : VertexId → List VertexId) (hlive : live.Nodup) {v : VertexId}
    {visited : List VertexId} (hv : v ∈ live ∧ v ∉ visited) :
    (below v).length + ((unseen live (v :: visited)).map fun w => (below w).length).sum =
      ((unseen live visited).map fun w => (below w).length).sum := by
  have hnodup : (unseen live visited).Nodup := hlive.filter _
  have hmem : v ∈ unseen live visited := by simpa [unseen] using hv
  have herase : unseen live (v :: visited) = (unseen live visited).erase v := by
    rw [unseen_cons, hnodup.erase_eq_filter]
    rfl
  rw [herase]
  exact List.sum_map_erase (fun w => (below w).length) hmem

theorem descent_looks (hlive : live.Nodup) :
    Descent (Looks below live goal) (fun _ => True) (Search.weight below live) where
  keeps _ _ := trivial
  lowers := by
    intro s t _ h
    cases h with
    | pass hne hv => simp [Search.weight]
    | @visit v rest visited hne hv =>
        have hsum := length_add_sum_unseen below hlive hv
        have hpushed : (pushed below (v :: visited) v).length ≤ (below v).length := by
          rw [pushed, List.length_reverse]
          exact List.length_filter_le _ _
        simp only [Search.weight, List.length_append, List.length_cons]
        omega

/-- A turn does not change what the search will find. -/
theorem Looks.meets_eq {s t : Search} (h : Looks below live goal s t) :
    meets below live goal s.stack s.visited = meets below live goal t.stack t.visited := by
  cases h with
  | visit hne hv => rw [meets, if_neg hne, dif_pos hv]
  | pass hne hv => rw [meets, if_neg hne, dif_neg hv]

theorem meets_eq_of_reflTransGen {s t : Search} (h : ReflTransGen (Looks below live goal) s t) :
    meets below live goal s.stack s.visited = meets below live goal t.stack t.visited := by
  induction h with
  | refl => rfl
  | tail _ hlook ih => exact ih.trans hlook.meets_eq

/-- A search goes on until its stack is empty or has the goal on top. -/
theorem Search.exists_ended (hlive : live.Nodup) (s : Search) :
    ∃ t, ReflTransGen (Looks below live goal) s t ∧
      (t.stack = [] ∧ meets below live goal s.stack s.visited = false ∨
        t.stack.head? = some goal ∧ meets below live goal s.stack s.visited = true) := by
  obtain ⟨t, hst, hlast⟩ := (descent_looks hlive).exists_last (a := s) trivial
  refine ⟨t, hst, ?_⟩
  rw [meets_eq_of_reflTransGen hst]
  obtain ⟨stack, visited⟩ := t
  cases stack with
  | nil => exact Or.inl ⟨rfl, by rw [meets]⟩
  | cons v rest =>
      by_cases hne : v = goal
      · exact Or.inr ⟨congrArg some hne, by rw [meets, if_pos hne]⟩
      · by_cases hv : v ∈ live ∧ v ∉ visited
        · exact absurd (.visit hne hv) (hlast _)
        · exact absurd (.pass hne hv) (hlast _)

end Traversal

namespace Circuit

open Traversal (Looks Search)

variable {c : Circuit}

/-- The search for a second way as it begins: with the other successors, the highest on top. -/
def detourSearch (c : Circuit) (start via : VertexId) : Search :=
  ⟨((c.successors start).filter (· ≠ via)).reverse, []⟩

theorem weight_detourSearch_le (start via : VertexId) :
    (c.detourSearch start via).weight c.successors c.ids ≤
      (c.successors start).length + (c.ids.map fun v => (c.successors v).length).sum := by
  have hall : Traversal.unseen c.ids [] = c.ids := by simp [Traversal.unseen]
  rw [Search.weight, detourSearch, hall, List.length_reverse]
  exact Nat.add_le_add_right (List.length_filter_le _ _) _

/-- After any history, also one that leaves cycles and gates away from their strands, and whichever
vertices are named: a detour is found exactly when a successor of the first vertex, other than the
second, is the goal or has a path to it. The search ends: it takes no more turns than there are
edges, the first ones counted twice, and goes on until nothing is left to look at or the goal is
next. -/
theorem hasDetour_of_reachable (hc : Reachable (fun _ _ => True) c) (start via goal : VertexId) :
    (c.hasDetour start via goal = true ↔
      ∃ y ∈ c.successors start, y ≠ via ∧ (y = goal ∨ TransGen c.Edge y goal)) ∧
    (∀ ss, (c.detourSearch start via :: ss).IsChain (Looks c.successors c.ids goal) →
      ss.length ≤ (c.successors start).length + (c.ids.map fun v => (c.successors v).length).sum) ∧
    ∃ s, ReflTransGen (Looks c.successors c.ids goal) (c.detourSearch start via) s ∧
      (s.stack = [] ∧ c.hasDetour start via goal = false ∨
        s.stack.head? = some goal ∧ c.hasDetour start via goal = true) := by
  have h := hc.linked
  refine ⟨?_, fun ss hss => ?_, Search.exists_ended h.ids_nodup (c.detourSearch start via)⟩
  · rw [h.hasDetour_eq_true_iff]
    refine exists_congr fun y => and_congr_right fun _ => and_congr_right fun _ => ?_
    rw [Relation.reflTransGen_iff_eq_or_transGen, eq_comm]
  · exact ((Traversal.descent_looks h.ids_nodup).length_le trivial hss).trans
      (weight_detourSearch_le start via)

/-- A commutation has closed a cycle of three vertices, and the gate of one was moved away from its
strands. A way around the cycle back to the start is found; for a vertex that is not there the
search goes once around and ends. -/
theorem hasDetour_of_reachable_cyclic :
    ∃ c d, build 3 [.cnot [0] 1, .cnot [1] 2, .cnot [0] 2] = .ok c ∧ c.commute 0 2 = .ok d ∧
      ¬ (d.modify 1 fun _ => .hadamard 7).Acyclic ∧
      (∃ y ∈ (d.modify 1 fun _ => .hadamard 7).successors 0, y ≠ 2 ∧
        (y = 0 ∨ TransGen (d.modify 1 fun _ => .hadamard 7).Edge y 0)) ∧
      ¬ ∃ y ∈ (d.modify 1 fun _ => .hadamard 7).successors 0, y ≠ 2 ∧
        (y = 3 ∨ TransGen (d.modify 1 fun _ => .hadamard 7).Edge y 3) := by
  have hbuild : build 3 [.cnot [0] 1, .cnot [1] 2, .cnot [0] 2]
      = .ok (ofGates 3 [.cnot [0] 1, .cnot [1] 2, .cnot [0] 2]) := rfl
  have hcommute : (ofGates 3 [.cnot [0] 1, .cnot [1] 2, .cnot [0] 2]).commute 0 2
      = .ok ((ofGates 3 [.cnot [0] 1, .cnot [1] 2, .cnot [0] 2]).swapped 0 2) := rfl
  have hreach : Reachable (fun _ _ => True) (((ofGates 3 [.cnot [0] 1, .cnot [1] 2,
      .cnot [0] 2]).swapped 0 2).modify 1 fun _ => .hadamard 7) :=
    .modify (.commute (.build hbuild) hcommute) fun _ _ => trivial
  refine ⟨_, _, hbuild, hcommute, ?_, (hasDetour_of_reachable hreach 0 2 0).1.1 (by cbv), ?_⟩
  · rw [← hreach.linked.isCyclic_eq_false_iff, Bool.not_eq_false]
    cbv
  · rw [← (hasDetour_of_reachable hreach 0 2 3).1, Bool.not_eq_true]
    cbv

end Circuit

end Peephole
