import Peephole.Proofs.Circuit.Renaming
import Peephole.Proofs.Gate

/-!
# Where the order puts a vertex

The order of a circuit comes from one traversal that goes by names and edges, and once vertices were
commuted the edges need not go from lower names to higher ones. Still every vertex is listed once,
also where edges form a cycle, and an edge goes back in the order only where a path leads back to
where it starts.

* `Linked.position_lt_or_reflTransGen`: an edge goes forward in the order, or lies on a cycle.
* `Linked.acyclic_iff_position_lt`: a circuit is acyclic exactly when all its edges go forward.
-/

namespace Peephole

theorem Strand.idxOf_lt_of_pair_sublist {a b : VertexId} {s : List VertexId} (hs : s.Nodup)
    (hab : [a, b].Sublist s) : s.idxOf a < s.idxOf b := by
  obtain ⟨P, Q, rfl, hb⟩ := pair_sublist_iff.1 hab
  obtain ⟨haP, haQ⟩ := notMem_of_nodup_append hs
  have hbP : b ∉ P := fun h => (List.nodup_append.1 hs).2.2 b h b (List.mem_cons_of_mem a hb) rfl
  have hne : a ≠ b := fun h => haQ (h ▸ hb)
  rw [List.idxOf_append_of_notMem haP, List.idxOf_append_of_notMem hbP, List.idxOf_cons_self,
    List.idxOf_cons_ne _ hne]
  omega

namespace Circuit

open Relation (TransGen ReflTransGen)

variable {c : Circuit}

/-- The end of an edge comes after its start, unless a path leads from there back to the start. -/
theorem Linked.position_lt_or_reflTransGen (h : c.Linked) {a b : VertexId} (hab : c.Edge a b) :
    c.position a < c.position b ∨ ReflTransGen c.Edge b a := by
  obtain ⟨ha, hb⟩ := h.live_of_mem_successors hab
  obtain ⟨A, B, hcut⟩ := List.append_of_mem (h.order_perm.mem_iff.2 ha)
  rcases Traversal.lastLeftFirst_eq_append hcut hab hb with hB | ⟨-, hback⟩
  · have hsub : [a, b].Sublist c.order := Strand.pair_sublist_iff.2 ⟨A, B, hcut, hB⟩
    exact Or.inl (Strand.idxOf_lt_of_pair_sublist h.order_nodup hsub)
  · exact Or.inr hback

theorem Linked.acyclic_iff_position_lt (h : c.Linked) :
    c.Acyclic ↔ ∀ a b, c.Edge a b → c.position a < c.position b := by
  constructor
  · intro hac a b hab
    refine (h.position_lt_or_reflTransGen hab).resolve_right fun hback => ?_
    exact hac a (TransGen.head' hab hback)
  · intro hforward v hv
    -- along a path positions go up
    have hlt : ∀ x, TransGen c.Edge v x → c.position v < c.position x := by
      intro x hx
      induction hx with
      | single hab => exact hforward _ _ hab
      | tail _ hab ih => exact ih.trans (hforward _ _ hab)
    exact Nat.lt_irrefl _ (hlt v hv)

/-- After any history, also one that leaves cycles and gates away from their strands, the order
lists every vertex of the circuit once and nothing else. In it an edge goes forward, unless a path
leads back from its end to its start; and all edges go forward exactly when the circuit is
acyclic. -/
theorem order_of_reachable (hc : Reachable (fun _ _ => True) c) :
    c.order.Nodup ∧ (∀ v, v ∈ c.order ↔ c.contains v = true) ∧
      (∀ a b, b ∈ c.successors a → c.position a < c.position b ∨ ReflTransGen c.Edge b a) ∧
      (c.Acyclic ↔ ∀ a b, b ∈ c.successors a → c.position a < c.position b) := by
  have h := hc.linked
  refine ⟨h.order_nodup, fun v => ?_, fun a b hab => h.position_lt_or_reflTransGen hab,
    h.acyclic_iff_position_lt⟩
  rw [contains_eq_true_iff, h.order_perm.mem_iff]

/-- Two commutations leave four vertices on a cycle. All of them are listed, and one edge goes back
in the order. -/
theorem order_of_reachable_cyclic :
    ∃ c d e, build 4 [.cnot [0] 1, .cnot [1] 2, .cnot [0] 2, .cnot [2] 3] = .ok c ∧
      c.commute 2 3 = .ok d ∧ d.commute 0 2 = .ok e ∧ e.order = [3, 2, 0, 1] ∧
      (∀ v, v ∈ e.order ↔ e.contains v = true) ∧ 3 ∈ e.successors 1 ∧
      ReflTransGen e.Edge 3 1 ∧ ¬ e.Acyclic := by
  have hbuild : build 4 [.cnot [0] 1, .cnot [1] 2, .cnot [0] 2, .cnot [2] 3]
      = .ok (ofGates 4 [.cnot [0] 1, .cnot [1] 2, .cnot [0] 2, .cnot [2] 3]) := rfl
  have hfirst : (ofGates 4 [.cnot [0] 1, .cnot [1] 2, .cnot [0] 2, .cnot [2] 3]).commute 2 3
      = .ok ((ofGates 4 [.cnot [0] 1, .cnot [1] 2, .cnot [0] 2, .cnot [2] 3]).swapped 2 3) := rfl
  have hsecond : ((ofGates 4 [.cnot [0] 1, .cnot [1] 2, .cnot [0] 2, .cnot [2] 3]).swapped 2
      3).commute 0 2 = .ok (((ofGates 4 [.cnot [0] 1, .cnot [1] 2, .cnot [0] 2,
        .cnot [2] 3]).swapped 2 3).swapped 0 2) := rfl
  obtain ⟨-, hmem, hforward, hacyclic⟩ :=
    order_of_reachable (.commute (.commute (.build hbuild) hfirst) hsecond)
  refine ⟨_, _, _, hbuild, hfirst, hsecond, by cbv, hmem, by decide, ?_, fun hac => ?_⟩
  · exact (hforward 1 3 (by decide)).resolve_left (by cbv)
  · exact absurd (hacyclic.1 hac 1 3 (by decide)) (by cbv)

end Circuit

end Peephole
