import Mathlib.Data.Finset.Insert
import Mathlib.Order.Bounds.Basic
import Peephole.Proofs.Circuit.Renaming
import Peephole.Proofs.Gate

/-!
# Removals

To take some vertices out one after another is to take them out all at once: the order makes no
difference, and what is left on a strand is what was there before, in the same order. In a circuit
that was built from a list of gates, names are positions, so that removals are seen in the list: the
gates that stay keep their order, and on each wire a gate follows the last one before it that stays.

* `Circuit.withoutAll`: the circuit without some vertices; `applyAll_removes`: removing them one by
  one, in any order.
* `Linked.gatesInOrder_eq`: the gates in order, where names go up along every strand.
* `prev?_withoutAll_ofGates`: the neighbours that removals leave.
-/

namespace Peephole.Circuit

variable {c : Circuit}

/-! ## Several vertices at once -/

/-- The circuit without some of its vertices. -/
def withoutAll (c : Circuit) (S : Finset VertexId) : Circuit where
  width := c.width
  gates := c.gates.filter fun p => p.1 ∉ S
  strands := c.strands.map fun s => (s.1, s.2.filter (· ∉ S))
  nodup := by
    intro s hs
    obtain ⟨t, ht, rfl⟩ := List.mem_map.1 hs
    exact (c.nodup t ht).filter _

theorem withoutAll_empty (c : Circuit) : c.withoutAll ∅ = c := by
  obtain ⟨width, gates, strands, nodup⟩ := c
  simp [withoutAll]

/-- One vertex more. -/
theorem withoutAll_without (c : Circuit) (v : VertexId) (S : Finset VertexId) :
    (c.without v).withoutAll S = c.withoutAll (insert v S) := by
  have hmem : ∀ x, (decide (x ∉ S) && decide (x ≠ v)) = decide (x ∉ insert v S) := by
    intro x
    simp [Finset.mem_insert, Bool.and_comm]
  simp only [withoutAll, without, List.filter_filter, List.map_map, Circuit.mk.injEq, true_and]
  refine ⟨List.filter_congr fun p _ => hmem p.1, List.map_congr_left fun s _ => ?_⟩
  simp only [Function.comp_apply, List.filter_filter, Prod.mk.injEq, true_and]
  exact List.filter_congr fun x _ => hmem x

/-- Vertices can be removed one after another, in any order. -/
theorem applyAll_removes {vs : List VertexId} (hvs : vs.Nodup) (hlive : ∀ v ∈ vs, v ∈ c.ids) :
    c.applyAll (vs.map .remove) = (c.withoutAll vs.toFinset, none) := by
  induction vs generalizing c with
  | nil => simp [applyAll, withoutAll_empty]
  | cons v rest ih =>
      obtain ⟨hv, hrest⟩ := List.nodup_cons.1 hvs
      rw [List.forall_mem_cons] at hlive
      obtain ⟨g, hg⟩ := mem_ids.1 hlive.1
      have hlive' : ∀ x ∈ rest, x ∈ (c.without v).ids := by
        intro x hx
        exact (mem_ids_without c v).2 ⟨hlive.2 x hx, fun he => hv (he ▸ hx)⟩
      rw [List.map_cons, applyAll_cons (apply_remove hg), ih hrest hlive', withoutAll_without,
        List.toFinset_cons]

section Views

variable (c : Circuit) (S : Finset VertexId)

theorem ids_withoutAll : (c.withoutAll S).ids = c.ids.filter (· ∉ S) := by
  rw [ids, ids, withoutAll, List.filter_map]
  rfl

theorem strand_withoutAll (w : Wire) :
    (c.withoutAll S).strand w = (c.strand w).filter (· ∉ S) := by
  rw [strand, strand, withoutAll, lookup_mapped]
  cases c.strands.lookup w with
  | none => rfl
  | some s => rfl

end Views

theorem Linked.withoutAll (h : c.Linked) (S : Finset VertexId) : (c.withoutAll S).Linked where
  ascending := by
    rw [ids_withoutAll]
    exact h.ascending.sublist List.filter_sublist
  wires_nodup := by
    rw [Circuit.withoutAll, List.map_map]
    exact h.wires_nodup
  strand_live := by
    intro w x hx
    rw [strand_withoutAll, List.mem_filter] at hx
    rw [ids_withoutAll, List.mem_filter]
    exact ⟨h.strand_live w x hx.1, hx.2⟩

/-! ## Gates in order -/

theorem Linked.filterMap_gate?_ids (h : c.Linked) :
    c.ids.filterMap c.gate? = c.gates.map (·.2) := by
  rw [ids, List.filterMap_map, ← List.filterMap_eq_map]
  refine List.filterMap_congr fun p hp => ?_
  exact gate?_of_mem h.ids_nodup hp

/-- Where names go up along every strand, the gates come in the order of the names. -/
theorem Linked.gatesInOrder_eq (h : c.Linked) (hup : ∀ w, (c.strand w).Pairwise (· < ·)) :
    c.gatesInOrder = c.gates.map (·.2) := by
  rw [Circuit.gatesInOrder_eq, h.order_eq_ids hup, h.filterMap_gate?_ids]

/-! ## Lists of gates -/

/-- The gate at a position is on the wire and not taken out. -/
def StaysOn (gs : List Gate) (S : Finset VertexId) (w : Wire) (i : VertexId) : Prop :=
  i ∉ S ∧ ∃ g, gs[i]? = some g ∧ w ∈ g.wires

section List

variable (width : Nat) (gs : List Gate) (S : Finset VertexId)

theorem mem_strand_withoutAll_ofGates {w : Wire} {i : VertexId} :
    i ∈ ((ofGates width gs).withoutAll S).strand w ↔ StaysOn gs S w i := by
  rw [strand_withoutAll, strand_ofGates, List.mem_filter, mem_positionsOn, decide_eq_true_eq,
    and_comm]
  rfl

theorem pairwise_strand_withoutAll_ofGates (w : Wire) :
    (((ofGates width gs).withoutAll S).strand w).Pairwise (· < ·) := by
  rw [strand_withoutAll]
  exact (pairwise_strand_ofGates width gs w).sublist List.filter_sublist

/-- On a wire, a gate that stays follows the last one before it that stays. -/
theorem prev?_withoutAll_ofGates (w : Wire) (u v : VertexId) :
    ((ofGates width gs).withoutAll S).prev? w v = some u ↔
      StaysOn gs S w v ∧ IsGreatest {i | StaysOn gs S w i ∧ i < v} u := by
  rw [prev?, Strand.prev?_eq_some_iff_of_ascending
    (pairwise_strand_withoutAll_ofGates width gs S w)]
  simp only [mem_strand_withoutAll_ofGates]
  constructor
  · rintro ⟨hu, hv, huv, hbetween⟩
    refine ⟨hv, ⟨hu, huv⟩, fun i hi => ?_⟩
    exact Nat.le_of_not_lt fun hui => hbetween i hi.1 hui hi.2
  · rintro ⟨hv, ⟨hu, huv⟩, hmax⟩
    refine ⟨hu, hv, huv, fun i hi hui hiv => ?_⟩
    exact Nat.not_lt_of_le (hmax ⟨hi, hiv⟩) hui

theorem gatesInOrder_withoutAll_ofGates :
    ((ofGates width gs).withoutAll S).gatesInOrder
      = (gs.zipIdx.filter fun p => p.2 ∉ S).map (·.1) := by
  have h := (Linked.ofGates width gs).withoutAll S
  rw [h.gatesInOrder_eq (pairwise_strand_withoutAll_ofGates width gs S), withoutAll, ofGates,
    List.filter_map, List.map_map]
  rfl

end List

/-- A circuit is built from a list of gates if and only if all of them fit, each with its controls
and its target distinct and in range; otherwise the error names the first gate that does not fit,
and of its wires, controls before the target, the first that fails. Once it is built, its gates come
in the order of the list. Any positions may be taken out, one after another: every removal is
carried out, whatever the order of removal the same circuit is left, its vertices are the positions
that stay, on a wire each of them follows the last one before it that stays there, and the gates
come in the order of the list, without those taken out. -/
theorem removals_of_build (width : Nat) (gs : List Gate) :
    ((∃ c, build width gs = .ok c) ↔ ∀ g ∈ gs, g.Fits width) ∧
      (∀ e, build width gs = .error e ↔
        ∃ A g B, gs = A ++ g :: B ∧ (∀ k ∈ A, k.Fits width) ∧ g.Misfit width e) ∧
      ∀ c, build width gs = .ok c → c.gatesInOrder = gs ∧
        ∀ S : Finset VertexId, (∀ i ∈ S, i < gs.length) → ∃ d,
          (∀ vs : List VertexId, vs.Nodup → vs.toFinset = S →
            c.applyAll (vs.map .remove) = (d, none)) ∧
          d.ids = (List.range gs.length).filter (· ∉ S) ∧
          (∀ w u v, d.prev? w v = some u ↔
            StaysOn gs S w v ∧ IsGreatest {i | StaysOn gs S w i ∧ i < v} u) ∧
          (∀ u v, u ∈ d.predecessors v ↔
            ∃ w, StaysOn gs S w v ∧ IsGreatest {i | StaysOn gs S w i ∧ i < v} u) ∧
          d.gatesInOrder = (gs.zipIdx.filter fun p => p.2 ∉ S).map (·.1) := by
  refine ⟨?_, fun e => build_eq_error_iff, fun c hc => ?_⟩
  · constructor
    · rintro ⟨c, hc⟩
      exact (build_eq_ok_iff.1 hc).1
    · intro hfits
      exact ⟨_, build_eq_ok_iff.2 ⟨hfits, rfl⟩⟩
  · obtain ⟨-, rfl⟩ := build_eq_ok_iff.1 hc
    refine ⟨gatesInOrder_ofGates width gs, fun S hS => ?_⟩
    refine ⟨(ofGates width gs).withoutAll S, fun vs hvs hset => ?_, ?_,
      prev?_withoutAll_ofGates width gs S, fun u v => ?_,
      gatesInOrder_withoutAll_ofGates width gs S⟩
    · have hlive : ∀ v ∈ vs, v ∈ (ofGates width gs).ids := by
        intro v hv
        rw [ids_ofGates, List.mem_range]
        exact hS v (hset ▸ List.mem_toFinset.2 hv)
      rw [applyAll_removes hvs hlive, hset]
    · rw [ids_withoutAll, ids_ofGates]
    · rw [((Linked.ofGates width gs).withoutAll S).mem_predecessors_iff]
      exact exists_congr fun w => prev?_withoutAll_ofGates width gs S w u v

/-- Out of five gates the fourth and the second are taken, in either order. The last gate then
follows the first, which was no neighbour of it before. -/
theorem removals_of_build_descending :
    ∃ c d, build 2 [.hadamard 0, .cnot [0] 1, .phase 1, .cnot [1] 0, .phase 0] = .ok c ∧
      c.applyAll [.remove 3, .remove 1] = (d, none) ∧
      c.applyAll [.remove 1, .remove 3] = (d, none) ∧
      d.gatesInOrder = [.hadamard 0, .phase 1, .phase 0] ∧ d.prev? 0 4 = some 0 := by
  have hbuild : build 2 [.hadamard 0, .cnot [0] 1, .phase 1, .cnot [1] 0, .phase 0]
      = .ok (ofGates 2 [.hadamard 0, .cnot [0] 1, .phase 1, .cnot [1] 0, .phase 0]) := rfl
  obtain ⟨d, hremove, -, -, -, hgates⟩ :=
    ((removals_of_build 2 [.hadamard 0, .cnot [0] 1, .phase 1, .cnot [1] 0, .phase 0]).2.2 _
      hbuild).2 {1, 3} (by decide)
  refine ⟨_, d, hbuild, hremove [3, 1] (by decide) (by decide), hremove [1, 3] (by decide) rfl,
    hgates.trans rfl, ?_⟩
  obtain rfl := congrArg Prod.fst (hremove [1, 3] (by decide) rfl)
  rfl

end Peephole.Circuit
