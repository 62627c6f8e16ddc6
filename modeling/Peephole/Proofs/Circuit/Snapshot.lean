import Peephole.Proofs.Circuit.Inspection
import Peephole.Proofs.Circuit.Renaming
import Peephole.Proofs.Gate

/-!
# Going back to a snapshot

A snapshot holds the gates of a circuit in order, and going back builds a fresh circuit from them.
All that the circuit has become in the meantime is forgotten. The fresh circuit is the one the
snapshot was taken of, up to the names of the vertices, which are told by the renumbering.

* `Circuit.Restores`: what it means to be given back, with new names.
* `Proper.restores`: a circuit that is acyclic, with its gates on the strands of their wires, is
  given back whenever its snapshot can be restored.
* `Linked.exists_restore_iff`: it can, exactly when all gates fit the circuit.
-/

namespace Peephole.Circuit

variable {c d : Circuit}

/-- One circuit is the other given back under the names `0, 1, …`, by a renumbering that has all the
old vertices and nothing else. -/
structure Restores (names : Renumbering) (c d : Circuit) : Prop where
  /-- The new name of a vertex is its position. -/
  lookup_eq : ∀ v, names.lookup v = if v ∈ c.ids then some (c.position v) else none
  bijOn : Set.BijOn c.position {v | v ∈ c.ids} {i | i < c.size}
  isomorphic : Isomorphic c.position c d
  gatesInOrder_eq : d.gatesInOrder = c.gatesInOrder

/-! ## New names -/

theorem lookup_zipIdx (vs : List VertexId) (v : VertexId) (k : Nat) :
    (vs.zipIdx k).lookup v = if v ∈ vs then some (vs.idxOf v + k) else none := by
  induction vs generalizing k with
  | nil => rfl
  | cons x rest ih =>
      rw [List.zipIdx_cons, List.lookup_cons, ih]
      by_cases hx : v = x
      · simp [hx]
      · rw [beq_eq_false_iff_ne.2 hx, List.idxOf_cons_ne _ (Ne.symm hx)]
        simp only [List.mem_cons, hx, false_or]
        by_cases hv : v ∈ rest
        · rw [if_pos hv, if_pos hv]
          exact congrArg some (by omega)
        · rw [if_neg hv, if_neg hv]

theorem Linked.renumbering_snapshot (h : c.Linked) :
    c.snapshot.renumbering = c.order.zipIdx := by
  have hkeys : c.snapshot.entries.map (·.1) = c.order := by
    rw [snapshot_eq, List.map_filterMap]
    conv_rhs => rw [← List.filterMap_some (l := c.order)]
    refine List.filterMap_congr fun v hv => ?_
    obtain ⟨g, hg⟩ := mem_ids.1 (h.order_perm.mem_iff.1 hv)
    rw [hg]
    rfl
  rw [Snapshot.renumbering, ← hkeys, List.zipIdx_map]
  rfl

theorem Linked.lookup_renumbering (h : c.Linked) (v : VertexId) :
    c.snapshot.renumbering.lookup v = if v ∈ c.ids then some (c.position v) else none := by
  rw [h.renumbering_snapshot, lookup_zipIdx]
  simp only [h.order_perm.mem_iff]
  rfl

/-! ## What is given back -/

theorem restore_snapshot_eq_ok_iff {names : Renumbering} :
    c.snapshot.restore = .ok (names, d) ↔
      (∀ g ∈ c.gatesInOrder, g.Fits c.width) ∧ names = c.snapshot.renumbering ∧ d = c.rebuilt := by
  rw [restore_eq_ok_iff, gates_snapshot]
  rfl

/-- A snapshot gives back the circuit it was taken of. -/
theorem Proper.restores (hc : c.Proper) {names : Renumbering}
    (h : c.snapshot.restore = .ok (names, d)) : Restores names c d := by
  obtain ⟨-, rfl, rfl⟩ := restore_snapshot_eq_ok_iff.1 h
  exact ⟨hc.linked.lookup_renumbering, hc.linked.bijOn_position, hc.isomorphic_rebuilt,
    gatesInOrder_ofGates _ _⟩

/-- A snapshot can be restored exactly when all gates fit the circuit. -/
theorem Linked.exists_restore_iff (h : c.Linked) :
    (∃ names d, c.snapshot.restore = .ok (names, d)) ↔ c.Fits := by
  constructor
  · rintro ⟨names, d, hr⟩ v g hg
    exact (restore_snapshot_eq_ok_iff.1 hr).1 g (h.mem_gatesInOrder.2 ⟨v, hg⟩)
  · intro hf
    obtain ⟨d, hd⟩ := hf.restore_eq_ok
    exact ⟨_, d, hd⟩

/-- Where all wires are in range, a snapshot that cannot be restored has a gate with a wire twice.
-/
theorem Linked.restore_eq_error (hc : c.Linked)
    (hlt : ∀ v g, c.gate? v = some g → ∀ w ∈ g.wires, w.toNat < c.width) {e : Error}
    (h : c.snapshot.restore = .error e) :
    ∃ v g w, c.gate? v = some g ∧ ¬ g.wires.Nodup ∧ e = .repeatedWire w g.name := by
  have hbuild : Circuit.build c.width c.gatesInOrder = .error e := by
    rw [Snapshot.restore, gates_snapshot] at h
    cases hb : Circuit.build c.snapshot.width c.gatesInOrder with
    | ok d =>
        rw [hb] at h
        cases h
    | error e' =>
        rw [hb] at h
        rw [← Except.error.inj h]
        exact hb
  obtain ⟨A, g, B, hgates, -, before, w, after, hwires, -, he⟩ := build_eq_error_iff.1 hbuild
  obtain ⟨v, hv⟩ := hc.mem_gatesInOrder.1 (hgates ▸ List.mem_append_right A List.mem_cons_self)
  rcases he with ⟨hout, -⟩ | ⟨hw, he⟩
  · exact absurd (hlt v g hv w (by simp [hwires])) (Nat.not_lt.2 hout)
  · refine ⟨v, g, w, hv, fun hnodup => ?_, he⟩
    rw [hwires] at hnodup
    exact (List.nodup_append.1 hnodup).2.2 w hw w (by simp) rfl

/-- As long as gates are only overwritten by gates with the same wires, all wires are in range. -/
theorem Reachable.wires_lt (hc : Reachable Gate.SameWires c) (v : VertexId) (g : Gate)
    (hg : c.gate? v = some g) : ∀ w ∈ g.wires, w.toNat < c.width := by
  refine hc.forall_gate (Q := fun n g => ∀ w ∈ g.wires, w.toNat < n) (fun n g hg => hg.2) ?_ v g hg
  intro n g k hg hgk w hw
  exact hg w ((hgk w).2 hw)

/-- So a gate fits unless it has a wire twice, -/
theorem Reachable.fits_iff (hc : Reachable Gate.SameWires c) :
    c.Fits ↔ ∀ v g, c.gate? v = some g → g.wires.Nodup :=
  ⟨fun hf v g hg => (hf v g hg).1, fun hn v g hg => ⟨hn v g hg, hc.wires_lt v g hg⟩⟩

/-- and a snapshot that cannot be restored has such a gate. -/
theorem Reachable.restore_eq_error (hc : Reachable Gate.SameWires c) {e : Error}
    (h : c.snapshot.restore = .error e) :
    ∃ v g w, c.gate? v = some g ∧ ¬ g.wires.Nodup ∧ e = .repeatedWire w g.name :=
  hc.linked.restore_eq_error hc.wires_lt h

/-- However an acyclic circuit came about, as long as its gates have kept their wires: its snapshot
can be restored at any time if and only if no gate has a wire twice, and a failure names such a
gate. What is given back is the same circuit: the renumbering takes its vertices to `0, 1, …`, one
to one, and under it the two circuits have the same gates, the same neighbours and the same links on
every wire; the gates come in the same order. -/
theorem restore_of_reachable (hc : Reachable Gate.SameWires c) (hac : c.Acyclic) :
    ((∃ names d, c.snapshot.restore = .ok (names, d)) ↔
        ∀ v g, c.gate? v = some g → g.wires.Nodup) ∧
      (∀ e, c.snapshot.restore = .error e →
        ∃ v g w, c.gate? v = some g ∧ ¬ g.wires.Nodup ∧ e = .repeatedWire w g.name) ∧
      ∀ names d, c.snapshot.restore = .ok (names, d) → Restores names c d := by
  exact ⟨hc.linked.exists_restore_iff.trans hc.fits_iff, fun _ => hc.restore_eq_error,
    fun _ _ hr => (hc.proper hac).restores hr⟩

/-- After a commutation, going back to a snapshot exchanges two names. -/
theorem restore_of_reachable_commuted :
    ∃ c d e, build 3 [.cnot [0] 1, .cnot [0] 2] = .ok c ∧ c.commute 0 1 = .ok d ∧
      d.snapshot.restore = .ok ([(1, 0), (0, 1)], e) ∧ Restores [(1, 0), (0, 1)] d e := by
  have hbuild : build 3 [.cnot [0] 1, .cnot [0] 2] = .ok (ofGates 3 [.cnot [0] 1, .cnot [0] 2]) :=
    rfl
  have hcommute : (ofGates 3 [.cnot [0] 1, .cnot [0] 2]).commute 0 1
      = .ok ((ofGates 3 [.cnot [0] 1, .cnot [0] 2]).swapped 0 1) := rfl
  have hreach : Reachable Gate.SameWires ((ofGates 3 [.cnot [0] 1, .cnot [0] 2]).swapped 0 1) :=
    .commute (.build hbuild) hcommute
  have hac := hreach.linked.isCyclic_eq_false_iff.1 (by cbv)
  have hrestore : ((ofGates 3 [.cnot [0] 1, .cnot [0] 2]).swapped 0 1).snapshot.restore
      = .ok ([(1, 0), (0, 1)], ofGates 3 [.cnot [0] 2, .cnot [0] 1]) := by cbv
  exact ⟨_, _, _, hbuild, hcommute, hrestore, (restore_of_reachable hreach hac).2.2 _ _ hrestore⟩

/-- A gate on one wire is overwritten by one that is controlled by the same wire. Its snapshot
cannot be restored, although the set of its wires is the same as before. -/
theorem restore_repeated_wire :
    ∃ c, Reachable Gate.SameWires c ∧ c.Acyclic ∧
      c.snapshot.restore = .error (.repeatedWire 0 "X") := by
  have hbuild : build 1 [⟨.named "X", 0, []⟩] = .ok (ofGates 1 [⟨.named "X", 0, []⟩]) := rfl
  have hreach : Reachable Gate.SameWires
      ((ofGates 1 [⟨.named "X", 0, []⟩]).modify 0 fun _ => ⟨.named "X", 0, [0]⟩) :=
    .overwrite (.build hbuild) rfl fun w => by simp [Gate.wires]
  exact ⟨_, hreach, hreach.linked.isCyclic_eq_false_iff.1 (by cbv), by cbv⟩

end Peephole.Circuit
