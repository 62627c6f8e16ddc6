import Mathlib.Data.FinEnum
import Mathlib.Logic.Equiv.Fintype
import Peephole.Circuit.Neighbours
import Peephole.Proofs.Circuit.Rewrite

/-!
# The same circuit on other wires

Nothing about a circuit depends on which wires its gates are on, as long as different wires stay
different. A rewiring gives every wire another one; it changes the wires of the gates and the keys
of the strands, and nothing else. So the neighbours of a vertex, the orders of a circuit and its
depth stay what they are, and every operation does the same before and after a rewiring.

* `Gate.mapWires` and `Circuit.rewire`: gates and circuits on other wires.
* `Circuit.applyAll_rewire`: edits.
* `Circuit.build_rewire`, `Snapshot.restore_rewire`: what can be built can be built on other wires.
* `Rewiring.exists_extending`: a map that keeps the wires below a number apart is a rewiring there.
-/

namespace Peephole

/-! ## Rewirings -/

/-- Other wires, with room for them: a circuit that has a wire gets a width that holds its image. -/
structure Rewiring where
  wire : Wire → Wire
  injective : Function.Injective wire
  width : Nat → Nat
  wire_lt : ∀ w n, w.toNat < n → (wire w).toNat < width n

namespace Rewiring

/-- A map that tells the wires below `n` apart and has values below `m` there is part of a
rewiring. The other wires are sent to what is left. -/
theorem exists_extending {n m : Nat} {f : Wire → Wire} (hinj : Set.InjOn f {w | w.toNat < n})
    (hf : ∀ w : Wire, w.toNat < n → (f w).toNat < m) :
    ∃ ρ : Rewiring, ρ.width n = m ∧ ∀ w : Wire, w.toNat < n → ρ.wire w = f w := by
  classical
  let e : Equiv.Perm Wire := (Equiv.Set.imageOfInjOn f {w | w.toNat < n} hinj).extendSubtype
  have he : ∀ w : Wire, w.toNat < n → e w = f w := fun w hw =>
    Equiv.extendSubtype_apply_of_mem _ w hw
  refine ⟨⟨e, e.injective, fun k => if k = n then m else UInt32.size, fun w k hw => ?_⟩,
    if_pos rfl, he⟩
  by_cases hk : k = n
  · rw [if_pos hk, he w (hk ▸ hw)]
    exact hf w (hk ▸ hw)
  · rw [if_neg hk]
    exact (e w).toNat_lt_size

variable (ρ : Rewiring)

@[simp]
theorem wire_inj {v w : Wire} : ρ.wire v = ρ.wire w ↔ v = w := ρ.injective.eq_iff

@[simp]
theorem wire_beq (v w : Wire) : (ρ.wire v == ρ.wire w) = (v == w) := by
  rw [Bool.eq_iff_iff, beq_iff_eq, beq_iff_eq, ρ.wire_inj]

@[simp]
theorem map_wire_beq (l r : List Wire) : (l.map ρ.wire == r.map ρ.wire) = (l == r) := by
  rw [Bool.eq_iff_iff, beq_iff_eq, beq_iff_eq, ρ.injective.list_map.eq_iff]

@[simp]
theorem map_wire_beq_singleton (l : List Wire) (w : Wire) :
    (l.map ρ.wire == [ρ.wire w]) = (l == [w]) :=
  ρ.map_wire_beq l [w]

@[simp]
theorem contains_map_wire (l : List Wire) (w : Wire) :
    (l.map ρ.wire).contains (ρ.wire w) = l.contains w := by
  rw [Bool.eq_iff_iff, List.contains_iff_mem, List.contains_iff_mem,
    List.mem_map_of_injective ρ.injective]

/-- Wires that are told apart are repeated where they were. -/
theorem eraseDups_map_wire (l : List Wire) :
    (l.map ρ.wire).eraseDups = l.eraseDups.map ρ.wire := by
  -- duplicates are dropped by filtering the rest, so the recursion is on the length
  induction hn : l.length using Nat.strong_induction_on generalizing l with
  | _ n ih =>
      cases l with
      | nil => rfl
      | cons w rest =>
          have hfilter : (rest.map ρ.wire).filter (fun v => !v == ρ.wire w)
              = (rest.filter fun v => !v == w).map ρ.wire := by
            rw [List.filter_map]
            simp [Function.comp_def]
          have hlt : (rest.filter fun v => !v == w).length < n := by
            have := List.length_filter_le (fun v => !v == w) rest
            simp only [List.length_cons] at hn
            omega
          rw [List.map_cons, List.eraseDups_cons, hfilter, ih _ hlt _ rfl, List.eraseDups_cons,
            List.map_cons]

end Rewiring

/-! ## Gates -/

namespace Gate

/-- The gate with its wires replaced. -/
def mapWires (f : Wire → Wire) (g : Gate) : Gate := ⟨g.kind, f g.target, g.controls.map f⟩

section

variable (f : Wire → Wire) (g : Gate)

@[simp]
theorem kind_mapWires : (g.mapWires f).kind = g.kind := rfl

@[simp]
theorem family_mapWires : (g.mapWires f).family = g.family := rfl

@[simp]
theorem target_mapWires : (g.mapWires f).target = f g.target := rfl

@[simp]
theorem controls_mapWires : (g.mapWires f).controls = g.controls.map f := rfl

@[simp]
theorem isCnot_mapWires : (g.mapWires f).isCnot = g.isCnot := rfl

@[simp]
theorem wires_mapWires : (g.mapWires f).wires = g.wires.map f := by
  simp [wires]

theorem turn_mapWires (θ : Angle) : (g.mapWires f).turn θ = (g.turn θ).mapWires f := by
  obtain ⟨kind, target, controls⟩ := g
  cases kind <;> rfl

theorem mapWires_congr {f f' : Wire → Wire} {g : Gate} (h : ∀ w ∈ g.wires, f w = f' w) :
    g.mapWires f = g.mapWires f' := by
  have hcontrols : g.controls.map f = g.controls.map f' :=
    List.map_congr_left fun w hw => h w (by simp [wires, hw])
  rw [mapWires, mapWires, h g.target (by simp [wires]), hcontrols]

end

variable (ρ : Rewiring) (g h : Gate)

@[simp]
theorem touches_mapWires (w : Wire) : (g.mapWires ρ.wire).touches (ρ.wire w) = g.touches w := by
  simp only [touches, target_mapWires, controls_mapWires, ρ.wire_beq, ρ.contains_map_wire]

@[simp]
theorem isSingle_mapWires (f : Family) (w : Wire) :
    (g.mapWires ρ.wire).isSingle f (ρ.wire w) = g.isSingle f w := by
  show (decide (g.family = f) && ρ.wire g.target == ρ.wire w && (g.controls.map ρ.wire).isEmpty) = _
  rw [ρ.wire_beq, List.isEmpty_map]
  rfl

@[simp]
theorem mapWires_beq : (g.mapWires ρ.wire == h.mapWires ρ.wire) = (g == h) := by
  show (g.kind == h.kind && (ρ.wire g.target == ρ.wire h.target &&
    g.controls.map ρ.wire == h.controls.map ρ.wire)) = _
  rw [ρ.wire_beq, ρ.map_wire_beq]
  rfl

variable {g} in
theorem Fits.mapWires {n : Nat} (hg : g.Fits n) : (g.mapWires ρ.wire).Fits (ρ.width n) := by
  rw [Fits, wires_mapWires]
  refine ⟨hg.1.map ρ.injective, fun w hw => ?_⟩
  obtain ⟨v, hv, rfl⟩ := List.mem_map.1 hw
  exact ρ.wire_lt v n (hg.2 v hv)

end Gate

/-! ## Circuits -/

namespace Circuit

/-- The circuit on other wires. -/
def rewire (ρ : Rewiring) (c : Circuit) : Circuit where
  width := ρ.width c.width
  gates := c.gates.map fun p => (p.1, p.2.mapWires ρ.wire)
  strands := c.strands.map fun s => (ρ.wire s.1, s.2)
  nodup := by
    intro s hs
    obtain ⟨t, ht, rfl⟩ := List.mem_map.1 hs
    exact c.nodup t ht

variable (ρ : Rewiring) (c : Circuit)

@[simp]
theorem ids_rewire : (c.rewire ρ).ids = c.ids := by
  simp [ids, rewire, Function.comp_def]

@[simp]
theorem size_rewire : (c.rewire ρ).size = c.size := by
  simp [size, rewire]

@[simp]
theorem gate?_rewire (v : VertexId) :
    (c.rewire ρ).gate? v = (c.gate? v).map (Gate.mapWires ρ.wire) :=
  lookup_mapped _ _ _

@[simp]
theorem gateOf_rewire (v : VertexId) :
    (c.rewire ρ).gateOf v = Gate.mapWires ρ.wire <$> c.gateOf v := by
  rw [gateOf, gate?_rewire, gateOf]
  cases c.gate? v <;> rfl

@[simp]
theorem contains_rewire (v : VertexId) : (c.rewire ρ).contains v = c.contains v := by
  simp [contains]

@[simp]
theorem idsNamed_rewire (name : String) : (c.rewire ρ).idsNamed name = c.idsNamed name := by
  simp only [idsNamed, rewire, List.filter_map, List.map_map]
  rfl

/-! ### Neighbours -/

@[simp]
theorem successors_rewire : (c.rewire ρ).successors = c.successors := by
  funext v
  simp [successors, rewire, List.filterMap_map]

@[simp]
theorem predecessors_rewire : (c.rewire ρ).predecessors = c.predecessors := by
  funext v
  simp [predecessors, rewire, List.filterMap_map]

@[simp]
theorem forwardPairs_rewire (v : VertexId) : (c.rewire ρ).forwardPairs v = c.forwardPairs v := by
  simp [forwardPairs]

@[simp]
theorem onlySuccessor?_rewire (v : VertexId) :
    (c.rewire ρ).onlySuccessor? v = c.onlySuccessor? v := by
  simp [onlySuccessor?]

@[simp]
theorem hasDetour_rewire (start via goal : VertexId) :
    (c.rewire ρ).hasDetour start via goal = c.hasDetour start via goal := by
  simp [hasDetour]

/-- A test of a gate on other wires is another test of the gate. -/
theorem holds_rewire (p : Gate → Bool) :
    (c.rewire ρ).holds p = c.holds fun g => p (g.mapWires ρ.wire) := by
  funext v
  rw [holds, holds, gate?_rewire]
  cases c.gate? v <;> rfl

theorem successorWhere?_rewire (v : VertexId) (p : Gate → Bool) :
    (c.rewire ρ).successorWhere? v p
      = c.successorWhere? v fun g => p (g.mapWires ρ.wire) := by
  rw [successorWhere?, successors_rewire, holds_rewire, successorWhere?]

theorem predecessorWhere?_rewire (v : VertexId) (p : Gate → Bool) :
    (c.rewire ρ).predecessorWhere? v p
      = c.predecessorWhere? v fun g => p (g.mapWires ρ.wire) := by
  rw [predecessorWhere?, predecessors_rewire, holds_rewire, predecessorWhere?]

/-! ### Orders -/

@[simp]
theorem order_rewire : (c.rewire ρ).order = c.order := by
  simp [order_eq]

theorem gatesInOrder_rewire :
    (c.rewire ρ).gatesInOrder = c.gatesInOrder.map (Gate.mapWires ρ.wire) := by
  simp [gatesInOrder_eq, List.map_filterMap]

theorem misplaced?_rewire (before vs : List VertexId) :
    (c.rewire ρ).graph.misplaced? before vs = c.graph.misplaced? before vs := by
  induction vs generalizing before with
  | nil => rfl
  | cons v rest ih => simp only [Graph.misplaced?, predecessors_graph, predecessors_rewire, ih]

@[simp]
theorem depth_rewire : (c.rewire ρ).depth = c.depth := by
  simp [depth, Graph.depth, Graph.schedule, misplaced?_rewire, Graph.chainLengths,
    Graph.chainLength]

/-! ### Edits -/

theorem modify_rewire (v : VertexId) {f f' : Gate → Gate}
    (h : ∀ g, f' (g.mapWires ρ.wire) = (f g).mapWires ρ.wire) :
    (c.rewire ρ).modify v f' = (c.modify v f).rewire ρ := by
  simp only [modify, rewire, List.map_map, mk.injEq, true_and, and_true]
  refine List.map_congr_left fun p _ => ?_
  by_cases hp : p.1 = v
  · simp [hp, h]
  · simp [hp]

/-- The edit on other wires. -/
def Edit.rewire (ρ : Rewiring) : Edit → Edit
  | .setWires v target controls => .setWires v (ρ.wire target) (controls.map ρ.wire)
  | e => e

theorem without_rewire (v : VertexId) : (c.rewire ρ).without v = (c.without v).rewire ρ := by
  simp [rewire, without, List.filter_map, Function.comp_def]

theorem remove_rewire (v : VertexId) :
    ((c.rewire ρ).remove v).map (·.2) = ((c.remove v).map (·.2)).map (rewire ρ) := by
  simp only [remove, gate?_rewire]
  cases c.gate? v with
  | none => rfl
  | some g => exact congrArg _ (without_rewire ρ c v)

theorem swapped_rewire (a b : VertexId) :
    (c.rewire ρ).swapped a b = (c.swapped a b).rewire ρ := by
  simp [rewire, swapped, Function.comp_def]

theorem commute_rewire (a b : VertexId) :
    (c.rewire ρ).commute a b = (c.commute a b).map (rewire ρ) := by
  simp only [commute, contains_rewire, successors_rewire]
  have hall : (c.rewire ρ).strands.all (fun s => adjacentOn a b s.2)
      = c.strands.all fun s => adjacentOn a b s.2 := by
    simp [rewire, List.all_map, Function.comp_def]
  rw [hall]
  split
  · rfl
  · split
    · rfl
    · split
      · rfl
      · split
        · exact congrArg _ (swapped_rewire ρ c a b)
        · rfl

theorem Edit.apply_rewire (e : Edit) :
    (e.rewire ρ).apply (c.rewire ρ) = (e.apply c).map (Circuit.rewire ρ) := by
  cases e with
  | remove v => exact remove_rewire ρ c v
  | commute a b => exact commute_rewire ρ c a b
  | setKind v kind =>
      simp only [rewire, apply, contains_rewire]
      split
      · exact congrArg _ (modify_rewire ρ c v fun _ => rfl)
      · rfl
  | setWires v target controls =>
      simp only [rewire, apply, contains_rewire]
      split
      · exact congrArg _ (modify_rewire ρ c v fun _ => rfl)
      · rfl
  | turn v θ => exact congrArg _ (modify_rewire ρ c v fun g => g.turn_mapWires _ θ)

/-- Edits do the same on other wires, and are refused for the same reason. -/
theorem applyAll_rewire (es : List Edit) :
    (c.rewire ρ).applyAll (es.map (Edit.rewire ρ))
      = ((c.applyAll es).1.rewire ρ, (c.applyAll es).2) := by
  induction es generalizing c with
  | nil => rfl
  | cons e rest ih =>
      rw [List.map_cons, applyAll, applyAll, Edit.apply_rewire]
      cases e.apply c with
      | ok d => exact ih d
      | error err => rfl

/-! ### Building -/

theorem positionsOn_mapWires (w : Wire) (gs : List Gate) :
    positionsOn (ρ.wire w) (gs.map (Gate.mapWires ρ.wire)) = positionsOn w gs := by
  simp [positionsOn, List.zipIdx_map, List.filter_map, Function.comp_def]

theorem ofGates_rewire (n : Nat) (gs : List Gate) :
    ofGates (ρ.width n) (gs.map (Gate.mapWires ρ.wire)) = (ofGates n gs).rewire ρ := by
  have hwires : ((gs.map (Gate.mapWires ρ.wire)).flatMap Gate.wires).eraseDups
      = (gs.flatMap Gate.wires).eraseDups.map ρ.wire := by
    rw [← ρ.eraseDups_map_wire, List.map_flatMap, List.flatMap_map]
    simp
  simp only [ofGates, rewire, mk.injEq, hwires, true_and]
  simp [List.zipIdx_map, positionsOn_mapWires, Function.comp_def]

/-- What can be built can be built on other wires. -/
theorem build_rewire {n : Nat} {gs : List Gate} {c : Circuit} (h : build n gs = .ok c) :
    build (ρ.width n) (gs.map (Gate.mapWires ρ.wire)) = .ok (c.rewire ρ) := by
  obtain ⟨hfits, rfl⟩ := build_eq_ok_iff.1 h
  refine build_eq_ok_iff.2 ⟨fun g hg => ?_, (ofGates_rewire ρ n gs).symm⟩
  obtain ⟨k, hk, rfl⟩ := List.mem_map.1 hg
  exact (hfits k hk).mapWires ρ

end Circuit

/-! ## Snapshots -/

namespace Snapshot

/-- The snapshot on other wires. -/
def rewire (ρ : Rewiring) (s : Snapshot) : Snapshot where
  width := ρ.width s.width
  entries := s.entries.map fun p => (p.1, p.2.mapWires ρ.wire)

theorem snapshot_rewire (ρ : Rewiring) (c : Circuit) :
    (c.rewire ρ).snapshot = c.snapshot.rewire ρ := by
  simp only [Circuit.snapshot_eq, rewire, Circuit.gate?_rewire, Circuit.order_rewire,
    List.map_filterMap, Option.map_map]
  rfl

theorem renumbering_rewire (ρ : Rewiring) (s : Snapshot) :
    (s.rewire ρ).renumbering = s.renumbering := by
  simp [renumbering, rewire, List.zipIdx_map, Function.comp_def]

/-- What can be restored can be restored on other wires, under the same names. -/
theorem restore_rewire (ρ : Rewiring) {s : Snapshot} {names : Renumbering} {c : Circuit}
    (h : s.restore = .ok (names, c)) : (s.rewire ρ).restore = .ok (names, c.rewire ρ) := by
  cases hbuild : Circuit.build s.width s.gates with
  | error e =>
      rw [restore, hbuild] at h
      cases h
  | ok d =>
      rw [restore, hbuild] at h
      cases h
      have hgates : (s.rewire ρ).gates = s.gates.map (Gate.mapWires ρ.wire) := by
        simp [gates, rewire, Function.comp_def]
      rw [restore, hgates, renumbering_rewire]
      show (Circuit.build (ρ.width s.width) _).map _ = _
      rw [Circuit.build_rewire ρ hbuild]
      rfl

end Snapshot

end Peephole
