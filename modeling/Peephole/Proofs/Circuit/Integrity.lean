import Peephole.Proofs.Circuit.Inspection
import Peephole.Proofs.Circuit.Renaming
import Peephole.Proofs.Gate

/-!
# What an inspection vouches for

Along the order of a circuit an inspection finds, wire by wire, which gates follow each other, and
holds this against the edges. If it finds no flaw, the edges are those that the gates themselves
call for, whatever was written over them. If gates have kept their wires, each wire once, the only
flaw it can find is a cycle.

* `Traced`: what is known after walking along some vertices; `Traced.step` passes one more of them,
  and `Traced.walk` all the rest.
* `Linked.edge_iff_of_inspect`: the edges of a circuit in which no flaw was found.
* `Aligned.inspect_of_cyclic`, `Aligned.inspect_eq_ok_iff`: an inspection as a test for cycles.
-/

namespace Peephole

namespace Graph

variable {c : Graph}

/-- What a walk has found out when it has passed one wire of a vertex. -/
theorem walkWires_cons_eq_ok {v : VertexId} {gate : String} {k k' : Walk} {w : Wire}
    {ws : List Wire} (h : c.walkWires v gate k (w :: ws) = .ok k') :
    w.toNat < c.width ∧ (∀ p, k.last.lookup w = some p → p ∈ c.predecessors v) ∧
      ∃ pairs, c.walkWires v gate ⟨(w, v) :: k.last, pairs⟩ ws = .ok k' ∧
        ∀ q, q ∈ pairs ↔ q ∈ k.pairs ∨ ∃ p, k.last.lookup w = some p ∧ q = (p, v) := by
  rw [walkWires] at h
  split at h
  · cases h
  · rename_i hwidth
    refine ⟨Nat.not_le.1 hwidth, ?_⟩
    cases hlast : k.last.lookup w with
    | none =>
        rw [hlast] at h
        exact ⟨by simp, k.pairs, h, by simp⟩
    | some p =>
        simp only [hlast] at h
        split at h
        · rename_i hp
          refine ⟨?_, (p, v) :: k.pairs, h, by simp [or_comm]⟩
          rintro q ⟨⟩
          exact List.contains_iff_mem.1 hp
        · cases h

/-- What was done when no flaw was found. -/
theorem of_inspect_eq_ok (h : c.inspect = .ok ()) :
    ∃ k, c.walk {} c.order = .ok k ∧ c.ids.findSome? (c.skippingEdge? k.pairs) = none := by
  rw [inspect] at h
  split at h
  case h_1 => cases h
  case h_2 =>
    split at h
    · cases h
    · split at h
      case h_1 => cases h
      case h_2 k hk =>
        refine ⟨k, hk, ?_⟩
        split at h
        case h_1 => cases h
        case h_2 hskip => exact hskip

end Graph

namespace Circuit

variable {c : Circuit}

/-! ## One vertex -/

/-- What a walk has found out when it has passed all wires of a vertex: they differ from each other,
since no vertex comes before itself, and on each of them the vertex follows the last one there. -/
theorem Linked.of_walkWires_eq_ok (h : c.Linked) {v : VertexId} {gate : String} {k k' : Graph.Walk}
    {ws : List Wire} (hk : c.graph.walkWires v gate k ws = .ok k') :
    (ws.Nodup ∧ ∀ w ∈ ws, w.toNat < c.width) ∧
      (∀ w, k'.last.lookup w = if w ∈ ws then some v else k.last.lookup w) ∧
      (∀ q, q ∈ k'.pairs ↔ q ∈ k.pairs ∨ ∃ w ∈ ws, ∃ p, k.last.lookup w = some p ∧ q = (p, v)) ∧
      ∀ w ∈ ws, ∀ p, k.last.lookup w = some p → p ∈ c.predecessors v := by
  induction ws generalizing k with
  | nil =>
      obtain rfl := Except.ok.inj hk
      simp
  | cons w rest ih =>
      obtain ⟨hwidth, hpred, pairs, hrest, hpairs⟩ := Graph.walkWires_cons_eq_ok hk
      obtain ⟨⟨hnodup, hwidths⟩, hlast, hmem, hpreds⟩ := ih hrest
      have hself : v ∉ c.predecessors v := fun hv =>
        h.ne_of_edge (h.mem_successors_iff_mem_predecessors.2 hv) rfl
      have hw : w ∉ rest := fun hw => hself (hpreds w hw v (by simp))
      have hother : ∀ u ∈ rest, ((w, v) :: k.last).lookup u = k.last.lookup u := by
        intro u hu
        have hne : u ≠ w := fun he => hw (he ▸ hu)
        rw [List.lookup_cons, beq_eq_false_iff_ne.2 hne]
      refine ⟨⟨List.nodup_cons.2 ⟨hw, hnodup⟩, List.forall_mem_cons.2 ⟨hwidth, hwidths⟩⟩,
        fun u => ?_, fun q => ?_, List.forall_mem_cons.2 ⟨hpred, fun u hu p hp => ?_⟩⟩
      · rw [hlast u]
        by_cases hu : u = w
        · subst hu
          simp
        · simp [List.lookup_cons, hu, beq_eq_false_iff_ne.2 hu]
      · rw [hmem q, hpairs q, or_assoc, List.exists_mem_cons_iff]
        refine or_congr_right (or_congr_right ?_)
        exact exists_congr fun u => and_congr_right fun hu => by rw [hother u hu]
      · exact hpreds u hu p (by rw [hother u hu, hp])

/-! ## The walk along the wires -/

/-- What is known when a walk has passed some vertices. -/
structure Traced (c : Circuit) (A : List VertexId) (k : Graph.Walk) : Prop where
  /-- The last vertex on each wire. -/
  last : ∀ w, k.last.lookup w = (c.touching w A).getLast?
  /-- The pairs of vertices that follow each other on some wire. -/
  pairs : ∀ p v, (p, v) ∈ k.pairs ↔ ∃ w, Strand.prev? v (c.touching w A) = some p
  /-- Each of the pairs is an edge. -/
  edges : ∀ p v, (p, v) ∈ k.pairs → p ∈ c.predecessors v
  fits : ∀ v ∈ A, ∀ g, c.gate? v = some g → g.Fits c.width

section Concat

variable {A : List VertexId} {v : VertexId} {g : Gate} {w : Wire}

theorem touching_concat (hg : c.gate? v = some g) :
    c.touching w (A ++ [v]) = if w ∈ g.wires then c.touching w A ++ [v] else c.touching w A := by
  rw [touching, List.filter_append]
  by_cases hw : w ∈ g.wires
  · rw [if_pos hw, List.filter_cons_of_pos (holds_eq_true_iff.2 ⟨g, hg, ?_⟩), List.filter_nil]
    · rfl
    · exact Gate.touches_eq_true_iff.2 hw
  · rw [if_neg hw, List.filter_cons_of_neg, List.filter_nil, List.append_nil]
    · rfl
    · rw [holds_eq_true_iff]
      rintro ⟨k, hk, hkw⟩
      rw [hg] at hk
      exact hw (Gate.touches_eq_true_iff.1 (Option.some.inj hk ▸ hkw))

/-- On its own wires a further vertex follows the last one there, and nothing else changes. -/
theorem prev?_touching_concat (hg : c.gate? v = some g) (hv : v ∉ A) (x : VertexId) :
    Strand.prev? x (c.touching w (A ++ [v])) =
      if x = v then (if w ∈ g.wires then (c.touching w A).getLast? else none)
      else Strand.prev? x (c.touching w A) := by
  have hvw : v ∉ c.touching w A := fun hm => hv (mem_touching.1 hm).1
  rw [touching_concat hg]
  by_cases hw : w ∈ g.wires
  · rw [if_pos hw, if_pos hw, Strand.prev?_concat hvw]
  · rw [if_neg hw, if_neg hw]
    by_cases hx : x = v
    · rw [if_pos hx, hx, Strand.prev?_of_notMem hvw]
    · rw [if_neg hx]

end Concat

/-- One more vertex. -/
theorem Traced.step (h : c.Linked) {A : List VertexId} {k k' : Graph.Walk} {v : VertexId} {g : Gate}
    (hk : Traced c A k) (hv : v ∉ A) (hg : c.gate? v = some g)
    (hw : c.graph.walkWires v g.name k g.wires = .ok k') : Traced c (A ++ [v]) k' := by
  obtain ⟨hfits, hlast, hpairs, hpreds⟩ := h.of_walkWires_eq_ok hw
  refine ⟨fun w => ?_, fun p x => ?_, fun p x hpx => ?_, fun x hx l hl => ?_⟩
  · rw [hlast w, hk.last w, touching_concat hg]
    by_cases hwg : w ∈ g.wires
    · simp [hwg]
    · simp [hwg]
  · simp only [hpairs, hk.pairs, hk.last, prev?_touching_concat hg hv, Prod.mk.injEq]
    by_cases hx : x = v
    · -- the new vertex had no place on any wire before
      subst hx
      have hnone : ∀ w, Strand.prev? x (c.touching w A) = none := fun w =>
        Strand.prev?_of_notMem fun hm => hv (mem_touching.1 hm).1
      simp only [hnone, reduceCtorEq, exists_false, false_or, if_true, and_true,
        Option.ite_none_right_eq_some]
      refine exists_congr fun w => and_congr_right fun _ => ?_
      exact ⟨fun ⟨q, hq, he⟩ => he ▸ hq, fun hp => ⟨p, hp, rfl⟩⟩
    · simp [hx]
  · rcases (hpairs (p, x)).1 hpx with hpx | ⟨w, hwg, q, hq, he⟩
    · exact hk.edges p x hpx
    · obtain ⟨rfl, rfl⟩ := Prod.mk.inj he
      exact hpreds w hwg p hq
  · rcases List.mem_append.1 hx with hx | hx
    · exact hk.fits x hx l hl
    · rw [List.mem_singleton.1 hx, hg] at hl
      exact Option.some.inj hl ▸ hfits

/-- All the rest of the vertices. -/
theorem Traced.walk (h : c.Linked) {A B : List VertexId} {k k' : Graph.Walk} (hk : Traced c A k)
    (hnodup : (A ++ B).Nodup) (hlive : ∀ v ∈ B, v ∈ c.ids) (hw : c.graph.walk k B = .ok k') :
    Traced c (A ++ B) k' := by
  induction B generalizing A k with
  | nil =>
      obtain rfl := Except.ok.inj hw
      simpa using hk
  | cons v rest ih =>
      rw [List.forall_mem_cons] at hlive
      obtain ⟨g, hg⟩ := mem_ids.1 hlive.1
      rw [Graph.walk, gate?_graph, hg] at hw
      cases hstep : c.graph.walkWires v g.name k g.wires with
      | error e => simp [hstep] at hw
      | ok k₁ =>
          simp only [hstep] at hw
          have hk₁ := hk.step h (Strand.notMem_of_nodup_append hnodup).1 hg hstep
          simpa using ih hk₁ (by simpa using hnodup) hlive.2 hw

/-! ## No flaw found -/

/-- If no flaw was found, all gates fit the circuit, and its edges join the vertices that follow
each other among those that touch some wire. -/
theorem Linked.edge_iff_of_inspect (h : c.Linked) (hi : c.inspect = .ok ()) :
    c.Fits ∧ ∀ a b, c.Edge a b ↔ ∃ w, Strand.next? a (c.touching w c.order) = some b := by
  obtain ⟨k, hk, hskip⟩ := Graph.of_inspect_eq_ok hi
  have hnodup := h.order_nodup
  have hstart : Traced c [] {} := ⟨by simp [touching], by simp [touching, Strand.prev?],
    by simp, by simp⟩
  have htraced : Traced c c.order k :=
    hstart.walk h hnodup (fun v hv => h.order_perm.mem_iff.1 hv) hk
  have hedge : ∀ a b, c.Edge a b ↔ (a, b) ∈ k.pairs := by
    intro a b
    constructor
    · intro hab
      rw [List.findSome?_eq_none_iff] at hskip
      have ha := hskip a (h.live_of_mem_successors hab).1
      rw [Graph.skippingEdge?, Option.map_eq_none_iff, List.find?_eq_none] at ha
      simpa using ha b hab
    · intro hab
      exact h.mem_successors_iff_mem_predecessors.2 (htraced.edges a b hab)
  refine ⟨fun v g hg => ?_, fun a b => ?_⟩
  · exact htraced.fits v (h.order_perm.mem_iff.2 (mem_ids_of_gate? hg)) g hg
  · rw [hedge, htraced.pairs]
    exact exists_congr fun w => (Strand.next?_eq_some_iff_prev? (hnodup.filter _)).symm

/-- If an inspection finds no flaw in a circuit, however it came about and whatever was written over
its gates, then a circuit can be built from its gates in order, and it has the same edges, with
every vertex named by its position in the order. -/
theorem build_of_inspect (hc : Reachable (fun _ _ => True) c) (hi : c.inspect = .ok ()) :
    ∃ d, build c.width c.gatesInOrder = .ok d ∧ Renamed c.position c d := by
  obtain ⟨hfits, hedge⟩ := hc.linked.edge_iff_of_inspect hi
  refine ⟨c.rebuilt, build_eq_ok_iff.2 ⟨fun g hg => ?_, rfl⟩, hc.linked.renamed_rebuilt hedge⟩
  obtain ⟨v, hv⟩ := hc.linked.mem_gatesInOrder.1 hg
  exact hfits v g hv

/-- Two controlled nots are overwritten by gates on one wire each. The vertices stay on the strand
of the other wire, but the inspection finds no flaw, and the edges are right. -/
theorem build_of_inspect_overwritten :
    ∃ c d, Reachable (fun _ _ => True) c ∧ c.strand 1 = [0, 1] ∧ c.inspect = .ok () ∧
      c.gatesInOrder = [.hadamard 0, .phase 0] ∧ build 2 [.hadamard 0, .phase 0] = .ok d ∧
      Renamed c.position c d := by
  have hbuild : build 2 [.cnot [0] 1, .cnot [0] 1] = .ok (ofGates 2 [.cnot [0] 1, .cnot [0] 1]) :=
    rfl
  have hreach : Reachable (fun _ _ => True) (((ofGates 2 [.cnot [0] 1, .cnot [0] 1]).modify 0
      fun _ => .hadamard 0).modify 1 fun _ => .phase 0) :=
    .modify (.modify (.build hbuild) fun _ _ => trivial) fun _ _ => trivial
  have hinspect : (((ofGates 2 [.cnot [0] 1, .cnot [0] 1]).modify 0 fun _ => .hadamard 0).modify 1
      fun _ => .phase 0).inspect = .ok () := by cbv
  have hgates : (((ofGates 2 [.cnot [0] 1, .cnot [0] 1]).modify 0 fun _ => .hadamard 0).modify 1
      fun _ => .phase 0).gatesInOrder = [.hadamard 0, .phase 0] := by cbv
  obtain ⟨d, hd, hrenamed⟩ := build_of_inspect hreach hinspect
  rw [hgates] at hd
  exact ⟨_, d, hreach, rfl, hinspect, hgates, hd, hrenamed⟩

/-! ## A test for cycles -/

/-- Where gates sit on the strands of their wires, an inspection of a circuit with a cycle says
so. -/
theorem Aligned.inspect_of_cyclic (h : c.Linked) (ha : c.Aligned) (hcyclic : ¬ c.Acyclic) :
    c.inspect = .error (.unsound .cyclic) := by
  rw [← h.isCyclic_eq_false_iff, Bool.not_eq_false] at hcyclic
  rw [inspect, Graph.inspect, gates_graph, ha.findSome?_edgeDefect?_eq_none h]
  simp only [hcyclic, if_true]

theorem Aligned.inspect_eq_ok_iff (h : c.Linked) (ha : c.Aligned) (hf : c.Fits) :
    c.inspect = .ok () ↔ c.Acyclic := by
  constructor
  · intro hi
    by_contra hcyclic
    rw [ha.inspect_of_cyclic h hcyclic] at hi
    cases hi
  · exact fun hac => Sound.inspect_eq_ok ⟨⟨h, ha, hac⟩, hf⟩

/-- As long as a gate is only overwritten by one with the same wires, each of them once, all gates
fit. -/
theorem Reachable.fits (hc : Reachable (fun g h => g.SameWires h ∧ h.wires.Nodup) c) : c.Fits := by
  refine hc.forall_gate (Q := fun n g => g.Fits n) (fun n g hg => hg) ?_
  intro n g k hg hgk
  exact ⟨hgk.2, fun w hw => hg.2 w ((hgk.1 w).2 hw)⟩

end Circuit

end Peephole
