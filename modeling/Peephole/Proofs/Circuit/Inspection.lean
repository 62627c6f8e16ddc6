import Peephole.Circuit.Inspection
import Peephole.Proofs.Circuit.Rewrite

/-!
# What an inspection finds

The edges of a circuit are read off its strands, so that they go both ways whatever was written
over the gates; what an inspection can still find there are gates that no longer share a wire. If
all gates sit on the strands of their wires and fit the circuit, a cycle is the only flaw left.

* `Linked.eq_disjointEdge`: the only flaw of an edge.
* `Linked.misplaced?_schedule_eq_none_iff`: the test for cycles is exact;
  `Linked.transGen_of_misplaced?`: it names a vertex on a cycle.
* `Linked.inspect_eq_unsound`: an inspection never finds fault with the links.
* `Follows`: what is known after walking along some vertices; `Proper.walk_eq_ok`: the walk along
  all of them finds every edge.
-/

namespace Peephole

namespace Graph

open Circuit (Error)

variable {c : Graph}

/-! ## Orders that put a vertex too late -/

theorem misplaced?_eq_none_iff {before L : List VertexId} :
    c.misplaced? before L = none ↔
      ∀ A v B, L = A ++ v :: B → ∀ p ∈ c.predecessors v, p = v ∨ p ∈ A ∨ p ∈ before := by
  induction L generalizing before with
  | nil => simp [misplaced?]
  | cons x rest ih =>
      rw [misplaced?]
      cases hx : ((c.predecessors x).filter fun p => !(x :: before).contains p).getLast? with
      | some p =>
          have hp := List.mem_filter.1 (List.mem_of_getLast? hx)
          simp only [reduceCtorEq, false_iff]
          intro hall
          have := hall [] x rest rfl p hp.1
          simp only [Bool.not_eq_true', List.contains_eq_mem, decide_eq_false_iff_not,
            List.mem_cons, not_or] at hp
          simp only [List.not_mem_nil, false_or] at this
          tauto
      | none =>
          have hhead : ∀ p ∈ c.predecessors x, p = x ∨ p ∈ before := by
            intro p hp
            by_contra hne
            have hmem : p ∈ (c.predecessors x).filter fun p => !(x :: before).contains p := by
              simpa [List.mem_filter, hp, not_or] using hne
            rw [List.getLast?_eq_none_iff] at hx
            rw [hx] at hmem
            cases hmem
          rw [ih]
          constructor
          · intro hall A v B he p hp
            rcases List.cons_eq_append_iff.1 he with ⟨rfl, he⟩ | ⟨A', rfl, rfl⟩
            · obtain ⟨rfl, rfl⟩ := List.cons.inj he
              have := hhead p hp
              tauto
            · have := hall A' v B rfl p hp
              simp only [List.mem_cons] at this ⊢
              tauto
          · intro hall A v B he p hp
            have := hall (x :: A) v B (by rw [he]; rfl) p hp
            simp only [List.mem_cons] at this ⊢
            tauto

/-- What is found to come too late follows a vertex that it leads to. -/
theorem misplaced?_eq_some {before L : List VertexId} {p : VertexId}
    (h : c.misplaced? before L = some p) :
    ∃ A v B, L = A ++ v :: B ∧ p ∈ c.predecessors v ∧ p ≠ v ∧ p ∉ A ∧ p ∉ before := by
  induction L generalizing before with
  | nil => cases h
  | cons x rest ih =>
      rw [misplaced?] at h
      split at h
      · rename_i q hq
        obtain rfl := Option.some.inj h
        obtain ⟨hp, hnot⟩ := List.mem_filter.1 (List.mem_of_getLast? hq)
        simp only [Bool.not_eq_true', List.contains_eq_mem, decide_eq_false_iff_not, List.mem_cons,
          not_or] at hnot
        exact ⟨[], x, rest, rfl, hp, hnot.1, List.not_mem_nil, hnot.2⟩
      · obtain ⟨A, v, B, rfl, hp, hne, hA, hbefore⟩ := ih h
        rw [List.mem_cons, not_or] at hbefore
        refine ⟨x :: A, v, B, rfl, hp, hne, ?_, hbefore.2⟩
        rw [List.mem_cons, not_or]
        exact ⟨hbefore.1, hA⟩

/-! ## What can be reported -/

/-- What a walk can report. -/
theorem walkWires_eq_error {v : VertexId} {gate : String} {k : Walk} {ws : List Wire} {e : Error}
    (h : c.walkWires v gate k ws = .error e) :
    (∃ w, e = .wireOutOfRange w c.width gate) ∨ ∃ w p, e = .unsound (.brokenWire w p v) := by
  fun_induction walkWires c v gate k ws with
  | case1 k => cases h
  | case2 k w rest hw => exact Or.inl ⟨w, (Except.error.inj h).symm⟩
  | case3 k w rest hw hlast ih => exact ih h
  | case4 k w rest hw p hlast hp ih => exact ih h
  | case5 k w rest hw p hlast hp => exact Or.inr ⟨w, p, (Except.error.inj h).symm⟩

theorem walk_eq_error {k : Walk} {vs : List VertexId} {e : Error} (h : c.walk k vs = .error e) :
    (∃ w gate, e = .wireOutOfRange w c.width gate) ∨ ∃ w p v, e = .unsound (.brokenWire w p v) := by
  fun_induction walk c k vs with
  | case1 k => cases h
  | case2 k v rest hg ih => exact ih h
  | case3 k v rest g hg k' hk' ih => exact ih h
  | case4 k v rest g hg e' he' =>
      obtain rfl := Except.error.inj h
      rcases walkWires_eq_error he' with ⟨w, rfl⟩ | ⟨w, p, rfl⟩
      · exact Or.inl ⟨w, g.name, rfl⟩
      · exact Or.inr ⟨w, p, v, rfl⟩

/-- What an inspection can report, in the order in which it looks. -/
theorem inspect_eq_error {e : Error} (h : c.inspect = .error e) :
    (∃ p ∈ c.gates, ∃ d, c.edgeDefect? p = some d ∧ e = .unsound d) ∨
      e = .unsound .cyclic ∨
      (∃ w gate, e = .wireOutOfRange w c.width gate) ∨
      (∃ w p v, e = .unsound (.brokenWire w p v)) ∨
      ∃ v s, e = .unsound (.skippingEdge v s) := by
  rw [inspect] at h
  split at h
  case h_1 d hd =>
    obtain ⟨p, hp, hd⟩ := List.exists_of_findSome?_eq_some hd
    exact Or.inl ⟨p, hp, d, hd, (Except.error.inj h).symm⟩
  case h_2 =>
    split at h
    · exact Or.inr (Or.inl (Except.error.inj h).symm)
    · split at h
      case h_1 e' he' =>
        obtain rfl := Except.error.inj h
        rcases walk_eq_error he' with hr | hb
        · exact Or.inr (Or.inr (Or.inl hr))
        · exact Or.inr (Or.inr (Or.inr (Or.inl hb)))
      case h_2 k hk =>
        split at h
        case h_1 d hd =>
          obtain ⟨v, -, hd⟩ := List.exists_of_findSome?_eq_some hd
          obtain ⟨s, -, rfl⟩ := Option.map_eq_some_iff.1 hd
          exact Or.inr (Or.inr (Or.inr (Or.inr ⟨v, s, (Except.error.inj h).symm⟩)))
        case h_2 => cases h

end Graph

namespace Circuit

open Relation (TransGen)

variable {c : Circuit}

/-! ## Edges -/

theorem Linked.eq_disjointEdge_of_successor (h : c.Linked) {v s : VertexId} {g : Gate} {d : Defect}
    (hs : s ∈ c.successors v) (hd : c.graph.successorDefect? v g s = some d) :
    d = .disjointEdge v s ∧ ∃ k, c.gate? s = some k ∧ g.sharesWire k = false := by
  obtain ⟨k, hk⟩ := mem_ids.1 (h.live_of_mem_successors hs).2
  have hp : (c.predecessors s).contains v = true :=
    List.contains_iff_mem.2 (h.mem_successors_iff_mem_predecessors.1 hs)
  rw [Graph.successorDefect?, gate?_graph, predecessors_graph, hk] at hd
  simp only [hp, Bool.not_true, Bool.false_eq_true, if_false, Option.ite_none_right_eq_some,
    Bool.not_eq_true'] at hd
  exact ⟨(Option.some.inj hd.2).symm, k, hk, hd.1⟩

theorem Linked.predecessorDefect?_eq_none (h : c.Linked) {v p : VertexId}
    (hp : p ∈ c.predecessors v) : c.graph.predecessorDefect? v p = none := by
  have hs := h.mem_successors_iff_mem_predecessors.2 hp
  have hlive := (h.live_of_mem_successors hs).1
  rw [Graph.predecessorDefect?, contains_graph, successors_graph, contains_eq_true_iff.2 hlive,
    List.contains_iff_mem.2 hs]
  rfl

/-- The only flaw of an edge is that the gates at its ends share no wire. -/
theorem Linked.eq_disjointEdge (h : c.Linked) {v : VertexId} {g : Gate} {d : Defect}
    (hd : c.graph.edgeDefect? (v, g) = some d) :
    ∃ s ∈ c.successors v, d = .disjointEdge v s ∧ ∃ k, c.gate? s = some k ∧
      g.sharesWire k = false := by
  rw [Graph.edgeDefect?, Option.or_eq_some_iff] at hd
  rcases hd with hd | ⟨-, hd⟩
  · obtain ⟨s, hs, hd⟩ := List.exists_of_findSome?_eq_some hd
    exact ⟨s, hs, h.eq_disjointEdge_of_successor hs hd⟩
  · obtain ⟨p, hp, hd⟩ := List.exists_of_findSome?_eq_some hd
    rw [h.predecessorDefect?_eq_none hp] at hd
    cases hd

/-- Gates on the strands of their wires share the wire of each edge between them. -/
theorem Aligned.sharesWire (h : c.Linked) (ha : c.Aligned) {v s : VertexId} {g k : Gate}
    (hg : c.gate? v = some g) (hk : c.gate? s = some k) (hs : s ∈ c.successors v) :
    g.sharesWire k = true := by
  obtain ⟨w, hw⟩ := h.mem_successors_iff.1 hs
  obtain ⟨hv, hs⟩ := mem_of_next? hw
  rw [Gate.sharesWire, List.any_eq_true]
  exact ⟨w, (ha v g hg w).1 hv, Gate.touches_eq_true_iff.2 ((ha s k hk w).1 hs)⟩

theorem Aligned.edgeDefect?_eq_none (h : c.Linked) (ha : c.Aligned) {v : VertexId} {g : Gate}
    (hg : c.gate? v = some g) : c.graph.edgeDefect? (v, g) = none := by
  cases hd : c.graph.edgeDefect? (v, g) with
  | none => rfl
  | some d =>
      obtain ⟨s, hs, -, k, hk, hshare⟩ := h.eq_disjointEdge hd
      rw [ha.sharesWire h hg hk hs] at hshare
      cases hshare

/-- Gates on the strands of their wires leave no flaw in any edge. -/
theorem Aligned.findSome?_edgeDefect?_eq_none (h : c.Linked) (ha : c.Aligned) :
    c.gates.findSome? c.graph.edgeDefect? = none := by
  rw [List.findSome?_eq_none_iff]
  intro p hp
  exact ha.edgeDefect?_eq_none h (gate?_of_mem h.ids_nodup hp)

/-! ## Cycles -/

/-- The schedule puts no vertex too late exactly when there is no cycle. -/
theorem Linked.misplaced?_schedule_eq_none_iff (h : c.Linked) :
    c.graph.misplaced? [] c.graph.schedule = none ↔ c.Acyclic := by
  rw [Graph.misplaced?_eq_none_iff]
  constructor
  · intro hall
    have hperm : c.graph.schedule.Perm c.ids := h.perm_lastLeftFirst fun _ hv => hv
    refine (h.linear_of_edges hperm fun a b hab => ?_).acyclic h
    obtain ⟨ha, hb⟩ := h.live_of_mem_successors hab
    obtain ⟨A, B, he⟩ := List.append_of_mem (hperm.mem_iff.2 hb)
    have hnd : (A ++ b :: B).Nodup := he ▸ hperm.nodup_iff.2 h.ids_nodup
    have hp := hall A b B he a (h.mem_successors_iff_mem_predecessors.1 hab)
    simp only [List.not_mem_nil, or_false] at hp
    rw [he, Strand.pair_sublist_append_iff hnd]
    exact hp.resolve_left (h.ne_of_edge hab)
  · intro hac A v B he p hp
    have hL : c.Linear c.graph.schedule :=
      h.linear_lastLeftFirst hac (fun _ _ => List.mem_reverse) fun _ hv => hv
    have hnd : (A ++ v :: B).Nodup := he ▸ hL.nodup h
    have hpv := hL.pair_sublist_of_transGen h
      (.single (h.mem_successors_iff_mem_predecessors.2 hp))
    rw [he, Strand.pair_sublist_append_iff hnd] at hpv
    exact Or.inr (Or.inl hpv)

/-- The vertex that the schedule puts too late lies on a cycle. -/
theorem Linked.transGen_of_misplaced? (h : c.Linked) {p : VertexId}
    (hp : c.graph.misplaced? [] c.graph.schedule = some p) : TransGen c.Edge p p := by
  obtain ⟨A, v, B, hcut, hpred, hne, hA, -⟩ := Graph.misplaced?_eq_some hp
  have hedge : c.Edge p v := h.mem_successors_iff_mem_predecessors.2 hpred
  obtain ⟨hlive, hvlive⟩ := h.live_of_mem_successors hedge
  have hperm : c.graph.schedule.Perm c.ids := h.perm_lastLeftFirst fun _ hv => hv
  have hmem : p ∈ c.graph.schedule := hperm.mem_iff.2 hlive
  have hlate : [v, p].Sublist c.graph.schedule := by
    have hB : p ∈ B := by simpa [hcut, hA, hne] using hmem
    exact Strand.pair_sublist_iff.2 ⟨A, B, hcut, hB⟩
  obtain ⟨P, Q, hcut'⟩ := List.append_of_mem hmem
  rcases Traversal.lastLeftFirst_eq_append hcut' (List.mem_reverse.2 hedge) hvlive
    with hQ | ⟨-, hback⟩
  · have hearly : [p, v].Sublist c.graph.schedule := Strand.pair_sublist_iff.2 ⟨P, Q, hcut', hQ⟩
    exact absurd hearly (Strand.not_sublist_swap (hperm.nodup_iff.2 h.ids_nodup) hlate)
  · rw [successors_graph, under_eq_edge fun _ _ => List.mem_reverse] at hback
    exact .head' hedge hback

theorem Linked.isCyclic_eq_false_iff (h : c.Linked) : c.graph.isCyclic = false ↔ c.Acyclic := by
  rw [Graph.isCyclic, Option.isSome_eq_false_iff, Option.isNone_iff_eq_none,
    h.misplaced?_schedule_eq_none_iff]

/-! ## Wires -/

/-- What a walk knows after some vertices: the last of them on each wire, and for each of them the
vertices right before it. -/
structure Follows (c : Circuit) (A : List VertexId) (k : Graph.Walk) : Prop where
  last : ∀ w, k.last.lookup w = (A.filter (· ∈ c.strand w)).getLast?
  pairs : ∀ v ∈ A, ∀ w p, c.prev? w v = some p → (p, v) ∈ k.pairs

/-- One wire of the walk: the vertex becomes the last one there, and is paired with the one
before it. -/
theorem Linked.walkWires_cons (h : c.Linked) {v : VertexId} (gate : String) {w : Wire}
    (ws : List Wire) {k : Graph.Walk} (hwidth : w.toNat < c.width)
    (hlast : k.last.lookup w = c.prev? w v) :
    ∃ pairs, c.graph.walkWires v gate k (w :: ws) =
        c.graph.walkWires v gate ⟨(w, v) :: k.last, pairs⟩ ws ∧
      (∀ q ∈ k.pairs, q ∈ pairs) ∧ ∀ p, c.prev? w v = some p → (p, v) ∈ pairs := by
  rw [Graph.walkWires, width_graph, predecessors_graph, if_neg (Nat.not_le.2 hwidth), ← hlast]
  cases hp : k.last.lookup w with
  | none => exact ⟨k.pairs, rfl, fun q hq => hq, fun p hp => by cases hp⟩
  | some p =>
      have hpred : (c.predecessors v).contains p = true :=
        List.contains_iff_mem.2 (h.mem_predecessors_iff.2 ⟨w, hlast ▸ hp⟩)
      refine ⟨(p, v) :: k.pairs, ?_, fun q hq => List.mem_cons_of_mem _ hq, ?_⟩
      · simp only [hpred, if_true]
      · rintro q hq
        obtain rfl := Option.some.inj hq
        exact List.mem_cons_self

/-- The walk over the wires of one gate, where the last vertex on each wire is the one right before
this. -/
theorem Linked.walkWires_eq_ok (h : c.Linked) {v : VertexId} (gate : String) {ws : List Wire}
    {k : Graph.Walk} (hws : ws.Nodup) (hwidth : ∀ w ∈ ws, w.toNat < c.width)
    (hlast : ∀ w ∈ ws, k.last.lookup w = c.prev? w v) :
    ∃ k', c.graph.walkWires v gate k ws = .ok k' ∧
      (∀ w, k'.last.lookup w = if w ∈ ws then some v else k.last.lookup w) ∧
      (∀ q ∈ k.pairs, q ∈ k'.pairs) ∧
      ∀ w ∈ ws, ∀ p, c.prev? w v = some p → (p, v) ∈ k'.pairs := by
  induction ws generalizing k with
  | nil => exact ⟨k, rfl, by simp, fun q hq => hq, by simp⟩
  | cons w rest ih =>
      obtain ⟨hw, hrest⟩ := List.nodup_cons.1 hws
      obtain ⟨pairs, hstep, hsub, hpair⟩ := h.walkWires_cons gate rest (hwidth w (by simp))
        (hlast w (by simp))
      have hlast' : ∀ u ∈ rest, ((w, v) :: k.last).lookup u = c.prev? u v := by
        intro u hu
        have hne : u ≠ w := fun he => hw (he ▸ hu)
        rw [List.lookup_cons, beq_eq_false_iff_ne.2 hne]
        exact hlast u (by simp [hu])
      obtain ⟨k', hk', hl, hsub', hpairs⟩ := ih (k := ⟨(w, v) :: k.last, pairs⟩) hrest
        (fun u hu => hwidth u (by simp [hu])) hlast'
      refine ⟨k', hstep.trans hk', fun u => ?_, fun q hq => hsub' q (hsub q hq), ?_⟩
      · rw [hl u]
        by_cases hu : u = w
        · subst hu
          simp
        · simp [List.lookup_cons, hu, beq_eq_false_iff_ne.2 hu]
      · intro u hu p hup
        rcases List.mem_cons.1 hu with rfl | hu
        · exact hsub' _ (hpair p hup)
        · exact hpairs u hu p hup

/-- The walk over the rest of a linear order goes through. -/
theorem Proper.walk_eq_ok (hc : c.Proper) (hf : c.Fits) {A B : List VertexId} {k : Graph.Walk}
    (hL : c.Linear (A ++ B)) (hk : Follows c A k) :
    ∃ k', c.graph.walk k B = .ok k' ∧ Follows c (A ++ B) k' := by
  induction B generalizing A k with
  | nil => exact ⟨k, rfl, by simpa using hk⟩
  | cons v rest ih =>
      obtain ⟨g, hg⟩ := mem_ids.1 (hL.perm.mem_iff.1 (by simp : v ∈ A ++ v :: rest))
      have hlast : ∀ w ∈ g.wires, k.last.lookup w = c.prev? w v := by
        intro w hw
        rw [hk.last w, hL.prev?_eq_getLast? hc.linked ((hc.aligned v g hg w).2 hw)]
      obtain ⟨k', hk', hl, hsub, hpairs⟩ := hc.linked.walkWires_eq_ok g.name (hf v g hg).1
        (hf v g hg).2 hlast
      have hfollows : Follows c (A ++ [v]) k' := by
        refine ⟨fun w => ?_, fun x hx w p hp => ?_⟩
        · rw [hl w, hk.last w, List.filter_append]
          by_cases hw : w ∈ g.wires
          · simp [hw, (hc.aligned v g hg w).2 hw]
          · have hv : v ∉ c.strand w := fun hv => hw ((hc.aligned v g hg w).1 hv)
            simp [hw, hv]
        · rcases List.mem_append.1 hx with hx | hx
          · exact hsub (p, x) (hk.pairs x hx w p hp)
          · obtain rfl := List.mem_singleton.1 hx
            have hv := (mem_of_next? (next?_eq_some_iff_prev?.2 hp)).2
            exact hpairs w ((hc.aligned x g hg w).1 hv) p hp
      rw [Graph.walk, gate?_graph, hg]
      simp only [hk']
      simpa using ih (A := A ++ [v]) (by simpa using hL) hfollows

/-! ## The whole inspection -/

/-- An inspection finds nothing in a sound circuit. -/
theorem Sound.inspect_eq_ok (h : c.Sound) : c.inspect = .ok () := by
  obtain ⟨hc, hf⟩ := h
  obtain ⟨k, hk, hfollows⟩ := hc.walk_eq_ok (A := []) (B := c.order) (k := {}) hf
    (by simpa using hc.linear_order) ⟨by simp, by simp⟩
  have hskip : c.ids.findSome? (c.graph.skippingEdge? k.pairs) = none := by
    rw [List.findSome?_eq_none_iff]
    intro v _
    rw [Graph.skippingEdge?, Option.map_eq_none_iff, List.find?_eq_none]
    intro s hs
    obtain ⟨w, hw⟩ := hc.linked.mem_successors_iff.1 hs
    have hlive := hc.linear_order.perm.mem_iff.2 (hc.linked.live_of_mem_successors hs).2
    have := hfollows.pairs s (by simpa using hlive) w v (next?_eq_some_iff_prev?.1 hw)
    simpa using this
  rw [inspect, Graph.inspect, gates_graph, hc.aligned.findSome?_edgeDefect?_eq_none hc.linked]
  simp only [order_graph, ids_graph, hc.linked.isCyclic_eq_false_iff.2 hc.acyclic,
    Bool.false_eq_true, if_false, hk, hskip]

/-- The flaws that an inspection can find where the links are in order. None of them is in the
links themselves. -/
theorem Linked.inspect_eq_unsound (h : c.Linked) {d : Defect}
    (hd : c.inspect = .error (.unsound d)) :
    (∃ v s, d = .disjointEdge v s) ∨ d = .cyclic ∨ (∃ w p v, d = .brokenWire w p v) ∨
      ∃ v s, d = .skippingEdge v s := by
  rcases Graph.inspect_eq_error hd with ⟨⟨x, g⟩, -, d', hd', he⟩ | he | ⟨w, gate, he⟩ |
    ⟨w, p, x, he⟩ | ⟨x, y, he⟩
  · obtain ⟨y, -, hd'', -⟩ := h.eq_disjointEdge hd'
    exact Or.inl ⟨x, y, (Error.unsound.inj he).trans hd''⟩
  · exact Or.inr (Or.inl (Error.unsound.inj he))
  · cases he
  · exact Or.inr (Or.inr (Or.inl ⟨w, p, x, Error.unsound.inj he⟩))
  · exact Or.inr (Or.inr (Or.inr ⟨x, y, Error.unsound.inj he⟩))

theorem Proper.exists_depth (hc : c.Proper) : ∃ n, c.depth = .ok n := by
  rw [depth, Graph.depth, hc.linked.misplaced?_schedule_eq_none_iff.2 hc.acyclic]
  exact ⟨_, rfl⟩

end Circuit

end Peephole
