import Mathlib.Data.Set.Function
import Peephole.Proofs.Circuit.Neighbours
import Peephole.Proofs.Circuit.Rewrite

/-!
# The same circuit under other names

The gates of a circuit in order make a fresh circuit, in which every vertex is named by its
position. This file compares the two. What the fresh circuit has on a wire are the vertices whose
gates touch the wire; where gates and strands agree, these are the strands of the old circuit, and
nothing but the names has changed.

* `Circuit.Renamed`: the same gates with the same neighbours, under other names.
* `Circuit.Isomorphic`: the same links on every wire as well.
* `Circuit.rebuilt`: the fresh circuit, and `Circuit.position`: the new names.
* `Linked.renamed_of_lists`, `Linked.isomorphic_of_strands`: how strands under other names give
  links under other names.
* `Linked.renamed_rebuilt`, `Proper.isomorphic_rebuilt`: how the two compare.
* `Linked.isomorphic_without_next`: of two vertices that stand side by side, either may be taken
  out.
* `order_ofGates`, `gatesInOrder_ofGates`: a fresh circuit has its gates in the order given.
-/

namespace Peephole.Circuit

variable {c d : Circuit} {f : VertexId → VertexId}

/-- The second circuit has the gates of the first under other names, with the same neighbours. -/
structure Renamed (f : VertexId → VertexId) (c d : Circuit) : Prop where
  width_eq : d.width = c.width
  bijOn : Set.BijOn f {v | v ∈ c.ids} {v | v ∈ d.ids}
  gate?_eq : ∀ v ∈ c.ids, d.gate? (f v) = c.gate? v
  mem_successors_iff : ∀ v ∈ c.ids, ∀ x, x ∈ d.successors (f v) ↔ ∃ s ∈ c.successors v, f s = x
  mem_predecessors_iff : ∀ v ∈ c.ids, ∀ x,
    x ∈ d.predecessors (f v) ↔ ∃ p ∈ c.predecessors v, f p = x

/-- The second circuit is the first under other names: the same gates with the same neighbours and
the same links on every wire. -/
structure Isomorphic (f : VertexId → VertexId) (c d : Circuit) : Prop extends Renamed f c d where
  mem_strand_iff : ∀ w, ∀ v ∈ c.ids, f v ∈ d.strand w ↔ v ∈ c.strand w
  next?_eq : ∀ w, ∀ v ∈ c.ids, d.next? w (f v) = (c.next? w v).map f
  prev?_eq : ∀ w, ∀ v ∈ c.ids, d.prev? w (f v) = (c.prev? w v).map f

/-! ## Strands under other names -/

section Strands

variable {s : List VertexId} {w : Wire} {v : VertexId}

theorem next?_of_strand_eq (hf : Set.InjOn f {v | v ∈ c.ids}) (hs : ∀ x ∈ s, x ∈ c.ids)
    (hw : d.strand w = s.map f) (hv : v ∈ c.ids) :
    d.next? w (f v) = (Strand.next? v s).map f := by
  rw [next?, hw, Strand.next?_map fun x hx hxv => hf (hs x hx) hv hxv]

theorem prev?_of_strand_eq (hf : Set.InjOn f {v | v ∈ c.ids}) (hs : ∀ x ∈ s, x ∈ c.ids)
    (hw : d.strand w = s.map f) (hv : v ∈ c.ids) :
    d.prev? w (f v) = (Strand.prev? v s).map f := by
  rw [prev?, hw, Strand.prev?_map fun x hx hxv => hf (hs x hx) hv hxv]

end Strands

/-- Let the strands of the second circuit be lists of vertices of the first under other names. If
the edges of the first join the vertices that come next to each other in some list, the second has
the same edges. -/
theorem Linked.renamed_of_lists (hc : c.Linked) (hd : d.Linked) (hwidth : d.width = c.width)
    (hbij : Set.BijOn f {v | v ∈ c.ids} {v | v ∈ d.ids})
    (hgate : ∀ v ∈ c.ids, d.gate? (f v) = c.gate? v) {s : Wire → List VertexId}
    (hnodup : ∀ w, (s w).Nodup) (hlive : ∀ w, ∀ x ∈ s w, x ∈ c.ids)
    (hstrand : ∀ w, d.strand w = (s w).map f)
    (hedge : ∀ a b, c.Edge a b ↔ ∃ w, Strand.next? a (s w) = some b) : Renamed f c d where
  width_eq := hwidth
  bijOn := hbij
  gate?_eq := hgate
  mem_successors_iff := by
    intro v hv x
    simp only [hd.mem_successors_iff,
      next?_of_strand_eq hbij.injOn (hlive _) (hstrand _) hv, Option.map_eq_some_iff]
    constructor
    · rintro ⟨w, y, hy, hx⟩
      exact ⟨y, (hedge v y).2 ⟨w, hy⟩, hx⟩
    · rintro ⟨y, hy, hx⟩
      obtain ⟨w, hw⟩ := (hedge v y).1 hy
      exact ⟨w, y, hw, hx⟩
  mem_predecessors_iff := by
    intro v hv x
    have hp : ∀ p, p ∈ c.predecessors v ↔ ∃ w, Strand.prev? v (s w) = some p := by
      intro p
      rw [← hc.mem_successors_iff_mem_predecessors]
      exact (hedge p v).trans (exists_congr fun w => Strand.next?_eq_some_iff_prev? (hnodup w))
    simp only [hd.mem_predecessors_iff,
      prev?_of_strand_eq hbij.injOn (hlive _) (hstrand _) hv, Option.map_eq_some_iff]
    constructor
    · rintro ⟨w, p, hw, hx⟩
      exact ⟨p, (hp p).2 ⟨w, hw⟩, hx⟩
    · rintro ⟨p, hpv, hx⟩
      obtain ⟨w, hw⟩ := (hp p).1 hpv
      exact ⟨w, p, hw, hx⟩

/-- Where the strands are the same under other names, so are the links. -/
theorem Linked.isomorphic_of_strands (hc : c.Linked) (hd : d.Linked) (hwidth : d.width = c.width)
    (hbij : Set.BijOn f {v | v ∈ c.ids} {v | v ∈ d.ids})
    (hgate : ∀ v ∈ c.ids, d.gate? (f v) = c.gate? v)
    (hstrand : ∀ w, d.strand w = (c.strand w).map f) : Isomorphic f c d where
  toRenamed := hc.renamed_of_lists hd hwidth hbij hgate c.strand_nodup hc.strand_live hstrand
    fun _ _ => hc.mem_successors_iff
  mem_strand_iff := by
    intro w v hv
    rw [hstrand, List.mem_map]
    constructor
    · rintro ⟨x, hx, hxv⟩
      rwa [← hbij.injOn (hc.strand_live w x hx) hv hxv]
    · intro hs
      exact ⟨v, hs, rfl⟩
  next?_eq := fun w _ hv => next?_of_strand_eq hbij.injOn (hc.strand_live w) (hstrand w) hv
  prev?_eq := fun w _ hv => prev?_of_strand_eq hbij.injOn (hc.strand_live w) (hstrand w) hv

/-! ## Gates in order -/

theorem Linked.map_gate?_order (h : c.Linked) :
    c.order.map c.gate? = c.gatesInOrder.map some := by
  rw [gatesInOrder_eq, List.map_filterMap_some_eq_filter_map_isSome, eq_comm, List.filter_eq_self]
  intro g hg
  obtain ⟨v, hv, rfl⟩ := List.mem_map.1 hg
  rw [Option.isSome_iff_exists]
  exact mem_ids.1 (h.order_perm.mem_iff.1 hv)

theorem Linked.mem_gatesInOrder (h : c.Linked) {g : Gate} :
    g ∈ c.gatesInOrder ↔ ∃ v, c.gate? v = some g := by
  rw [gatesInOrder_eq, List.mem_filterMap]
  constructor
  · rintro ⟨v, -, hv⟩
    exact ⟨v, hv⟩
  · rintro ⟨v, hv⟩
    exact ⟨v, h.order_perm.mem_iff.2 (mem_ids_of_gate? hv), hv⟩

theorem Linked.length_gatesInOrder (h : c.Linked) : c.gatesInOrder.length = c.size := by
  calc c.gatesInOrder.length = (c.order.map c.gate?).length := by
        rw [h.map_gate?_order, List.length_map]
    _ = c.size := by rw [List.length_map, h.order_perm.length_eq, size_eq_length_ids]

theorem Linked.getElem?_gatesInOrder (h : c.Linked) (i : Nat) :
    c.gatesInOrder[i]? = c.order[i]?.bind c.gate? := by
  have hi := congrArg (·[i]?) h.map_gate?_order
  simp only [List.getElem?_map] at hi
  cases hv : c.order[i]? with
  | none =>
      rw [hv, Option.map_none, eq_comm, Option.map_eq_none_iff] at hi
      rw [hi, Option.bind_none]
  | some v =>
      rw [hv, Option.map_some, eq_comm, Option.map_eq_some_iff] at hi
      obtain ⟨g, hg, hgv⟩ := hi
      rw [hg, Option.bind_some, hgv]

/-! ## Positions -/

/-- The position of a vertex in the order. -/
def position (c : Circuit) (v : VertexId) : Nat := c.order.idxOf v

/-- The circuit built afresh from the gates in order. -/
def rebuilt (c : Circuit) : Circuit := ofGates c.width c.gatesInOrder

theorem linked_rebuilt (c : Circuit) : c.rebuilt.Linked := .ofGates _ _

theorem Linked.ids_rebuilt (h : c.Linked) : c.rebuilt.ids = List.range c.size := by
  rw [rebuilt, ids_ofGates, h.length_gatesInOrder]

theorem Linked.getElem?_position (h : c.Linked) {v : VertexId} (hv : v ∈ c.ids) :
    c.order[c.position v]? = some v :=
  List.getElem?_idxOf (h.order_perm.mem_iff.2 hv)

theorem Linked.position_eq_iff (h : c.Linked) {v : VertexId} {i : Nat} (hv : v ∈ c.ids) :
    c.position v = i ↔ c.order[i]? = some v := by
  constructor
  · rintro rfl
    exact h.getElem?_position hv
  · intro hi
    obtain ⟨hlt, rfl⟩ := List.getElem?_eq_some_iff.1 hi
    exact h.order_nodup.idxOf_getElem i hlt

theorem Linked.map_position_order (h : c.Linked) :
    c.order.map c.position = List.range c.order.length := by
  refine List.ext_getElem (by simp) fun i hi hi' => ?_
  rw [List.getElem_map, List.getElem_range]
  exact h.order_nodup.idxOf_getElem i (by simpa using hi)

theorem Linked.bijOn_position (h : c.Linked) :
    Set.BijOn c.position {v | v ∈ c.ids} {i | i < c.size} := by
  have hlen : c.order.length = c.size := by rw [h.order_perm.length_eq, size_eq_length_ids]
  refine ⟨fun v hv => ?_, fun u hu v hv huv => ?_, fun i hi => ?_⟩
  · show c.position v < c.size
    rw [← hlen]
    exact List.idxOf_lt_length_of_mem (h.order_perm.mem_iff.2 hv)
  · have hi := h.getElem?_position hu
    rw [huv, h.getElem?_position hv] at hi
    exact (Option.some.inj hi).symm
  · have hi : i < c.order.length := hlen ▸ hi
    have hv : c.order[i] ∈ c.ids := h.order_perm.mem_iff.1 (List.getElem_mem hi)
    exact ⟨c.order[i], hv, (h.position_eq_iff hv).2 (List.getElem?_eq_getElem hi)⟩

theorem Linked.bijOn_rebuilt (h : c.Linked) :
    Set.BijOn c.position {v | v ∈ c.ids} {v | v ∈ c.rebuilt.ids} := by
  rw [h.ids_rebuilt]
  simpa using h.bijOn_position

theorem Linked.gate?_rebuilt (h : c.Linked) {v : VertexId} (hv : v ∈ c.ids) :
    c.rebuilt.gate? (c.position v) = c.gate? v := by
  rw [rebuilt, gate?_ofGates, h.getElem?_gatesInOrder, h.getElem?_position hv, Option.bind_some]

/-! ## Wires -/

/-- The vertices of a list whose gates touch a wire. -/
def touching (c : Circuit) (w : Wire) (vs : List VertexId) : List VertexId :=
  vs.filter (c.holds (·.touches w))

theorem mem_touching {w : Wire} {v : VertexId} {vs : List VertexId} :
    v ∈ c.touching w vs ↔ v ∈ vs ∧ ∃ g, c.gate? v = some g ∧ w ∈ g.wires := by
  simp only [touching, List.mem_filter, holds_eq_true_iff, Gate.touches_eq_true_iff]

/-- On each wire the fresh circuit has the vertices that touch it. -/
theorem Linked.strand_rebuilt (h : c.Linked) (w : Wire) :
    c.rebuilt.strand w = (c.touching w c.order).map c.position := by
  have hleft := positionsOn_sublist c.gatesInOrder w
  have hright : ((c.touching w c.order).map c.position).Sublist
      (List.range c.gatesInOrder.length) := by
    have hsub := (List.filter_sublist (p := c.holds (·.touches w)) (l := c.order)).map c.position
    rwa [h.map_position_order, ← List.length_map c.gate?, h.map_gate?_order,
      List.length_map] at hsub
  -- both are parts of the list of all positions, so that only their members matter
  rw [rebuilt, strand_ofGates]
  refine (List.nodup_range.perm_iff_eq_of_sublist hleft hright).1 ?_
  rw [List.perm_ext_iff_of_nodup (hleft.nodup List.nodup_range) (hright.nodup List.nodup_range)]
  intro i
  simp only [mem_positionsOn, h.getElem?_gatesInOrder, List.mem_map, mem_touching,
    Option.bind_eq_some_iff]
  constructor
  · rintro ⟨g, ⟨v, hi, hg⟩, hw⟩
    exact ⟨v, ⟨List.mem_of_getElem? hi, g, hg, hw⟩,
      (h.position_eq_iff (mem_ids_of_gate? hg)).2 hi⟩
  · rintro ⟨v, ⟨-, g, hg, hw⟩, hi⟩
    exact ⟨g, ⟨v, (h.position_eq_iff (mem_ids_of_gate? hg)).1 hi, hg⟩, hw⟩

/-- On a wire of a proper circuit, the vertices that touch it are its strand, along whatever linear
order they are listed. -/
theorem Proper.touching_linear (hc : c.Proper) {L : List VertexId} (hL : c.Linear L) (w : Wire) :
    c.touching w L = c.strand w := by
  rw [hL.strand_eq_filter hc.linked w]
  refine List.filter_congr fun v hv => ?_
  obtain ⟨g, hg⟩ := mem_ids.1 (hL.perm.mem_iff.1 hv)
  rw [Bool.eq_iff_iff, holds_eq_true_iff, decide_eq_true_eq, hc.aligned v g hg w]
  simp only [hg, Option.some.injEq, exists_eq_left', Gate.touches_eq_true_iff]

theorem Proper.touching_order (hc : c.Proper) (w : Wire) : c.touching w c.order = c.strand w :=
  hc.touching_linear hc.linear_order w

/-! ## The two circuits -/

/-- If the edges of a circuit join the vertices that come next to each other among those that touch
some wire, the fresh circuit has the same edges. -/
theorem Linked.renamed_rebuilt (h : c.Linked)
    (hedge : ∀ a b, c.Edge a b ↔ ∃ w, Strand.next? a (c.touching w c.order) = some b) :
    Renamed c.position c c.rebuilt := by
  refine h.renamed_of_lists (linked_rebuilt c) rfl h.bijOn_rebuilt (fun v hv => h.gate?_rebuilt hv)
    (fun w => ?_) (fun w x hx => ?_) h.strand_rebuilt hedge
  · exact h.order_nodup.filter _
  · obtain ⟨-, g, hg, -⟩ := mem_touching.1 hx
    exact mem_ids_of_gate? hg

/-- Building a proper circuit afresh changes nothing but the names. -/
theorem Proper.isomorphic_rebuilt (hc : c.Proper) : Isomorphic c.position c c.rebuilt := by
  refine hc.linked.isomorphic_of_strands (linked_rebuilt c) rfl hc.linked.bijOn_rebuilt
    (fun v hv => hc.linked.gate?_rebuilt hv) fun w => ?_
  rw [hc.linked.strand_rebuilt, hc.touching_order]

/-! ## Two vertices side by side -/

theorem map_update_of_notMem {n : VertexId} (v : VertexId) {s : List VertexId} (hn : n ∉ s) :
    s.map (Function.update id n v) = s := by
  refine (List.map_congr_left fun x hx => ?_).trans (List.map_id s)
  have hxn : x ≠ n := fun he => hn (he ▸ hx)
  exact Function.update_of_ne hxn _ _

/-- Where `v` comes right before `n`, to take `v` out and call `n` by its name is to take `n`
out. -/
theorem map_update_filter_ne {v n : VertexId} {s : List VertexId} (hs : s.Nodup)
    (h : Strand.next? v s = some n) :
    (s.filter (· ≠ v)).map (Function.update id n v) = s.filter (· ≠ n) := by
  obtain ⟨P, Q, rfl⟩ := (Strand.next?_eq_some_iff hs).1 h
  obtain ⟨hvP, hvQ⟩ := Strand.notMem_of_nodup_append hs
  have hvn : v ≠ n := fun he => hvQ (by simp [he])
  have hs' : ((P ++ [v]) ++ n :: Q).Nodup := by simpa using hs
  obtain ⟨hnP, hnQ⟩ := Strand.notMem_of_nodup_append hs'
  rw [List.mem_append, not_or] at hnP
  simp only [List.mem_cons, not_or] at hvQ
  simp only [List.filter_append, List.filter_cons, Strand.filter_ne_of_notMem hnP.1,
    Strand.filter_ne_of_notMem hnQ, Strand.filter_ne_of_notMem hvP,
    Strand.filter_ne_of_notMem hvQ.2, List.map_append, map_update_of_notMem v hnP.1]
  simp [hvn, Ne.symm hvn, map_update_of_notMem v hnQ]

/-- What is left when `v` is taken out becomes what is left when `n` is, once `n` is called `v`. -/
theorem bijOn_update {v n : VertexId} (hv : v ∈ c.ids) (hn : n ∈ c.ids) (hvn : v ≠ n) :
    Set.BijOn (Function.update id n v) {x | x ∈ (c.without v).ids} {x | x ∈ (c.without n).ids} := by
  have hname : ∀ x, x ≠ n → Function.update id n v x = x :=
    fun x hx => Function.update_of_ne hx _ _
  refine ⟨fun x hx => ?_, fun x hx y hy hxy => ?_, fun y hy => ?_⟩
  · obtain ⟨hx, -⟩ := (mem_ids_without c v).1 hx
    refine (mem_ids_without c n).2 ?_
    by_cases hxn : x = n
    · rw [hxn, Function.update_self]
      exact ⟨hv, hvn⟩
    · rw [hname x hxn]
      exact ⟨hx, hxn⟩
  · have hxv := ((mem_ids_without c v).1 hx).2
    have hyv := ((mem_ids_without c v).1 hy).2
    by_cases hxn : x = n
    · by_cases hyn : y = n
      · rw [hxn, hyn]
      · rw [hxn, Function.update_self, hname y hyn] at hxy
        exact absurd hxy.symm hyv
    · by_cases hyn : y = n
      · rw [hyn, Function.update_self, hname x hxn] at hxy
        exact absurd hxy hxv
      · rwa [hname x hxn, hname y hyn] at hxy
  · obtain ⟨hy, hyn⟩ := (mem_ids_without c n).1 hy
    by_cases hyv : y = v
    · refine ⟨n, (mem_ids_without c v).2 ⟨hn, Ne.symm hvn⟩, ?_⟩
      rw [hyv, Function.update_self]
    · exact ⟨y, (mem_ids_without c v).2 ⟨hy, hyv⟩, hname y hyn⟩

/-- Of two vertices that stand side by side on all their strands, it makes no difference but for a
name which one is taken out, if the gate of the other is the same in the end. -/
theorem Linked.isomorphic_without_next (h : c.Linked) {v n : VertexId} (hedge : c.Edge v n)
    (hnext : ∀ w, v ∈ c.strand w ∨ n ∈ c.strand w → c.next? w v = some n) {k l : Gate → Gate}
    (hgate : (c.gate? n).map k = (c.gate? v).map l) :
    Isomorphic (Function.update id n v) ((c.without v).modify n k) ((c.without n).modify v l) := by
  have hvn := h.ne_of_edge hedge
  obtain ⟨hv, hn⟩ := h.live_of_mem_successors hedge
  refine ((h.without v).modify n k).isomorphic_of_strands ((h.without n).modify v l) rfl ?_
    (fun x hx => ?_) fun w => ?_
  · simpa only [ids_modify] using bijOn_update hv hn hvn
  · rw [ids_modify, mem_ids_without] at hx
    by_cases hxn : x = n
    · rw [hxn, Function.update_self, gate?_modify_self, gate?_modify_self,
        gate?_without_of_ne c n hvn, gate?_without_of_ne c v (Ne.symm hvn), hgate]
    · rw [Function.update_of_ne hxn, id, gate?_modify_of_ne _ _ _ hx.2,
        gate?_modify_of_ne _ _ _ hxn, gate?_without_of_ne c n hxn, gate?_without_of_ne c v hx.2]
  · rw [strand_modify, strand_modify, strand_without, strand_without]
    by_cases hw : v ∈ c.strand w ∨ n ∈ c.strand w
    · rw [map_update_filter_ne (strand_nodup _ w) (hnext w hw)]
    · rw [not_or] at hw
      rw [Strand.filter_ne_of_notMem hw.1, Strand.filter_ne_of_notMem hw.2,
        map_update_of_notMem v hw.2]

/-! ## Fresh circuits -/

theorem pairwise_strand_ofGates (width : Nat) (gs : List Gate) (w : Wire) :
    ((ofGates width gs).strand w).Pairwise (· < ·) :=
  List.pairwise_lt_range.sublist ((Linear.ofGates width gs).sublist w)

/-- A fresh circuit has its vertices in the order of their names. -/
theorem order_ofGates (width : Nat) (gs : List Gate) :
    (ofGates width gs).order = List.range gs.length := by
  rw [(Linked.ofGates width gs).order_eq_ids (pairwise_strand_ofGates width gs), ids_ofGates]

theorem gatesInOrder_ofGates (width : Nat) (gs : List Gate) :
    (ofGates width gs).gatesInOrder = gs := by
  rw [gatesInOrder_eq, order_ofGates]
  exact filterMap_of_map_gate? (map_gate?_ofGates width gs)

end Peephole.Circuit
