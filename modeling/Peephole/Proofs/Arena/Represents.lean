import Peephole.Arena.Edit
import Peephole.Proofs.Circuit.Links
import Peephole.Proofs.Dict

/-!
# Arenas and circuits

An arena represents a circuit when the link of every vertex on every wire is the one it has on the
strand of that wire, and the neighbours that are kept are those that the links name. Nothing is left
open by this: a circuit is represented by one arena only. What is read in the two is the same.

* `Strand.link?`: the link that a strand gives a vertex.
* `Vertex.Fresh`: the neighbours of a vertex are those that its links name.
* `Arena.Represents`, `Represents.unique`: the arena of a circuit.
* `Represents.graph_eq`, `Represents.inspect_eq`: what is read in an arena.
-/

namespace Peephole

/-! ## Links of a strand -/

/-- The link that a strand gives a vertex, if it is there. -/
def Strand.link? (v : VertexId) (s : List VertexId) : Option Link :=
  if v ∈ s then some ⟨Strand.prev? v s, Strand.next? v s⟩ else none

namespace Strand

variable {u v : VertexId} {s : List VertexId}

theorem link?_of_mem (h : v ∈ s) : link? v s = some ⟨prev? v s, next? v s⟩ := if_pos h

theorem link?_of_notMem (h : v ∉ s) : link? v s = none := if_neg h

theorem link?_eq_some_iff {l : Link} :
    link? v s = some l ↔ v ∈ s ∧ l = ⟨prev? v s, next? v s⟩ := by
  rw [link?, Option.ite_none_right_eq_some, Option.some.injEq, eq_comm (a := l)]

theorem isSome_link?_iff : (link? v s).isSome ↔ v ∈ s := by
  rw [link?]
  split <;> simp [*]

theorem exists_link?_prev_iff :
    (∃ l, link? v s = some l ∧ l.prev = some u) ↔ prev? v s = some u := by
  constructor
  · rintro ⟨l, hl, hu⟩
    obtain ⟨-, rfl⟩ := link?_eq_some_iff.1 hl
    exact hu
  · intro hu
    have hv : v ∈ s := by
      by_contra hv
      rw [prev?_of_notMem hv] at hu
      cases hu
    exact ⟨_, link?_of_mem hv, hu⟩

theorem exists_link?_next_iff :
    (∃ l, link? v s = some l ∧ l.next = some u) ↔ next? v s = some u := by
  constructor
  · rintro ⟨l, hl, hu⟩
    obtain ⟨-, rfl⟩ := link?_eq_some_iff.1 hl
    exact hu
  · intro hu
    have hv : v ∈ s := by
      by_contra hv
      rw [next?_of_notMem hv] at hu
      cases hu
    exact ⟨_, link?_of_mem hv, hu⟩

end Strand

/-! ## Neighbours that are kept -/

namespace Vertex

variable {x y : Vertex}

/-- The neighbours that are kept are those that the links name. -/
structure Fresh (x : Vertex) : Prop where
  predecessors_eq : x.predecessors = x.linkedPredecessors
  successors_eq : x.successors = x.linkedSuccessors

theorem isStale_eq_false_iff : x.isStale = false ↔ x.Fresh := by
  simp only [isStale, Bool.or_eq_false_iff, bne_eq_false_iff_eq]
  exact ⟨fun h => ⟨h.1, h.2⟩, fun h => ⟨h.1, h.2⟩⟩

theorem fresh_refreshed (x : Vertex) : x.refreshed.Fresh := ⟨rfl, rfl⟩

theorem mem_linkedPredecessors {u : VertexId} :
    u ∈ x.linkedPredecessors ↔ ∃ w l, x.links.get? w = some l ∧ l.prev = some u := by
  rw [linkedPredecessors, Circuit.mem_ascending, List.mem_filterMap]
  constructor
  · rintro ⟨⟨w, l⟩, hmem, hu⟩
    exact ⟨w, l, Dict.mem_entries_iff.1 hmem, hu⟩
  · rintro ⟨w, l, hl, hu⟩
    exact ⟨(w, l), Dict.mem_entries_iff.2 hl, hu⟩

theorem mem_linkedSuccessors {u : VertexId} :
    u ∈ x.linkedSuccessors ↔ ∃ w l, x.links.get? w = some l ∧ l.next = some u := by
  rw [linkedSuccessors, Circuit.mem_ascending, List.mem_filterMap]
  constructor
  · rintro ⟨⟨w, l⟩, hmem, hu⟩
    exact ⟨w, l, Dict.mem_entries_iff.1 hmem, hu⟩
  · rintro ⟨w, l, hl, hu⟩
    exact ⟨(w, l), Dict.mem_entries_iff.2 hl, hu⟩

/-- Fresh vertices with the same gate and the same links are the same. -/
theorem Fresh.ext (hx : x.Fresh) (hy : y.Fresh) (hgate : x.gate = y.gate)
    (hlinks : x.links = y.links) : x = y := by
  have hp : x.predecessors = y.predecessors := by
    rw [hx.predecessors_eq, hy.predecessors_eq, linkedPredecessors, hlinks, linkedPredecessors]
  have hs : x.successors = y.successors := by
    rw [hx.successors_eq, hy.successors_eq, linkedSuccessors, hlinks, linkedSuccessors]
  cases x
  cases y
  simp_all

end Vertex

/-! ## The arena of a circuit -/

namespace Arena

variable {a b : Arena} {c : Circuit} {v : VertexId} {x : Vertex}

/-- The neighbours that are kept are those that the links name, for every vertex. -/
def Fresh (a : Arena) : Prop := ∀ v x, a.vertex? v = some x → x.Fresh

/-- The arena keeps the circuit vertex by vertex. -/
structure Represents (a : Arena) (c : Circuit) : Prop where
  width_eq : a.width = c.width
  gate?_eq : ∀ v, a.gate? v = c.gate? v
  link?_eq : ∀ v w, a.link? v w = Strand.link? v (c.strand w)
  fresh : a.Fresh

theorem gate?_of_vertex? (hx : a.vertex? v = some x) : a.gate? v = some x.gate := by
  rw [gate?, hx, Option.map_some]

theorem link?_of_vertex? (hx : a.vertex? v = some x) (w : Wire) :
    a.link? v w = x.links.get? w := by
  rw [link?, hx, Option.bind_some]

theorem gate?_eq_none_iff : a.gate? v = none ↔ a.vertex? v = none := Option.map_eq_none_iff

namespace Represents

/-- A circuit is represented by one arena only. -/
theorem unique (ha : a.Represents c) (hb : b.Represents c) : a = b := by
  have hvertices : a.vertices = b.vertices := by
    refine Dict.ext_get? fun v => ?_
    have hgate := (ha.gate?_eq v).trans (hb.gate?_eq v).symm
    show a.vertex? v = b.vertex? v
    cases hx : a.vertex? v with
    | none =>
        rw [gate?_eq_none_iff.2 hx, eq_comm, gate?_eq_none_iff] at hgate
        exact hgate.symm
    | some x =>
        rw [gate?_of_vertex? hx] at hgate
        obtain ⟨y, hy, hgate⟩ := Option.map_eq_some_iff.1 hgate.symm
        have hlinks : x.links = y.links := by
          refine Dict.ext_get? fun w => ?_
          rw [← link?_of_vertex? hx, ← link?_of_vertex? hy, ha.link?_eq, hb.link?_eq]
        rw [hy, (ha.fresh v x hx).ext (hb.fresh v y hy) hgate.symm hlinks]
  have hwidth := ha.width_eq.trans hb.width_eq.symm
  cases a
  cases b
  simp_all

theorem vertex?_eq_none_iff (h : a.Represents c) : a.vertex? v = none ↔ v ∉ c.ids := by
  rw [← gate?_eq_none_iff, h.gate?_eq, Circuit.mem_ids, not_exists,
    Option.eq_none_iff_forall_ne_some]

theorem exists_vertex (h : a.Represents c) (hv : v ∈ c.ids) : ∃ x, a.vertex? v = some x := by
  by_contra hnone
  exact h.vertex?_eq_none_iff.1 (Option.eq_none_iff_forall_ne_some.2 (not_exists.1 hnone)) hv

/-! ### What is read -/

theorem predecessors_eq (h : a.Represents c) (hc : c.Linked) (hx : a.vertex? v = some x) :
    x.predecessors = c.predecessors v := by
  rw [(h.fresh v x hx).predecessors_eq]
  refine Circuit.eq_of_mem_iff (Circuit.pairwise_ascending _) (Circuit.pairwise_ascending _) ?_
  intro u
  rw [Vertex.mem_linkedPredecessors, hc.mem_predecessors_iff]
  refine exists_congr fun w => ?_
  rw [← link?_of_vertex? hx, h.link?_eq]
  exact Strand.exists_link?_prev_iff

theorem successors_eq (h : a.Represents c) (hc : c.Linked) (hx : a.vertex? v = some x) :
    x.successors = c.successors v := by
  rw [(h.fresh v x hx).successors_eq]
  refine Circuit.eq_of_mem_iff (Circuit.pairwise_ascending _) (Circuit.pairwise_ascending _) ?_
  intro u
  rw [Vertex.mem_linkedSuccessors, hc.mem_successors_iff]
  refine exists_congr fun w => ?_
  rw [← link?_of_vertex? hx, h.link?_eq]
  exact Strand.exists_link?_next_iff

theorem gates_eq (h : a.Represents c) (hc : c.Linked) : a.graph.gates = c.gates := by
  have hascending : ((a.vertices.entries.map fun e => (e.1, e.2.gate)).map (·.1)).Pairwise
      fun u v => Ranked.rank u < Ranked.rank v := by
    rw [List.map_map]
    exact a.vertices.ascending
  have hdict : (⟨_, hascending⟩ : Dict VertexId Gate) = ⟨c.gates, hc.ascending⟩ := by
    refine Dict.ext_get? fun v => ?_
    exact (Circuit.lookup_mapped Vertex.gate a.vertices.entries v).trans (h.gate?_eq v)
  exact congrArg Dict.entries hdict

/-- The graph of an arena is that of its circuit. -/
theorem graph_eq (h : a.Represents c) (hc : c.Linked) : a.graph = c.graph := by
  have hgates := h.gates_eq hc
  have hp : a.graph.predecessors = c.predecessors := by
    funext v
    cases hx : a.vertex? v with
    | some x => simp only [graph, hx, Option.elim_some, h.predecessors_eq hc hx]
    | none =>
        have hnone : c.predecessors v = [] := by
          refine List.eq_nil_iff_forall_not_mem.2 fun u hu => ?_
          have hlive := hc.live_of_mem_successors (hc.mem_successors_iff_mem_predecessors.2 hu)
          exact h.vertex?_eq_none_iff.1 hx hlive.2
        simp only [graph, hx, Option.elim_none, hnone]
  have hs : a.graph.successors = c.successors := by
    funext v
    cases hx : a.vertex? v with
    | some x => simp only [graph, hx, Option.elim_some, h.successors_eq hc hx]
    | none =>
        have hnone : c.successors v = [] := by
          refine List.eq_nil_iff_forall_not_mem.2 fun u hu => ?_
          exact h.vertex?_eq_none_iff.1 hx (hc.live_of_mem_successors hu).1
        simp only [graph, hx, Option.elim_none, hnone]
  have hwidth : a.graph.width = c.width := h.width_eq
  rw [Circuit.graph, ← hgates, ← hp, ← hs, ← hwidth]

theorem snapshot_eq (h : a.Represents c) (hc : c.Linked) : a.snapshot = c.snapshot := by
  rw [snapshot, h.graph_eq hc]
  rfl

/-- An inspection finds what it finds in the circuit. The neighbours never disagree with the
links. -/
theorem inspect_eq (h : a.Represents c) (hc : c.Linked) : a.inspect = c.inspect := by
  have hfresh : (a.vertices.entries.find? fun e => e.2.isStale) = none := by
    refine List.find?_eq_none.2 fun e he => ?_
    have hx : a.vertex? e.1 = some e.2 := Dict.mem_entries_iff.1 he
    rw [Vertex.isStale_eq_false_iff.2 (h.fresh e.1 e.2 hx)]
    exact Bool.false_ne_true
  rw [inspect, hfresh, h.graph_eq hc, Circuit.inspect]
  cases c.graph.inspect with
  | error e => rfl
  | ok u => rfl

end Represents

end Arena

end Peephole
