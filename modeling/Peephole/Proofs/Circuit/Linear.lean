import Mathlib.Logic.Relation
import Peephole.Proofs.Circuit.Links
import Peephole.Proofs.Traversal

/-!
# Linear orders of a circuit

A list of all vertices is a linear order of a circuit when every strand is a part of it. A circuit
has one exactly when its edges form no cycle, and the traversals of `Circuit.order` and
`Circuit.schedule` then find one.

* `Circuit.Edge`, `Circuit.Acyclic`: the successor graph.
* `Circuit.Linear`: all vertices, with every strand in its own order; the same as
  `Circuit.Topological`, with every edge forward.
* `Linked.order_perm`: the order lists every vertex once, also where there is a cycle.
* `Linked.linear_lastLeftFirst`: a traversal of an acyclic circuit from all its vertices.
* `Linked.linear_order`, `Linear.acyclic`: a circuit is acyclic exactly when it has a linear order.
* `Linear.without`, `Linear.swapped`, `Linear.modify`: linear orders after an operation.
* `Circuit.Proper`: what the optimizer asks of a circuit.
-/

namespace Peephole.Circuit

open Relation (TransGen ReflTransGen)

/-- The second vertex comes right after the first on some strand. -/
def Edge (c : Circuit) (a b : VertexId) : Prop := b ∈ c.successors a

/-- No vertex can be reached from itself. -/
def Acyclic (c : Circuit) : Prop := ∀ v, ¬ TransGen c.Edge v v

/-- A list of all vertices that keeps the order of every strand. -/
structure Linear (c : Circuit) (L : List VertexId) : Prop where
  perm : L.Perm c.ids
  sublist : ∀ w, (c.strand w).Sublist L

/-! ## Edges and strands -/

theorem Linked.transGen_of_pair_sublist {c : Circuit} (h : c.Linked) {w : Wire} {a b : VertexId}
    (hab : [a, b].Sublist (c.strand w)) : TransGen c.Edge a b := by
  obtain ⟨P, Q, hs, hb⟩ := Strand.pair_sublist_iff.1 hab
  clear hab
  -- from `a` one edge leads to the head of what follows it
  induction Q generalizing P a with
  | nil => cases hb
  | cons q Q ih =>
      have hedge : c.Edge a q :=
        h.mem_successors_iff.2 ⟨w, (Strand.next?_eq_some_iff (strand_nodup _ w)).2 ⟨P, Q, hs⟩⟩
      rcases List.mem_cons.1 hb with rfl | hb
      · exact .single hedge
      · exact .head hedge (ih (P ++ [a]) (by simp [hs]) hb)

theorem Linked.pair_sublist_of_edge {c : Circuit} (h : c.Linked) {a b : VertexId}
    (hab : c.Edge a b) : ∃ w, [a, b].Sublist (c.strand w) := by
  obtain ⟨w, hw⟩ := h.mem_successors_iff.1 hab
  exact ⟨w, Strand.pair_sublist_of_next? (strand_nodup _ w) hw⟩

theorem Linked.ne_of_edge {c : Circuit} (h : c.Linked) {a b : VertexId} (hab : c.Edge a b) :
    a ≠ b := by
  rintro rfl
  obtain ⟨w, hw⟩ := h.pair_sublist_of_edge hab
  exact Strand.not_sublist_swap (strand_nodup _ w) hw hw

/-! ## Linear orders -/

namespace Linear

variable {c : Circuit} {L : List VertexId}

theorem nodup (hL : c.Linear L) (h : c.Linked) : L.Nodup := hL.perm.nodup_iff.2 h.ids_nodup

theorem pair_sublist_of_transGen (hL : c.Linear L) (h : c.Linked) {a b : VertexId}
    (hab : TransGen c.Edge a b) : [a, b].Sublist L := by
  induction hab with
  | single hab =>
      obtain ⟨w, hw⟩ := h.pair_sublist_of_edge hab
      exact hw.trans (hL.sublist w)
  | tail _ hbx ih =>
      obtain ⟨w, hw⟩ := h.pair_sublist_of_edge hbx
      exact Strand.pair_sublist_trans (hL.nodup h) ih (hw.trans (hL.sublist w))

/-- A circuit with a linear order has no cycle. -/
theorem acyclic (hL : c.Linear L) (h : c.Linked) : c.Acyclic := by
  intro v hv
  have hvv := hL.pair_sublist_of_transGen h hv
  exact Strand.not_sublist_swap (hL.nodup h) hvv hvv

end Linear

/-- A list of all vertices is a linear order if every edge goes forward in it. -/
theorem Linked.linear_of_edges {c : Circuit} (h : c.Linked) {L : List VertexId}
    (hperm : L.Perm c.ids) (hedge : ∀ a b, c.Edge a b → [a, b].Sublist L) : c.Linear L where
  perm := hperm
  sublist := by
    intro w
    have hL : L.Nodup := hperm.nodup_iff.2 h.ids_nodup
    refine Strand.sublist_of_pairs (strand_nodup _ w) hL ?_ ?_
    · intro v hv
      exact hperm.mem_iff.2 (h.strand_live w v hv)
    · intro a b hab
      have hpath := h.transGen_of_pair_sublist hab
      clear hab
      induction hpath with
      | single hab => exact hedge _ _ hab
      | tail _ hbx ih => exact Strand.pair_sublist_trans hL ih (hedge _ _ hbx)

/-- A list of all vertices in which every edge goes forward. -/
structure Topological (c : Circuit) (L : List VertexId) : Prop where
  perm : L.Perm c.ids
  forward : ∀ a b, c.Edge a b → [a, b].Sublist L

/-- To keep the order of every strand is to let every edge go forward. -/
theorem Linked.topological_iff {c : Circuit} (h : c.Linked) {L : List VertexId} :
    c.Topological L ↔ c.Linear L :=
  ⟨fun hL => h.linear_of_edges hL.perm hL.forward,
    fun hL => ⟨hL.perm, fun _ _ hab => hL.pair_sublist_of_transGen h (.single hab)⟩⟩

/-! ## Traversals -/

/-- A traversal that starts from all vertices lists each of them once, cycles or not. -/
theorem Linked.perm_lastLeftFirst {c : Circuit} (h : c.Linked)
    {below : VertexId → List VertexId} {roots : List VertexId} (hroots : ∀ v ∈ c.ids, v ∈ roots) :
    (Traversal.lastLeftFirst below c.ids roots).Perm c.ids := by
  rw [List.perm_ext_iff_of_nodup Traversal.nodup_lastLeftFirst h.ids_nodup]
  intro v
  exact ⟨Traversal.live_of_mem_lastLeftFirst,
    fun hv => Traversal.mem_lastLeftFirst_of_mem (hroots v hv) hv⟩

theorem Linked.order_perm {c : Circuit} (h : c.Linked) : c.order.Perm c.ids :=
  h.perm_lastLeftFirst fun _ hv => List.mem_reverse.2 hv

theorem Linked.order_nodup {c : Circuit} (h : c.Linked) : c.order.Nodup :=
  h.order_perm.nodup_iff.2 h.ids_nodup

theorem under_eq_edge {c : Circuit} {below : VertexId → List VertexId}
    (hbelow : ∀ v x, x ∈ below v ↔ x ∈ c.successors v) : Traversal.Under below = c.Edge := by
  funext v x
  exact propext (hbelow v x)

/-- A traversal of an acyclic circuit that starts from all vertices lists them in a linear order,
in whatever way it goes through the successors. -/
theorem Linked.linear_lastLeftFirst {c : Circuit} (h : c.Linked) (hac : c.Acyclic)
    {below : VertexId → List VertexId} {roots : List VertexId}
    (hbelow : ∀ v x, x ∈ below v ↔ x ∈ c.successors v) (hroots : ∀ v ∈ c.ids, v ∈ roots) :
    c.Linear (Traversal.lastLeftFirst below c.ids roots) := by
  have hperm : (Traversal.lastLeftFirst below c.ids roots).Perm c.ids :=
    h.perm_lastLeftFirst hroots
  refine h.linear_of_edges hperm fun a b hab => ?_
  obtain ⟨ha, hb⟩ := h.live_of_mem_successors hab
  obtain ⟨A, B, he⟩ := List.append_of_mem (hperm.mem_iff.2 ha)
  rcases Traversal.lastLeftFirst_eq_append he ((hbelow a b).2 hab) hb with hB | ⟨-, hback⟩
  · exact Strand.pair_sublist_iff.2 ⟨A, B, he, hB⟩
  · rw [under_eq_edge hbelow] at hback
    exact absurd (TransGen.head' hab hback) (hac a)

theorem Linked.linear_order {c : Circuit} (h : c.Linked) (hac : c.Acyclic) :
    c.Linear c.order :=
  h.linear_lastLeftFirst hac (fun _ _ => Iff.rfl) fun _ hv => List.mem_reverse.2 hv

/-- Where names go up along every strand, the order is that of the names. -/
theorem Linked.order_eq_ids {c : Circuit} (h : c.Linked)
    (hup : ∀ w, (c.strand w).Pairwise (· < ·)) : c.order = c.ids := by
  refine Traversal.lastLeftFirst_reverse h.ascending fun a _ b hab => ?_
  obtain ⟨w, hw⟩ := h.pair_sublist_of_edge hab
  exact List.pairwise_iff_forall_sublist.1 (hup w) hw

/-! ## Operations -/

namespace Linear

variable {c : Circuit} {L : List VertexId}

theorem ofGates (width : Nat) (gs : List Gate) :
    (Circuit.ofGates width gs).Linear (List.range gs.length) where
  perm := by rw [ids_ofGates]
  sublist := by
    intro w
    rw [strand_ofGates]
    exact positionsOn_sublist gs w

theorem modify (hL : c.Linear L) (v : VertexId) (f : Gate → Gate) : (c.modify v f).Linear L where
  perm := by simpa using hL.perm
  sublist := hL.sublist

theorem without (hL : c.Linear L) (v : VertexId) : (c.without v).Linear (L.filter (· ≠ v)) where
  perm := by
    rw [ids_without]
    exact hL.perm.filter _
  sublist := by
    intro w
    rw [strand_without]
    exact (hL.sublist w).filter _

theorem without_append (h : c.Linked) {A B : List VertexId} {v : VertexId}
    (hL : c.Linear (A ++ v :: B)) : (c.without v).Linear (A ++ B) := by
  have hnot := Strand.notMem_of_nodup_append (hL.nodup h)
  have hw := hL.without v
  rw [List.filter_append, Strand.filter_ne_of_notMem hnot.1, List.filter_cons_of_neg (by simp),
    Strand.filter_ne_of_notMem hnot.2] at hw
  exact hw

theorem strand_eq_filter (hL : c.Linear L) (h : c.Linked) (w : Wire) :
    c.strand w = L.filter (· ∈ c.strand w) :=
  Strand.eq_filter_of_sublist (hL.nodup h) (hL.sublist w)

/-- On each of its strands, a vertex comes right after the last one in front of it. -/
theorem prev?_eq_getLast? (h : c.Linked) {A B : List VertexId} {v : VertexId} {w : Wire}
    (hL : c.Linear (A ++ v :: B)) (hv : v ∈ c.strand w) :
    c.prev? w v = (A.filter (· ∈ c.strand w)).getLast? := by
  have hs := hL.strand_eq_filter h w
  rw [List.filter_append, List.filter_cons_of_pos (by simpa using hv)] at hs
  have hnot := Strand.notMem_of_nodup_append (hs ▸ strand_nodup _ w)
  exact (congrArg (Strand.prev? v) hs).trans (Strand.prev?_append hnot.1 hnot.2)

/-- A strand with two vertices that stand side by side in a linear order has them side by side. -/
theorem strand_eq_append (h : c.Linked) {A B : List VertexId} {a b : VertexId} {w : Wire}
    (hL : c.Linear (A ++ a :: b :: B)) (ha : a ∈ c.strand w) (hb : b ∈ c.strand w) :
    c.strand w = A.filter (· ∈ c.strand w) ++ a :: b :: B.filter (· ∈ c.strand w) := by
  have hs := hL.strand_eq_filter h w
  rw [List.filter_append, List.filter_cons_of_pos (by simpa using ha),
    List.filter_cons_of_pos (by simpa using hb)] at hs
  exact hs

theorem commutable_of_append (h : c.Linked) {A B : List VertexId} {a b : VertexId} {w : Wire}
    (hL : c.Linear (A ++ a :: b :: B)) (ha : a ∈ c.strand w) (hb : b ∈ c.strand w) :
    c.Commutable a b := by
  have hnext : ∀ w, a ∈ c.strand w → b ∈ c.strand w → c.next? w a = some b := by
    intro w ha hb
    rw [next?, Strand.next?_eq_some_iff (strand_nodup _ w)]
    exact ⟨_, _, strand_eq_append h hL ha hb⟩
  exact h.commutable_iff.2 ⟨h.mem_successors_iff.2 ⟨w, hnext w ha hb⟩, hnext⟩

/-- Commuting two vertices that stand side by side swaps them in the order. -/
theorem swapped (h : c.Linked) {A B : List VertexId} {a b : VertexId}
    (hL : c.Linear (A ++ a :: b :: B)) : (c.swapped a b).Linear (A ++ b :: a :: B) where
  perm := by
    rw [ids_swapped]
    exact ((List.Perm.swap a b B).append_left A).trans hL.perm
  sublist := by
    intro w
    rw [strand_swapped]
    by_cases hboth : a ∈ c.strand w ∧ b ∈ c.strand w
    · have hs := strand_eq_append h hL hboth.1 hboth.2
      have hns := c.strand_nodup w
      rw [hs] at hns
      rw [hs, Strand.exchange_append b _ (Strand.notMem_of_nodup_append hns).1]
      exact List.filter_sublist.append ((List.filter_sublist.cons_cons a).cons_cons b)
    · -- a strand without one of the two does not see the swap
      have hne : Strand.next? a (c.strand w) ≠ some b := fun hn => hboth (mem_of_next? hn)
      have hpair : [a, b].filter (· ∈ c.strand w) = [b, a].filter (· ∈ c.strand w) := by
        by_cases ha : a ∈ c.strand w
        · have hb : b ∉ c.strand w := fun hb => hboth ⟨ha, hb⟩
          simp [ha, hb]
        · simp [List.filter_cons, ha]
      have hs : c.strand w = (A ++ b :: a :: B).filter (· ∈ c.strand w) := by
        calc c.strand w = (A ++ ([a, b] ++ B)).filter (· ∈ c.strand w) := hL.strand_eq_filter h w
          _ = (A ++ ([b, a] ++ B)).filter (· ∈ c.strand w) := by
            rw [List.filter_append, List.filter_append, hpair, ← List.filter_append,
              ← List.filter_append]
      rw [Strand.exchange_eq_self hne, hs]
      exact List.filter_sublist

end Linear

/-! ## Proper circuits -/

/-- A circuit with its links in order, whose gates sit on the strands of their wires, and whose
edges form no cycle. -/
structure Proper (c : Circuit) : Prop where
  linked : c.Linked
  aligned : c.Aligned
  acyclic : c.Acyclic

theorem Proper.of_linear {c : Circuit} {L : List VertexId} (h : c.Linked) (ha : c.Aligned)
    (hL : c.Linear L) : c.Proper :=
  ⟨h, ha, hL.acyclic h⟩

/-- As long as a gate is only overwritten by one with the same wires, only a cycle can be amiss. -/
theorem Reachable.proper {c : Circuit} (h : Reachable Gate.SameWires c) (hac : c.Acyclic) :
    c.Proper :=
  ⟨h.linked, h.aligned fun _ _ => id, hac⟩

theorem Proper.linear_order {c : Circuit} (h : c.Proper) : c.Linear c.order :=
  h.linked.linear_order h.acyclic

theorem Proper.without {c : Circuit} (h : c.Proper) (v : VertexId) : (c.without v).Proper :=
  .of_linear (h.linked.without v) (h.aligned.without v) (h.linear_order.without v)

theorem Proper.modify {c : Circuit} (h : c.Proper) {v : VertexId} {f : Gate → Gate}
    (hf : ∀ g, c.gate? v = some g → g.SameWires (f g)) : (c.modify v f).Proper :=
  .of_linear (h.linked.modify v f) (h.aligned.modify hf) (h.linear_order.modify v f)

end Peephole.Circuit
