import Peephole.Proofs.Circuit.Inspection
import Peephole.Proofs.Circuit.Neighbours
import Peephole.Proofs.Gate

/-!
# Commutations

A commutation looks at the strands that its two vertices share and at nothing else. Whatever state
the circuit is in, it can be undone by commuting back. Whether it closes a cycle is a question of
paths: it does exactly when a second way leads from the first vertex to the other one, since that
way is still there when the edge between the two has been turned around.

* `Linked.commutable_swapped`, `Commutable.swapped_swapped`: commuting back.
* `Alike`: two vertices are in the same order on all strands they share, whatever was done
  (`Reachable.alike`).
* `Linked.transGen_swapped`: all edges but the one turned around are still paths.
* `Linked.not_acyclic_swapped`: a second way closes a cycle.
* `Proper.exists_linear_swapped`: without one, the two vertices change places in a linear order.
-/

namespace Peephole.Circuit

open Relation (TransGen ReflTransGen)

variable {c d : Circuit} {a b : VertexId}

/-! ## Commuting back -/

/-- Two vertices that can be commuted are joined in one direction only. -/
theorem Linked.not_edge_of_commutable (h : c.Linked) (hab : c.Commutable a b) : ¬ c.Edge b a := by
  intro hba
  obtain ⟨-, hnext⟩ := h.commutable_iff.1 hab
  obtain ⟨w, hw⟩ := h.mem_successors_iff.1 hba
  obtain ⟨hb, ha⟩ := mem_of_next? hw
  have hforth := Strand.pair_sublist_of_next? (c.strand_nodup w) (hnext w ha hb)
  have hback := Strand.pair_sublist_of_next? (c.strand_nodup w) hw
  exact Strand.not_sublist_swap (c.strand_nodup w) hforth hback

/-- Vertices that were commuted can be commuted back. -/
theorem Linked.commutable_swapped (h : c.Linked) (hab : c.Commutable a b) :
    (c.swapped a b).Commutable b a := by
  obtain ⟨hedge, hnext⟩ := h.commutable_iff.1 hab
  -- on a strand that has both, the second now comes right before the first
  have hturned : ∀ w, a ∈ c.strand w → b ∈ c.strand w → (c.swapped a b).next? w b = some a := by
    intro w ha hb
    rw [next?, strand_swapped, Strand.next?_exchange (c.strand_nodup w) (hnext w ha hb),
      if_neg hab.ne.symm, if_pos rfl]
  refine (h.swapped a b).commutable_iff.2 ⟨?_, fun w hb ha => ?_⟩
  · obtain ⟨w, hw⟩ := h.mem_successors_iff.1 hedge
    obtain ⟨ha, hb⟩ := mem_of_next? hw
    exact (h.swapped a b).mem_successors_iff.2 ⟨w, hturned w ha hb⟩
  · rw [strand_swapped, Strand.mem_exchange] at ha hb
    exact hturned w ha hb

/-- Commuting back gives the circuit as it was. -/
theorem Commutable.swapped_swapped (hab : c.Commutable a b) :
    (c.swapped a b).swapped b a = c := by
  have hstrands : c.strands.map (fun s => (s.1, Strand.exchange b a (Strand.exchange a b s.2)))
      = c.strands := by
    refine (List.map_congr_left fun s hs => ?_).trans (List.map_id _)
    exact Prod.ext rfl (Strand.exchange_exchange (c.nodup s hs) (hab.adjacent s hs))
  obtain ⟨width, gates, strands, nodup⟩ := c
  simp only [Circuit.swapped, List.map_map, Circuit.mk.injEq, true_and]
  exact hstrands

/-! ## The order of two vertices -/

/-- Two vertices are in the same order on all strands they share. -/
def Alike (c : Circuit) : Prop :=
  ∀ w u x y, [x, y].Sublist (c.strand w) → ¬ [y, x].Sublist (c.strand u)

theorem Linear.alike {L : List VertexId} (hL : c.Linear L) (h : c.Linked) : c.Alike := by
  intro w u x y hw hu
  exact Strand.not_sublist_swap (hL.nodup h) (hw.trans (hL.sublist w))
    (hu.trans (hL.sublist u))

theorem Alike.without (h : c.Alike) (v : VertexId) : (c.without v).Alike := by
  intro w u x y hw hu
  rw [strand_without] at hw hu
  exact h w u x y (hw.trans List.filter_sublist) (hu.trans List.filter_sublist)

theorem Alike.swapped (h : c.Alike) (hc : c.Linked) (hab : c.Commutable a b) :
    (c.swapped a b).Alike := by
  -- commuting back leaves all pairs in order but the one that was turned around
  have hback : ∀ {w x y}, [x, y].Sublist ((c.swapped a b).strand w) → ¬ (x = b ∧ y = a) →
      [x, y].Sublist (c.strand w) := by
    intro w x y hxy hne
    have hexchanged := Strand.pair_sublist_exchange hxy hne
    rwa [← strand_swapped, hab.swapped_swapped] at hexchanged
  have hturned : ∀ {w}, ¬ [a, b].Sublist ((c.swapped a b).strand w) := by
    intro w hw
    have hnext := ((hc.swapped a b).commutable_iff.1 (hc.commutable_swapped hab)).2 w
      (Strand.mem_right_of_pair_sublist hw) (Strand.mem_left_of_pair_sublist hw)
    have hnodup := (c.swapped a b).strand_nodup w
    exact Strand.not_sublist_swap hnodup hw (Strand.pair_sublist_of_next? hnodup hnext)
  intro w u x y hw hu
  by_cases hxy : x = b ∧ y = a
  · obtain ⟨rfl, rfl⟩ := hxy
    exact hturned hu
  · by_cases hyx : y = b ∧ x = a
    · obtain ⟨rfl, rfl⟩ := hyx
      exact hturned hw
    · exact h w u x y (hback hw hxy) (hback hu hyx)

theorem Reachable.alike {allowed : Gate → Gate → Prop} (h : Reachable allowed c) : c.Alike := by
  induction h with
  | empty width => exact (Linear.ofGates width []).alike (.ofGates width [])
  | build hb =>
      obtain ⟨-, rfl⟩ := build_eq_ok_iff.1 hb
      exact (Linear.ofGates _ _).alike (.ofGates _ _)
  | remove _ hr ih =>
      obtain ⟨-, -, -, rfl⟩ := remove_eq_ok_iff.1 hr
      exact ih.without _
  | commute hc hcomm ih =>
      obtain ⟨hab, rfl⟩ := commute_eq_ok_iff.1 hcomm
      exact ih.swapped hc.linked hab
  | modify _ _ ih => exact ih
  | restore _ hr ih =>
      obtain ⟨-, -, rfl⟩ := restore_eq_ok_iff.1 hr
      exact (Linear.ofGates _ _).alike (.ofGates _ _)

/-- A vertex between two others tells them apart. -/
theorem Alike.ne_of_edges (h : c.Alike) (hc : c.Linked) {x n y : VertexId} (hxn : c.Edge x n)
    (hny : c.Edge n y) : x ≠ y := by
  rintro rfl
  obtain ⟨t, ht⟩ := hc.pair_sublist_of_edge hxn
  obtain ⟨u, hu⟩ := hc.pair_sublist_of_edge hny
  exact h t u x n ht hu

/-! ## Cycles -/

/-- Every edge but the one that is turned around is still a path. -/
theorem Linked.transGen_swapped (h : c.Linked) {x y : VertexId} (hxy : c.Edge x y)
    (hne : ¬ (x = a ∧ y = b)) : TransGen (c.swapped a b).Edge x y := by
  obtain ⟨w, hw⟩ := h.pair_sublist_of_edge hxy
  refine (h.swapped a b).transGen_of_pair_sublist (w := w) ?_
  rw [strand_swapped]
  exact Strand.pair_sublist_exchange hw hne

/-- A path that starts behind the first vertex does not use the edge that is turned around. -/
theorem Linked.reflTransGen_swapped (h : c.Linked) (hac : c.Acyclic) {y z : VertexId}
    (hay : TransGen c.Edge a y) (hyz : ReflTransGen c.Edge y z) :
    ReflTransGen (c.swapped a b).Edge y z := by
  induction hyz using ReflTransGen.head_induction_on with
  | refl => exact .refl
  | @head y x hyx _ ih =>
      have hya : y ≠ a := by
        rintro rfl
        exact hac y hay
      have hpath : TransGen (c.swapped a b).Edge y x :=
        h.transGen_swapped hyx fun he => hya he.1
      exact hpath.to_reflTransGen.trans (ih (hay.tail hyx))

/-- Where a second way leads to the other vertex, a commutation closes a cycle. -/
theorem Linked.not_acyclic_swapped (h : c.Linked) (hac : c.Acyclic) (hab : c.Commutable a b)
    {y : VertexId} (hay : c.Edge a y) (hne : y ≠ b) (hyb : ReflTransGen c.Edge y b) :
    ¬ (c.swapped a b).Acyclic := by
  intro hac'
  have hout : TransGen (c.swapped a b).Edge a y := h.transGen_swapped hay fun he => hne he.2
  have hon : ReflTransGen (c.swapped a b).Edge y b := h.reflTransGen_swapped hac (.single hay) hyb
  have hback : (c.swapped a b).Edge b a := (h.commutable_swapped hab).edge
  exact hac' a ((hout.trans_left hon).tail hback)

/-- Where no second way leads to the other vertex, the two can be commuted, and change places in a
linear order. -/
theorem Proper.exists_linear_swapped (hc : c.Proper) (hab : c.Edge a b)
    (hd : c.hasDetour a b b = false) :
    c.Commutable a b ∧
      ∃ A B, c.Linear (A ++ a :: b :: B) ∧ (c.swapped a b).Linear (A ++ b :: a :: B) := by
  have honly : ∀ y, c.Edge a y → y = b ∨ ¬ ReflTransGen c.Edge y b := by
    intro y hy
    by_cases hyb : y = b
    · exact Or.inl hyb
    · exact Or.inr (hc.linked.not_reflTransGen_of_hasDetour hd hy hyb)
  obtain ⟨A, B, hL⟩ := hc.gather_pair hab honly
  have hL' : c.Linear (A ++ a :: b :: B) := by simpa using hL
  obtain ⟨w, hw⟩ := hc.linked.mem_successors_iff.1 hab
  obtain ⟨ha, hb⟩ := mem_of_next? hw
  exact ⟨hL'.commutable_of_append hc.linked ha hb, A, B, hL', hL'.swapped hc.linked⟩

/-- However an acyclic circuit came about, as long as its gates have kept their wires, an edge can
be commuted safely exactly when no second way leads from its first vertex to the other one. A detour
is found if and only if there is such a way. If there is none, the commutation is carried out, the
result is acyclic, and in some topological order the two vertices stand side by side and need only
change places. If there is one, the commutation is refused and nothing has changed, or it is carried
out and closes a cycle. -/
theorem commute_of_reachable (hc : Reachable Gate.SameWires c) (hac : c.Acyclic)
    (hab : c.Edge a b) :
    (c.hasDetour a b b = true ↔ ∃ y, c.Edge a y ∧ y ≠ b ∧ ReflTransGen c.Edge y b) ∧
      (c.hasDetour a b b = false → ∃ d, c.commute a b = .ok d ∧ d.Acyclic ∧
        ∃ A B, c.Topological (A ++ a :: b :: B) ∧ d.Topological (A ++ b :: a :: B)) ∧
      (c.hasDetour a b b = true →
        (c.commute a b = .error (.notAdjacent a b) ∧
          c.applyAll [.commute a b] = (c, some (.notAdjacent a b))) ∨
        ∃ d, c.commute a b = .ok d ∧ ¬ d.Acyclic) := by
  have hproper := hc.proper hac
  have hlinked := hc.linked
  refine ⟨hlinked.hasDetour_eq_true_iff, fun hd => ?_, fun hd => ?_⟩
  · obtain ⟨hcomm, A, B, hL, hL'⟩ := hproper.exists_linear_swapped hab hd
    have hlinked' := hlinked.swapped a b
    exact ⟨_, commute_eq_ok_iff.2 ⟨hcomm, rfl⟩, hL'.acyclic hlinked', A, B,
      hlinked.topological_iff.2 hL, hlinked'.topological_iff.2 hL'⟩
  · obtain ⟨y, hay, hne, hyb⟩ := hlinked.hasDetour_eq_true_iff.1 hd
    by_cases hcomm : c.Commutable a b
    · exact Or.inr ⟨_, commute_eq_ok_iff.2 ⟨hcomm, rfl⟩,
        hlinked.not_acyclic_swapped hac hcomm hay hne hyb⟩
    · have hlive := (hlinked.live_of_mem_successors hab).1
      have herror : c.commute a b = .error (.notAdjacent a b) :=
        hlinked.commute_eq_error_iff.2 (Or.inr ⟨rfl, hlive, hcomm⟩)
      refine Or.inl ⟨herror, ?_⟩
      rw [applyAll, Edit.apply, herror]

/-- Of three controlled nots, the second and the third follow the first. The first can be commuted
with the second, but with the third only at the price of a cycle. -/
theorem commute_of_reachable_detour :
    ∃ c, build 3 [.cnot [0] 1, .cnot [1] 2, .cnot [0] 2] = .ok c ∧ c.successors 0 = [1, 2] ∧
      (c.hasDetour 0 1 1 = false ∧ ∃ d, c.commute 0 1 = .ok d ∧ d.Acyclic ∧
        ∃ A B, c.Topological (A ++ 0 :: 1 :: B) ∧ d.Topological (A ++ 1 :: 0 :: B)) ∧
      c.hasDetour 0 2 2 = true ∧ ∃ d, c.commute 0 2 = .ok d ∧ ¬ d.Acyclic := by
  have hbuild : build 3 [.cnot [0] 1, .cnot [1] 2, .cnot [0] 2]
      = .ok (ofGates 3 [.cnot [0] 1, .cnot [1] 2, .cnot [0] 2]) := rfl
  have hcommute : (ofGates 3 [.cnot [0] 1, .cnot [1] 2, .cnot [0] 2]).commute 0 2
      = .ok ((ofGates 3 [.cnot [0] 1, .cnot [1] 2, .cnot [0] 2]).swapped 0 2) := rfl
  have hac := (Proper.ofGates 3 [.cnot [0] 1, .cnot [1] 2, .cnot [0] 2]).acyclic
  have hnone : (ofGates 3 [.cnot [0] 1, .cnot [1] 2, .cnot [0] 2]).hasDetour 0 1 1 = false := by cbv
  have hone : (ofGates 3 [.cnot [0] 1, .cnot [1] 2, .cnot [0] 2]).hasDetour 0 2 2 = true := by cbv
  have h₁ : (ofGates 3 [.cnot [0] 1, .cnot [1] 2, .cnot [0] 2]).Edge 0 1 := by
    show 1 ∈ [1, 2]
    simp
  have h₂ : (ofGates 3 [.cnot [0] 1, .cnot [1] 2, .cnot [0] 2]).Edge 0 2 := by
    show 2 ∈ [1, 2]
    simp
  have hsafe := (commute_of_reachable (.build hbuild) hac h₁).2.1 hnone
  refine ⟨_, hbuild, rfl, ⟨hnone, hsafe⟩, hone, ?_⟩
  refine ((commute_of_reachable (.build hbuild) hac h₂).2.2 hone).resolve_left fun h => ?_
  cases hcommute.symm.trans h.1

end Peephole.Circuit
