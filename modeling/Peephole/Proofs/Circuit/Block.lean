import Mathlib.Data.List.Chain
import Mathlib.Order.Defs.Unbundled
import Peephole.Proofs.Circuit.Linear

/-!
# Blocks

Some vertices of a circuit can be brought together in a linear order when no path leaves them and
comes back: everything that can be reached from them goes behind, and all the rest in front. To
see that no path comes back it is enough to look at the edges at the border, with one vertex as an
anchor that every way in leads to and no way out does.

* `Circuit.Convex`: no path leaves the vertices and comes back.
* `Circuit.Beside`, `convex_of_beside`: the test at the border.
* `Proper.gather`: convex vertices form a block of some linear order.
* `Proper.gather_chain`, `Proper.gather_pair`: the same for a chain of edges, and for one edge.
-/

namespace Peephole.Circuit

open Relation (TransGen ReflTransGen)

/-- No path leaves the vertices and comes back to them. -/
def Convex (c : Circuit) (S : List VertexId) : Prop :=
  ∀ x ∈ S, ∀ z ∈ S, ∀ y ∉ S, TransGen c.Edge x y → ¬ TransGen c.Edge y z

/-! ## The border -/

theorem exists_exit {c : Circuit} {S : List VertexId} {x y : VertexId} (hx : x ∈ S) (hy : y ∉ S)
    (h : TransGen c.Edge x y) :
    ∃ s ∈ S, ∃ z ∉ S, c.Edge s z ∧ ReflTransGen c.Edge z y := by
  induction h using TransGen.head_induction_on with
  | single hxy => exact ⟨_, hx, y, hy, hxy, .refl⟩
  | head hxz hzy ih =>
      rename_i x z
      by_cases hz : z ∈ S
      · exact ih hz
      · exact ⟨x, hx, z, hz, hxz, hzy.to_reflTransGen⟩

theorem exists_entry {c : Circuit} {S : List VertexId} {y z : VertexId} (hy : y ∉ S) (hz : z ∈ S)
    (h : TransGen c.Edge y z) :
    ∃ s ∈ S, ∃ x ∉ S, c.Edge x s ∧ ReflTransGen c.Edge y x := by
  induction h with
  | single hyz => exact ⟨_, hz, y, hy, hyz, .refl⟩
  | tail hyx hxz ih =>
      rename_i x z
      by_cases hx : x ∈ S
      · exact ih hx
      · exact ⟨z, hz, x, hx, hxz, hyx.to_reflTransGen⟩

/-- Vertices are convex if every edge into them starts at a vertex that reaches the anchor, and no
edge out of them ends at such a vertex. -/
theorem convex_of_anchor {c : Circuit} {S : List VertexId} (a : VertexId)
    (hout : ∀ s ∈ S, ∀ y, c.Edge s y → y ∈ S ∨ ¬ ReflTransGen c.Edge y a)
    (hin : ∀ s ∈ S, ∀ y, c.Edge y s → y ∈ S ∨ ReflTransGen c.Edge y a) : c.Convex S := by
  intro x hx z hz y hy hxy hyz
  obtain ⟨s, hs, u, hu, hsu, huy⟩ := exists_exit hx hy hxy
  obtain ⟨t, ht, v, hv, hvt, hyv⟩ := exists_entry hy hz hyz
  have hva : ReflTransGen c.Edge v a := (hin t ht v hvt).resolve_left hv
  exact (hout s hs u hsu).resolve_left hu ((huy.trans hyv).trans hva)

/-- How a vertex of a block lies to its anchor: it leads there, and no way out of the block does;
or it comes after the anchor, and can be entered from the block only. -/
inductive Beside (c : Circuit) (S : List VertexId) (a : VertexId) : VertexId → Prop where
  | anchor : Beside c S a a
  | before {s : VertexId} (hpath : TransGen c.Edge s a)
      (hout : ∀ y, c.Edge s y → y ∈ S ∨ ¬ ReflTransGen c.Edge y a) : Beside c S a s
  | after {s : VertexId} (hpath : TransGen c.Edge a s) (hin : ∀ y, c.Edge y s → y ∈ S) :
      Beside c S a s

theorem convex_of_beside {c : Circuit} (hac : c.Acyclic) {S : List VertexId} {a : VertexId}
    (h : ∀ s ∈ S, Beside c S a s) : c.Convex S := by
  refine convex_of_anchor a (fun s hs y hsy => ?_) fun s hs y hys => ?_
  · cases h s hs with
    | anchor => exact Or.inr fun hya => hac a (TransGen.head' hsy hya)
    | before hpath hout => exact hout y hsy
    | after hpath hin => exact Or.inr fun hya => hac a (hpath.trans (TransGen.head' hsy hya))
  · cases h s hs with
    | anchor => exact Or.inr (.single hys)
    | before hpath hout => exact Or.inr (hpath.to_reflTransGen.head hys)
    | after hpath hin => exact Or.inl (hin y hys)

/-- A vertex and a successor that no other way leads to are convex. -/
theorem convex_pair {c : Circuit} (hac : c.Acyclic) {v n : VertexId} (hvn : c.Edge v n)
    (hv : ∀ y, c.Edge v y → y = n ∨ ¬ ReflTransGen c.Edge y n) : c.Convex [v, n] := by
  refine convex_of_beside hac (a := n) ?_
  simp only [List.forall_mem_cons]
  refine ⟨.before (.single hvn) fun y hy => (hv y hy).imp_left ?_, .anchor, List.forall_mem_nil _⟩
  rintro rfl
  simp

/-! ## Gathering -/

section Around

variable {L S s : List VertexId} {p : VertexId → Bool}

/-- Vertices are only moved when those of `S` go between those without and those with a property. -/
theorem perm_around (hL : L.Nodup) (hS : S.Nodup) (hsub : ∀ v ∈ S, v ∈ L) :
    (L.filter (fun y => !(decide (y ∈ S) || p y)) ++ S ++
      L.filter fun y => !decide (y ∈ S) && p y).Perm L := by
  rw [List.append_assoc, List.perm_ext_iff_of_nodup ?_ hL]
  · intro v
    have := hsub v
    simp only [List.mem_append, List.mem_filter, Bool.not_eq_true', Bool.or_eq_false_iff,
      Bool.and_eq_true, decide_eq_false_iff_not]
    by_cases hv : v ∈ S
    · simp [hv, this hv]
    · cases hp : p v <;> simp [hv]
  · refine List.nodup_append.2 ⟨hL.filter _, List.nodup_append.2 ⟨hS, hL.filter _, ?_⟩, ?_⟩
    · rintro x hx y hy rfl
      simp [hx] at hy
    · rintro x hx y hy rfl
      simp only [List.mem_filter, Bool.not_eq_true', Bool.or_eq_false_iff,
        decide_eq_false_iff_not] at hx
      simp [hx.2] at hy

/-- The move respects a strand along which come first the vertices without the property, then
those of `S`, then those with it. -/
theorem sublist_around (hs : s.Sublist L) (hord : (s.filter (· ∈ S)).Sublist S)
    (hafter : s.Pairwise fun x y => x ∈ S ∨ p x = true → p y = true)
    (hbehind : s.Pairwise fun x y => x ∉ S → p x = true → y ∉ S) :
    s.Sublist (L.filter (fun y => !(decide (y ∈ S) || p y)) ++ S ++
      L.filter fun y => !decide (y ∈ S) && p y) := by
  have hsplit := Strand.filter_append_filter_of_pairwise
    (s := s) (p := fun y => decide (y ∈ S) || p y) (hafter.imp fun h hx => by
      simp [h (by simpa using hx)])
  have hsplit' := Strand.filter_append_filter_of_pairwise
    (s := s.filter fun y => decide (y ∈ S) || p y) (p := fun y => !decide (y ∈ S) && p y) (by
      refine ((hafter.and hbehind).filter _).imp fun {x y} h hx => ?_
      simp only [Bool.and_eq_true, Bool.not_eq_true', decide_eq_false_iff_not] at hx ⊢
      exact ⟨h.2 hx.1 hx.2, h.1 (Or.inr hx.2)⟩)
  have hblock : (s.filter fun y => decide (y ∈ S) || p y).filter
      (fun y => !(!decide (y ∈ S) && p y)) = s.filter (· ∈ S) := by
    rw [List.filter_filter]
    refine List.filter_congr fun y _ => ?_
    by_cases hy : y ∈ S
    · simp [hy]
    · simp [hy]
  rw [← hsplit, ← hsplit', hblock, ← List.append_assoc]
  refine ((hs.filter _).append hord).append ?_
  exact (List.filter_sublist.trans hs).filter _

end Around

namespace Proper

variable {c : Circuit} {S : List VertexId}

/-- Convex vertices form a block of some linear order, in any order of their own that agrees with
the strands. -/
theorem gather (hc : c.Proper) (hS : S.Nodup) (hlive : ∀ s ∈ S, s ∈ c.ids)
    (hord : ∀ w, ((c.strand w).filter (· ∈ S)).Sublist S) (hconv : c.Convex S) :
    ∃ A B, c.Linear (A ++ S ++ B) := by
  classical
  have hL := hc.linear_order
  have hpath : ∀ w x y, [x, y].Sublist (c.strand w) → TransGen c.Edge x y :=
    fun w x y hxy => hc.linked.transGen_of_pair_sublist hxy
  -- what can be reached from the block goes behind it
  let later : VertexId → Prop := fun y => ∃ x ∈ S, TransGen c.Edge x y
  refine ⟨c.order.filter fun y => !(decide (y ∈ S) || decide (later y)),
    c.order.filter fun y => !decide (y ∈ S) && decide (later y), ?_, fun w => ?_⟩
  · have hsub : ∀ v ∈ S, v ∈ c.order := fun v hv => hL.perm.mem_iff.2 (hlive v hv)
    exact (perm_around (hL.nodup hc.linked) hS hsub).trans hL.perm
  · refine sublist_around (hL.sublist w) (hord w) ?_ ?_
    · rw [List.pairwise_iff_forall_sublist]
      intro x y hxy hx
      rw [decide_eq_true_eq] at hx ⊢
      rcases hx with hx | ⟨u, hu, hux⟩
      · exact ⟨x, hx, hpath w x y hxy⟩
      · exact ⟨u, hu, hux.trans (hpath w x y hxy)⟩
    · rw [List.pairwise_iff_forall_sublist]
      intro x y hxy hxS hx hy
      rw [decide_eq_true_eq] at hx
      obtain ⟨u, hu, hux⟩ := hx
      exact hconv u hu y hy x hxS hux (hpath w x y hxy)

/-- Convex vertices form a block of some linear order, in any order of their own in which each
comes before those that it leads to on a strand. -/
theorem gather_of_pairwise (hc : c.Proper) (hlive : ∀ s ∈ S, s ∈ c.ids)
    (hord : S.Pairwise fun a b => TransGen c.Edge a b ∨ ∀ w, a ∈ c.strand w → b ∉ c.strand w)
    (hconv : c.Convex S) : ∃ A B, c.Linear (A ++ S ++ B) := by
  have hS : S.Nodup := List.pairwise_iff_forall_sublist.2 fun {a b} hab => by
    rintro rfl
    rcases List.pairwise_iff_forall_sublist.1 hord hab with hback | hapart
    · exact hc.acyclic a hback
    · -- a vertex is apart from itself only if it is on no strand
      obtain ⟨g, hg⟩ := mem_ids.1 (hlive a (Strand.mem_left_of_pair_sublist hab))
      have ha : a ∈ c.strand g.target := (hc.aligned a g hg g.target).2 (by simp [Gate.wires])
      exact hapart g.target ha ha
  refine hc.gather hS hlive (fun w => ?_) hconv
  refine Strand.sublist_of_pairs ((strand_nodup _ w).filter _) hS (fun a ha => ?_)
    fun a b hab => ?_
  · simpa using List.of_mem_filter ha
  · have hstrand : [a, b].Sublist (c.strand w) := hab.trans List.filter_sublist
    have hpath := hc.linked.transGen_of_pair_sublist hstrand
    have haS : a ∈ S := by simpa using List.of_mem_filter (Strand.mem_left_of_pair_sublist hab)
    have hbS : b ∈ S := by simpa using List.of_mem_filter (Strand.mem_right_of_pair_sublist hab)
    have hne : a ≠ b := by
      rintro rfl
      exact hc.acyclic a hpath
    refine (Strand.pair_sublist_or haS hbS hne).resolve_right fun hba => ?_
    rcases List.pairwise_iff_forall_sublist.1 hord hba with hback | hapart
    · exact hc.acyclic a (hpath.trans hback)
    · exact hapart w (Strand.mem_right_of_pair_sublist hstrand)
        (Strand.mem_left_of_pair_sublist hstrand)

/-- A convex chain of edges forms a block of some linear order. -/
theorem gather_chain (hc : c.Proper) (hchain : S.IsChain c.Edge) (hlive : ∀ s ∈ S, s ∈ c.ids)
    (hconv : c.Convex S) : ∃ A B, c.Linear (A ++ S ++ B) := by
  have hpath : S.Pairwise (TransGen c.Edge) :=
    (hchain.imp fun _ _ hab => TransGen.single hab).pairwise
  exact hc.gather_of_pairwise hlive (hpath.imp Or.inl) hconv

/-- A vertex and a successor that no other way leads to stand side by side in some linear order. -/
theorem gather_pair (hc : c.Proper) {v n : VertexId} (hvn : c.Edge v n)
    (hv : ∀ y, c.Edge v y → y = n ∨ ¬ ReflTransGen c.Edge y n) :
    ∃ A B, c.Linear (A ++ [v, n] ++ B) := by
  obtain ⟨hlive, hnlive⟩ := hc.linked.live_of_mem_successors hvn
  exact hc.gather_chain (by simp [hvn]) (by simp [hlive, hnlive]) (convex_pair hc.acyclic hvn hv)

end Proper

end Peephole.Circuit
