import Peephole.Circuit.Neighbours
import Peephole.Proofs.Circuit.Block

/-!
# What queries about neighbours say

The queries of the optimizer in terms of edges and gates: an only successor is the end of every
edge, a hit of a search is the end of one edge with the gate asked for, and without a detour no
other edge leads on to the goal.

* `gateOf_eq_ok_iff`: the gate of a vertex that has to be there.
* `Linked.hasDetour_eq_true_iff`: a detour is found exactly when there is one.
* `Linked.edge_unique_right`, `Linked.edge_unique_left`: a vertex on one wire has at most one
  neighbour on each side.
-/

namespace Peephole.Circuit

open Relation (TransGen ReflTransGen)

variable {c : Circuit}

/-! ## Lookups that can fail -/

section Fallible

variable {ε α β : Type}

theorem bind_eq_ok_iff {x : Except ε α} {f : α → Except ε β} {b : β} :
    (x >>= f) = .ok b ↔ ∃ a, x = .ok a ∧ f a = .ok b := by
  cases x with
  | error e => simp [bind, Except.bind]
  | ok a => simp [bind, Except.bind]

theorem exists_bind_eq_ok {x : Except ε α} {f : α → Except ε β} (hx : ∃ a, x = .ok a)
    (hf : ∀ a, x = .ok a → ∃ b, f a = .ok b) : ∃ b, (x >>= f) = .ok b := by
  obtain ⟨a, ha⟩ := hx
  obtain ⟨b, hb⟩ := hf a ha
  exact ⟨b, bind_eq_ok_iff.2 ⟨a, ha, hb⟩⟩

/-- A hit of a search is one of its tries. -/
theorem exists_of_findSomeM?_eq_some {f : α → Except ε (Option β)} {l : List α} {b : β}
    (h : l.findSomeM? f = .ok (some b)) : ∃ a ∈ l, f a = .ok (some b) := by
  induction l with
  | nil => cases h
  | cons a rest ih =>
      rw [List.findSomeM?_cons, bind_eq_ok_iff] at h
      obtain ⟨r, hr, h⟩ := h
      cases r with
      | some b' => exact ⟨a, List.mem_cons_self, hr.trans h⟩
      | none =>
          obtain ⟨x, hx, hfx⟩ := ih h
          exact ⟨x, List.mem_cons_of_mem a hx, hfx⟩

/-- A search does not fail if none of its tries does. -/
theorem exists_findSomeM?_eq_ok {f : α → Except ε (Option β)} {l : List α}
    (h : ∀ a ∈ l, ∃ r, f a = .ok r) : ∃ r, l.findSomeM? f = .ok r := by
  induction l with
  | nil => exact ⟨none, rfl⟩
  | cons a rest ih =>
      rw [List.forall_mem_cons] at h
      obtain ⟨r, hr⟩ := h.1
      rw [List.findSomeM?_cons, hr]
      cases r with
      | some b => exact ⟨some b, rfl⟩
      | none => exact ih h.2

end Fallible

theorem gateOf_eq_ok_iff {v : VertexId} {g : Gate} :
    c.gateOf v = .ok g ↔ c.gate? v = some g := by
  rw [gateOf]
  cases c.gate? v with
  | none => simp
  | some k => simp

theorem exists_gateOf_eq_ok {v : VertexId} (hv : v ∈ c.ids) : ∃ g, c.gateOf v = .ok g := by
  obtain ⟨g, hg⟩ := mem_ids.1 hv
  exact ⟨g, gateOf_eq_ok_iff.2 hg⟩

/-! ## Neighbours -/

theorem holds_eq_true_iff {p : Gate → Bool} {v : VertexId} :
    c.holds p v = true ↔ ∃ g, c.gate? v = some g ∧ p g = true := by
  rw [holds, Option.any_eq_true]

theorem onlySuccessor?_eq_some_iff {v x : VertexId} :
    c.onlySuccessor? v = some x ↔ c.successors v = [x] := by
  rw [onlySuccessor?]
  split
  · rename_i y hy
    rw [hy]
    simp
  · rename_i hne
    refine ⟨nofun, fun hx => absurd hx (hne x)⟩

theorem edge_of_onlySuccessor? {v x : VertexId} (h : c.onlySuccessor? v = some x) : c.Edge v x := by
  rw [Edge, onlySuccessor?_eq_some_iff.1 h]
  exact List.mem_singleton_self x

theorem eq_of_onlySuccessor? {v x y : VertexId} (h : c.onlySuccessor? v = some x)
    (hy : c.Edge v y) : y = x := by
  rw [Edge, onlySuccessor?_eq_some_iff.1 h] at hy
  exact List.mem_singleton.1 hy

theorem of_successorWhere? {v x : VertexId} {p : Gate → Bool}
    (h : c.successorWhere? v p = some x) : c.Edge v x ∧ ∃ g, c.gate? x = some g ∧ p g = true :=
  ⟨List.mem_of_find?_eq_some h, holds_eq_true_iff.1 (List.find?_some h)⟩

theorem of_predecessorWhere? (hc : c.Linked) {v x : VertexId} {p : Gate → Bool}
    (h : c.predecessorWhere? v p = some x) : c.Edge x v ∧ ∃ g, c.gate? x = some g ∧ p g = true :=
  ⟨hc.mem_successors_iff_mem_predecessors.2 (List.mem_of_find?_eq_some h),
    holds_eq_true_iff.1 (List.find?_some h)⟩

theorem mem_forwardPairs {v : VertexId} {p : VertexId × VertexId} :
    p ∈ c.forwardPairs v ↔ c.Edge v p.1 ∧ c.Edge p.1 p.2 := by
  obtain ⟨a, b⟩ := p
  simp only [forwardPairs, List.mem_flatMap, List.mem_map, Prod.mk.injEq]
  constructor
  · rintro ⟨x, hx, y, hy, rfl, rfl⟩
    exact ⟨hx, hy⟩
  · rintro ⟨ha, hb⟩
    exact ⟨a, ha, b, hb, rfl, rfl⟩

/-! ## Detours -/

/-- A detour is found exactly when another successor reaches the goal. -/
theorem Linked.hasDetour_eq_true_iff (h : c.Linked) {start via goal : VertexId} :
    c.hasDetour start via goal = true ↔
      ∃ y, c.Edge start y ∧ y ≠ via ∧ ReflTransGen c.Edge y goal := by
  have hmem : ∀ y, y ∈ ((c.successors start).filter (· ≠ via)).reverse ↔
      c.Edge start y ∧ y ≠ via := by
    intro y
    rw [List.mem_reverse, List.mem_filter, decide_eq_true_eq]
    rfl
  have hlive : ∀ v, ∀ w ∈ c.successors v, w ∈ c.ids := fun v w hw => (h.live_of_mem_successors hw).2
  rw [hasDetour, Traversal.meets_eq_true_iff (fun v _ => hlive v)
    fun y hy => hlive start y ((hmem y).1 hy).1]
  refine exists_congr fun y => ?_
  rw [hmem, and_assoc]
  rfl

/-- If no detour is found, no successor but the one named reaches the goal. -/
theorem Linked.not_reflTransGen_of_hasDetour (h : c.Linked) {start via goal y : VertexId}
    (hd : c.hasDetour start via goal = false) (hy : c.Edge start y) (hne : y ≠ via) :
    ¬ ReflTransGen c.Edge y goal := by
  intro hpath
  rw [h.hasDetour_eq_true_iff.2 ⟨y, hy, hne, hpath⟩] at hd
  cases hd

/-! ## Vertices on one wire -/

theorem Linked.edge_unique_right (h : c.Linked) {t : Wire} {v x y : VertexId}
    (hv : ∀ w, v ∈ c.strand w → w = t) (hx : c.Edge v x) (hy : c.Edge v y) : x = y := by
  obtain ⟨w, hw⟩ := h.mem_successors_iff.1 hx
  obtain ⟨u, hu⟩ := h.mem_successors_iff.1 hy
  rw [hv w (mem_of_next? hw).1] at hw
  rw [hv u (mem_of_next? hu).1, hw] at hu
  exact Option.some.inj hu

theorem Linked.edge_unique_left (h : c.Linked) {t : Wire} {v x y : VertexId}
    (hv : ∀ w, v ∈ c.strand w → w = t) (hx : c.Edge x v) (hy : c.Edge y v) : x = y := by
  obtain ⟨w, hw⟩ := h.mem_successors_iff.1 hx
  obtain ⟨u, hu⟩ := h.mem_successors_iff.1 hy
  rw [hv w (mem_of_next? hw).2, next?_eq_some_iff_prev?] at hw
  rw [hv u (mem_of_next? hu).2, next?_eq_some_iff_prev?, hw] at hu
  exact Option.some.inj hu

/-- A vertex on a single wire whose one successor is in the block. -/
theorem Linked.beside_before (h : c.Linked) {S : List VertexId} {a s x : VertexId} {t : Wire}
    (hs : ∀ w, s ∈ c.strand w → w = t) (hpath : TransGen c.Edge s a) (hsx : c.Edge s x)
    (hx : x ∈ S) : Beside c S a s := by
  refine .before hpath fun y hy => Or.inl ?_
  rwa [h.edge_unique_right hs hy hsx]

/-- A vertex on a single wire whose one predecessor is in the block. -/
theorem Linked.beside_after (h : c.Linked) {S : List VertexId} {a s x : VertexId} {t : Wire}
    (hs : ∀ w, s ∈ c.strand w → w = t) (hpath : TransGen c.Edge a s) (hxs : c.Edge x s)
    (hx : x ∈ S) : Beside c S a s := by
  refine .after hpath fun y hy => ?_
  rwa [h.edge_unique_left hs hy hxs]

theorem Aligned.wire_eq (h : c.Aligned) {v : VertexId} {g : Gate} {t : Wire}
    (hg : c.gate? v = some g) (ht : g.wires = [t]) (w : Wire) (hv : v ∈ c.strand w) : w = t := by
  have := (h v g hg w).1 hv
  rw [ht] at this
  exact List.mem_singleton.1 this

end Peephole.Circuit
