import Peephole.Proofs.Circuit.Inspection
import Peephole.Proofs.Circuit.Renaming
import Peephole.Proofs.Gate

/-!
# Orders of a circuit and gate lists

Gates without a common wire are not ordered in a circuit. So the order of such gates is free when a
circuit is listed, and makes no difference when one is built.

* `Circuit.Apart`: two vertices whose gates have no wire in common.
* `Proper.topological_iff_swaps`: the topological orders are the lists that swaps lead to.
* `positionsOn_swap`, `isomorphic_ofGates_swap`: what a swap in a gate list does to the strands, and
  to the circuit.
-/

namespace Peephole

open Relation (ReflTransGen)

theorem Gate.sharesWire_eq_false_iff {g h : Gate} :
    g.sharesWire h = false ↔ ∀ w ∈ g.wires, w ∉ h.wires := by
  simp only [Gate.sharesWire, List.any_eq_false, Gate.touches_eq_true_iff]

namespace Circuit

variable {c : Circuit} {L : List VertexId}

/-! ## Linear orders -/

/-- The gates of two vertices have no wire in common. -/
def Apart (c : Circuit) (a b : VertexId) : Prop :=
  ∃ g h, c.gate? a = some g ∧ c.gate? b = some h ∧ g.sharesWire h = false

/-- Where gates sit on the strands of their wires, two gates without a common wire are two vertices
without a common strand. -/
theorem Aligned.apart_iff (ha : c.Aligned) {a b : VertexId} :
    c.Apart a b ↔ (a ∈ c.ids ∧ b ∈ c.ids) ∧ ∀ w, a ∈ c.strand w → b ∉ c.strand w := by
  constructor
  · rintro ⟨g, h, hg, hh, hgh⟩
    refine ⟨⟨mem_ids_of_gate? hg, mem_ids_of_gate? hh⟩, fun w haw hbw => ?_⟩
    exact Gate.sharesWire_eq_false_iff.1 hgh w ((ha a g hg w).1 haw) ((ha b h hh w).1 hbw)
  · rintro ⟨⟨hlive, hlive'⟩, hstrand⟩
    obtain ⟨g, hg⟩ := mem_ids.1 hlive
    obtain ⟨h, hh⟩ := mem_ids.1 hlive'
    refine ⟨g, h, hg, hh, Gate.sharesWire_eq_false_iff.2 fun w hwg hwh => ?_⟩
    exact hstrand w ((ha a g hg w).2 hwg) ((ha b h hh w).2 hwh)

/-- The topological orders of a circuit are the lists that swaps of neighbours without a common wire
turn into its own order. -/
theorem Proper.topological_iff_swaps (hc : c.Proper) :
    c.Topological L ↔ ReflTransGen (Swap c.Apart) L c.order := by
  rw [hc.linked.topological_iff]
  constructor
  · intro hL
    refine hL.swaps hc.linked hc.linear_order fun a ha b hb hab => ?_
    exact hc.aligned.apart_iff.2 ⟨⟨ha, hb⟩, hab⟩
  · intro hswaps
    -- back along the swaps, starting with the order
    induction hswaps using ReflTransGen.head_induction_on with
    | refl => exact hc.linear_order
    | head hswap _ ih =>
        refine ih.swap hc.linked (fun a b hab w ha hb => ?_) hswap.symm
        exact (hc.aligned.apart_iff.1 hab).2 w hb ha

/-! ## Gate lists -/

section Neighbours

variable (A : List Gate) (g h : Gate) (B : List Gate)

theorem getElem?_swap (v : VertexId) :
    (A ++ h :: g :: B)[Equiv.swap A.length (A.length + 1) v]? = (A ++ g :: h :: B)[v]? := by
  rcases Nat.lt_or_ge v A.length with hv | hv
  · rw [Equiv.swap_apply_of_ne_of_ne (by omega) (by omega), List.getElem?_append_left hv,
      List.getElem?_append_left hv]
  · obtain ⟨i, rfl⟩ := Nat.exists_eq_add_of_le hv
    match i with
    | 0 => simp
    | 1 => simp
    | i + 2 =>
        rw [Equiv.swap_apply_of_ne_of_ne (by omega) (by omega)]
        simp [List.getElem?_append_right]

theorem map_swap_eq_self {n : VertexId} {s : List VertexId} (hs : ∀ x ∈ s, x ≠ n ∧ x ≠ n + 1) :
    s.map (Equiv.swap n (n + 1)) = s := by
  refine (List.map_congr_left fun x hx => ?_).trans (List.map_id s)
  exact Equiv.swap_apply_of_ne_of_ne (hs x hx).1 (hs x hx).2

theorem positionsOn_swap {g h : Gate} (hgh : g.sharesWire h = false) (w : Wire) :
    positionsOn w (A ++ h :: g :: B) =
      (positionsOn w (A ++ g :: h :: B)).map (Equiv.swap A.length (A.length + 1)) := by
  have hA : ∀ x ∈ positionsOn w A, x ≠ A.length ∧ x ≠ A.length + 1 := by
    intro x hx
    have hlt : x < A.length := List.mem_range.1 ((positionsOn_sublist A w).subset hx)
    exact ⟨hlt.ne, (hlt.trans (Nat.lt_succ_self _)).ne⟩
  have hB : ∀ x ∈ ((B.zipIdx (A.length + 1 + 1)).filter fun p => p.1.touches w).map (·.2),
      x ≠ A.length ∧ x ≠ A.length + 1 := by
    intro x hx
    obtain ⟨p, hp, rfl⟩ := List.mem_map.1 hx
    have := List.le_snd_of_mem_zipIdx (List.mem_filter.1 hp).1
    omega
  have hone : ¬ (g.touches w = true ∧ h.touches w = true) := by
    rw [Gate.touches_eq_true_iff, Gate.touches_eq_true_iff]
    exact fun hw => Gate.sharesWire_eq_false_iff.1 hgh w hw.1 hw.2
  rw [positionsOn_append, positionsOn_append, List.map_append, map_swap_eq_self hA]
  simp only [List.zipIdx_cons, List.filter_cons]
  by_cases hg : g.touches w = true
  · have hh : h.touches w = false := by simpa [hg] using hone
    simp [hg, hh, map_swap_eq_self hB]
  · by_cases hh : h.touches w = true
    · simp [hg, hh, map_swap_eq_self hB]
    · simp [hg, hh, map_swap_eq_self hB]

theorem bijOn_swap {n k : Nat} (hn : n + 1 < k) :
    Set.BijOn (Equiv.swap n (n + 1)) {v | v ∈ List.range k} {v | v ∈ List.range k} := by
  have hmaps : Set.MapsTo (Equiv.swap n (n + 1)) {v | v ∈ List.range k} {v | v ∈ List.range k} := by
    intro v hv
    simp only [Set.mem_ofPred_eq, List.mem_range] at hv ⊢
    rw [Equiv.swap_apply_def]
    split
    · exact hn
    · split
      · omega
      · exact hv
  refine ⟨hmaps, (Equiv.injective _).injOn, fun v hv => ?_⟩
  exact ⟨Equiv.swap n (n + 1) v, hmaps hv, Equiv.swap_apply_self n (n + 1) v⟩

/-- Two neighbours in a gate list that share no wire may change places. All that changes in the
circuit are their two names. -/
theorem isomorphic_ofGates_swap {g h : Gate} (width : Nat) (hgh : g.sharesWire h = false) :
    Isomorphic (Equiv.swap A.length (A.length + 1)) (ofGates width (A ++ g :: h :: B))
      (ofGates width (A ++ h :: g :: B)) := by
  refine (Linked.ofGates _ _).isomorphic_of_strands (Linked.ofGates _ _) rfl ?_ (fun v _ => ?_)
    fun w => ?_
  · have hlen : (A ++ h :: g :: B).length = (A ++ g :: h :: B).length := by simp
    rw [ids_ofGates, ids_ofGates, hlen]
    exact bijOn_swap (by simp)
  · rw [gate?_ofGates, gate?_ofGates, getElem?_swap]
  · rw [strand_ofGates, strand_ofGates, positionsOn_swap A B hgh]

end Neighbours

/-! ## Orders and lists -/

/-- All topological orders of a circuit are the same circuit, and a gate list gives one circuit
whatever the order of gates that share no wire. However an acyclic circuit came about, as long as
its gates have kept their wires, its topological orders are exactly the lists that swaps of
neighbours without a common wire turn into its own order. And if two neighbours without a common
wire change places in a list that a circuit is built from, the same circuit is built from the new
list, but for the two names, which are exchanged. -/
theorem topological_swaps_of_reachable :
    (∀ c, Reachable Gate.SameWires c → c.Acyclic →
      ∀ L, c.Topological L ↔ ReflTransGen (Swap c.Apart) L c.order) ∧
    ∀ width A g h B c, build width (A ++ g :: h :: B) = .ok c → g.sharesWire h = false →
      ∃ d, build width (A ++ h :: g :: B) = .ok d ∧
        Isomorphic (Equiv.swap A.length (A.length + 1)) c d := by
  refine ⟨fun c hc hac L => (hc.proper hac).topological_iff_swaps, ?_⟩
  intro width A g h B c hbuild hgh
  obtain ⟨hfits, rfl⟩ := build_eq_ok_iff.1 hbuild
  have hperm : (A ++ h :: g :: B).Perm (A ++ g :: h :: B) := (List.Perm.swap g h B).append_left A
  refine ⟨_, build_eq_ok_iff.2 ⟨fun k hk => hfits k (hperm.mem_iff.1 hk), rfl⟩, ?_⟩
  exact isomorphic_ofGates_swap A B width hgh

/-- After a commutation the order no longer goes by the names. The last two gates, which share no
wire, may change places in the list. -/
theorem topological_swaps_of_reachable_commuted :
    ∃ c d, build 3 [.cnot [0] 1, .cnot [0] 2, .hadamard 2, .hadamard 1] = .ok c ∧
      c.commute 0 1 = .ok d ∧ d.order = [1, 0, 2, 3] ∧ d.Topological [1, 2, 0, 3] ∧
      ∃ e, build 3 [.cnot [0] 1, .cnot [0] 2, .hadamard 1, .hadamard 2] = .ok e ∧
        Isomorphic (Equiv.swap 2 3) c e := by
  have hbuild : build 3 [.cnot [0] 1, .cnot [0] 2, .hadamard 2, .hadamard 1]
      = .ok (ofGates 3 [.cnot [0] 1, .cnot [0] 2, .hadamard 2, .hadamard 1]) := rfl
  have hcommute : (ofGates 3 [.cnot [0] 1, .cnot [0] 2, .hadamard 2, .hadamard 1]).commute 0 1
      = .ok ((ofGates 3 [.cnot [0] 1, .cnot [0] 2, .hadamard 2, .hadamard 1]).swapped 0 1) := rfl
  have horder : ((ofGates 3 [.cnot [0] 1, .cnot [0] 2, .hadamard 2, .hadamard 1]).swapped 0 1).order
      = [1, 0, 2, 3] := by cbv
  have hreach : Reachable Gate.SameWires ((ofGates 3 [.cnot [0] 1, .cnot [0] 2, .hadamard 2,
      .hadamard 1]).swapped 0 1) := .commute (.build hbuild) hcommute
  have hac := hreach.linked.isCyclic_eq_false_iff.1 (by cbv)
  obtain ⟨htopological, hlist⟩ := topological_swaps_of_reachable
  refine ⟨_, _, hbuild, hcommute, horder, (htopological _ hreach hac _).2 ?_,
    hlist 3 [.cnot [0] 1, .cnot [0] 2] (.hadamard 2) (.hadamard 1) [] _ hbuild rfl⟩
  rw [horder]
  exact .single (.swap [1] [3] ⟨.hadamard 2, .cnot [0] 1, rfl, rfl, rfl⟩)

end Circuit

end Peephole
