import Peephole.Proofs.Circuit.Inspection
import Peephole.Proofs.Gate

/-!
# Depths

The depth of a circuit is computed along its schedule, from the depths of the predecessors. In an
acyclic circuit it is the number of vertices on a longest chain.

* `Circuit.Chain`: vertices that follow each other by edges.
* `Circuit.LongestTo`: the number of vertices on a longest chain that ends in a given one.
* `Linked.exists_longest`: the depth is the length of a longest chain.
* `Linked.depth_of_not_acyclic`: a circuit with a cycle has no depth.
-/

namespace Peephole.Circuit

open Relation (TransGen)

variable {c : Circuit}

/-! ## Chains -/

/-- Vertices of the circuit, with an edge from each one to the next. -/
structure Chain (c : Circuit) (vs : List VertexId) : Prop where
  live : ∀ v ∈ vs, v ∈ c.ids
  edges : vs.IsChain c.Edge

namespace Chain

theorem nil (c : Circuit) : c.Chain [] := ⟨by simp, .nil⟩

theorem singleton {v : VertexId} (hv : v ∈ c.ids) : c.Chain [v] := ⟨by simpa using hv, .singleton v⟩

theorem left {us vs : List VertexId} (h : c.Chain (us ++ vs)) : c.Chain us :=
  ⟨fun v hv => h.live v (List.mem_append_left vs hv), h.edges.left_of_append⟩

theorem concat_concat_iff {us : List VertexId} {p v : VertexId} :
    c.Chain (us ++ [p] ++ [v]) ↔ c.Chain (us ++ [p]) ∧ v ∈ c.ids ∧ c.Edge p v := by
  constructor
  · intro h
    refine ⟨h.left, h.live v (by simp), ?_⟩
    exact (List.isChain_append.1 h.edges).2.2 p (by simp) v (by simp)
  · rintro ⟨h, hv, hpv⟩
    refine ⟨fun x hx => ?_, List.isChain_append.2 ⟨h.edges, .singleton v, ?_⟩⟩
    · rcases List.mem_append.1 hx with hx | hx
      · exact h.live x hx
      · exact List.mem_singleton.1 hx ▸ hv
    · intro x hx y hy
      obtain rfl : p = x := by simpa using hx
      obtain rfl : v = y := by simpa using hy
      exact hpv

end Chain

/-- The longest chains that end in `v` have `n` vertices. -/
structure LongestTo (c : Circuit) (v : VertexId) (n : Nat) : Prop where
  exists_chain : ∃ us, c.Chain (us ++ [v]) ∧ us.length + 1 = n
  length_le : ∀ us, c.Chain (us ++ [v]) → us.length + 1 ≤ n

/-- The longest chains have `n` vertices. -/
structure Longest (c : Circuit) (n : Nat) : Prop where
  exists_chain : ∃ vs, c.Chain vs ∧ vs.length = n
  length_le : ∀ vs, c.Chain vs → vs.length ≤ n

/-! ## Maxima -/

theorem foldl_max_le_iff {ns : List Nat} {b n : Nat} :
    ns.foldl max b ≤ n ↔ b ≤ n ∧ ∀ x ∈ ns, x ≤ n := by
  induction ns generalizing b with
  | nil => simp
  | cons a rest ih =>
      rw [List.foldl_cons, ih, Nat.max_le, List.forall_mem_cons, and_assoc]

theorem foldl_max_eq_or_mem (ns : List Nat) (b : Nat) :
    ns.foldl max b = b ∨ ns.foldl max b ∈ ns := by
  induction ns generalizing b with
  | nil => exact Or.inl rfl
  | cons a rest ih =>
      rcases ih (max b a) with h | h
      · rw [List.foldl_cons, h]
        rcases Nat.le_total a b with hab | hab
        · exact Or.inl (Nat.max_eq_left hab)
        · exact Or.inr (by simp [Nat.max_eq_right hab])
      · exact Or.inr (List.mem_cons_of_mem _ h)

/-! ## The lengths along the schedule -/

/-- What is known after some vertices: for each of them the length of the longest chains that end
in it. -/
structure Measured (c : Circuit) (A : List VertexId) (known : List (VertexId × Nat)) : Prop where
  keys : known.map (·.1) = A.reverse
  longest : ∀ p ∈ known, c.LongestTo p.1 p.2

theorem Measured.lookup {A : List VertexId} {known : List (VertexId × Nat)}
    (h : Measured c A known) {v : VertexId} (hv : v ∈ A) :
    c.LongestTo v ((known.lookup v).getD 0) := by
  have hkey : v ∈ known.map (·.1) := by simpa [h.keys] using hv
  cases hl : known.lookup v with
  | some n =>
      have hmem : (v, n) ∈ known := by
        obtain ⟨A, B, rfl, -⟩ := List.lookup_eq_some_iff.1 hl
        simp
      exact h.longest (v, n) hmem
  | none =>
      obtain ⟨p, hp, rfl⟩ := List.mem_map.1 hkey
      simpa using List.lookup_eq_none_iff.1 hl p hp

/-- A chain ends in a vertex alone, or gets there from one of its predecessors. -/
theorem Linked.longestTo_chainLength (h : c.Linked) {known : List (VertexId × Nat)} {v : VertexId}
    (hv : v ∈ c.ids)
    (hknown : ∀ p ∈ c.predecessors v, c.LongestTo p ((known.lookup p).getD 0)) :
    c.LongestTo v (c.graph.chainLength known v) := by
  have hedge : ∀ p, p ∈ c.predecessors v ↔ c.Edge p v :=
    fun _ => h.mem_successors_iff_mem_predecessors.symm
  refine ⟨?_, fun us hus => ?_⟩
  · rcases foldl_max_eq_or_mem ((c.predecessors v).map fun p => (known.lookup p).getD 0) 0
      with hzero | hmem
    · exact ⟨[], .singleton hv, by rw [Graph.chainLength, predecessors_graph, hzero]; rfl⟩
    · obtain ⟨p, hp, hmax⟩ := List.mem_map.1 hmem
      obtain ⟨us, hus, hlen⟩ := (hknown p hp).exists_chain
      refine ⟨us ++ [p], Chain.concat_concat_iff.2 ⟨hus, hv, (hedge p).1 hp⟩, ?_⟩
      rw [Graph.chainLength, predecessors_graph, ← hmax, List.length_append, List.length_singleton,
        hlen]
  · rw [Graph.chainLength, predecessors_graph, Nat.add_le_add_iff_right]
    rcases List.eq_nil_or_concat' us with rfl | ⟨us, p, rfl⟩
    · exact Nat.zero_le _
    · obtain ⟨hus, -, hpv⟩ := Chain.concat_concat_iff.1 hus
      have hp := (hedge p).2 hpv
      calc (us ++ [p]).length = us.length + 1 := by simp
        _ ≤ (known.lookup p).getD 0 := (hknown p hp).length_le us hus
        _ ≤ _ := (foldl_max_le_iff.1 le_rfl).2 _ (List.mem_map.2 ⟨p, hp, rfl⟩)

theorem chainLengths_concat (A : List VertexId) (v : VertexId) :
    c.graph.chainLengths (A ++ [v]) =
      (v, c.graph.chainLength (c.graph.chainLengths A) v) :: c.graph.chainLengths A := by
  rw [Graph.chainLengths, List.foldl_append]
  rfl

/-- The lengths along a linear order are those of the longest chains. -/
theorem Linear.measured_chainLengths (h : c.Linked) {L : List VertexId} (hL : c.Linear L)
    {A B : List VertexId} (he : L = A ++ B) : Measured c A (c.graph.chainLengths A) := by
  -- along the order from its front: the predecessors of a vertex were measured before it
  induction A using List.reverseRecOn generalizing B with
  | nil => exact ⟨rfl, by simp [Graph.chainLengths]⟩
  | append_singleton A v ih =>
      subst he
      have hA := ih (B := v :: B) (by simp)
      rw [chainLengths_concat]
      refine ⟨by simp [hA.keys], List.forall_mem_cons.2 ⟨?_, hA.longest⟩⟩
      refine h.longestTo_chainLength (hL.perm.mem_iff.1 (by simp)) fun p hp => hA.lookup ?_
      have hpv := hL.pair_sublist_of_transGen h
        (.single (h.mem_successors_iff_mem_predecessors.2 hp))
      rw [List.append_assoc, List.singleton_append] at hpv hL
      exact (Strand.pair_sublist_append_iff (hL.nodup h)).1 hpv

/-! ## The depth -/

/-- The longest of the chains that end somewhere are the longest of all. -/
theorem Measured.longest_foldl_max {A : List VertexId} {known : List (VertexId × Nat)}
    (h : Measured c A known) (hA : ∀ v ∈ c.ids, v ∈ A) :
    c.Longest ((known.map (·.2)).foldl max 0) := by
  refine ⟨?_, fun vs hvs => ?_⟩
  · rcases foldl_max_eq_or_mem (known.map (·.2)) 0 with hzero | hmem
    · exact ⟨[], .nil c, hzero.symm⟩
    · obtain ⟨p, hp, hmax⟩ := List.mem_map.1 hmem
      obtain ⟨us, hus, hlen⟩ := (h.longest p hp).exists_chain
      exact ⟨us ++ [p.1], hus, by rw [← hmax, ← hlen, List.length_append]; rfl⟩
  · rcases List.eq_nil_or_concat' vs with rfl | ⟨us, v, rfl⟩
    · exact Nat.zero_le _
    · have hkey : v ∈ known.map (·.1) := by
        rw [h.keys, List.mem_reverse]
        exact hA v (hvs.live v (by simp))
      obtain ⟨p, hp, rfl⟩ := List.mem_map.1 hkey
      calc (us ++ [p.1]).length = us.length + 1 := by simp
        _ ≤ p.2 := (h.longest p hp).length_le us hvs
        _ ≤ _ := (foldl_max_le_iff.1 le_rfl).2 _ (List.mem_map_of_mem hp)

/-- An acyclic circuit has a depth: the number of vertices on a longest chain. -/
theorem Linked.exists_longest (h : c.Linked) (hac : c.Acyclic) :
    ∃ n, c.depth = .ok n ∧ c.Longest n := by
  have hL : c.Linear c.graph.schedule :=
    h.linear_lastLeftFirst hac (fun _ _ => List.mem_reverse) fun _ hv => hv
  have hmeasured := hL.measured_chainLengths h (A := c.graph.schedule) (B := []) (by simp)
  rw [depth, Graph.depth, h.misplaced?_schedule_eq_none_iff.2 hac]
  exact ⟨_, rfl, hmeasured.longest_foldl_max fun v hv => hL.perm.mem_iff.2 hv⟩

/-- A circuit with a cycle has no depth, and the failure names a vertex on one. -/
theorem Linked.depth_of_not_acyclic (h : c.Linked) (hcyclic : ¬ c.Acyclic) :
    ∃ v, c.depth = .error (.unsound (.cycleThrough v)) ∧ TransGen c.Edge v v := by
  cases hv : c.graph.misplaced? [] c.graph.schedule with
  | none => exact absurd (h.misplaced?_schedule_eq_none_iff.1 hv) hcyclic
  | some v =>
      refine ⟨v, ?_, h.transGen_of_misplaced? hv⟩
      rw [depth, Graph.depth, hv]

/-- Only a circuit without gates has no chain. -/
theorem Longest.eq_zero_iff {n : Nat} (h : c.Longest n) : n = 0 ↔ c.ids = [] := by
  rw [List.eq_nil_iff_forall_not_mem]
  constructor
  · rintro rfl v hv
    exact absurd (h.length_le [v] (.singleton hv)) (by simp)
  · intro hnone
    obtain ⟨vs, hvs, rfl⟩ := h.exists_chain
    cases vs with
    | nil => rfl
    | cons v rest => exact absurd (hvs.live v List.mem_cons_self) (hnone v)

/-- After any history, also one that leaves cycles and gates away from their strands: a circuit has
a depth exactly when it is acyclic. The depth is the number of vertices on a longest chain, and zero
only without gates. Otherwise the failure names a vertex on a cycle. -/
theorem depth_of_reachable (hc : Reachable (fun _ _ => True) c) :
    ((∃ n, c.depth = .ok n) ↔ c.Acyclic) ∧
      (∀ n, c.depth = .ok n → c.Longest n ∧ (n = 0 ↔ c.ids = [])) ∧
      ∀ e, c.depth = .error e → ∃ v, e = .unsound (.cycleThrough v) ∧ TransGen c.Edge v v := by
  have h := hc.linked
  by_cases hac : c.Acyclic
  · obtain ⟨n, hn, hlongest⟩ := h.exists_longest hac
    refine ⟨⟨fun _ => hac, fun _ => ⟨n, hn⟩⟩, fun m hm => ?_, fun e he => ?_⟩
    · obtain rfl : n = m := Except.ok.inj (hn.symm.trans hm)
      exact ⟨hlongest, hlongest.eq_zero_iff⟩
    · cases hn.symm.trans he
  · obtain ⟨v, hv, hcycle⟩ := h.depth_of_not_acyclic hac
    refine ⟨⟨fun ⟨n, hn⟩ => ?_, fun hac' => absurd hac' hac⟩, fun m hm => ?_, fun e he => ?_⟩
    · cases hv.symm.trans hn
    · cases hv.symm.trans hm
    · exact ⟨v, Except.error.inj (he.symm.trans hv), hcycle⟩

/-- Three controlled nots that follow each other have depth three. A commutation closes a cycle, and
moving the gate of one away from its strands does not open it. -/
theorem depth_of_reachable_cyclic :
    ∃ c d, build 3 [.cnot [0] 1, .cnot [1] 2, .cnot [0] 2] = .ok c ∧ c.commute 0 2 = .ok d ∧
      (c.depth = .ok 3 ∧ c.Longest 3) ∧
      (d.modify 1 fun _ => .hadamard 7).depth = .error (.unsound (.cycleThrough 2)) ∧
      TransGen (d.modify 1 fun _ => .hadamard 7).Edge 2 2 := by
  have hbuild : build 3 [.cnot [0] 1, .cnot [1] 2, .cnot [0] 2]
      = .ok (ofGates 3 [.cnot [0] 1, .cnot [1] 2, .cnot [0] 2]) := rfl
  have hcommute : (ofGates 3 [.cnot [0] 1, .cnot [1] 2, .cnot [0] 2]).commute 0 2
      = .ok ((ofGates 3 [.cnot [0] 1, .cnot [1] 2, .cnot [0] 2]).swapped 0 2) := rfl
  have hdepth : (ofGates 3 [.cnot [0] 1, .cnot [1] 2, .cnot [0] 2]).depth = .ok 3 := by cbv
  have hcycle : (((ofGates 3 [.cnot [0] 1, .cnot [1] 2, .cnot [0] 2]).swapped 0 2).modify 1
      fun _ => .hadamard 7).depth = .error (.unsound (.cycleThrough 2)) := by cbv
  obtain ⟨-, hlongest, -⟩ := depth_of_reachable (.build hbuild)
  obtain ⟨-, -, hfail⟩ := depth_of_reachable
    (.modify (.commute (.build hbuild) hcommute) fun _ _ => trivial)
  obtain ⟨v, hv, hpath⟩ := hfail _ hcycle
  cases hv
  exact ⟨_, _, hbuild, hcommute, ⟨hdepth, (hlongest 3 hdepth).1⟩, hcycle, hpath⟩

end Peephole.Circuit
