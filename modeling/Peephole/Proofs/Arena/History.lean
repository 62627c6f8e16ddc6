import Peephole.Proofs.Arena.Build
import Peephole.Proofs.Circuit.Commutation
import Peephole.Proofs.Circuit.Integrity

/-!
# Histories of an arena

Whatever is done to an arena, it stays the arena of a circuit. So its links form a chain on every
wire, an operation that is refused has not changed anything yet, and an inspection can only find
fault with the gates that were written over others, or with a cycle.

* `Reachable`, `Reachable.represents`: the arenas that operations lead to, and their circuits.
* `Chain`, `Represents.chain_iff`: the vertices of a wire, in the order of their links.
* `chains_of_reachable`: links and operations, whatever is written over the gates.
* `inspect_of_reachable`: inspections, if gates keep their wires.
* `commute_back_of_reachable`: a commutation and the one that takes it back.
-/

namespace Peephole.Arena

open Relation (TransGen)

variable {a b : Arena} {c : Circuit} {u v : VertexId} {w : Wire} {s t : List VertexId}

/-- The arenas that operations lead to, those that fail as well, where `allowed` says what may be
written over a gate. A snapshot of any of them may be restored at any time. -/
inductive Reachable (allowed : Gate → Gate → Prop) : Arena → Prop where
  | empty (width : Nat) : Reachable allowed (.empty width)
  | build {width : Nat} {gs : List Gate} {a : Arena} :
      Arena.build width gs = .ok a → Reachable allowed a
  | remove {a : Arena} (v : VertexId) :
      Reachable allowed a → Reachable allowed ((Arena.remove v).on a).2
  | commute {a : Arena} (u v : VertexId) :
      Reachable allowed a → Reachable allowed ((Arena.commute u v).on a).2
  | modify {a : Arena} {v : VertexId} {f : Gate → Gate} :
      Reachable allowed a → (∀ g, a.gate? v = some g → allowed g (f g)) →
      Reachable allowed (a.withGate v f)
  | restore {a b : Arena} :
      Reachable allowed a → Reachable allowed b →
      Reachable allowed ((Arena.restore b.snapshot).on a).2

/-- What holds of a circuit and of the result of an operation on it holds of a circuit that the
arena represents afterwards. -/
theorem Simulates.exists_represents {α : Type} {r : Except Circuit.Error α × Arena}
    {op : Except Circuit.Error (α × Circuit)} {P : Circuit → Prop} (h : Simulates a r op)
    (ha : a.Represents c) (hc : P c) (hop : ∀ x d, op = .ok (x, d) → P d) :
    ∃ d, P d ∧ r.2.Represents d := by
  cases op with
  | error e =>
      obtain rfl : r = (.error e, a) := h
      exact ⟨c, hc, ha⟩
  | ok p =>
      obtain ⟨b, rfl, hb⟩ := h
      exact ⟨p.2, hop p.1 p.2 rfl, hb⟩

/-- Every history of an arena is one of a circuit. -/
theorem Reachable.represents {allowed : Gate → Gate → Prop} (h : Reachable allowed a) :
    ∃ c, c.Reachable allowed ∧ a.Represents c := by
  induction h with
  | empty width => exact ⟨_, .empty width, represents_empty width⟩
  | @build width gs a hb =>
      have hsim := build_simulates width gs
      cases hc : Circuit.build width gs with
      | error e =>
          rw [hc] at hsim
          cases hsim.symm.trans hb
      | ok c =>
          rw [hc] at hsim
          obtain ⟨b, hb', hrep⟩ := hsim
          obtain rfl := Except.ok.inj (hb'.symm.trans hb)
          exact ⟨c, .build hc, hrep⟩
  | remove v _ ih =>
      obtain ⟨c, hc, hrep⟩ := ih
      exact (hrep.remove v).exists_represents hrep hc fun g d hd => .remove hc hd
  | commute u v _ ih =>
      obtain ⟨c, hc, hrep⟩ := ih
      refine (hrep.commute hc.linked u v).exists_represents hrep hc fun x d hd => ?_
      cases hd' : c.commute u v with
      | error e =>
          rw [hd'] at hd
          cases hd
      | ok d' =>
          rw [hd'] at hd
          cases hd
          exact .commute hc hd'
  | modify _ hf ih =>
      obtain ⟨c, hc, hrep⟩ := ih
      exact ⟨_, .modify hc fun g hg => hf g ((hrep.gate?_eq _).trans hg), hrep.withGate _ _⟩
  | @restore a b _ _ iha ihb =>
      obtain ⟨c, hc, hrep⟩ := iha
      obtain ⟨d, hd, hrep'⟩ := ihb
      rw [hrep'.snapshot_eq hd.linked]
      exact (restore_simulates _ a).exists_represents hrep hc fun names e he => .restore hd he

theorem Reachable.of_on_commute {allowed : Gate → Gate → Prop} (ha : Reachable allowed a)
    (hab : (Arena.commute u v).on a = (.ok (), b)) : Reachable allowed b := by
  have hb := ha.commute u v
  rwa [hab] at hb

/-! ## Chains -/

/-- The vertices that have a link on a wire, in order: the link of each leads to those beside it. -/
structure Chain (a : Arena) (w : Wire) (s : List VertexId) : Prop where
  nodup : s.Nodup
  mem_iff : ∀ v, v ∈ s ↔ (a.link? v w).isSome
  link?_eq : ∀ A v B, s = A ++ v :: B → a.link? v w = some ⟨A.getLast?, B.head?⟩

/-- The links allow one order only. -/
theorem Chain.unique (hs : a.Chain w s) (ht : a.Chain w t) : s = t := by
  have hmem : ∀ v, v ∈ s ↔ v ∈ t := fun v => (hs.mem_iff v).trans (ht.mem_iff v).symm
  -- every front part of the one is a front part of the other
  have hfront : ∀ A B, s = A ++ B → ∃ D, t = A ++ D := by
    intro A
    induction A using List.reverseRecOn with
    | nil => exact fun B _ => ⟨t, rfl⟩
    | append_singleton A v ih =>
        intro B hsplit
        rw [List.append_assoc, List.singleton_append] at hsplit
        obtain ⟨D, hD⟩ := ih _ hsplit
        have hvA : v ∉ A := (Strand.notMem_of_nodup_append (hsplit ▸ hs.nodup)).1
        have hvt : v ∈ A ++ D := by
          rw [← hD, ← hmem, hsplit]
          simp
        obtain ⟨C, E, rfl⟩ := List.append_of_mem ((List.mem_append.1 hvt).resolve_left hvA)
        have hsplit' : t = (A ++ C) ++ v :: E := by simp [hD]
        have hlink := (hs.link?_eq A v B hsplit).symm.trans (ht.link?_eq (A ++ C) v E hsplit')
        have hlast : A.getLast? = (A ++ C).getLast? := congrArg Link.prev (Option.some.inj hlink)
        -- what is between them would have its last vertex in front as well
        obtain rfl : C = [] := by
          rcases List.eq_nil_or_concat C with rfl | ⟨C', p, rfl⟩
          · rfl
          · have hpA : p ∈ A := List.mem_of_getLast? (hlast.trans (by simp))
            have hnodup := ht.nodup
            rw [hD] at hnodup
            exact absurd rfl ((List.nodup_append.1 hnodup).2.2 p hpA p (by simp))
        exact ⟨E, by simpa using hD⟩
  obtain ⟨D, hD⟩ := hfront s [] (by simp)
  have hnil : D = [] := by
    refine List.eq_nil_iff_forall_not_mem.2 fun v hv => ?_
    have hvs : v ∈ s := (hmem v).2 (by simp [hD, hv])
    exact (List.nodup_append.1 (hD ▸ ht.nodup)).2.2 v hvs v hv rfl
  rw [hD, hnil, List.append_nil]

theorem Represents.chain (h : a.Represents c) (w : Wire) : a.Chain w (c.strand w) where
  nodup := c.strand_nodup w
  mem_iff v := by rw [h.link?_eq, Strand.isSome_link?_iff]
  link?_eq A v B hsplit := by
    have hnodup := c.strand_nodup w
    rw [hsplit] at hnodup
    obtain ⟨hA, hB⟩ := Strand.notMem_of_nodup_append hnodup
    rw [h.link?_eq, hsplit, Strand.link?_of_mem (by simp), Strand.prev?_append hA hB,
      Strand.next?_append B hA]

theorem Represents.chain_iff (h : a.Represents c) : a.Chain w s ↔ s = c.strand w := by
  constructor
  · exact fun hs => hs.unique (h.chain w)
  · rintro rfl
    exact h.chain w

/-- The second vertex comes right after the first on some wire, and on every wire that has both. -/
structure Adjacent (a : Arena) (u v : VertexId) : Prop where
  follows : ∃ w l, a.link? u w = some l ∧ l.next = some v
  everywhere : ∀ w l, a.link? u w = some l → (a.link? v w).isSome → l.next = some v

theorem Represents.adjacent_iff (h : a.Represents c) (hc : c.Linked) :
    a.Adjacent u v ↔ c.Commutable u v := by
  have hfollows : (∃ w l, a.link? u w = some l ∧ l.next = some v) ↔ v ∈ c.successors u := by
    rw [hc.mem_successors_iff]
    refine exists_congr fun w => ?_
    simp only [h.link?_eq, Strand.exists_link?_next_iff]
    rfl
  have heverywhere : (∀ w l, a.link? u w = some l → (a.link? v w).isSome → l.next = some v) ↔
      ∀ w, u ∈ c.strand w → v ∈ c.strand w → c.next? w u = some v := by
    refine forall_congr' fun w => ?_
    simp only [h.link?_eq, Strand.isSome_link?_iff, Strand.link?_eq_some_iff]
    constructor
    · exact fun hall hu hv => hall _ ⟨hu, rfl⟩ hv
    · rintro hall l ⟨hu, rfl⟩ hv
      exact hall hu hv
  rw [hc.commutable_iff, ← hfollows, ← heverywhere]
  exact ⟨fun h => ⟨h.follows, h.everywhere⟩, fun h => ⟨h.1, h.2⟩⟩

/-- The links of every wire form a chain, forwards and backwards, and the neighbours that are kept
are those that the links lead to. -/
structure Chained (a : Arena) : Prop where
  chain : ∀ w, ∃ s, a.Chain w s
  next_iff_prev : ∀ u v w, (∃ l, a.link? u w = some l ∧ l.next = some v) ↔
    ∃ l, a.link? v w = some l ∧ l.prev = some u
  predecessors : ∀ v x, a.vertex? v = some x → x.predecessors.Nodup ∧
    ∀ u, u ∈ x.predecessors ↔ ∃ w l, a.link? v w = some l ∧ l.prev = some u
  successors : ∀ v x, a.vertex? v = some x → x.successors.Nodup ∧
    ∀ u, u ∈ x.successors ↔ ∃ w l, a.link? v w = some l ∧ l.next = some u

theorem Represents.chained (h : a.Represents c) : a.Chained where
  chain w := ⟨_, h.chain w⟩
  next_iff_prev u v w := by
    simp only [h.link?_eq, Strand.exists_link?_next_iff, Strand.exists_link?_prev_iff]
    exact Strand.next?_eq_some_iff_prev? (c.strand_nodup w)
  predecessors v x hx := by
    have hfresh := h.fresh v x hx
    refine ⟨hfresh.pairwise_predecessors.imp Nat.ne_of_lt, fun u => ?_⟩
    simp only [link?_of_vertex? hx, hfresh.predecessors_eq, Vertex.mem_linkedPredecessors]
  successors v x hx := by
    have hfresh := h.fresh v x hx
    refine ⟨hfresh.pairwise_successors.imp Nat.ne_of_lt, fun u => ?_⟩
    simp only [link?_of_vertex? hx, hfresh.successors_eq, Vertex.mem_linkedSuccessors]

/-- No vertex can be reached from itself along the successors that are kept. -/
def Acyclic (a : Arena) : Prop := ∀ v, ¬ TransGen (fun u v => v ∈ a.graph.successors u) v v

theorem Represents.acyclic_iff (h : a.Represents c) (hc : c.Linked) : a.Acyclic ↔ c.Acyclic := by
  rw [Acyclic, h.graph_eq hc]
  rfl

/-- Three vertices in a circle. -/
theorem not_acyclic_of_circle {x : VertexId} (huv : v ∈ a.graph.successors u)
    (hvx : x ∈ a.graph.successors v) (hxu : u ∈ a.graph.successors x) : ¬ a.Acyclic :=
  fun h => h u (((TransGen.single huv).tail hvx).tail hxu)

/-! ## Operations on chains -/

section Operations

theorem Represents.on_remove (h : a.Represents c) {g : Gate} (hg : a.gate? v = some g) :
    ∃ b, (Arena.remove v).on a = (.ok g.markRemoved, b) ∧ b.Represents (c.without v) := by
  have hsim := h.remove v
  rwa [Circuit.remove_of_gate? ((h.gate?_eq v).symm.trans hg)] at hsim

theorem Represents.on_commute (h : a.Represents c) (hc : c.Linked) (huv : c.Commutable u v) :
    ∃ b, (Arena.commute u v).on a = (.ok (), b) ∧ b.Represents (c.swapped u v) := by
  have hsim := h.commute hc u v
  rwa [Circuit.commute_eq_ok_iff.2 ⟨huv, rfl⟩] at hsim

theorem Represents.of_on_commute (h : a.Represents c) (hc : c.Linked)
    (hab : (Arena.commute u v).on a = (.ok (), b)) :
    c.Commutable u v ∧ b.Represents (c.swapped u v) := by
  have hsim := h.commute hc u v
  cases hd : c.commute u v with
  | error e =>
      rw [hd] at hsim
      cases hab.symm.trans hsim
  | ok d =>
      rw [hd] at hsim
      obtain ⟨b', hon, hb'⟩ := hsim
      obtain ⟨huv, rfl⟩ := Circuit.commute_eq_ok_iff.1 hd
      cases hab.symm.trans hon
      exact ⟨huv, hb'⟩

theorem Represents.on_commute_of_not_adjacent (h : a.Represents c) (hc : c.Linked) {g : Gate}
    (hg : a.gate? u = some g) (huv : ¬ a.Adjacent u v) :
    (Arena.commute u v).on a = (.error (.notAdjacent u v), a) := by
  have hsim := h.commute hc u v
  have hu : u ∈ c.ids := Circuit.mem_ids_of_gate? ((h.gate?_eq u).symm.trans hg)
  rw [h.adjacent_iff hc] at huv
  rcases Circuit.commute_cases c u v with ⟨hn, -⟩ | ⟨-, he, hn, -⟩ | ⟨-, -, -, he⟩ | ⟨hn, -⟩
  · exact absurd hu hn
  · exact absurd (hc.live_of_mem_successors he).2 hn
  · rwa [he] at hsim
  · exact absurd hn huv

/-- A vertex is taken out of its chains. -/
theorem Chain.without (hs : a.Chain w s) (ha : a.Represents c) (hb : b.Represents (c.without v)) :
    b.Chain w (s.filter (· ≠ v)) := by
  rw [hb.chain_iff, ha.chain_iff.1 hs, Circuit.strand_without]

/-- Two vertices are exchanged where they follow each other. -/
theorem Chain.swapped {A B : List VertexId} (hs : a.Chain w (A ++ u :: v :: B))
    (ha : a.Represents c) (hb : b.Represents (c.swapped u v)) :
    b.Chain w (A ++ v :: u :: B) := by
  rw [hb.chain_iff, Circuit.strand_swapped, ← ha.chain_iff.1 hs,
    Strand.exchange_append v B (Strand.notMem_of_nodup_append hs.nodup).1]

/-- A chain that does not have both vertices is left alone. -/
theorem Chain.swapped_of_notMem (hs : a.Chain w s) (ha : a.Represents c)
    (hb : b.Represents (c.swapped u v)) (hn : u ∉ s ∨ v ∉ s) : b.Chain w s := by
  have hnext : Strand.next? u s ≠ some v := by
    intro hnext
    rcases hn with hu | hv
    · rw [Strand.next?_of_notMem hu] at hnext
      cases hnext
    · exact hv (Strand.next?_mem hnext)
  rw [hb.chain_iff, Circuit.strand_swapped, ← ha.chain_iff.1 hs, Strand.exchange_eq_self hnext]

end Operations

/-- However an arena came about, also if there are cycles and gates were overwritten by others with
other wires: its links form chains. Removal fails exactly if the vertex is not there, and takes it
out of its chains. A commutation fails exactly if the first vertex is not there or the second does
not directly follow it, and exchanges them in their chains. An operation that fails has changed
nothing. An inspection never finds fault with the links. -/
theorem chains_of_reachable (ha : Reachable (fun _ _ => True) a) :
    a.Chained ∧
      (∀ v, a.gate? v = none → (Arena.remove v).on a = (.error (.noVertex v), a)) ∧
      (∀ v g, a.gate? v = some g → ∃ b, (Arena.remove v).on a = (.ok g.markRemoved, b) ∧
        b.width = a.width ∧ (∀ x, b.gate? x = if x = v then none else a.gate? x) ∧
        ∀ w s, a.Chain w s → b.Chain w (s.filter (· ≠ v))) ∧
      (∀ u v, a.gate? u = none → (Arena.commute u v).on a = (.error (.noVertex u), a)) ∧
      (∀ u v g, a.gate? u = some g → ¬ a.Adjacent u v →
        (Arena.commute u v).on a = (.error (.notAdjacent u v), a)) ∧
      (∀ u v, a.Adjacent u v → ∃ b, (Arena.commute u v).on a = (.ok (), b) ∧
        b.width = a.width ∧ (∀ x, b.gate? x = a.gate? x) ∧
        (∀ w A B, a.Chain w (A ++ u :: v :: B) → b.Chain w (A ++ v :: u :: B)) ∧
        ∀ w s, a.Chain w s → u ∉ s ∨ v ∉ s → b.Chain w s) ∧
      ∀ v x, a.inspect ≠ .error (.unsound (.danglingSuccessor v x)) ∧
        a.inspect ≠ .error (.unsound (.oneWayEdge v x)) ∧
        a.inspect ≠ .error (.unsound (.unmatchedPredecessor v x)) ∧
        a.inspect ≠ .error (.unsound (.staleNeighbours v)) := by
  obtain ⟨c, hc, h⟩ := ha.represents
  refine ⟨h.chained, fun v hv => ?_, fun v g hg => ?_, fun u v hu => ?_, fun u v g hg huv => ?_,
    fun u v huv => ?_, fun v x => ?_⟩
  · exact on_bind_of_error (on_entry_of_none (gate?_eq_none_iff.1 hv))
  · obtain ⟨b, hon, hb⟩ := h.on_remove hg
    refine ⟨b, hon, hb.width_eq.trans h.width_eq.symm, fun x => ?_, fun w s hs => hs.without h hb⟩
    rw [hb.gate?_eq, h.gate?_eq, Circuit.gate?_without_eq]
  · exact on_bind_of_error (on_entry_of_none (gate?_eq_none_iff.1 hu))
  · exact h.on_commute_of_not_adjacent hc.linked hg huv
  · obtain ⟨b, hon, hb⟩ := h.on_commute hc.linked ((h.adjacent_iff hc.linked).1 huv)
    exact ⟨b, hon, hb.width_eq.trans h.width_eq.symm,
      fun x => (hb.gate?_eq x).trans (h.gate?_eq x).symm, fun w A B hs => hs.swapped h hb,
      fun w s hs hn => hs.swapped_of_notMem h hb hn⟩
  · rw [h.inspect_eq hc.linked]
    refine ⟨fun hi => ?_, fun hi => ?_, fun hi => ?_, fun hi => ?_⟩ <;>
      rcases hc.linked.inspect_eq_unsound hi with ⟨_, _, he⟩ | he | ⟨_, _, _, he⟩ | ⟨_, _, he⟩ <;>
      cases he

/-- A commutation closes a circle of three vertices, and then one of the gates is moved to a wire
that there is not; the links still form chains. -/
theorem chains_of_reachable_cyclic :
    ∃ a b, Arena.build 3 [.cnot [0] 1, .cnot [1] 2, .cnot [0] 2] = .ok a ∧
      (Arena.commute 0 2).on a = (.ok (), b) ∧ ¬ b.Acyclic ∧
      (b.withGate 1 fun _ => .hadamard 7).Chained := by
  obtain ⟨a, b, hbuild, hcommute, h₀₁, h₁₂, h₂₀⟩ : ∃ a b,
      Arena.build 3 [.cnot [0] 1, .cnot [1] 2, .cnot [0] 2] = .ok a ∧
        (Arena.commute 0 2).on a = (.ok (), b) ∧ 1 ∈ b.graph.successors 0 ∧
        2 ∈ b.graph.successors 1 ∧ 0 ∈ b.graph.successors 2 :=
    ⟨_, _, rfl, rfl, by decide⟩
  have hreach : Reachable (fun _ _ => True) b := .of_on_commute (.build hbuild) hcommute
  exact ⟨a, b, hbuild, hcommute, not_acyclic_of_circle h₀₁ h₁₂ h₂₀,
    (chains_of_reachable (hreach.modify fun _ _ => trivial)).1⟩

/-! ## Inspections -/

/-- However an arena came about, as long as a gate is only overwritten by one with the same wires,
each of them once: a vertex has links for the wires of its gate and for no other, all of them in
range; an inspection finds no flaw if and only if there is no cycle; and if there is one, the
inspection says so. -/
theorem inspect_of_reachable (ha : Reachable (fun g h => g.SameWires h ∧ h.wires.Nodup) a) :
    (∀ v w, (a.link? v w).isSome ↔ ∃ g, a.gate? v = some g ∧ w ∈ g.wires) ∧
      (∀ v w, (a.link? v w).isSome → w.toNat < a.width) ∧
      (a.inspect = .ok () ↔ a.Acyclic) ∧
      (¬ a.Acyclic → ∃ flaw, a.inspect = .error (.unsound flaw) ∧
        flaw.message = "Graph contains a cycle") := by
  obtain ⟨c, hc, h⟩ := ha.represents
  have haligned : c.Aligned := hc.aligned fun g k hgk => hgk.1
  have hlink : ∀ v w, (a.link? v w).isSome ↔ ∃ g, a.gate? v = some g ∧ w ∈ g.wires := by
    intro v w
    rw [h.link?_eq, Strand.isSome_link?_iff, h.gate?_eq]
    constructor
    · intro hv
      obtain ⟨g, hg⟩ := Circuit.mem_ids.1 (hc.linked.strand_live w v hv)
      exact ⟨g, hg, (haligned v g hg w).1 hv⟩
    · rintro ⟨g, hg, hw⟩
      exact (haligned v g hg w).2 hw
  rw [h.inspect_eq hc.linked, h.acyclic_iff hc.linked]
  refine ⟨hlink, fun v w hv => ?_, haligned.inspect_eq_ok_iff hc.linked hc.fits, fun hcyclic => ?_⟩
  · obtain ⟨g, hg, hw⟩ := (hlink v w).1 hv
    rw [h.width_eq]
    exact (hc.fits v g ((h.gate?_eq v).symm.trans hg)).2 w hw
  · exact ⟨.cyclic, haligned.inspect_of_cyclic hc.linked hcyclic, rfl⟩

/-- The control and the target of a gate change places, which leaves nothing to be found; a
commutation around it closes a circle, which is found. -/
theorem inspect_of_reachable_cyclic :
    ∃ a b, Arena.build 3 [.cnot [0] 1, .cnot [1] 2, .cnot [0] 2] = .ok a ∧
      (a.withGate 1 fun _ => .cnot [2] 1).inspect = .ok () ∧
      (a.withGate 1 fun _ => .cnot [2] 1).Acyclic ∧
      (Arena.commute 0 2).on (a.withGate 1 fun _ => .cnot [2] 1) = (.ok (), b) ∧ ¬ b.Acyclic ∧
      ∃ flaw, b.inspect = .error (.unsound flaw) ∧ flaw.message = "Graph contains a cycle" := by
  obtain ⟨a, b, hbuild, hgate, hinspect, hcommute, h₀₁, h₁₂, h₂₀⟩ : ∃ a b,
      Arena.build 3 [.cnot [0] 1, .cnot [1] 2, .cnot [0] 2] = .ok a ∧
        a.gate? 1 = some (.cnot [1] 2) ∧ (a.withGate 1 fun _ => .cnot [2] 1).inspect = .ok () ∧
        (Arena.commute 0 2).on (a.withGate 1 fun _ => .cnot [2] 1) = (.ok (), b) ∧
        1 ∈ b.graph.successors 0 ∧ 2 ∈ b.graph.successors 1 ∧ 0 ∈ b.graph.successors 2 :=
    ⟨_, _, rfl, rfl, by cbv, rfl, by decide⟩
  have hcyclic : ¬ b.Acyclic := not_acyclic_of_circle h₀₁ h₁₂ h₂₀
  have hreach : Reachable (fun g h => g.SameWires h ∧ h.wires.Nodup)
      (a.withGate 1 fun _ => .cnot [2] 1) := by
    refine .modify (.build hbuild) fun g hg => ?_
    obtain rfl := Option.some.inj (hgate.symm.trans hg)
    exact ⟨fun w => by simp [or_comm], by decide⟩
  exact ⟨a, b, hbuild, hinspect, (inspect_of_reachable hreach).2.2.1.1 hinspect, hcommute, hcyclic,
    (inspect_of_reachable (hreach.of_on_commute hcommute)).2.2.2 hcyclic⟩

/-! ## Commuting back -/

/-- After any history, also one that leaves cycles and gates away from their links: a commutation
that is carried out turns the edge around, and commuting back is carried out as well and gives
exactly the arena from before, with all gates, links and neighbours. -/
theorem commute_back_of_reachable (ha : Reachable (fun _ _ => True) a)
    (hab : (Arena.commute u v).on a = (.ok (), b)) :
    (u ∈ b.graph.successors v ∧ v ∉ b.graph.successors u) ∧
      (Arena.commute v u).on b = (.ok (), a) := by
  obtain ⟨c, hc, h⟩ := ha.represents
  obtain ⟨huv, hb⟩ := h.of_on_commute hc.linked hab
  have hlinked := hc.linked.swapped u v
  have hvu := hc.linked.commutable_swapped huv
  obtain ⟨a', hon, ha'⟩ := hb.on_commute hlinked hvu
  rw [huv.swapped_swapped] at ha'
  obtain rfl := ha'.unique h
  rw [hb.graph_eq hlinked]
  exact ⟨⟨hvu.edge, hlinked.not_edge_of_commutable hvu⟩, hon⟩

/-- A commutation has closed a circle of three vertices, and one of the gates was moved away from
its links. Commuting another edge of the circle opens it, and commuting back closes it again. -/
theorem commute_back_of_reachable_cyclic :
    ∃ a b, Reachable (fun _ _ => True) a ∧ ¬ a.Acyclic ∧ (Arena.commute 0 1).on a = (.ok (), b) ∧
      b.Acyclic ∧ (Arena.commute 1 0).on b = (.ok (), a) := by
  obtain ⟨a, hbuild, ha⟩ : ∃ a, Arena.build 3 [.cnot [0] 1, .cnot [1] 2, .cnot [0] 2] = .ok a ∧
      a.Represents (.ofGates 3 [.cnot [0] 1, .cnot [1] 2, .cnot [0] 2]) :=
    build_simulates 3 [.cnot [0] 1, .cnot [1] 2, .cnot [0] 2]
  have hlinked := Circuit.Linked.ofGates 3 [.cnot [0] 1, .cnot [1] 2, .cnot [0] 2]
  obtain ⟨b, hclose, hb⟩ :=
    ha.on_commute (u := 0) (v := 2) hlinked (Circuit.commute_eq_ok_iff.1 rfl).1
  have hmoved := hb.withGate 1 fun _ => .hadamard 7
  have hlinked' := (hlinked.swapped 0 2).modify 1 fun _ => .hadamard 7
  obtain ⟨d, hopen, hd⟩ :=
    hmoved.on_commute (u := 0) (v := 1) hlinked' (Circuit.commute_eq_ok_iff.1 rfl).1
  have hreach : Reachable (fun _ _ => True) (b.withGate 1 fun _ => .hadamard 7) :=
    .modify (.of_on_commute (.build hbuild) hclose) fun _ _ => trivial
  refine ⟨_, d, hreach, ?_, hopen, ?_, (commute_back_of_reachable hreach hopen).2⟩
  · rw [hmoved.acyclic_iff hlinked', ← hlinked'.isCyclic_eq_false_iff, Bool.not_eq_false]
    cbv
  · rw [hd.acyclic_iff (hlinked'.swapped 0 1), ← (hlinked'.swapped 0 1).isCyclic_eq_false_iff]
    cbv

end Peephole.Arena
