import Peephole.Circuit.Snapshot
import Peephole.Proofs.Circuit.View
import Peephole.Proofs.Strand

/-!
# Links between neighbours

A vertex has a link on every strand that holds it: to the vertex before it and to the one after.
This file has the invariant that makes links meaningful, whatever the gates are: every wire has one
strand, and a strand holds only vertices of the circuit. It survives every operation, overwriting
gates included, because operations move vertices along strands and never across.

* `Circuit.Linked` is the invariant, kept by every operation.
* `Linked.size_applyAll`: what edits do to the number of gates.
* `Circuit.Reachable` are the circuits that operations lead to, with a parameter for what a gate
  may be overwritten with; `Reachable.linked` is the invariant along every history.
* `Linked.mem_successors_iff`, `Linked.mem_predecessors_iff`: neighbours are what links name.
* `Circuit.Aligned`: every vertex is on the strands of its gate's wires and on no other.
-/

namespace Peephole

/-- Two gates with the same set of wires. -/
def Gate.SameWires (g h : Gate) : Prop := ∀ w, w ∈ g.wires ↔ w ∈ h.wires

namespace Circuit

/-! ## Links -/

/-- The vertex after `v` on a wire. -/
def next? (c : Circuit) (w : Wire) (v : VertexId) : Option VertexId := Strand.next? v (c.strand w)

/-- The vertex before `v` on a wire. -/
def prev? (c : Circuit) (w : Wire) (v : VertexId) : Option VertexId := Strand.prev? v (c.strand w)

theorem next?_eq_some_iff_prev? {c : Circuit} {w : Wire} {a b : VertexId} :
    c.next? w a = some b ↔ c.prev? w b = some a :=
  Strand.next?_eq_some_iff_prev? (c.strand_nodup w)

theorem mem_of_next? {c : Circuit} {w : Wire} {a b : VertexId} (hn : c.next? w a = some b) :
    a ∈ c.strand w ∧ b ∈ c.strand w := by
  have hp := Strand.pair_sublist_of_next? (c.strand_nodup w) hn
  exact ⟨Strand.mem_left_of_pair_sublist hp, Strand.mem_right_of_pair_sublist hp⟩

/-- What holds of the strands of every circuit, whatever its gates are. -/
structure Linked (c : Circuit) : Prop where
  ascending : c.ids.Pairwise (· < ·)
  wires_nodup : (c.strands.map (·.1)).Nodup
  strand_live : ∀ w, ∀ v ∈ c.strand w, v ∈ c.ids

namespace Linked

variable {c : Circuit}

theorem ids_nodup (h : c.Linked) : c.ids.Nodup := h.ascending.imp fun hab => Nat.ne_of_lt hab

theorem strand_eq (h : c.Linked) {s : Wire × List VertexId} (hs : s ∈ c.strands) :
    c.strand s.1 = s.2 := by
  rw [strand, lookup_of_mem h.wires_nodup (show (s.1, s.2) ∈ c.strands from hs)]
  rfl

theorem mem_successors_iff (h : c.Linked) {a b : VertexId} :
    b ∈ c.successors a ↔ ∃ w, c.next? w a = some b := by
  rw [successors, mem_ascending, List.mem_filterMap]
  constructor
  · rintro ⟨s, hs, hn⟩
    exact ⟨s.1, by rw [next?, h.strand_eq hs, hn]⟩
  · rintro ⟨w, hw⟩
    rw [next?, strand] at hw
    cases hl : c.strands.lookup w with
    | none => simp [hl, Strand.next?] at hw
    | some s => exact ⟨(w, s), mem_of_lookup hl, by simpa [hl] using hw⟩

theorem mem_predecessors_iff (h : c.Linked) {a b : VertexId} :
    a ∈ c.predecessors b ↔ ∃ w, c.prev? w b = some a := by
  rw [predecessors, mem_ascending, List.mem_filterMap]
  constructor
  · rintro ⟨s, hs, hn⟩
    exact ⟨s.1, by rw [prev?, h.strand_eq hs, hn]⟩
  · rintro ⟨w, hw⟩
    rw [prev?, strand] at hw
    cases hl : c.strands.lookup w with
    | none => simp [hl, Strand.prev?] at hw
    | some s => exact ⟨(w, s), mem_of_lookup hl, by simpa [hl] using hw⟩

/-- An edge is seen from both its ends. -/
theorem mem_successors_iff_mem_predecessors (h : c.Linked) {a b : VertexId} :
    b ∈ c.successors a ↔ a ∈ c.predecessors b := by
  rw [h.mem_successors_iff, h.mem_predecessors_iff]
  exact exists_congr fun w => next?_eq_some_iff_prev?

theorem live_of_mem_successors (h : c.Linked) {a b : VertexId} (hb : b ∈ c.successors a) :
    a ∈ c.ids ∧ b ∈ c.ids := by
  obtain ⟨w, hw⟩ := h.mem_successors_iff.1 hb
  obtain ⟨h₁, h₂⟩ := mem_of_next? hw
  exact ⟨h.strand_live w a h₁, h.strand_live w b h₂⟩

/-! ## Operations -/

theorem empty (width : Nat) : (Circuit.empty width).Linked where
  ascending := by simp [ids, Circuit.empty]
  wires_nodup := by simp [Circuit.empty]
  strand_live := by simp [strand, Circuit.empty]

theorem ofGates (width : Nat) (gs : List Gate) : (Circuit.ofGates width gs).Linked where
  ascending := by
    rw [ids_ofGates]
    exact List.pairwise_lt_range
  wires_nodup := by
    rw [Circuit.ofGates, List.map_map, show ((fun s : Wire × List VertexId => s.1) ∘
      fun w => (w, positionsOn w gs)) = id from rfl, List.map_id]
    exact nodup_eraseDups _
  strand_live := by
    intro w v hv
    rw [strand_ofGates] at hv
    rw [ids_ofGates]
    exact (positionsOn_sublist gs w).subset hv

theorem modify (h : c.Linked) (v : VertexId) (f : Gate → Gate) : (c.modify v f).Linked where
  ascending := by simpa using h.ascending
  wires_nodup := h.wires_nodup
  strand_live := by simpa using h.strand_live

theorem without (h : c.Linked) (v : VertexId) : (c.without v).Linked where
  ascending := by
    rw [ids_without]
    exact h.ascending.sublist List.filter_sublist
  wires_nodup := by
    rw [Circuit.without, List.map_map]
    exact h.wires_nodup
  strand_live := by
    intro w x hx
    rw [strand_without, List.mem_filter, decide_eq_true_eq] at hx
    exact (mem_ids_without c v).2 ⟨h.strand_live w x hx.1, hx.2⟩

theorem swapped (h : c.Linked) (a b : VertexId) : (c.swapped a b).Linked where
  ascending := h.ascending
  wires_nodup := by
    rw [Circuit.swapped, List.map_map]
    exact h.wires_nodup
  strand_live := by
    intro w x hx
    rw [strand_swapped, Strand.mem_exchange] at hx
    exact h.strand_live w x hx

theorem commutable_iff (h : c.Linked) {a b : VertexId} :
    c.Commutable a b ↔ b ∈ c.successors a ∧
      ∀ w, a ∈ c.strand w → b ∈ c.strand w → c.next? w a = some b := by
  constructor
  · intro hc
    refine ⟨hc.edge, fun w ha hbw => ?_⟩
    rw [strand] at ha hbw
    cases hl : c.strands.lookup w with
    | none => simp [hl] at ha
    | some s =>
        rw [hl, Option.getD_some] at ha hbw
        rw [next?, strand, hl, Option.getD_some]
        exact hc.adjacent (w, s) (mem_of_lookup hl) ha hbw
  · rintro ⟨hb, hall⟩
    obtain ⟨hfirst, hsecond⟩ := h.live_of_mem_successors hb
    refine ⟨hfirst, hb, hsecond, fun s hs ha hbs => ?_⟩
    have := hall s.1 (by rwa [h.strand_eq hs]) (by rwa [h.strand_eq hs])
    rwa [next?, h.strand_eq hs] at this

/-- A commutation fails because the first vertex is not there or because the two do not follow each
other. The second vertex is never missed, since a successor is in the circuit. -/
theorem commute_eq_error_iff (h : c.Linked) {a b : VertexId} {e : Error} :
    c.commute a b = .error e ↔
      (e = .noVertex a ∧ a ∉ c.ids) ∨ (e = .notAdjacent a b ∧ a ∈ c.ids ∧ ¬ c.Commutable a b) := by
  rcases commute_cases c a b with ⟨ha, hc⟩ | ⟨-, hb, hn, -⟩ | ⟨ha, -, hn, hc⟩ | ⟨hab, hc⟩
  · simp [hc, ha, eq_comm]
  · exact absurd (h.live_of_mem_successors hb).2 hn
  · simp [hc, ha, hn, eq_comm]
  · simp [hc, hab, hab.first]

end Linked

/-! ## Sizes -/

theorem size_eq_length_ids (c : Circuit) : c.size = c.ids.length := (List.length_map _).symm

/-- The gates of a circuit, cut at one of them. Removing or overwriting it leaves the others. -/
theorem Linked.exists_gates_eq {c : Circuit} (h : c.Linked) {v : VertexId} {g : Gate}
    (hg : c.gate? v = some g) :
    ∃ A B, c.gates = A ++ (v, g) :: B ∧ (c.without v).gates = A ++ B ∧
      ∀ f, (c.modify v f).gates = A ++ (v, f g) :: B := by
  obtain ⟨A, B, hcut⟩ := List.append_of_mem (mem_of_lookup hg)
  have hne : ∀ p ∈ A ++ B, p.1 ≠ v := by
    have hnodup := h.ids_nodup
    rw [ids, hcut, List.map_append, List.map_cons, List.nodup_middle, ← List.map_append] at hnodup
    intro p hp hpv
    exact (List.nodup_cons.1 hnodup).1 (List.mem_map.2 ⟨p, hp, hpv⟩)
  rw [List.forall_mem_append] at hne
  refine ⟨A, B, hcut, ?_, fun f => ?_⟩
  · have hkeep : ∀ l : List (VertexId × Gate), (∀ p ∈ l, p.1 ≠ v) →
        (l.filter fun p => p.1 ≠ v) = l := by
      intro l hl
      exact List.filter_eq_self.2 fun p hp => decide_eq_true (hl p hp)
    rw [Circuit.without, hcut, List.filter_append, List.filter_cons_of_neg (by simp), hkeep A hne.1,
      hkeep B hne.2]
  · have hkeep : ∀ l : List (VertexId × Gate), (∀ p ∈ l, p.1 ≠ v) →
        (l.map fun p => if p.1 = v then (p.1, f p.2) else p) = l := by
      intro l hl
      exact (List.map_congr_left fun p hp => if_neg (hl p hp)).trans (List.map_id' l)
    rw [Circuit.modify, hcut, List.map_append, List.map_cons, hkeep A hne.1, hkeep B hne.2,
      if_pos rfl]

theorem Linked.size_without {c : Circuit} (h : c.Linked) {v : VertexId} (hv : v ∈ c.ids) :
    (c.without v).size + 1 = c.size := by
  obtain ⟨g, hg⟩ := mem_ids.1 hv
  obtain ⟨A, B, hcut, hwithout, -⟩ := h.exists_gates_eq hg
  rw [size, size, hwithout, hcut, List.length_append, List.length_append, List.length_cons]
  omega

/-- Whether an edit takes a vertex out of the circuit. -/
def Edit.isRemoval : Edit → Bool
  | .remove _ => true
  | _ => false

/-- Whether an edit exchanges two vertices. -/
def Edit.isCommutation : Edit → Bool
  | .commute _ _ => true
  | _ => false

/-- An edit that is carried out removes a vertex, exchanges two, or overwrites a gate. -/
theorem apply_eq_ok {c d : Circuit} {e : Edit} (he : e.apply c = .ok d) :
    (∃ v ∈ c.ids, e = .remove v ∧ d = c.without v) ∨
      (∃ a b, e = .commute a b ∧ d = c.swapped a b) ∨
      (e.isRemoval = false ∧ e.isCommutation = false ∧ ∃ v f, d = c.modify v f) := by
  cases e with
  | remove v =>
      obtain ⟨hv, rfl⟩ := apply_remove_eq_ok_iff.1 he
      exact Or.inl ⟨v, hv, rfl, rfl⟩
  | commute a b =>
      obtain ⟨-, rfl⟩ := commute_eq_ok_iff.1 he
      exact Or.inr (Or.inl ⟨a, b, rfl, rfl⟩)
  | setKind v kind =>
      obtain ⟨-, rfl⟩ := apply_setKind_eq_ok_iff.1 he
      exact Or.inr (Or.inr ⟨rfl, rfl, v, _, rfl⟩)
  | setWires v target controls =>
      obtain ⟨-, rfl⟩ := apply_setWires_eq_ok_iff.1 he
      exact Or.inr (Or.inr ⟨rfl, rfl, v, _, rfl⟩)
  | turn v θ =>
      cases he
      exact Or.inr (Or.inr ⟨rfl, rfl, v, _, rfl⟩)

/-- An edit keeps the links in order, and only a removal changes the number of gates. -/
theorem Linked.apply {c d : Circuit} (h : c.Linked) {e : Edit} (he : e.apply c = .ok d) :
    d.Linked ∧ d.size + (if e.isRemoval then 1 else 0) = c.size := by
  rcases apply_eq_ok he with ⟨v, hv, rfl, rfl⟩ | ⟨a, b, rfl, rfl⟩ | ⟨hr, -, v, f, rfl⟩
  · exact ⟨h.without v, h.size_without hv⟩
  · exact ⟨h.swapped a b, rfl⟩
  · rw [hr]
    exact ⟨h.modify v f, List.length_map _⟩

theorem Linked.of_applyAll {c d : Circuit} (h : c.Linked) {es : List Edit}
    (he : c.applyAll es = (d, none)) : d.Linked :=
  applyAll_keeps (fun _ _ _ _ h he => (h.apply he).1) h he

/-- Edits that are all carried out take as many gates out of the circuit as there are removals. -/
theorem Linked.size_applyAll {c d : Circuit} (h : c.Linked) {es : List Edit}
    (he : c.applyAll es = (d, none)) : d.size + es.countP Edit.isRemoval = c.size := by
  induction es generalizing c with
  | nil =>
      obtain rfl : c = d := congrArg Prod.fst he
      rfl
  | cons e rest ih =>
      obtain ⟨c', hc, hrest⟩ := applyAll_cons_eq_iff.1 he
      obtain ⟨hlinked, hsize⟩ := h.apply hc
      have := ih hlinked hrest
      rw [List.countP_cons]
      omega

/-! ## Histories -/

/-- The circuits that operations lead to, where `allowed` says what may be written over a gate. A
snapshot may be restored at any time, whatever the circuit has become since. -/
inductive Reachable (allowed : Gate → Gate → Prop) : Circuit → Prop where
  | empty (width : Nat) : Reachable allowed (.empty width)
  | build {width : Nat} {gs : List Gate} {c : Circuit} :
      Circuit.build width gs = .ok c → Reachable allowed c
  | remove {c d : Circuit} {v : VertexId} {g : Gate} :
      Reachable allowed c → c.remove v = .ok (g, d) → Reachable allowed d
  | commute {c d : Circuit} {a b : VertexId} :
      Reachable allowed c → c.commute a b = .ok d → Reachable allowed d
  | modify {c : Circuit} {v : VertexId} {f : Gate → Gate} :
      Reachable allowed c → (∀ g, c.gate? v = some g → allowed g (f g)) →
      Reachable allowed (c.modify v f)
  | restore {c d : Circuit} {names : Renumbering} :
      Reachable allowed c → c.snapshot.restore = .ok (names, d) → Reachable allowed d

theorem restore_eq_ok_iff {s : Snapshot} {names : Renumbering} {d : Circuit} :
    s.restore = .ok (names, d) ↔
      (∀ g ∈ s.gates, g.Fits s.width) ∧ names = s.renumbering ∧ d = ofGates s.width s.gates := by
  rw [Snapshot.restore]
  cases hb : build s.width s.gates with
  | error e =>
      have hn : ¬ ∀ g ∈ s.gates, g.Fits s.width := by
        intro hf
        rw [build_eq_ok_iff.2 ⟨hf, rfl⟩] at hb
        cases hb
      simp only [Except.map, reduceCtorEq, false_iff]
      exact fun h => hn h.1
  | ok c =>
      obtain ⟨hf, rfl⟩ := build_eq_ok_iff.1 hb
      simp only [Except.map, Except.ok.injEq, Prod.mk.injEq]
      constructor
      · rintro ⟨h₁, h₂⟩
        exact ⟨hf, h₁.symm, h₂.symm⟩
      · rintro ⟨-, h₁, h₂⟩
        exact ⟨h₁.symm, h₂.symm⟩

/-- Every history keeps the links in order, whatever is written over the gates. -/
theorem Reachable.linked {allowed : Gate → Gate → Prop} {c : Circuit} (h : Reachable allowed c) :
    c.Linked := by
  induction h with
  | empty width => exact .empty width
  | build hb =>
      rw [(build_eq_ok_iff.1 hb).2]
      exact .ofGates _ _
  | remove _ hr ih =>
      obtain ⟨k, -, -, rfl⟩ := remove_eq_ok_iff.1 hr
      exact ih.without _
  | commute _ hc ih =>
      rw [(commute_eq_ok_iff.1 hc).2]
      exact ih.swapped _ _
  | modify _ _ ih => exact ih.modify _ _
  | restore _ hr _ =>
      rw [(restore_eq_ok_iff.1 hr).2.2]
      exact .ofGates _ _

/-- A gate may be replaced by any other that is allowed in its place. -/
theorem Reachable.overwrite {allowed : Gate → Gate → Prop} {c : Circuit} {v : VertexId}
    {g h : Gate} (hc : Reachable allowed c) (hg : c.gate? v = some g) (hgh : allowed g h) :
    Reachable allowed (c.modify v fun _ => h) := by
  refine .modify hc fun k hk => ?_
  rw [hg] at hk
  exact Option.some.inj hk ▸ hgh

/-- What fitting gates have, and every overwriting keeps, holds of all gates of a circuit. -/
theorem Reachable.forall_gate {allowed : Gate → Gate → Prop} {Q : Nat → Gate → Prop} {c : Circuit}
    (hfits : ∀ n g, g.Fits n → Q n g) (hallowed : ∀ n g h, Q n g → allowed g h → Q n h)
    (h : Reachable allowed c) : ∀ v g, c.gate? v = some g → Q c.width g := by
  have hfresh : ∀ width gs, (∀ g ∈ gs, g.Fits width) →
      ∀ v g, (ofGates width gs).gate? v = some g → Q width g := by
    intro width gs hf v g hg
    rw [gate?_ofGates] at hg
    exact hfits width g (hf g (List.mem_of_getElem? hg))
  induction h with
  | empty width => exact fun v g hg => nomatch hg
  | build hb =>
      obtain ⟨hf, rfl⟩ := build_eq_ok_iff.1 hb
      exact hfresh _ _ hf
  | remove _ hr ih =>
      obtain ⟨k, -, -, rfl⟩ := remove_eq_ok_iff.1 hr
      exact fun x g hg => ih x g (gate?_without _ _ hg).2
  | commute _ hc ih =>
      rw [(commute_eq_ok_iff.1 hc).2]
      exact ih
  | @modify c v f _ hf ih =>
      intro x g hg
      by_cases hx : x = v
      · subst hx
        rw [gate?_modify_self, Option.map_eq_some_iff] at hg
        obtain ⟨k, hk, rfl⟩ := hg
        exact hallowed _ k _ (ih x k hk) (hf k hk)
      · rw [gate?_modify_of_ne _ _ _ hx] at hg
        exact ih x g hg
  | restore _ hr _ =>
      obtain ⟨hf, -, rfl⟩ := restore_eq_ok_iff.1 hr
      exact hfresh _ _ hf

/-! ## Gates and strands -/

/-- Every vertex is on the strands of its gate's wires and on no other. -/
def Aligned (c : Circuit) : Prop :=
  ∀ v g, c.gate? v = some g → ∀ w, v ∈ c.strand w ↔ w ∈ g.wires

namespace Aligned

variable {c : Circuit}

theorem ofGates (width : Nat) (gs : List Gate) : (Circuit.ofGates width gs).Aligned := by
  intro v g hg w
  rw [gate?_ofGates] at hg
  rw [strand_ofGates, mem_positionsOn, hg]
  simp

theorem modify (h : c.Aligned) {v : VertexId} {f : Gate → Gate}
    (hf : ∀ g, c.gate? v = some g → g.SameWires (f g)) : (c.modify v f).Aligned := by
  intro x g hg w
  rw [strand_modify]
  by_cases hx : x = v
  · subst hx
    rw [gate?_modify_self, Option.map_eq_some_iff] at hg
    obtain ⟨k, hk, rfl⟩ := hg
    exact (h x k hk w).trans (hf k hk w)
  · rw [gate?_modify_of_ne _ _ _ hx] at hg
    exact h x g hg w

theorem without (h : c.Aligned) (v : VertexId) : (c.without v).Aligned := by
  intro x g hg w
  obtain ⟨hx, hg⟩ := gate?_without c v hg
  rw [strand_without, List.mem_filter, decide_eq_true_eq]
  exact ⟨fun hm => (h x g hg w).1 hm.1, fun hw => ⟨(h x g hg w).2 hw, hx⟩⟩

theorem swapped (h : c.Aligned) (a b : VertexId) : (c.swapped a b).Aligned := by
  intro x g hg w
  rw [strand_swapped, Strand.mem_exchange]
  exact h x g hg w

end Aligned

/-- As long as a gate is only overwritten by one with the same wires, gates and strands agree. -/
theorem Reachable.aligned {allowed : Gate → Gate → Prop} {c : Circuit}
    (hallowed : ∀ g h, allowed g h → g.SameWires h) (h : Reachable allowed c) : c.Aligned := by
  induction h with
  | empty width =>
      intro v g hg
      cases hg
  | build hb =>
      rw [(build_eq_ok_iff.1 hb).2]
      exact .ofGates _ _
  | remove _ hr ih =>
      obtain ⟨k, -, -, rfl⟩ := remove_eq_ok_iff.1 hr
      exact ih.without _
  | commute _ hc ih =>
      rw [(commute_eq_ok_iff.1 hc).2]
      exact ih.swapped _ _
  | modify _ hf ih => exact ih.modify fun g hg => hallowed g _ (hf g hg)
  | restore _ hr _ =>
      rw [(restore_eq_ok_iff.1 hr).2.2]
      exact .ofGates _ _

end Circuit

end Peephole
