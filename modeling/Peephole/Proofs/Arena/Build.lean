import Peephole.Proofs.Arena.Simulation

/-!
# Building an arena

The scan over a gate list keeps the last vertex on every wire. A new vertex is linked to those on
its wires and becomes the last one there, so that after every gate the arena is that of the circuit
of the gates so far.

* `Fresh.addLink`, `Fresh.followedBy`: links are added together with the neighbours they name.
* `Joins`, `joins_linkWires`: what becomes of a scan when a new vertex is linked wire by wire.
* `Scan.Reads`, `Scan.Reads.add`: the invariant of the scan, and one step of it.
* `build_simulates`, `restore_simulates`: whole gate lists, also those that do not fit.
-/

namespace Peephole

variable {a : Arena} {x : Vertex} {u v : VertexId} {w z : Wire} {p : Option VertexId}

/-! ## New links -/

namespace Strand

/-- The last vertex of a longer strand, the one that was the last before, and the others. -/
theorem link?_concat {s : List VertexId} (hs : (s ++ [v]).Nodup) :
    link? u (s ++ [v]) =
      if u = v then some ⟨s.getLast?, none⟩
      else if s.getLast? = some u then (link? u s).map fun l => { l with next := some v }
      else link? u s := by
  have hv : v ∉ s := fun h => (List.nodup_append.1 hs).2.2 v h v (by simp) rfl
  by_cases hu : u = v
  · subst hu
    have hlast : s.getLast? ≠ some u := fun h => hv (List.mem_of_getLast? h)
    rw [if_pos rfl, link?_of_mem (by simp), prev?_concat hv, if_pos rfl, next?_concat hs,
      if_neg hlast, next?_of_notMem hv]
  · rw [if_neg hu]
    by_cases hmem : u ∈ s
    · rw [link?_of_mem (by simp [hmem]), link?_of_mem hmem, prev?_concat hv, if_neg hu,
        next?_concat hs]
      split <;> rfl
    · rw [link?_of_notMem (by simp [hmem, hu]), link?_of_notMem hmem]
      split <;> rfl

end Strand

namespace Vertex

open Circuit (insertId mem_insertId pairwise_insertId pairwise_ascending eq_of_mem_iff)

theorem Fresh.of_mem_iff (hp : x.predecessors.Pairwise (· < ·)) (hs : x.successors.Pairwise (· < ·))
    (hmemp : ∀ u, u ∈ x.predecessors ↔ ∃ w l, x.links.get? w = some l ∧ l.prev = some u)
    (hmems : ∀ u, u ∈ x.successors ↔ ∃ w l, x.links.get? w = some l ∧ l.next = some u) :
    x.Fresh where
  predecessors_eq := by
    refine eq_of_mem_iff hp (pairwise_ascending _) fun u => ?_
    rw [hmemp, mem_linkedPredecessors]
  successors_eq := by
    refine eq_of_mem_iff hs (pairwise_ascending _) fun u => ?_
    rw [hmems, mem_linkedSuccessors]

theorem Fresh.pairwise_predecessors (h : x.Fresh) : x.predecessors.Pairwise (· < ·) := by
  rw [h.predecessors_eq]
  exact pairwise_ascending _

theorem Fresh.pairwise_successors (h : x.Fresh) : x.successors.Pairwise (· < ·) := by
  rw [h.successors_eq]
  exact pairwise_ascending _

/-- The neighbours that links name, when one of the links becomes another that names the same and
maybe more. -/
theorem exists_link_iff_of_changed {d e : Dict Wire Link} {new : Link}
    {neighbour : Link → Option VertexId} (hself : e.get? w = some new)
    (hother : ∀ z, z ≠ w → e.get? z = d.get? z)
    (hkeep : ∀ l, d.get? w = some l → ∀ u, neighbour l = some u → neighbour new = some u) :
    (∃ z l, e.get? z = some l ∧ neighbour l = some u) ↔
      neighbour new = some u ∨ ∃ z l, d.get? z = some l ∧ neighbour l = some u := by
  constructor
  · rintro ⟨z, l, hl, hu⟩
    by_cases hz : z = w
    · subst hz
      obtain rfl := Option.some.inj (hself.symm.trans hl)
      exact Or.inl hu
    · exact Or.inr ⟨z, l, (hother z hz).symm.trans hl, hu⟩
  · rintro (hu | ⟨z, l, hl, hu⟩)
    · exact ⟨w, new, hself, hu⟩
    · by_cases hz : z = w
      · subst hz
        exact ⟨z, new, hself, hkeep l hl u hu⟩
      · exact ⟨z, l, (hother z hz).trans hl, hu⟩

theorem get?_addLink : (x.addLink w p).links.get? z
    = if z = w then some ⟨p, none⟩ else x.links.get? z := by
  simp [Vertex.addLink, Dict.get?_insert]

/-- A vertex gets a link on a new wire. -/
theorem Fresh.addLink (h : x.Fresh) (hw : x.links.get? w = none) : (x.addLink w p).Fresh := by
  have hself : (x.addLink w p).links.get? w = some ⟨p, none⟩ := by
    rw [get?_addLink, if_pos rfl]
  have hother : ∀ z, z ≠ w → (x.addLink w p).links.get? z = x.links.get? z := fun z hz => by
    rw [get?_addLink, if_neg hz]
  have hp := h.pairwise_predecessors
  have hs := h.pairwise_successors
  have hpairwise : (x.addLink w p).predecessors.Pairwise (· < ·) := by
    cases p with
    | none => exact hp
    | some p => exact pairwise_insertId hp p
  refine .of_mem_iff hpairwise hs (fun u => ?_) fun u => ?_
  · rw [exists_link_iff_of_changed hself hother (by simp [hw]), ← mem_linkedPredecessors,
      ← h.predecessors_eq]
    cases p with
    | none => simp [Vertex.addLink]
    | some p => simp [Vertex.addLink, mem_insertId, eq_comm]
  · rw [exists_link_iff_of_changed hself hother (by simp [hw]), ← mem_linkedSuccessors,
      ← h.successors_eq]
    simp [Vertex.addLink]

theorem get?_followedBy : (x.followedBy v w).links.get? z
    = if z = w then (x.links.get? z).map fun l => { l with next := some v }
      else x.links.get? z := by
  by_cases hz : z = w <;> simp [Vertex.followedBy, Dict.modify_eq_mapped, hz]

/-- The last vertex on a wire gets one behind it. -/
theorem Fresh.followedBy (h : x.Fresh) (hw : x.links.get? w = some ⟨p, none⟩) :
    (x.followedBy v w).Fresh := by
  have hself : (x.followedBy v w).links.get? w = some ⟨p, some v⟩ := by
    rw [get?_followedBy, if_pos rfl, hw]
    rfl
  have hother : ∀ z, z ≠ w → (x.followedBy v w).links.get? z = x.links.get? z := fun z hz => by
    rw [get?_followedBy, if_neg hz]
  have hp := h.pairwise_predecessors
  have hs := h.pairwise_successors
  refine .of_mem_iff hp (pairwise_insertId hs v) (fun u => ?_) fun u => ?_
  · rw [exists_link_iff_of_changed hself hother (by simp [hw]), ← mem_linkedPredecessors,
      ← h.predecessors_eq]
    -- the vertex before it is named by the link as it was
    have hnamed : p = some u → u ∈ x.predecessors := fun hu => by
      rw [h.predecessors_eq, mem_linkedPredecessors]
      exact ⟨w, _, hw, hu⟩
    exact (or_iff_right_of_imp hnamed).symm
  · rw [exists_link_iff_of_changed hself hother (by simp [hw]), ← mem_linkedSuccessors,
      ← h.successors_eq]
    simp [Vertex.followedBy, mem_insertId, eq_comm]

end Vertex

namespace Arena

theorem width_follow : (a.follow p v w).width = a.width := by
  cases p <;> rfl

theorem gate?_follow : (a.follow p v w).gate? u = a.gate? u := by
  cases p with
  | none => rfl
  | some p =>
      rw [Arena.follow, gate?, update_eq_mapped, vertex?_mapped, Option.map_map, gate?]
      refine congrArg (Option.map · (a.vertex? u)) (funext fun x => ?_)
      simp only [Function.comp_apply]
      split <;> rfl

theorem link?_follow : (a.follow p v w).link? u z =
    if p = some u ∧ z = w then (a.link? u z).map fun l => { l with next := some v }
    else a.link? u z := by
  cases p with
  | none => simp [Arena.follow]
  | some p =>
      rw [Arena.follow, link?, update_eq_mapped, vertex?_mapped, link?]
      cases a.vertex? u with
      | none => simp
      | some x =>
          by_cases hu : u = p
          · subst hu
            simp [Vertex.get?_followedBy]
          · simp [hu, Ne.symm hu]

theorem Fresh.follow (h : a.Fresh) (hp : ∀ u, p = some u → ∃ q, a.link? u w = some ⟨q, none⟩) :
    (a.follow p v w).Fresh := by
  cases p with
  | none => exact h
  | some p =>
      intro u y hy
      rw [Arena.follow, update_eq_mapped, vertex?_mapped, Option.map_eq_some_iff] at hy
      obtain ⟨x, hx, rfl⟩ := hy
      split
      · rename_i hu
        subst hu
        obtain ⟨q, hq⟩ := hp u rfl
        rw [link?_of_vertex? hx] at hq
        exact (h u x hx).followedBy hq
      · exact h u x hx

/-! ## Wire by wire -/

/-- What becomes of a scan, and of a new vertex, when the vertex is linked on some wires: the last
vertex on each of them is followed by it. -/
structure Joins (v : VertexId) (ws : List Wire) (s : Scan) (x : Vertex) (s' : Scan) (x' : Vertex) :
    Prop where
  width_eq : s'.arena.width = s.arena.width
  gate?_eq : ∀ u, s'.arena.gate? u = s.arena.gate? u
  link?_eq : ∀ u w, s'.arena.link? u w =
    if s.last.get? w = some u ∧ w ∈ ws then
      (s.arena.link? u w).map fun l => { l with next := some v }
    else s.arena.link? u w
  fresh : s'.arena.Fresh
  last_eq : ∀ w, s'.last.get? w = if w ∈ ws then some v else s.last.get? w
  gate_eq : x'.gate = x.gate
  links_eq : ∀ w, x'.links.get? w = if w ∈ ws then some ⟨s.last.get? w, none⟩ else x.links.get? w
  fresh_new : x'.Fresh

theorem joins_linkWires {ws : List Wire} {s : Scan} (hs : s.arena.Fresh) (hx : x.Fresh)
    (hws : ws.Nodup) (hnew : ∀ w ∈ ws, x.links.get? w = none)
    (hlast : ∀ w ∈ ws, ∀ u, s.last.get? w = some u → ∃ q, s.arena.link? u w = some ⟨q, none⟩) :
    Joins v ws s x (s.linkWires v x ws).1 (s.linkWires v x ws).2 := by
  induction ws generalizing s x with
  | nil =>
      exact ⟨rfl, fun _ => rfl, fun _ _ => by simp [Scan.linkWires], hs,
        fun _ => by simp [Scan.linkWires], rfl, fun _ => by simp [Scan.linkWires], hx⟩
  | cons w rest ih =>
      rw [List.nodup_cons] at hws
      rw [List.forall_mem_cons] at hnew hlast
      have hne : ∀ z ∈ rest, z ≠ w := by
        rintro z hz rfl
        exact hws.1 hz
      have h := ih (s := ⟨s.arena.follow (s.last.get? w) v w, s.last.insert w v⟩)
        (x := x.addLink w (s.last.get? w)) (hs.follow hlast.1) (hx.addLink hnew.1)
        hws.2 ?_ ?_
      · refine ⟨?_, fun u => ?_, fun u z => ?_, h.fresh, fun z => ?_, h.gate_eq, fun z => ?_,
          h.fresh_new⟩
        · exact h.width_eq.trans width_follow
        · exact (h.gate?_eq u).trans gate?_follow
        · refine (h.link?_eq u z).trans ?_
          by_cases hz : z = w
          · subst hz
            simp [link?_follow, hws.1]
          · simp [Dict.get?_insert, link?_follow, hz]
        · refine (h.last_eq z).trans ?_
          simp only [Dict.get?_insert]
          grind
        · refine (h.links_eq z).trans ?_
          simp only [Dict.get?_insert, Vertex.get?_addLink]
          grind
      · intro z hz
        rw [Vertex.get?_addLink, if_neg (hne z hz), hnew.2 z hz]
      · intro z hz u hu
        simp only [Dict.get?_insert, beq_iff_eq, if_neg (hne z hz)] at hu
        obtain ⟨q, hq⟩ := hlast.2 z hz u hu
        refine ⟨q, ?_⟩
        rw [link?_follow, if_neg fun h => hne z hz h.2, hq]

/-! ## Gate by gate -/

/-- The scan has come as far as the gates `gs`: the arena is that of their circuit, and the last
vertex on each wire is known. -/
structure Scan.Reads (n : Nat) (gs : List Gate) (s : Scan) : Prop where
  represents : s.arena.Represents (Circuit.ofGates n gs)
  last_eq : ∀ w, s.last.get? w = (Circuit.positionsOn w gs).getLast?

section Scan

variable {n : Nat} {gs : List Gate} {s : Scan} {g : Gate}

theorem represents_empty (n : Nat) : (empty n).Represents (Circuit.empty n) where
  width_eq := rfl
  gate?_eq _ := rfl
  link?_eq _ _ := rfl
  fresh _ _ hx := by cases hx

theorem Scan.reads_nil (n : Nat) : Reads n [] ⟨.empty n, .empty⟩ := by
  refine ⟨represents_empty n, fun w => ?_⟩
  rfl

theorem vertex?_insert : (a.insert v x).vertex? u = if u = v then some x else a.vertex? u := by
  rw [vertex?, insert, Dict.get?_insert, vertex?]
  simp only [beq_iff_eq]

theorem gate?_insert : (a.insert v x).gate? u = if u = v then some x.gate else a.gate? u := by
  rw [gate?, vertex?_insert, gate?]
  split <;> rfl

theorem link?_insert :
    (a.insert v x).link? u w = if u = v then x.links.get? w else a.link? u w := by
  rw [link?, vertex?_insert, link?]
  split <;> rfl

/-- The last vertex on a wire is not followed by any. -/
theorem Scan.Reads.link?_last (h : s.Reads n gs) (hu : s.last.get? w = some u) :
    ∃ q, s.arena.link? u w = some ⟨q, none⟩ := by
  rw [h.last_eq, ← @Circuit.strand_ofGates n gs w] at hu
  rw [h.represents.link?_eq, Strand.link?_of_mem (List.mem_of_getLast? hu),
    Strand.next?_of_getLast? (Circuit.strand_nodup _ w) hu]
  exact ⟨_, rfl⟩

/-- One more gate. Only the last vertices on its wires get another link. -/
theorem Scan.Reads.add (h : s.Reads n gs) (hg : g.wires.Nodup) :
    (s.add gs.length g).Reads n (gs ++ [g]) := by
  have hj := joins_linkWires (v := gs.length) (x := .new g) h.represents.fresh ⟨rfl, rfl⟩ hg
    (fun _ _ => rfl) fun w _ u => h.link?_last
  refine ⟨⟨hj.width_eq.trans h.represents.width_eq, fun u => ?_, fun u w => ?_, fun u x hx => ?_⟩,
    fun w => ?_⟩
  · refine gate?_insert.trans ?_
    rw [hj.gate?_eq, hj.gate_eq, h.represents.gate?_eq, Circuit.gate?_ofGates,
      Circuit.gate?_ofGates, List.getElem?_append]
    show (if u = gs.length then some g else gs[u]?) = _
    grind
  · refine link?_insert.trans ?_
    have hnodup := Circuit.strand_nodup (.ofGates n (gs ++ [g])) w
    rw [Circuit.strand_ofGates, Circuit.positionsOn_concat] at hnodup
    rw [hj.link?_eq, hj.links_eq, h.represents.link?_eq, h.last_eq, Circuit.strand_ofGates,
      Circuit.strand_ofGates, Circuit.positionsOn_concat]
    by_cases hw : w ∈ g.wires
    · rw [if_pos hw] at hnodup
      simp only [hw, if_true, and_true]
      exact (Strand.link?_concat hnodup).symm
    · have hv : gs.length ∉ Circuit.positionsOn w gs := by simp [Circuit.mem_positionsOn]
      simp only [hw, if_false, and_false, List.append_nil]
      split
      · rename_i hu
        rw [hu, Strand.link?_of_notMem hv]
        rfl
      · rfl
  · have hx := vertex?_insert.symm.trans hx
    split at hx
    · obtain rfl := Option.some.inj hx
      exact hj.fresh_new
    · exact hj.fresh u x hx
  · refine (hj.last_eq w).trans ?_
    rw [Circuit.positionsOn_concat, h.last_eq]
    split <;> simp

/-- Going on with a scan. -/
theorem Scan.Reads.scan (h : s.Reads n gs) (rest : List Gate) :
    match Circuit.checkGates n rest with
    | .ok () => ∃ t, scan gs.length s rest = .ok t ∧ t.Reads n (gs ++ rest)
    | .error e => scan gs.length s rest = .error e := by
  induction rest generalizing gs s with
  | nil => exact ⟨s, rfl, by rwa [List.append_nil]⟩
  | cons g rest ih =>
      have hwidth : s.arena.width = n := h.represents.width_eq
      rw [Arena.scan, hwidth, Circuit.checkGates]
      cases hg : Circuit.checkWires n g.name [] g.wires with
      | error e => rfl
      | ok u =>
          have hstep := ih (h.add (Circuit.checkWires_gate_eq_ok_iff.1 hg).1)
          simpa using hstep

end Scan

/-- An arena is built from the gates that a circuit is built from, and is that of the circuit. -/
theorem build_simulates (n : Nat) (gs : List Gate) :
    match Circuit.build n gs with
    | .ok c => ∃ a, build n gs = .ok a ∧ a.Represents c
    | .error e => build n gs = .error e := by
  have h := (Scan.reads_nil n).scan gs
  rw [Circuit.build, build]
  cases hg : Circuit.checkGates n gs with
  | error e =>
      rw [hg] at h
      rw [show scan 0 _ gs = _ from h]
      rfl
  | ok u =>
      rw [hg] at h
      obtain ⟨t, ht, hreads⟩ := h
      rw [show scan 0 _ gs = _ from ht]
      exact ⟨_, rfl, hreads.represents⟩

/-- Restoring a snapshot gives the arena of the restored circuit, or leaves what there was. -/
theorem restore_simulates (s : Snapshot) (a : Arena) :
    Simulates a ((restore s).on a) s.restore := by
  have h := build_simulates s.width s.gates
  rw [Snapshot.restore]
  cases hb : Circuit.build s.width s.gates with
  | error e =>
      rw [hb] at h
      rw [restore, show build _ _ = _ from h]
      rfl
  | ok c =>
      rw [hb] at h
      obtain ⟨b, hb, hrep⟩ := h
      rw [restore, hb]
      exact ⟨b, rfl, hrep⟩

end Arena

end Peephole
