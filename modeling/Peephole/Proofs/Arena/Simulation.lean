import Peephole.Proofs.Arena.Links

/-!
# Edits of an arena and of its circuit

On an arena that represents a circuit no lookup of an edit fails once it has begun to change
anything: an edit is carried out as a whole, or refused at once. In both cases it does to the arena
what it does to the circuit.

* `Arena.Simulates`: an action does to an arena what an operation does to the circuit.
* `Represents.remove`, `Represents.commute`, `Represents.withGate`: the operations.
* `Represents.apply`, `Represents.applyAll`: every edit, and edits in a row.
-/

namespace Peephole.Arena

open Circuit (mem_ids mem_ascending)

variable {a b : Arena} {c d : Circuit} {u v : VertexId} {w : Wire} {α : Type}

/-- What an action that was begun on the arena `a` returned and left, beside what an operation does
to the circuit. It returns the same, and leaves the arena of the result; if it is refused, it leaves
what it began with. -/
def Simulates (a : Arena) (r : Except Circuit.Error α × Arena) :
    Except Circuit.Error (α × Circuit) → Prop
  | .ok (x, d) => ∃ b, r = (.ok x, b) ∧ b.Represents d
  | .error e => r = (.error e, a)

/-! ## Removal -/

theorem vertex?_erase : (a.erase v).vertex? u = if u = v then none else a.vertex? u := by
  rw [vertex?, erase, Dict.get?_erase, vertex?]
  simp only [beq_iff_eq]

theorem link?_erase : (a.erase v).link? u w = if u = v then none else a.link? u w := by
  rw [link?, vertex?_erase, link?]
  split <;> rfl

theorem gate?_erase : (a.erase v).gate? u = if u = v then none else a.gate? u := by
  rw [gate?, vertex?_erase, gate?]
  split <;> rfl

theorem isSome_vertex?_of_link? (h : (a.link? u w).isSome) : (a.vertex? u).isSome := by
  obtain ⟨l, hl⟩ := Option.isSome_iff_exists.1 h
  obtain ⟨x, hx, -⟩ := Option.bind_eq_some_iff.1 hl
  rw [hx]
  rfl

/-- The ends of a link are other vertices of the strand. -/
theorem mem_of_mem_ends {s : List VertexId} (hs : s.Nodup)
    (hu : u ∈ Link.ends ⟨Strand.prev? v s, Strand.next? v s⟩) : u ∈ s ∧ u ≠ v := by
  simp only [Link.ends, List.mem_append, Option.mem_toList] at hu
  rcases hu with hu | hu
  · have hnext := (Strand.next?_eq_some_iff_prev? hs).2 hu
    exact ⟨Strand.mem_left_of_pair_sublist (Strand.pair_sublist_of_next? hs hnext),
      Strand.ne_of_next? hs hnext⟩
  · exact ⟨Strand.next?_mem hu, (Strand.ne_of_next? hs hu).symm⟩

namespace Represents

/-- The links that a vertex keeps are those of the strands it is on. -/
theorem mem_entries_iff (h : a.Represents c) {x : Vertex} (hx : a.vertex? v = some x) {l : Link} :
    (w, l) ∈ x.links.entries ↔ v ∈ c.strand w ∧ l = ⟨c.prev? w v, c.next? w v⟩ := by
  rw [Dict.mem_entries_iff, ← link?_of_vertex? hx, h.link?_eq, Strand.link?_eq_some_iff]
  rfl

/-- The arena where every link to a vertex leads past it, and the neighbours on both sides are
computed again, is that of the circuit without the vertex. -/
theorem erase_relinked (h : a.Represents c) {ψ : VertexId → Wire → Link → Link}
    (hψ : ∀ u w l, ψ u w l = l.spliced u (c.prev? w v) (c.next? w v)) {vs : List VertexId}
    (hvs : ∀ u w, u ∉ vs → u ∉ (c.prev? w v).toList ++ (c.next? w v).toList) :
    (((a.erase v).relinked ψ).refreshedAt vs).Represents (c.without v) where
  width_eq := h.width_eq
  gate?_eq u := by
    rw [gate?_refreshedAt, gate?_relinked, gate?_erase, h.gate?_eq, Circuit.gate?_without_eq]
  link?_eq u w := by
    rw [link?_refreshedAt, link?_relinked, link?_erase, Circuit.strand_without]
    split
    · rename_i hu
      subst hu
      rw [Option.map_none, Strand.link?_of_notMem (by simp)]
    · rename_i hu
      rw [h.link?_eq, Strand.link?_filter_ne (c.strand_nodup w) hu]
      exact congrArg (Option.map · _) (funext (hψ u w))
  fresh := by
    refine Fresh.refreshedAt (fun u x hx => ?_) fun u hu w l => ?_
    · rw [vertex?_erase] at hx
      split at hx
      · cases hx
      · exact h.fresh u x hx
    · rw [hψ, Link.spliced_of_notMem (hvs u w hu)]

/-- Removal takes a vertex out of all strands, or is refused because there is no such vertex. -/
theorem remove (h : a.Represents c) (v : VertexId) :
    Simulates a ((Arena.remove v).on a) (c.remove v) := by
  cases hg : c.gate? v with
  | none =>
      rw [Circuit.remove, hg]
      rw [← h.gate?_eq, gate?_eq_none_iff] at hg
      exact on_bind_of_error (on_entry_of_none hg)
  | some g =>
      rw [Circuit.remove_of_gate? hg]
      obtain ⟨x, hx, rfl⟩ := Option.map_eq_some_iff.1 ((h.gate?_eq v).trans hg)
      have hends : ∀ e ∈ x.links.entries, ∀ u ∈ e.2.ends, ((a.erase v).link? u e.1).isSome := by
        rintro ⟨w, l⟩ he u hu
        obtain ⟨-, rfl⟩ := (h.mem_entries_iff hx).1 he
        obtain ⟨hmem, hne⟩ := mem_of_mem_ends (c.strand_nodup w) hu
        rwa [link?_erase, if_neg hne, h.link?_eq, Strand.isSome_link?_iff]
      obtain ⟨ψ, hsplice, hon, hoff⟩ := on_forM_relinked (fun e _ => on_splice (w := e.1))
        x.links.keys_nodup hends
      have hlive : ∀ u ∈ Circuit.ascending (x.links.entries.flatMap fun e => e.2.ends),
          (((a.erase v).relinked ψ).vertex? u).isSome := by
        intro u hu
        obtain ⟨e, he, hu⟩ := List.mem_flatMap.1 (mem_ascending.1 hu)
        refine isSome_vertex?_of_link? (w := e.1) ?_
        rw [link?_relinked, Option.isSome_map]
        exact hends e he u hu
      have hrun := calc
        (Arena.remove v).on a = _ := on_bind_of_ok (on_entry_of_some hx)
        _ = _ := on_bind_of_ok (on_modify _ a)
        _ = _ := on_bind_of_ok hsplice
        _ = _ := on_bind_of_ok (on_forM_refresh hlive)
      refine ⟨_, hrun, h.erase_relinked (fun u w l => ?_) fun u w hu hends => ?_⟩
      · by_cases hv : v ∈ c.strand w
        · exact hon _ ((h.mem_entries_iff hx).2 ⟨hv, rfl⟩) u l
        · have hw : w ∉ x.links.entries.map Prod.fst := by
            intro hw
            obtain ⟨e, he, rfl⟩ := List.mem_map.1 hw
            exact hv ((h.mem_entries_iff hx).1 he).1
          rw [hoff w hw u l, Circuit.prev?, Strand.prev?_of_notMem hv, Circuit.next?,
            Strand.next?_of_notMem hv, Link.spliced_of_notMem (by simp)]
      · -- the neighbours of the vertex on any wire are among those that are computed again
        have hv : v ∈ c.strand w := by
          by_contra hv
          simp [Circuit.prev?, Circuit.next?, Strand.prev?_of_notMem hv,
            Strand.next?_of_notMem hv] at hends
        have he : (w, ⟨c.prev? w v, c.next? w v⟩) ∈ x.links.entries :=
          (h.mem_entries_iff hx).2 ⟨hv, rfl⟩
        exact hu (mem_ascending.2 (List.mem_flatMap.2 ⟨_, he, hends⟩))

end Represents

/-! ## Commutation -/

/-- Where two vertices meet on a wire of the first, if the second is on it. -/
def site? (y : Vertex) (e : Wire × Link) : Option Site :=
  (y.links.get? e.1).map fun other => ⟨e.1, e.2.prev, other.next⟩

theorem sites?_of_adjacent {y : Vertex} {es : List (Wire × Link)}
    (h : ∀ e ∈ es, (y.links.get? e.1).isSome → e.2.next = some v) :
    sites? v y es = some (es.filterMap (site? y)) := by
  induction es with
  | nil => rfl
  | cons e rest ih =>
      obtain ⟨w, l⟩ := e
      rw [List.forall_mem_cons] at h
      rw [sites?]
      cases hy : y.links.get? w with
      | none =>
          rw [List.filterMap_cons_none (by simp [site?, hy])]
          exact ih h.2
      | some other =>
          rw [List.filterMap_cons_some (b := ⟨w, l.prev, other.next⟩) (by simp [site?, hy])]
          simp only
          rw [if_pos (h.1 (by simp [hy])), ih h.2, Option.map_some]

theorem sites?_of_not_adjacent {y : Vertex} {es : List (Wire × Link)} {e : Wire × Link}
    (he : e ∈ es) (hy : (y.links.get? e.1).isSome) (hn : e.2.next ≠ some v) :
    sites? v y es = none := by
  induction es with
  | nil => cases he
  | cons e' rest ih =>
      obtain ⟨w, l⟩ := e'
      rw [sites?]
      rcases List.mem_cons.1 he with rfl | he
      · obtain ⟨other, hother⟩ := Option.isSome_iff_exists.1 hy
        simp only [hother]
        rw [if_neg hn]
      · rw [ih he]
        cases y.links.get? w with
        | none => rfl
        | some other =>
            simp only
            split <;> rfl

theorem map_wire_filterMap_site? (y : Vertex) (es : List (Wire × Link)) :
    (es.filterMap (site? y)).map Site.wire
      = (es.map Prod.fst).filter fun w => (y.links.get? w).isSome := by
  induction es with
  | nil => rfl
  | cons e rest ih =>
      cases hy : y.links.get? e.1 with
      | none => simp [site?, hy, ← ih]
      | some other => simp [site?, hy, ← ih]

namespace Represents

/-- The arena where two neighbours are exchanged on every wire that has both, and they and the
vertices around them have their neighbours computed again, is that of the circuit where they are
exchanged. -/
theorem exchange_relinked (h : a.Represents c)
    (hadj : ∀ w, u ∈ c.strand w → v ∈ c.strand w → c.next? w u = some v)
    {ψ : VertexId → Wire → Link → Link}
    (hon : ∀ w, u ∈ c.strand w → v ∈ c.strand w → ∀ x l,
      ψ x w l = l.exchanged u v (c.prev? w u) (c.next? w v) x)
    (hoff : ∀ w, ¬ (u ∈ c.strand w ∧ v ∈ c.strand w) → ∀ x l, ψ x w l = l) {vs : List VertexId}
    (hvs : ∀ x, x ∉ vs → ∀ w l, ψ x w l = l) :
    ((a.relinked ψ).refreshedAt vs).Represents (c.swapped u v) where
  width_eq := h.width_eq
  gate?_eq x := by rw [gate?_refreshedAt, gate?_relinked, h.gate?_eq, Circuit.gate?_swapped]
  link?_eq x w := by
    rw [link?_refreshedAt, link?_relinked, h.link?_eq, Circuit.strand_swapped]
    by_cases hw : u ∈ c.strand w ∧ v ∈ c.strand w
    · rw [Strand.link?_exchange (c.strand_nodup w) (hadj w hw.1 hw.2)]
      exact congrArg (Option.map · _) (funext (hon w hw.1 hw.2 x))
    · have hne : Strand.next? u (c.strand w) ≠ some v := fun hn => hw (Circuit.mem_of_next? hn)
      rw [Strand.exchange_eq_self hne, funext (hoff w hw x), Option.map_id']
  fresh := Fresh.refreshedAt h.fresh hvs

/-- The sites of two vertices that can be commuted are the wires that have both, with what is around
them there. -/
theorem exists_sites (h : a.Represents c)
    (hadj : ∀ w, u ∈ c.strand w → v ∈ c.strand w → c.next? w u = some v) {x y : Vertex}
    (hx : a.vertex? u = some x) (hy : a.vertex? v = some y) :
    ∃ sites, sites? v y x.links.entries = some sites ∧ (sites.map Site.wire).Nodup ∧
      ∀ s, s ∈ sites ↔ u ∈ c.strand s.wire ∧ v ∈ c.strand s.wire ∧
        s = ⟨s.wire, c.prev? s.wire u, c.next? s.wire v⟩ := by
  have hylink : ∀ w, y.links.get? w = Strand.link? v (c.strand w) := fun w => by
    rw [← link?_of_vertex? hy, h.link?_eq]
  refine ⟨x.links.entries.filterMap (site? y), sites?_of_adjacent ?_, ?_, fun s => ?_⟩
  · rintro ⟨w, l⟩ he hshared
    obtain ⟨hu, rfl⟩ := (h.mem_entries_iff hx).1 he
    rw [hylink, Strand.isSome_link?_iff] at hshared
    exact hadj w hu hshared
  · rw [map_wire_filterMap_site?]
    exact x.links.keys_nodup.filter _
  · rw [List.mem_filterMap]
    constructor
    · rintro ⟨⟨w, l⟩, he, hs⟩
      obtain ⟨hu, rfl⟩ := (h.mem_entries_iff hx).1 he
      obtain ⟨other, hother, rfl⟩ := Option.map_eq_some_iff.1 hs
      rw [hylink, Strand.link?_eq_some_iff] at hother
      obtain ⟨hv, rfl⟩ := hother
      exact ⟨hu, hv, rfl⟩
    · rintro ⟨hu, hv, hs⟩
      refine ⟨_, (h.mem_entries_iff hx).2 ⟨hu, rfl⟩, ?_⟩
      rw [site?, hylink, Strand.link?_of_mem hv, Option.map_some, hs]
      rfl

/-- Two vertices on a wire, and what is around them, have links there. -/
theorem isSome_link?_of_mem_site (h : a.Represents c) (hu : u ∈ c.strand w) (hv : v ∈ c.strand w)
    {z : VertexId} (hz : z ∈ u :: v :: Site.ends ⟨w, c.prev? w u, c.next? w v⟩) :
    (a.link? z w).isSome := by
  rw [h.link?_eq, Strand.isSome_link?_iff]
  rw [List.mem_cons, List.mem_cons, Site.ends, List.mem_append, Option.mem_toList,
    Option.mem_toList] at hz
  rcases hz with rfl | rfl | hz | hz
  · exact hu
  · exact hv
  · exact (Circuit.mem_of_next? (Circuit.next?_eq_some_iff_prev?.2 hz)).1
  · exact (Circuit.mem_of_next? hz).2

/-- A commutation that is possible exchanges the two vertices on every strand that has both. -/
theorem commute_of_commutable (h : a.Represents c) (hc : c.Linked) (huv : c.Commutable u v) :
    ∃ b, (Arena.commute u v).on a = (.ok (), b) ∧ b.Represents (c.swapped u v) := by
  obtain ⟨hedge, hadj⟩ := hc.commutable_iff.1 huv
  obtain ⟨x, hx⟩ := h.exists_vertex huv.first
  obtain ⟨y, hy⟩ := h.exists_vertex huv.second
  obtain ⟨sites, hsites, hwires, hmem⟩ := h.exists_sites hadj hx hy
  have hends : ∀ s ∈ sites, ∀ z ∈ u :: v :: s.ends, (a.link? z s.wire).isSome := by
    intro s hs z hz
    obtain ⟨hu, hv, hs⟩ := (hmem s).1 hs
    rw [hs] at hz
    exact h.isSome_link?_of_mem_site hu hv hz
  obtain ⟨ψ, hexchange, hon, hoff⟩ :=
    on_forM_relinked (fun s _ => on_exchange (s := s)) hwires hends
  have hlive : ∀ z ∈ Circuit.ascending (u :: v :: sites.flatMap Site.ends),
      ((a.relinked ψ).vertex? z).isSome := by
    intro z hz
    rw [relinked, vertex?_mapped, Option.isSome_map]
    rw [mem_ascending, List.mem_cons, List.mem_cons, List.mem_flatMap] at hz
    rcases hz with rfl | rfl | ⟨s, hs, hz⟩
    · rw [hx]
      rfl
    · rw [hy]
      rfl
    · exact isSome_vertex?_of_link? (hends s hs z (by simp [hz]))
  have hsucc : x.successors.contains v = true := by
    rw [h.successors_eq hc hx]
    simpa using hedge
  have hrun : (Arena.commute u v).on a = (.ok (), (a.relinked ψ).refreshedAt
      (Circuit.ascending (u :: v :: sites.flatMap Site.ends))) := by
    rw [Arena.commute, on_bind_of_ok (on_entry_of_some hx), if_pos hsucc,
      on_bind_of_ok (on_entry_of_some hy), hsites]
    exact (on_bind_of_ok hexchange).trans (on_forM_refresh hlive)
  -- off the wires that have both vertices, and away from the sites, no link has changed
  have haway : ∀ w, ¬ (u ∈ c.strand w ∧ v ∈ c.strand w) → ∀ z l, ψ z w l = l := by
    intro w hw z l
    refine hoff w (fun hmap => ?_) z l
    obtain ⟨s, hs, rfl⟩ := List.mem_map.1 hmap
    obtain ⟨hu, hv, -⟩ := (hmem s).1 hs
    exact hw ⟨hu, hv⟩
  have hat : ∀ w, u ∈ c.strand w → v ∈ c.strand w → ∀ z l,
      ψ z w l = l.exchanged u v (c.prev? w u) (c.next? w v) z := fun w hu hv =>
    hon ⟨w, c.prev? w u, c.next? w v⟩ ((hmem _).2 ⟨hu, hv, rfl⟩)
  refine ⟨_, hrun, h.exchange_relinked hadj hat haway fun z hz w l => ?_⟩
  by_cases hw : u ∈ c.strand w ∧ v ∈ c.strand w
  · rw [mem_ascending, List.mem_cons, List.mem_cons, not_or, not_or, List.mem_flatMap] at hz
    rw [hat w hw.1 hw.2]
    refine Link.exchanged_of_notMem hz.1 hz.2.1 (fun hends => hz.2.2 ?_) l
    exact ⟨⟨w, c.prev? w u, c.next? w v⟩, (hmem _).2 ⟨hw.1, hw.2, rfl⟩, hends⟩
  · exact haway w hw z l

/-- A commutation exchanges two vertices or is refused, as it is on the circuit. -/
theorem commute (h : a.Represents c) (hc : c.Linked) (u v : VertexId) :
    Simulates a ((Arena.commute u v).on a) ((c.commute u v).map fun d => ((), d)) := by
  rcases Circuit.commute_cases c u v with
    ⟨hu, he⟩ | ⟨-, hedge, hv, -⟩ | ⟨hu, -, hn, he⟩ | ⟨huv, hd⟩
  · rw [he]
    exact on_bind_of_error (on_entry_of_none (h.vertex?_eq_none_iff.2 hu))
  · exact absurd (hc.live_of_mem_successors hedge).2 hv
  · rw [he]
    show (Arena.commute u v).on a = (.error (.notAdjacent u v), a)
    obtain ⟨x, hx⟩ := h.exists_vertex hu
    rw [Arena.commute, on_bind_of_ok (on_entry_of_some hx), h.successors_eq hc hx]
    by_cases hedge : v ∈ c.successors u
    · obtain ⟨y, hy⟩ := h.exists_vertex (hc.live_of_mem_successors hedge).2
      obtain ⟨w, hw⟩ : ∃ w, ¬ (u ∈ c.strand w → v ∈ c.strand w → c.next? w u = some v) := by
        by_contra hall
        exact hn (hc.commutable_iff.2 ⟨hedge, by simpa using hall⟩)
      simp only [Classical.not_imp] at hw
      obtain ⟨huw, hvw, hnext⟩ := hw
      have hshared : (y.links.get? w).isSome := by
        rwa [← link?_of_vertex? hy, h.link?_eq, Strand.isSome_link?_iff]
      have hnone : sites? v y x.links.entries = none :=
        sites?_of_not_adjacent ((h.mem_entries_iff hx).2 ⟨huw, rfl⟩) hshared hnext
      rw [if_pos (by simpa using hedge), on_bind_of_ok (on_entry_of_some hy), hnone]
      rfl
    · rw [if_neg (by simpa using hedge)]
      rfl
  · rw [hd]
    exact h.commute_of_commutable hc huv

/-! ## Gates in place -/

theorem withGate (h : a.Represents c) (v : VertexId) (f : Gate → Gate) :
    (a.withGate v f).Represents (c.modify v f) where
  width_eq := h.width_eq
  gate?_eq u := by
    rw [Circuit.gate?_modify, ← h.gate?_eq, ← h.gate?_eq, gate?, Arena.withGate, update_eq_mapped,
      vertex?_mapped, gate?, gate?]
    split
    · rename_i hu
      subst hu
      rw [Option.map_map, Option.map_map]
      rfl
    · rw [Option.map_map]
      rfl
  link?_eq u w := by
    rw [Circuit.strand_modify, ← h.link?_eq, link?, Arena.withGate, update_eq_mapped,
      vertex?_mapped, link?]
    cases a.vertex? u with
    | none => rfl
    | some x =>
        simp only [Option.map_some, Option.bind_some]
        split <;> rfl
  fresh u y hy := by
    rw [Arena.withGate, update_eq_mapped, vertex?_mapped, Option.map_eq_some_iff] at hy
    obtain ⟨x, hx, rfl⟩ := hy
    have hfresh := h.fresh u x hx
    split
    · exact ⟨hfresh.predecessors_eq, hfresh.successors_eq⟩
    · exact hfresh

theorem overwrite (h : a.Represents c) (v : VertexId) (f : Gate → Gate) :
    Simulates a ((Arena.overwrite v f).on a)
      (if c.contains v then .ok ((), c.modify v f) else .error (.noVertex v)) := by
  by_cases hv : v ∈ c.ids
  · rw [if_pos (Circuit.contains_eq_true_iff.2 hv)]
    obtain ⟨x, hx⟩ := h.exists_vertex hv
    exact ⟨_, on_bind_of_ok (on_entry_of_some hx), h.withGate v f⟩
  · rw [if_neg fun hcontains => hv (Circuit.contains_eq_true_iff.1 hcontains)]
    exact on_bind_of_error (on_entry_of_none (h.vertex?_eq_none_iff.2 hv))

/-! ## Edits -/

/-- Every edit does to the arena what it does to the circuit. -/
theorem apply (h : a.Represents c) (hc : c.Linked) (e : Circuit.Edit) :
    Simulates a ((Arena.apply e).on a) ((e.apply c).map fun d => ((), d)) := by
  cases e with
  | remove v =>
      have hremove := h.remove v
      rw [Circuit.Edit.apply]
      cases hr : c.remove v with
      | error err =>
          rw [hr] at hremove
          exact on_bind_of_error hremove
      | ok r =>
          obtain ⟨g, d⟩ := r
          rw [hr] at hremove
          obtain ⟨b, hb, hd⟩ := hremove
          exact ⟨b, on_bind_of_ok hb, hd⟩
  | commute u v => exact h.commute hc u v
  | setKind v kind =>
      have hoverwrite := h.overwrite v fun g => { g with kind }
      rw [Circuit.Edit.apply]
      split at hoverwrite <;> simp only [*, if_true] <;> exact hoverwrite
  | setWires v target controls =>
      have hoverwrite := h.overwrite v fun g => { g with target, controls }
      rw [Circuit.Edit.apply]
      split at hoverwrite <;> simp only [*, if_true] <;> exact hoverwrite
  | turn v θ => exact ⟨_, on_modify _ a, h.withGate v (Gate.turn θ)⟩

/-- Edits in a row do to the arena what they do to the circuit, up to the first that is refused. -/
theorem applyAll (h : a.Represents c) (hc : c.Linked) (es : List Circuit.Edit) :
    ∃ b, (es.forM Arena.apply).on a = (match (c.applyAll es).2 with
        | none => .ok ()
        | some e => .error e, b) ∧ b.Represents (c.applyAll es).1 := by
  induction es generalizing a c with
  | nil => exact ⟨a, rfl, h⟩
  | cons e rest ih =>
      have happly := h.apply hc e
      rw [Circuit.applyAll]
      cases he : e.apply c with
      | error err =>
          rw [he] at happly
          exact ⟨a, on_bind_of_error happly, h⟩
      | ok d =>
          rw [he] at happly
          obtain ⟨b, hb, hd⟩ := happly
          obtain ⟨b', hb', hd'⟩ := ih hd (hc.apply he).1
          exact ⟨b', (on_forM_cons_of_ok rest hb).trans hb', hd'⟩

end Represents

end Peephole.Arena
