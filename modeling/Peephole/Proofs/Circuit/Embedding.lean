import Peephole.Proofs.Circuit.Depth
import Peephole.Proofs.Circuit.Renaming

/-!
# Circuits inside others

A circuit lies inside another when its vertices are some of the other's, under other names, and
every edge of it is a path there. Then it has no more gates and is no deeper, since its chains can
only get longer in the other circuit.

* `Circuit.Embeds`: one circuit lies inside another.
* `Embeds.noLarger`: it is neither longer nor deeper.
* `Linked.embeds_applyAll`: all edits but commutations lead inside the circuit.
* `Renamed.embeds`: the same circuit under other names.
-/

namespace Peephole.Circuit

open Relation (TransGen)

variable {c d e : Circuit} {f : VertexId → VertexId}

/-- The vertices of `d` stand for vertices of `c`, by the names that `f` gives them, and an edge
between two of them for a path. -/
structure EmbedsBy (f : VertexId → VertexId) (d c : Circuit) : Prop where
  mapsTo : Set.MapsTo f {v | v ∈ d.ids} {v | v ∈ c.ids}
  injOn : Set.InjOn f {v | v ∈ d.ids}
  path : ∀ a b, d.Edge a b → TransGen c.Edge (f a) (f b)

/-- The circuit `d` lies inside `c`. -/
def Embeds (d c : Circuit) : Prop := ∃ f, EmbedsBy f d c

/-- The circuit `d` is neither longer nor deeper than `c`. -/
structure NoLarger (d c : Circuit) : Prop where
  size_le : d.size ≤ c.size
  depth_le : ∃ m n, d.depth = .ok m ∧ c.depth = .ok n ∧ m ≤ n

theorem Embeds.refl (c : Circuit) : Embeds c c :=
  ⟨id, fun _ hv => hv, Set.injOn_id _, fun _ _ hab => .single hab⟩

theorem Embeds.trans (h : Embeds e d) (h' : Embeds d c) : Embeds e c := by
  obtain ⟨f, hf⟩ := h
  obtain ⟨g, hg⟩ := h'
  refine ⟨g ∘ f, hg.mapsTo.comp hf.mapsTo, hg.injOn.comp hf.injOn hf.mapsTo, fun a b hab => ?_⟩
  exact (hf.path a b hab).lift' g hg.path

/-! ## Sizes and depths -/

theorem EmbedsBy.size_le (h : EmbedsBy f d c) (hd : d.Linked) : d.size ≤ c.size := by
  have hnodup : (d.ids.map f).Nodup := hd.ids_nodup.map_on h.injOn
  have hsub : d.ids.map f ⊆ c.ids := by
    intro x hx
    obtain ⟨v, hv, rfl⟩ := List.mem_map.1 hx
    exact h.mapsTo hv
  calc d.size = (d.ids.map f).length := by rw [List.length_map, size_eq_length_ids]
    _ ≤ c.ids.length := (List.subperm_of_subset hnodup hsub).length_le
    _ = c.size := (size_eq_length_ids c).symm

/-- A chain goes on along a path. -/
theorem Chain.exists_longer (hc : c.Linked) {us : List VertexId} {a b : VertexId}
    (h : c.Chain (us ++ [a])) (hab : TransGen c.Edge a b) :
    ∃ ts, c.Chain (ts ++ [b]) ∧ us.length + 1 ≤ ts.length := by
  induction hab with
  | @single b hab =>
      refine ⟨us ++ [a], concat_concat_iff.2 ⟨h, (hc.live_of_mem_successors hab).2, hab⟩, ?_⟩
      simp
  | @tail b x _ hbx ih =>
      obtain ⟨ts, hts, hlen⟩ := ih
      refine ⟨ts ++ [b], concat_concat_iff.2 ⟨hts, (hc.live_of_mem_successors hbx).2, hbx⟩, ?_⟩
      simp only [List.length_append]
      omega

theorem EmbedsBy.exists_chain (h : EmbedsBy f d c) (hc : c.Linked) {us : List VertexId}
    {v : VertexId} (hus : d.Chain (us ++ [v])) :
    ∃ ts, c.Chain (ts ++ [f v]) ∧ us.length ≤ ts.length := by
  -- along the chain from its front: each edge is followed by a path
  induction us using List.reverseRecOn generalizing v with
  | nil => exact ⟨[], .singleton (h.mapsTo (hus.live v (by simp))), le_rfl⟩
  | append_singleton us p ih =>
      obtain ⟨hus, -, hpv⟩ := Chain.concat_concat_iff.1 hus
      obtain ⟨ts, hts, hlen⟩ := ih hus
      obtain ⟨ts', hts', hlen'⟩ := hts.exists_longer hc (h.path p v hpv)
      refine ⟨ts', hts', ?_⟩
      rw [List.length_append, List.length_singleton]
      omega

theorem EmbedsBy.length_le (h : EmbedsBy f d c) (hc : c.Linked) {n : Nat} (hn : c.Longest n)
    {vs : List VertexId} (hvs : d.Chain vs) : vs.length ≤ n := by
  rcases List.eq_nil_or_concat' vs with rfl | ⟨us, v, rfl⟩
  · exact Nat.zero_le n
  · obtain ⟨ts, hts, hlen⟩ := h.exists_chain hc hvs
    calc (us ++ [v]).length = us.length + 1 := by simp
      _ ≤ ts.length + 1 := by omega
      _ = (ts ++ [f v]).length := by simp
      _ ≤ n := hn.length_le _ hts

/-- What lies inside a circuit is neither longer nor deeper. -/
theorem Embeds.noLarger (h : Embeds d c) (hd : d.Proper) (hc : c.Proper) : NoLarger d c := by
  obtain ⟨f, hf⟩ := h
  obtain ⟨m, hm, hdm⟩ := hd.linked.exists_longest hd.acyclic
  obtain ⟨n, hn, hcn⟩ := hc.linked.exists_longest hc.acyclic
  obtain ⟨vs, hvs, rfl⟩ := hdm.exists_chain
  exact ⟨hf.size_le hd.linked, _, n, hm, hn, hf.length_le hc.linked hcn hvs⟩

/-! ## Edits -/

/-- An edge whose ends stand on a strand of the other circuit, in this order, is a path there. -/
theorem path_of_sublist (hd : d.Linked) (hc : c.Linked)
    (h : ∀ w, ((d.strand w).map f).Sublist (c.strand w)) (a b : VertexId) (hab : d.Edge a b) :
    TransGen c.Edge (f a) (f b) := by
  obtain ⟨w, hw⟩ := hd.pair_sublist_of_edge hab
  exact hc.transGen_of_pair_sublist ((hw.map f).trans (h w))

theorem Linked.embeds_without (h : c.Linked) (v : VertexId) : Embeds (c.without v) c := by
  refine ⟨id, fun x hx => ((mem_ids_without c v).1 hx).1, Set.injOn_id _,
    path_of_sublist (h.without v) h fun w => ?_⟩
  rw [List.map_id, strand_without]
  exact List.filter_sublist

theorem embeds_modify (c : Circuit) (v : VertexId) (f : Gate → Gate) :
    Embeds (c.modify v f) c := by
  refine ⟨id, fun x hx => ?_, Set.injOn_id _, fun _ _ hab => .single hab⟩
  show x ∈ c.ids
  rw [← ids_modify c v f]
  exact hx

/-- All edits but commutations lead inside the circuit. -/
theorem Linked.embeds_applyAll (h : c.Linked) {es : List Edit}
    (hes : ∀ e ∈ es, e.isCommutation = false) {err : Option Error}
    (hd : c.applyAll es = (d, err)) : Embeds d c := by
  induction es generalizing c with
  | nil =>
      obtain rfl : c = d := congrArg Prod.fst hd
      exact .refl c
  | cons e rest ih =>
      rw [List.forall_mem_cons] at hes
      rw [applyAll] at hd
      cases hc : e.apply c with
      | error err' =>
          rw [hc] at hd
          obtain rfl : c = d := congrArg Prod.fst hd
          exact .refl c
      | ok c' =>
          rw [hc] at hd
          refine (ih (h.apply hc).1 hes.2 hd).trans ?_
          rcases apply_eq_ok hc with ⟨v, -, -, rfl⟩ | ⟨a, b, rfl, -⟩ | ⟨-, -, v, f, rfl⟩
          · exact h.embeds_without v
          · cases hes.1
          · exact embeds_modify c v f

/-! ## Other names -/

/-- The same circuit under other names lies inside it. -/
theorem Renamed.embeds (h : Renamed f c d) (hc : c.Linked) (hd : d.Linked) : Embeds d c := by
  have hinv := h.bijOn.invOn_invFunOn
  refine ⟨Function.invFunOn f {v | v ∈ c.ids}, h.bijOn.surjOn.mapsTo_invFunOn,
    hinv.2.injOn, fun a b hab => ?_⟩
  obtain ⟨ha, -⟩ := hd.live_of_mem_successors hab
  obtain ⟨u, hu, rfl⟩ := h.bijOn.surjOn ha
  obtain ⟨s, hs, rfl⟩ := (h.mem_successors_iff u hu b).1 hab
  rw [hinv.1 hu, hinv.1 (hc.live_of_mem_successors hs).2]
  exact .single hs

end Peephole.Circuit
