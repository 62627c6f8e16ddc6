import Peephole.Proofs.Cancel.Search

/-!
# What a search that merges does

A search moves its candidate and nothing else, until it stands in front of its partner. So what is
left after a merge can be told from the circuit before the search: the place where the candidate
was is closed, and the partner is gone or gives its place to the candidate.

* `Circuit.Moved`: two circuits that differ only in where one vertex stands.
* `Merging`: what the edits of a merge amount to.
* `seek_merges`, `search_merges`: every merge happens in a circuit in which only the candidate has
  moved.
* `isomorphic_of_rotations`, `pair_sublist_of_moved`: the partner of a rotation, in the circuit
  before the search and in what is left.
-/

namespace Peephole

/-! ## Moving one vertex -/

/-- An exchange moves the first vertex along the others. -/
theorem Strand.filter_ne_exchange (v b : VertexId) (s : List VertexId) :
    (exchange v b s).filter (· ≠ v) = s.filter (· ≠ v) := by
  induction s with
  | nil => rfl
  | cons x rest ih =>
      by_cases hx : x = v
      · subst hx
        cases rest with
        | nil => simp [exchange]
        | cons y more =>
            by_cases hy : y = b
            · subst hy
              simp [exchange, List.filter_cons]
            · simp [exchange, hy]
      · simpa [exchange, hx] using ih

namespace Circuit

variable {c d e : Circuit} {v : VertexId}

theorem without_swapped (c : Circuit) (v b : VertexId) :
    (c.swapped v b).without v = c.without v := by
  simp only [without, swapped, List.map_map, Circuit.mk.injEq, true_and]
  exact List.map_congr_left fun s _ => Prod.ext rfl (Strand.filter_ne_exchange v b s.2)

/-- The two circuits have the same gates, and differ only in where the vertex `v` stands on its
strands: not further back than before. -/
structure Moved (v : VertexId) (c d : Circuit) : Prop where
  gate?_eq : ∀ x, d.gate? x = c.gate? x
  without_eq : d.without v = c.without v
  forward : ∀ w x, [x, v].Sublist (c.strand w) → [x, v].Sublist (d.strand w)

namespace Moved

theorem refl (v : VertexId) (c : Circuit) : Moved v c c :=
  ⟨fun _ => rfl, rfl, fun _ _ hx => hx⟩

theorem trans (h : Moved v c d) (h' : Moved v d e) : Moved v c e :=
  ⟨fun x => (h'.gate?_eq x).trans (h.gate?_eq x), h'.without_eq.trans h.without_eq,
    fun w x hx => h'.forward w x (h.forward w x hx)⟩

/-- A commutation moves its first vertex. -/
theorem of_commutable {b : VertexId} (h : c.Commutable v b) : Moved v c (c.swapped v b) := by
  refine ⟨gate?_swapped c v b, without_swapped c v b, fun w x hx => ?_⟩
  rw [strand_swapped]
  exact Strand.pair_sublist_exchange hx fun he => h.ne he.2

/-- Commuting a vertex past others moves it, and it alone. -/
theorem of_applyAll {path : List VertexId} (h : c.applyAll (path.map (.commute v)) = (d, none)) :
    Moved v c d := by
  refine applyAll_keeps (P := Moved v c) (fun e he x y hx hxy => ?_) (.refl v c) h
  obtain ⟨b, -, rfl⟩ := List.mem_map.1 he
  obtain ⟨hcomm, rfl⟩ := commute_eq_ok_iff.1 hxy
  exact hx.trans (of_commutable hcomm)

end Moved

end Circuit

namespace Cancel

open Circuit

variable {c d : Circuit} {k : Candidate} {v : VertexId} {g : Gate}

/-! ## Merges -/

/-- What a merge of the candidate at `v` makes of a circuit: of two rotations the second is removed
and the first takes up its angle; two equal controlled nots are removed. -/
inductive Merging (c : Circuit) (v : VertexId) : Candidate → Circuit → Prop where
  | rotation {n : VertexId} {θ φ : Angle} {t : Wire} (hn : c.onlySuccessor? v = some n)
      (hv : c.gate? v = some (.rotation θ t)) (hφ : c.gate? n = some (.rotation φ t)) :
      Merging c v .rotation ((c.without n).modify v (Gate.turn φ))
  | cnot {n : VertexId} {x t : Wire} (hn : c.onlySuccessor? v = some n)
      (hv : c.gate? v = some (.cnot [x] t)) (hu : c.gate? n = some (.cnot [x] t)) :
      Merging c v .cnot ((c.without n).without v)

theorem merging_of_merge? (hc : c.Linked) (hg : c.gate? v = some g)
    (hk : Candidate.ofGate? g = some k) {m : Merge} (hm : k.merge? c v = .ok (some m))
    (hd : c.applyAll m.edits = (d, none)) : Merging c v k d := by
  obtain ⟨n, hn, ⟨rfl, θ, φ, t, rfl, hφ, rfl⟩ | ⟨rfl, x, t, rfl, hu, rfl⟩⟩ :=
    merge_of_merge? hg hk hm
  · rw [applyAll_cons (apply_remove hφ)] at hd
    obtain rfl : (c.without n).modify v (Gate.turn φ) = d := congrArg Prod.fst hd
    exact .rotation hn hg hφ
  · have hvn : v ≠ n := hc.ne_of_edge (edge_of_onlySuccessor? hn)
    have hv : (c.without n).gate? v = some (.cnot [x] t) := by rw [gate?_without_of_ne c n hvn, hg]
    rw [applyAll_cons (apply_remove hu), applyAll_cons (apply_remove hv)] at hd
    obtain rfl : (c.without n).without v = d := congrArg Prod.fst hd
    exact .cnot hn hg hu

/-- Of two rotations side by side, the first could as well be the one that goes: what is left is the
same but for its name. -/
theorem isomorphic_of_rotations (hc : c.Proper) {n : VertexId} {θ φ : Angle} {t : Wire}
    (hedge : c.Edge v n) (hv : c.gate? v = some (.rotation θ t))
    (hn : c.gate? n = some (.rotation φ t)) :
    Isomorphic (Function.update id n v)
      ((c.without v).modify n fun g => { g with kind := .rotation (θ + φ) })
      ((c.without n).modify v (Gate.turn φ)) := by
  have hwire : ∀ w, v ∈ c.strand w ∨ n ∈ c.strand w → w = t := by
    rintro w (hw | hw)
    · exact hc.aligned.wire_eq hv rfl w hw
    · exact hc.aligned.wire_eq hn rfl w hw
  obtain ⟨w, hw⟩ := hc.linked.mem_successors_iff.1 hedge
  obtain rfl := hwire w (Or.inl (Circuit.mem_of_next? hw).1)
  refine hc.linked.isomorphic_without_next hedge (fun u hu => ?_) ?_
  · rw [hwire u hu, hw]
  · rw [hv, hn]
    rfl

/-! ## Searches -/

/-- What a merge found by a search says about the circuit before the search. -/
def Outcome.Merges (k : Candidate) (c : Circuit) (v : VertexId) (d : Circuit) (o : Outcome) :
    Prop :=
  o = .merged → ∃ e, Moved v c e ∧ e.Proper ∧ Merging e v k d

theorem giveUp_merges {c₀ : Circuit} (saved : Option Snapshot) :
    (giveUp c v saved).Meets (fun d o => o.Merges k c₀ v d) fun _ => True := by
  cases saved with
  | none => exact .done fun h => by cases h
  | some s =>
      rw [giveUp]
      cases s.restore with
      | ok r => exact .after (.done fun h => by cases h) _
      | error e => exact .after (.failed trivial) _

theorem seek_merges {c₀ : Circuit} {saved : Option Snapshot} (hmoved : Moved v c₀ c)
    (hc : c.Proper) (hg : c.gate? v = some g) (hk : Candidate.ofGate? g = some k) :
    (seek k c v saved).Meets (fun d o => o.Merges k c₀ v d) fun _ => True := by
  -- along the recursion: slides have moved nothing but the candidate
  fun_induction seek k c v saved with
  | case1 c saved e he => exact .failed trivial
  | case2 c saved m hm d hd =>
      exact .after (.done fun _ => ⟨c, hmoved, hc, merging_of_merge? hc.linked hg hk hm hd⟩) _
  | case3 c saved m hm d e hd => exact .failed trivial
  | case4 c saved hm e he => exact .failed trivial
  | case5 c saved hm a rest hslide d hd ih =>
      obtain ⟨d', hd', hr, hgate⟩ := rewrites_of_slide? hc hg hk hslide
      obtain rfl : d = d' := congrArg Prod.fst (hd.symm.trans hd')
      exact .after (ih (hmoved.trans (.of_applyAll hd)) hr.proper (by rw [hgate, hg])) _
  | case6 c saved hm a rest hslide d e hd => exact .failed trivial
  | case7 c saved hm r hnone hslide => exact giveUp_merges saved

/-- A search that merges has moved nothing but its candidate before. -/
theorem search_merges (hc : c.Proper) (hg : c.gate? v = some g)
    (hk : Candidate.ofGate? g = some k) :
    (search k c v).Meets (fun d o => o.Merges k c v d) fun _ => True := by
  rw [search_eq_seek (by rw [candidateAt?, hg, Option.bind_some, hk])]
  exact seek_merges (.refl v c) hc hg hk

theorem exists_of_search_merged (hc : c.Proper) (h : (search k c v).result = .ok .merged) :
    ∃ e, Moved v c e ∧ e.Proper ∧ Merging e v k (search k c v).circuit := by
  by_cases hv : ∃ g, c.gate? v = some g ∧ k.Admits g
  · obtain ⟨g, hg, hk⟩ := hv
    exact (search_merges hc hg (Candidate.ofGate?_eq_some_iff.2 hk)).ok _ h rfl
  · obtain ⟨-, e, he⟩ := search_of_not_admits hv
    rw [he] at h
    cases h

/-- A vertex that the moved one meets was ahead of it from the start. -/
theorem pair_sublist_of_moved {e : Circuit} (hc : c.Aligned) (he : e.Proper) (hmoved : Moved v c e)
    {n : VertexId} {θ φ : Angle} {t : Wire} (hedge : e.Edge v n)
    (hv : c.gate? v = some (.rotation θ t)) (hn : c.gate? n = some (.rotation φ t)) :
    [v, n].Sublist (c.strand t) := by
  have hvt : v ∈ c.strand t := (hc v _ hv t).2 (by simp [Gate.wires])
  have hnt : n ∈ c.strand t := (hc n _ hn t).2 (by simp [Gate.wires])
  refine (Strand.pair_sublist_or hvt hnt (he.linked.ne_of_edge hedge)).resolve_right fun hback => ?_
  -- otherwise it would still be behind
  obtain ⟨w, hw⟩ := he.linked.pair_sublist_of_edge hedge
  have hwt : w = t :=
    he.aligned.wire_eq ((hmoved.gate?_eq v).trans hv) rfl w (Strand.mem_left_of_pair_sublist hw)
  rw [hwt] at hw
  exact Strand.not_sublist_swap (Circuit.strand_nodup _ t) hw (hmoved.forward t n hback)

/-- A search that merges leaves no trace of its slides. However an acyclic circuit came about, as
long as its gates have kept their wires: where a controlled not is merged, the result is the circuit
without it and without another vertex that has the same gate. Where a rotation is merged, there is
another one ahead of it on its wire, and the result is the circuit without the first in which the
second has the sum of the two angles, but that the second goes by the name of the first. -/
theorem search_merged_of_reachable (hc : Reachable Gate.SameWires c) (hac : c.Acyclic)
    (v : VertexId) :
    ((search .cnot c v).result = .ok .merged →
      ∃ u g, u ≠ v ∧ c.gate? v = some g ∧ c.gate? u = some g ∧
        c.applyAll [.remove v, .remove u] = ((search .cnot c v).circuit, none)) ∧
    ((search .rotation c v).result = .ok .merged →
      ∃ u θ φ t d, u ≠ v ∧ c.gate? v = some (.rotation θ t) ∧ c.gate? u = some (.rotation φ t) ∧
        [v, u].Sublist (c.strand t) ∧
        c.applyAll [.remove v, .setKind u (.rotation (θ + φ))] = (d, none) ∧
        Isomorphic (Function.update id u v) d (search .rotation c v).circuit) := by
  have hproper := hc.proper hac
  constructor
  · intro h
    obtain ⟨e, hmoved, he, hmerging⟩ := exists_of_search_merged hproper h
    generalize (search .cnot c v).circuit = r at hmerging ⊢
    cases hmerging with
    | @cnot n x t hn hv hu =>
        have hnv : n ≠ v := Ne.symm (he.linked.ne_of_edge (edge_of_onlySuccessor? hn))
        rw [hmoved.gate?_eq] at hv hu
        have hu' : (c.without v).gate? n = some (.cnot [x] t) := by
          rw [gate?_without_of_ne c v hnv, hu]
        refine ⟨n, _, hnv, hv, hu, ?_⟩
        rw [applyAll_cons (apply_remove hv), applyAll_cons (apply_remove hu'), ← hmoved.without_eq,
          without_comm e v n]
        rfl
  · intro h
    obtain ⟨e, hmoved, he, hmerging⟩ := exists_of_search_merged hproper h
    generalize (search .rotation c v).circuit = r at hmerging ⊢
    cases hmerging with
    | @rotation n θ φ t hn hv hu =>
        have hedge := edge_of_onlySuccessor? hn
        have hnv : n ≠ v := Ne.symm (he.linked.ne_of_edge hedge)
        have hiso := isomorphic_of_rotations he hedge hv hu
        rw [hmoved.without_eq] at hiso
        rw [hmoved.gate?_eq] at hv hu
        have hu' : (c.without v).gate? n = some (.rotation φ t) := by
          rw [gate?_without_of_ne c v hnv, hu]
        refine ⟨n, θ, φ, t, _, hnv, hv, hu,
          pair_sublist_of_moved hproper.aligned he hmoved hedge hv hu, ?_, hiso⟩
        rw [applyAll_cons (apply_remove hv), applyAll_cons (apply_setKind hu' _)]
        rfl

/-- A controlled not slides past another to cancel with its equal, and a rotation takes up the angle
of another. -/
theorem search_merged_of_reachable_slide :
    (∃ c, build 3 [.cnot [0] 1, .cnot [0] 2, .cnot [0] 1] = .ok c ∧
      (search .cnot c 0).result = .ok .merged ∧
      ∃ u g, u ≠ 0 ∧ c.gate? 0 = some g ∧ c.gate? u = some g ∧
        c.applyAll [.remove 0, .remove u] = ((search .cnot c 0).circuit, none)) ∧
    ∃ c, build 2 [.rotation 0.5 0, .hadamard 1, .rotation 0.25 0] = .ok c ∧
      (search .rotation c 0).result = .ok .merged ∧
      ∃ u θ φ t d, u ≠ 0 ∧ c.gate? 0 = some (.rotation θ t) ∧ c.gate? u = some (.rotation φ t) ∧
        [0, u].Sublist (c.strand t) ∧
        c.applyAll [.remove 0, .setKind u (.rotation (θ + φ))] = (d, none) ∧
        Isomorphic (Function.update id u 0) d (search .rotation c 0).circuit := by
  constructor
  · have hbuild : build 3 [.cnot [0] 1, .cnot [0] 2, .cnot [0] 1]
        = .ok (ofGates 3 [.cnot [0] 1, .cnot [0] 2, .cnot [0] 1]) := rfl
    have hac := (Proper.ofGates 3 [.cnot [0] 1, .cnot [0] 2, .cnot [0] 1]).acyclic
    have hmerged : (search .cnot (ofGates 3 [.cnot [0] 1, .cnot [0] 2, .cnot [0] 1]) 0).result
        = .ok .merged := by cbv
    exact ⟨_, hbuild, hmerged, (search_merged_of_reachable (.build hbuild) hac 0).1 hmerged⟩
  · have hbuild : build 2 [.rotation 0.5 0, .hadamard 1, .rotation 0.25 0]
        = .ok (ofGates 2 [.rotation 0.5 0, .hadamard 1, .rotation 0.25 0]) := rfl
    have hac := (Proper.ofGates 2 [.rotation 0.5 0, .hadamard 1, .rotation 0.25 0]).acyclic
    -- the sum of the angles is not evaluated
    have hmerge : Candidate.rotation.merge?
        (ofGates 2 [.rotation 0.5 0, .hadamard 1, .rotation 0.25 0]) 0
          = .ok (some ⟨2, [.remove 2, .turn 0 0.25]⟩) := rfl
    have hmerged : (search .rotation
        (ofGates 2 [.rotation 0.5 0, .hadamard 1, .rotation 0.25 0]) 0).result = .ok .merged := by
      show (seek .rotation _ 0 none).result = _
      rw [seek, hmerge]
      rfl
    exact ⟨_, hbuild, hmerged, (search_merged_of_reachable (.build hbuild) hac 0).2 hmerged⟩

end Cancel

end Peephole
