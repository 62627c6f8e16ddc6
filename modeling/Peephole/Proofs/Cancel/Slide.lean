import Peephole.Cancel.Candidate
import Peephole.Proofs.Circuit.Neighbours
import Peephole.Proofs.Circuit.Rewrite
import Peephole.Proofs.Gate

/-!
# Slides and partners

A slide moves a candidate past one or three gates. The vertices it names follow each other, and no
path leaves them and comes back, so they form a block of a linear order.

* `Passes`: the gates that a candidate may move past, as a list of patterns.
* `Slide`: what a search for a slide finds; `slide_of_slide?` covers all five searches.
* `merge_of_merge?`: what a search for a partner finds.
* `exists_slide?_eq_ok`, `exists_merge?_eq_ok`: no search fails because a vertex is missing.
-/

namespace Peephole.Cancel

open Circuit
open Relation (TransGen ReflTransGen)

/-- The blocks of gates that a gate may move past. -/
inductive Passes : Gate → List Gate → Prop where
  | hadamards (θ : Angle) (t : Wire) (cs : List Wire) :
      Passes (.rotation θ t) [.hadamard t, .cnot cs t, .hadamard t]
  | gadget (θ φ : Angle) (x t : Wire) :
      Passes (.rotation θ t) [.cnot [x] t, .rotation φ t, .cnot [x] t]
  | control (θ : Angle) (t x : Wire) : Passes (.rotation θ t) [.cnot [t] x]
  | sameTarget (x t : Wire) (cs : List Wire) : Passes (.cnot [x] t) [.cnot cs t]
  | sameControl (x t t' : Wire) : Passes (.cnot [x] t) [.cnot [x] t']
  | conjugated (x t y : Wire) (hy : y ≠ x) :
      Passes (.cnot [x] t) [.hadamard t, .cnot [t] y, .hadamard t]

/-- One wire belongs to the gate that moves and to all gates it moves past. -/
theorem Passes.exists_wire {g : Gate} {gs : List Gate} (h : Passes g gs) :
    ∃ w ∈ g.wires, ∀ k ∈ gs, w ∈ k.wires := by
  cases h with
  | hadamards θ t cs => exact ⟨t, by simp, by simp⟩
  | gadget θ φ x t => exact ⟨t, by simp, by simp⟩
  | control θ t x => exact ⟨t, by simp, by simp⟩
  | sameTarget x t cs => exact ⟨t, by simp, by simp⟩
  | sameControl x t t' => exact ⟨x, by simp, by simp⟩
  | conjugated x t y hy => exact ⟨t, by simp, by simp⟩

/-- A vertex, the vertices it can move past, and what these hold. -/
structure Slide (c : Circuit) (v : VertexId) (g : Gate) (path : List VertexId)
    (gs : List Gate) : Prop where
  passes : Passes g gs
  gates : path.map c.gate? = gs.map some
  chain : (v :: path).IsChain c.Edge
  convex : c.Convex (v :: path)

/-! ## Convexity of the patterns -/

section Convexity

variable {c : Circuit}

/-- A vertex in front of one that stands between two vertices on a wire of their own. -/
theorem convex_sandwich (h : c.Linked) (hac : c.Acyclic) {v n m x : VertexId} {t : Wire}
    (hvn : c.Edge v n) (hnm : c.Edge n m) (hmx : c.Edge m x)
    (hn : ∀ w, n ∈ c.strand w → w = t) (hx : ∀ w, x ∈ c.strand w → w = t)
    (hv : ∀ y, c.Edge v y → y = n ∨ ¬ ReflTransGen c.Edge y m) : c.Convex [v, n, m, x] := by
  refine convex_of_beside hac (a := m) ?_
  simp only [List.forall_mem_cons]
  refine ⟨.before (.head hvn (.single hnm)) fun y hy => (hv y hy).imp_left ?_,
    h.beside_before hn (.single hnm) hnm (by simp), .anchor,
    h.beside_after hx (.single hmx) hmx (by simp), List.forall_mem_nil _⟩
  rintro rfl
  simp

/-- A rotation between two vertices that follow each other on a second wire, with another vertex
in front. -/
theorem convex_gadget (h : c.Linked) (hac : c.Acyclic) {v n r x : VertexId} {t u : Wire}
    (hvn : c.Edge v n) (hnr : c.Edge n r) (hrx : c.Edge r x) (hnx : c.Edge n x)
    (hv : ∀ y, c.Edge v y → y = n) (hr : ∀ w, r ∈ c.strand w → w = t)
    (hx : ∀ w, x ∈ c.strand w → w = u ∨ w = t) : c.Convex [v, n, r, x] := by
  obtain ⟨w, hw⟩ := h.mem_successors_iff.1 hnr
  obtain rfl := hr w (Circuit.mem_of_next? hw).2
  obtain ⟨w', hw'⟩ := h.mem_successors_iff.1 hrx
  obtain rfl := hr w' (Circuit.mem_of_next? hw').1
  obtain ⟨z, hz⟩ := h.mem_successors_iff.1 hnx
  -- on the wire of the rotation the two outer vertices are not neighbours
  have hzu : z = u := by
    refine (hx z (Circuit.mem_of_next? hz).2).resolve_right ?_
    rintro rfl
    rw [hz] at hw
    obtain rfl := Option.some.inj hw
    exact hac x (.single hrx)
  subst hzu
  refine convex_of_beside hac (a := n) ?_
  simp only [List.forall_mem_cons]
  refine ⟨.before (.single hvn) fun y hy => Or.inl ?_, .anchor,
    h.beside_after hr (.single hnr) hnr (by simp), .after (.single hnx) fun y hy => ?_,
    List.forall_mem_nil _⟩
  · rw [hv y hy]
    simp
  · -- behind the rotation on its wire, and behind the first of the two on the other
    obtain ⟨q, hq⟩ := h.mem_successors_iff.1 hy
    rw [Circuit.next?_eq_some_iff_prev?] at hq hz hw'
    rcases hx q (Circuit.mem_of_next? (Circuit.next?_eq_some_iff_prev?.2 hq)).2 with rfl | rfl
    · rw [hz] at hq
      simp [Option.some.inj hq]
    · rw [hw'] at hq
      simp [Option.some.inj hq]

end Convexity

/-! ## What the searches find -/

section Searches

variable {c : Circuit} {v : VertexId}

theorem slide_of_slideHadamards? (hc : c.Proper) {θ : Angle} {t : Wire}
    {n : VertexId} {g : Gate} {path : List VertexId} (hn : c.onlySuccessor? v = some n)
    (hgn : c.gate? n = some g) (h : slideHadamards? c t n g = some path) :
    ∃ gs, Slide c v (.rotation θ t) path gs := by
  simp only [slideHadamards?, Option.bind_eq_bind, Option.ite_none_right_eq_some,
    Option.bind_eq_some_iff, holds_eq_true_iff, Bool.and_eq_true, beq_iff_eq] at h
  obtain ⟨hg, m, hm, ⟨k, hkm, hk, hkt⟩, x, hx, hpath⟩ := h
  obtain ⟨hmx, l, hlx, hl⟩ := of_successorWhere? hx
  obtain rfl := Gate.eq_hadamard hg
  obtain rfl := Gate.eq_hadamard hl
  rw [Gate.eq_cnot hk, hkt] at hkm
  obtain rfl := Option.some.inj hpath
  have hvn := edge_of_onlySuccessor? hn
  have hnm := edge_of_onlySuccessor? hm
  refine ⟨_, .hadamards θ t k.controls, by simp [hgn, hkm, hlx], by simp [hvn, hnm, hmx], ?_⟩
  exact convex_sandwich hc.linked hc.acyclic hvn hnm hmx (hc.aligned.wire_eq hgn rfl)
    (hc.aligned.wire_eq hlx rfl) fun y hy => Or.inl (eq_of_onlySuccessor? hn hy)

theorem slide_of_slideGadget? (hc : c.Proper) {θ : Angle} {t : Wire}
    {n : VertexId} {g : Gate} {path : List VertexId} (hn : c.onlySuccessor? v = some n)
    (hgn : c.gate? n = some g) (h : slideGadget? c t n g = some path) :
    ∃ gs, Slide c v (.rotation θ t) path gs := by
  rw [slideGadget?] at h
  split at h
  case h_2 => cases h
  case h_1 u hu =>
    simp only [Option.bind_eq_bind, Option.ite_none_right_eq_some, Option.bind_eq_some_iff,
      holds_eq_true_iff, Bool.and_eq_true, beq_iff_eq, List.contains_iff_mem] at h
    obtain ⟨⟨hg, hgt⟩, r, hr, x, hx, ⟨⟨k, hkx, ⟨hk, hkt⟩, hku⟩, hnx⟩, hpath⟩ := h
    obtain ⟨hnr, l, hlr, hl⟩ := of_successorWhere? hr
    obtain ⟨φ, rfl⟩ := Gate.eq_rotation hl
    rw [Gate.eq_cnot hg, hu, hgt] at hgn
    rw [Gate.eq_cnot hk, hku, hkt] at hkx
    obtain rfl := Option.some.inj hpath
    have hvn := edge_of_onlySuccessor? hn
    have hrx := edge_of_onlySuccessor? hx
    refine ⟨_, .gadget θ φ u t, by simp [hgn, hlr, hkx], by simp [hvn, hnr, hrx], ?_⟩
    refine convex_gadget (u := u) hc.linked hc.acyclic hvn hnr hrx hnx
      (fun y hy => eq_of_onlySuccessor? hn hy) (hc.aligned.wire_eq hlr rfl) ?_
    intro w hw
    rw [hc.aligned x _ hkx w] at hw
    simpa using hw

theorem slide_of_slideControl? (hc : c.Proper) {θ : Angle} {t : Wire}
    {n : VertexId} {g : Gate} {path : List VertexId} (hn : c.onlySuccessor? v = some n)
    (hgn : c.gate? n = some g) (h : slideControl? t n g = some path) :
    ∃ gs, Slide c v (.rotation θ t) path gs := by
  simp only [slideControl?, Option.ite_none_right_eq_some, Bool.and_eq_true, beq_iff_eq] at h
  obtain ⟨⟨hg, hgc⟩, hpath⟩ := h
  rw [Gate.eq_cnot hg, hgc] at hgn
  obtain rfl := Option.some.inj hpath
  have hvn := edge_of_onlySuccessor? hn
  exact ⟨_, .control θ t g.target, by simp [hgn], by simp [hvn],
    convex_pair hc.acyclic hvn fun y hy => Or.inl (eq_of_onlySuccessor? hn hy)⟩

theorem slide_of_slideCommuting? (hc : c.Proper) {x t : Wire} {n : VertexId}
    {path : List VertexId} (hvn : c.Edge v n)
    (h : slideCommuting? c v (.cnot [x] t) n = .ok (some path)) :
    ∃ gs, Slide c v (.cnot [x] t) path gs := by
  obtain ⟨g, hgn, h⟩ := bind_eq_ok_iff.1 h
  rw [gateOf_eq_ok_iff] at hgn
  have h := Except.ok.inj h
  simp only [Option.ite_none_right_eq_some, Bool.and_eq_true, commuting, Bool.not_eq_true',
    Bool.or_eq_true, beq_iff_eq, Gate.target_cnot, Gate.controls_cnot] at h
  obtain ⟨⟨⟨hg, hcomm⟩, hdetour⟩, hpath⟩ := h
  obtain rfl := Option.some.inj hpath
  have hconvex : c.Convex [v, n] := by
    refine convex_pair hc.acyclic hvn fun y hy => ?_
    by_cases hyn : y = n
    · exact Or.inl hyn
    · exact Or.inr (hc.linked.not_reflTransGen_of_hasDetour hdetour hy hyn)
  rw [Gate.eq_cnot hg] at hgn
  rcases hcomm with ⟨ht, -⟩ | ⟨hcs, -⟩
  · rw [ht] at hgn
    exact ⟨_, .sameTarget x t g.controls, by simp [hgn], by simp [hvn], hconvex⟩
  · rw [hcs] at hgn
    exact ⟨_, .sameControl x t g.target, by simp [hgn], by simp [hvn], hconvex⟩

theorem slide_of_slideConjugated? (hc : c.Proper) {x t : Wire}
    {p : VertexId × VertexId} {path : List VertexId} (hp : p ∈ c.forwardPairs v)
    (h : slideConjugated? c v (.cnot [x] t) p = .ok (some path)) :
    ∃ gs, Slide c v (.cnot [x] t) path gs := by
  obtain ⟨n, m⟩ := p
  obtain ⟨hvn, hnm⟩ := mem_forwardPairs.1 hp
  obtain ⟨g, hgn, h⟩ := bind_eq_ok_iff.1 h
  split at h
  case isFalse => cases h
  rename_i hg
  obtain ⟨k, hkm, h⟩ := bind_eq_ok_iff.1 h
  rw [gateOf_eq_ok_iff] at hgn hkm
  have h := Except.ok.inj h
  simp only [Option.bind_eq_bind, Option.bind_eq_some_iff, Option.ite_none_right_eq_some,
    Option.ite_none_left_eq_some, Bool.and_eq_true, beq_iff_eq, Bool.not_eq_true',
    Bool.not_eq_true, Gate.target_cnot, Gate.controls_cnot] at h
  obtain ⟨⟨⟨hk, hkc⟩, hkx⟩, y, hy, hdetour, hpath⟩ := h
  obtain ⟨hmy, l, hly, hl⟩ := of_successorWhere? hy
  obtain rfl := Gate.eq_hadamard hg
  obtain rfl := Gate.eq_hadamard hl
  rw [Gate.eq_cnot hk, hkc] at hkm
  obtain rfl := Option.some.inj hpath
  have hne : k.target ≠ x := by simpa using hkx
  refine ⟨_, .conjugated x t k.target hne, by simp [hgn, hkm, hly], by simp [hvn, hnm, hmy], ?_⟩
  refine convex_sandwich hc.linked hc.acyclic hvn hnm hmy (hc.aligned.wire_eq hgn rfl)
    (hc.aligned.wire_eq hly rfl) fun z hz => ?_
  by_cases hzn : z = n
  · exact Or.inl hzn
  · exact Or.inr (hc.linked.not_reflTransGen_of_hasDetour hdetour hz hzn)

/-- The gate of a candidate. -/
theorem Candidate.eq_of_ofGate? {g : Gate} {k : Candidate} (h : ofGate? g = some k) :
    (k = .rotation ∧ ∃ θ t, g = .rotation θ t) ∨ (k = .cnot ∧ ∃ x t, g = .cnot [x] t) := by
  obtain ⟨kind, target, controls⟩ := g
  rw [ofGate?] at h
  split at h
  case h_1 θ hkind hcontrols =>
    simp only at hkind hcontrols
    subst hkind hcontrols
    exact Or.inl ⟨(Option.some.inj h).symm, θ, target, rfl⟩
  case h_2 x hkind hcontrols =>
    simp only at hkind hcontrols
    subst hkind hcontrols
    exact Or.inr ⟨(Option.some.inj h).symm, x, target, rfl⟩
  case h_3 => cases h

theorem slideRotation?_eq_some {path : List VertexId} (h : slideRotation? c v = .ok (some path)) :
    ∃ g n l, c.gate? v = some g ∧ c.onlySuccessor? v = some n ∧ c.gate? n = some l ∧
      (slideHadamards? c g.target n l = some path ∨ slideGadget? c g.target n l = some path ∨
        slideControl? g.target n l = some path) := by
  obtain ⟨g, hg, h⟩ := bind_eq_ok_iff.1 h
  split at h
  · cases h
  · rename_i n hn
    obtain ⟨l, hl, h⟩ := bind_eq_ok_iff.1 h
    have h := Except.ok.inj h
    rw [Option.or_eq_some_iff, Option.or_eq_some_iff] at h
    exact ⟨g, n, l, gateOf_eq_ok_iff.1 hg, hn, gateOf_eq_ok_iff.1 hl,
      h.imp_right fun h => h.2.imp_right And.right⟩

theorem slideCnot?_eq_some {path : List VertexId} (h : slideCnot? c v = .ok (some path)) :
    ∃ g, c.gate? v = some g ∧
      ((∃ n ∈ c.successors v, slideCommuting? c v g n = .ok (some path)) ∨
        ∃ p ∈ c.forwardPairs v, slideConjugated? c v g p = .ok (some path)) := by
  obtain ⟨g, hg, h⟩ := bind_eq_ok_iff.1 h
  obtain ⟨r, hr, h⟩ := bind_eq_ok_iff.1 h
  refine ⟨g, gateOf_eq_ok_iff.1 hg, ?_⟩
  cases r with
  | some path' =>
      obtain rfl : path' = path := Option.some.inj (Except.ok.inj h)
      exact Or.inl (exists_of_findSomeM?_eq_some hr)
  | none => exact Or.inr (exists_of_findSomeM?_eq_some h)

/-- Whatever slide a search finds, the vertices it names can be passed. -/
theorem slide_of_slide? (hc : c.Proper) {g : Gate} {k : Candidate}
    {path : List VertexId} (hg : c.gate? v = some g) (hk : Candidate.ofGate? g = some k)
    (h : k.slide? c v = .ok (some path)) : ∃ gs, Slide c v g path gs := by
  rcases Candidate.eq_of_ofGate? hk with ⟨rfl, θ, t, rfl⟩ | ⟨rfl, x, t, rfl⟩
  · obtain ⟨g', n, l, hg', hn, hl, h⟩ := slideRotation?_eq_some h
    obtain rfl := Option.some.inj (hg.symm.trans hg')
    rcases h with h | h | h
    · exact slide_of_slideHadamards? hc hn hl h
    · exact slide_of_slideGadget? hc hn hl h
    · exact slide_of_slideControl? hc hn hl h
  · obtain ⟨g', hg', h⟩ := slideCnot?_eq_some h
    obtain rfl := Option.some.inj (hg.symm.trans hg')
    rcases h with ⟨n, hn, h⟩ | ⟨p, hp, h⟩
    · exact slide_of_slideCommuting? hc hn h
    · exact slide_of_slideConjugated? hc hp h

/-! ## Partners -/

theorem mergeRotation?_eq_some {m : Merge} (h : mergeRotation? c v = .ok (some m)) :
    ∃ n g l θ, c.onlySuccessor? v = some n ∧ c.gate? v = some g ∧ c.gate? n = some l ∧
      l.isSingle .rotation g.target = true ∧ l.kind.angle? = some θ ∧
      m = ⟨n, [.remove n, .turn v θ]⟩ := by
  rw [mergeRotation?] at h
  split at h
  · cases h
  · rename_i n hn
    obtain ⟨g, hg, h⟩ := bind_eq_ok_iff.1 h
    obtain ⟨l, hl, h⟩ := bind_eq_ok_iff.1 h
    obtain ⟨hs, h⟩ := Option.ite_none_right_eq_some.1 (Except.ok.inj h)
    obtain ⟨θ, hθ, rfl⟩ := Option.map_eq_some_iff.1 h
    exact ⟨n, g, l, θ, hn, gateOf_eq_ok_iff.1 hg, gateOf_eq_ok_iff.1 hl, hs, hθ, rfl⟩

theorem mergeCnot?_eq_some {m : Merge} (h : mergeCnot? c v = .ok (some m)) :
    ∃ n g l, c.onlySuccessor? v = some n ∧ c.gate? v = some g ∧ c.gate? n = some l ∧
      (l == g) = true ∧ m = ⟨n, [.remove n, .remove v]⟩ := by
  rw [mergeCnot?] at h
  split at h
  · cases h
  · rename_i n hn
    obtain ⟨l, hl, h⟩ := bind_eq_ok_iff.1 h
    obtain ⟨g, hg, h⟩ := bind_eq_ok_iff.1 h
    obtain ⟨hs, h⟩ := Option.ite_none_right_eq_some.1 (Except.ok.inj h)
    exact ⟨n, g, l, hn, gateOf_eq_ok_iff.1 hg, gateOf_eq_ok_iff.1 hl, hs,
      (Option.some.inj h).symm⟩

/-- What a search for a partner finds: a vertex with the right gate, as the only successor. -/
theorem merge_of_merge? {g : Gate} {k : Candidate} (hg : c.gate? v = some g)
    (hk : Candidate.ofGate? g = some k) {m : Merge} (h : k.merge? c v = .ok (some m)) :
    ∃ n, c.onlySuccessor? v = some n ∧
      ((k = .rotation ∧ ∃ θ φ t, g = .rotation θ t ∧ c.gate? n = some (.rotation φ t) ∧
          m = ⟨n, [.remove n, .turn v φ]⟩) ∨
        k = .cnot ∧ ∃ x t, g = .cnot [x] t ∧ c.gate? n = some (.cnot [x] t) ∧
          m = ⟨n, [.remove n, .remove v]⟩) := by
  rcases Candidate.eq_of_ofGate? hk with ⟨rfl, θ, t, rfl⟩ | ⟨rfl, x, t, rfl⟩
  · obtain ⟨n, g, l, φ, hn, hg', hl, hs, hφ, rfl⟩ := mergeRotation?_eq_some h
    obtain rfl := Option.some.inj (hg.symm.trans hg')
    obtain ⟨φ', rfl⟩ := Gate.eq_rotation hs
    obtain rfl : φ' = φ := Option.some.inj hφ
    exact ⟨n, hn, Or.inl ⟨rfl, θ, φ', t, rfl, hl, rfl⟩⟩
  · obtain ⟨n, g, l, hn, hg', hl, hs, rfl⟩ := mergeCnot?_eq_some h
    obtain rfl := Option.some.inj (hg.symm.trans hg')
    obtain rfl := Gate.eq_of_beq_cnot hs
    exact ⟨n, hn, Or.inr ⟨rfl, x, t, rfl, hl, rfl⟩⟩

/-! ## No lookup fails -/

/-- A search for a slide looks at successors only, which are all in the circuit. -/
theorem exists_slide?_eq_ok (hc : c.Linked) (hv : v ∈ c.ids) (k : Candidate) :
    ∃ r, k.slide? c v = .ok r := by
  have hsucc : ∀ u n, n ∈ c.successors u → ∃ g, c.gateOf n = .ok g := fun _ _ hn =>
    exists_gateOf_eq_ok (hc.live_of_mem_successors hn).2
  cases k with
  | rotation =>
      refine exists_bind_eq_ok (exists_gateOf_eq_ok hv) fun g _ => ?_
      cases hn : c.onlySuccessor? v with
      | none => exact ⟨none, rfl⟩
      | some n =>
          exact exists_bind_eq_ok (hsucc v n (edge_of_onlySuccessor? hn)) fun _ _ => ⟨_, rfl⟩
  | cnot =>
      refine exists_bind_eq_ok (exists_gateOf_eq_ok hv) fun g _ => ?_
      refine exists_bind_eq_ok (exists_findSomeM?_eq_ok fun n hn => ?_) fun r _ => ?_
      · exact exists_bind_eq_ok (hsucc v n hn) fun _ _ => ⟨_, rfl⟩
      · cases r with
        | some path => exact ⟨_, rfl⟩
        | none =>
            refine exists_findSomeM?_eq_ok fun p hp => ?_
            obtain ⟨hvp, hpp⟩ := mem_forwardPairs.1 hp
            refine exists_bind_eq_ok (hsucc v p.1 hvp) fun h _ => ?_
            by_cases hs : h.isSingle .hadamard g.target = true
            · rw [if_pos hs]
              exact exists_bind_eq_ok (hsucc p.1 p.2 hpp) fun _ _ => ⟨_, rfl⟩
            · exact ⟨none, if_neg hs⟩

/-- A search for a partner looks at the only successor, which is in the circuit. -/
theorem exists_merge?_eq_ok (hc : c.Linked) (hv : v ∈ c.ids) (k : Candidate) :
    ∃ r, k.merge? c v = .ok r := by
  have hgate := exists_gateOf_eq_ok hv
  cases hn : c.onlySuccessor? v with
  | none =>
      cases k with
      | rotation => exact ⟨none, by rw [Candidate.merge?, mergeRotation?, hn]⟩
      | cnot => exact ⟨none, by rw [Candidate.merge?, mergeCnot?, hn]⟩
  | some n =>
      have hedge : n ∈ c.successors v := edge_of_onlySuccessor? hn
      have hnext := exists_gateOf_eq_ok (hc.live_of_mem_successors hedge).2
      cases k with
      | rotation =>
          rw [Candidate.merge?, mergeRotation?, hn]
          exact exists_bind_eq_ok hgate fun _ _ => exists_bind_eq_ok hnext fun _ _ => ⟨_, rfl⟩
      | cnot =>
          rw [Candidate.merge?, mergeCnot?, hn]
          exact exists_bind_eq_ok hnext fun _ _ => exists_bind_eq_ok hgate fun _ _ => ⟨_, rfl⟩

end Searches

end Peephole.Cancel
