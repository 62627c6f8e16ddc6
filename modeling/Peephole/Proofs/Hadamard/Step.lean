import Peephole.Hadamard.Rule
import Peephole.Proofs.Circuit.Neighbours
import Peephole.Proofs.Circuit.Rewrite
import Peephole.Proofs.Pauli

/-!
# The rules of the Hadamard reduction

A match names vertices that are found through successors and predecessors, and not along one wire.
All but the controlled not are on a single wire, so each has one neighbour on either side, and the
vertices form a block of a linear order. The edits then replace it by a rule.

* `Step`: the rules as lists of gates, and `Laws`: what they ask of an interpretation.
* `Found`: what a match says of the circuit around it.
* `rewrites_of_match?`: the edits of a match are all carried out, and amount to a rule. This needs
  that no controlled not is controlled by its own target.
-/

namespace Peephole.Hadamard

open Circuit
open Relation (TransGen ReflTransGen)

/-- The rules, in circuit order. A phase and its inverse stand for either of the two. -/
inductive Step : List Gate → List Gate → Prop where
  | flipPhase (t : Wire) {p q : Kind} (h : p.inversePhase? = some q) :
      Step [.hadamard t, ⟨p, t, []⟩, .hadamard t] [⟨q, t, []⟩, .hadamard t, ⟨q, t, []⟩]
  | reverseCnot {t u : Wire} (h : t ≠ u) :
      Step [.hadamard t, .hadamard u, .cnot [t] u, .hadamard t, .hadamard u] [.cnot [u] t]
  | phaseCnot {t : Wire} {cs : List Wire} {p q : Kind} (h : p.inversePhase? = some q)
      (ht : t ∉ cs) :
      Step [.hadamard t, ⟨p, t, []⟩, .cnot cs t, ⟨q, t, []⟩, .hadamard t]
        [⟨q, t, []⟩, .cnot cs t, ⟨p, t, []⟩]

theorem inversePhase?_eq_some {p q : Kind} (h : p.inversePhase? = some q) :
    (p = .phase ∧ q = .phaseDagger) ∨ (p = .phaseDagger ∧ q = .phase) := by
  cases p with
  | phase => exact Or.inl ⟨rfl, (Option.some.inj h).symm⟩
  | phaseDagger => exact Or.inr ⟨rfl, (Option.some.inj h).symm⟩
  | _ => cases h

/-! ## What the rules ask of an interpretation -/

/-- The identities behind the rules, for an interpretation of gates in a monoid. Products are in
circuit order. -/
structure Laws {M : Type*} [Monoid M] (den : Gate → M) : Prop where
  disjoint : DisjointCommute den
  flip_phase : ∀ t, den (.hadamard t) * den (.phase t) * den (.hadamard t)
    = den (.phaseDagger t) * den (.hadamard t) * den (.phaseDagger t)
  flip_phaseDagger : ∀ t, den (.hadamard t) * den (.phaseDagger t) * den (.hadamard t)
    = den (.phase t) * den (.hadamard t) * den (.phase t)
  reverse_cnot : ∀ t u, t ≠ u → den (.hadamard t) * den (.hadamard u) * den (.cnot [t] u)
    * den (.hadamard t) * den (.hadamard u) = den (.cnot [u] t)
  phase_cnot : ∀ t cs, t ∉ cs → den (.hadamard t) * den (.phase t) * den (.cnot cs t)
    * den (.phaseDagger t) * den (.hadamard t)
    = den (.phaseDagger t) * den (.cnot cs t) * den (.phase t)
  phaseDagger_cnot : ∀ t cs, t ∉ cs → den (.hadamard t) * den (.phaseDagger t) * den (.cnot cs t)
    * den (.phase t) * den (.hadamard t)
    = den (.phase t) * den (.cnot cs t) * den (.phaseDagger t)

/-- The two sides of a rule have the same value. -/
theorem Laws.prod_eq {M : Type*} [Monoid M] {den : Gate → M} (h : Laws den) (lhs rhs : List Gate)
    (hrule : Step lhs rhs) : (lhs.map den).prod = (rhs.map den).prod := by
  cases hrule with
  | flipPhase t hpq =>
      rcases inversePhase?_eq_some hpq with ⟨rfl, rfl⟩ | ⟨rfl, rfl⟩
      · simpa [mul_assoc, Gate.phase, Gate.phaseDagger] using h.flip_phase t
      · simpa [mul_assoc, Gate.phase, Gate.phaseDagger] using h.flip_phaseDagger t
  | reverseCnot htu => simpa [mul_assoc] using h.reverse_cnot _ _ htu
  | phaseCnot hpq ht =>
      rcases inversePhase?_eq_some hpq with ⟨rfl, rfl⟩ | ⟨rfl, rfl⟩
      · simpa [mul_assoc, Gate.phase, Gate.phaseDagger] using h.phase_cnot _ _ ht
      · simpa [mul_assoc, Gate.phase, Gate.phaseDagger] using h.phaseDagger_cnot _ _ ht

/-- The laws hold for the maps of Pauli operators. -/
theorem laws_pauli : Laws Pauli.conj where
  disjoint := Pauli.disjointCommute_conj
  flip_phase t := Pauli.swap_shear_swap t
  flip_phaseDagger t := Pauli.swap_shear_swap t
  reverse_cnot t u h := by
    rw [Pauli.conj_cnot, if_neg h, Pauli.conj_cnot, if_neg h.symm]
    exact Pauli.swap_swap_copy h
  phase_cnot t cs ht := Pauli.swap_shear_cnot ht
  phaseDagger_cnot t cs ht := Pauli.swap_shear_cnot ht

/-- A rule makes no gate that does not fit. -/
theorem Step.fits (n : Nat) (lhs rhs : List Gate) (h : Step lhs rhs) (hf : ∀ g ∈ lhs, g.Fits n) :
    ∀ g ∈ rhs, g.Fits n := by
  cases h with
  | @flipPhase t p q hpq =>
      have ht : (⟨q, t, []⟩ : Gate).Fits n := hf (.hadamard t) (by simp)
      have ht' : (Gate.hadamard t).Fits n := hf (.hadamard t) (by simp)
      simp [ht, ht']
  | @reverseCnot t u htu =>
      obtain ⟨-, hlt, hlt'⟩ : t ≠ u ∧ t.toNat < n ∧ u.toNat < n := by
        simpa [Gate.Fits] using hf (.cnot [t] u) (by simp)
      simp [Gate.Fits, htu.symm, hlt, hlt']
  | @phaseCnot t cs p q hpq ht =>
      have hp : (⟨p, t, []⟩ : Gate).Fits n := hf (.hadamard t) (by simp)
      have hq : (⟨q, t, []⟩ : Gate).Fits n := hf (.hadamard t) (by simp)
      have hk := hf (.cnot cs t) (by simp)
      simp [hp, hq, hk]

/-- A rule makes no controlled not that its own target controls. -/
theorem Step.not_selfControlled (lhs rhs : List Gate) (h : Step lhs rhs) :
    ∀ g ∈ rhs, ¬ g.SelfControlled := by
  have hsingle : ∀ k t, ¬ (⟨k, t, []⟩ : Gate).SelfControlled := fun k t h => by simpa using h.2
  cases h with
  | @flipPhase t p q hpq => simp [hsingle, Gate.hadamard]
  | @reverseCnot t u htu => simpa [Gate.SelfControlled] using fun _ => htu
  | @phaseCnot t cs p q hpq ht => simpa [hsingle, Gate.SelfControlled] using fun _ => ht

/-! ## Matches -/

section Matches

variable {c : Circuit} {h : VertexId} {w : Wire}

theorem isHadamardOn_eq_true_iff {v : VertexId} :
    isHadamardOn c w v = true ↔ c.gate? v = some (.hadamard w) := by
  rw [isHadamardOn, holds_eq_true_iff]
  constructor
  · rintro ⟨g, hg, hs⟩
    rw [hg, Gate.eq_hadamard hs]
  · intro hg
    exact ⟨_, hg, Gate.isSingle_eq_true_iff.2 ⟨rfl, rfl, rfl⟩⟩

/-- A lone phase gate of a given kind. -/
theorem eq_of_isSingle {g : Gate} {p q : Kind} (h : p.inversePhase? = some q)
    (hg : g.isSingle q.family w = true) : g = ⟨q, w, []⟩ := by
  rcases inversePhase?_eq_some h with ⟨rfl, rfl⟩ | ⟨rfl, rfl⟩
  · exact Gate.eq_phaseDagger hg
  · exact Gate.eq_phase hg

/-- The gate of the first phase, from the tests for it. -/
theorem eq_of_isSingle_family {g : Gate} (hg : g.isSingle g.family w = true) :
    g = ⟨g.kind, w, []⟩ := by
  obtain ⟨kind, target, controls⟩ := g
  obtain ⟨-, ht, hcs⟩ := Gate.isSingle_eq_true_iff.1 hg
  simp only at ht hcs
  rw [ht, hcs]

/-- What a match says of the circuit around the Hadamard gate `h` on wire `w`. -/
inductive Found (c : Circuit) (h : VertexId) (w : Wire) : Match → Prop where
  | flipPhase {n l : VertexId} {p q : Kind} (hq : p.inversePhase? = some q)
      (hn : c.gate? n = some ⟨p, w, []⟩) (hl : c.gate? l = some (.hadamard w))
      (hhn : c.Edge h n) (hnl : c.Edge n l) : Found c h w (.flipPhase h n l q)
  | reverseCnot {b n l a : VertexId} {u : Wire} (hb : c.gate? b = some (.hadamard u))
      (hn : c.gate? n = some (.cnot [w] u)) (hl : c.gate? l = some (.hadamard w))
      (ha : c.gate? a = some (.hadamard u)) (hhn : c.Edge h n) (hbn : c.Edge b n)
      (hnl : c.Edge n l) (hna : c.Edge n a) : Found c h w (.reverseCnot h l b a n u w)
  | phaseCnot {o n r l : VertexId} {p q : Kind} {cs : List Wire} (hq : p.inversePhase? = some q)
      (ho : c.gate? o = some ⟨p, w, []⟩) (hn : c.gate? n = some (.cnot cs w))
      (hr : c.gate? r = some ⟨q, w, []⟩) (hl : c.gate? l = some (.hadamard w))
      (hho : c.Edge h o) (hon : c.Edge o n) (hnr : c.Edge n r) (hrl : c.Edge r l) :
      Found c h w (.phaseCnot h l o q r p)

theorem found_of_flipPhaseAt? {n l : VertexId} (he : (n, l) ∈ c.forwardPairs h) {m : Match}
    (hm : flipPhaseAt? c h w (n, l) = some m) : Found c h w m := by
  obtain ⟨hhn, hnl⟩ := mem_forwardPairs.1 he
  simp only [flipPhaseAt?, Option.bind_eq_bind, Option.bind_eq_some_iff,
    Option.ite_none_right_eq_some, Bool.and_eq_true, isHadamardOn_eq_true_iff] at hm
  obtain ⟨g, hn, q, hq, ⟨hg, hl⟩, hm⟩ := hm
  obtain rfl := Option.some.inj hm
  rw [eq_of_isSingle_family hg] at hn
  exact .flipPhase hq hn hl hhn hnl

theorem found_of_reverseCnotAt? (hc : c.Linked) {n l : VertexId}
    (he : (n, l) ∈ c.forwardPairs h) {m : Match} (hm : reverseCnotAt? c h w (n, l) = some m) :
    Found c h w m := by
  obtain ⟨hhn, hnl⟩ := mem_forwardPairs.1 he
  simp only [reverseCnotAt?, Option.bind_eq_bind, Option.bind_eq_some_iff,
    Option.ite_none_right_eq_some, Bool.and_eq_true, beq_iff_eq, isHadamardOn_eq_true_iff] at hm
  obtain ⟨g, hn, ⟨⟨hg, hgc⟩, hl⟩, b, hfb, a, hfa, ⟨hb, ha⟩, hm⟩ := hm
  obtain rfl := Option.some.inj hm
  rw [Gate.eq_cnot hg, hgc] at hn
  exact .reverseCnot hb hn hl ha hhn (of_predecessorWhere? hc hfb).1 hnl
    (of_successorWhere? hfa).1

theorem found_of_phaseCnotAt? {o n : VertexId} (he : (o, n) ∈ c.forwardPairs h) {m : Match}
    (hm : phaseCnotAt? c h w (o, n) = some m) : Found c h w m := by
  obtain ⟨hho, hon⟩ := mem_forwardPairs.1 he
  simp only [phaseCnotAt?, Option.bind_eq_bind, Option.bind_eq_some_iff,
    Option.ite_none_right_eq_some, Bool.and_eq_true, beq_iff_eq] at hm
  obtain ⟨g, ho, q, hq, k, hn, ⟨⟨hg, hk⟩, hkt⟩, ⟨r, l⟩, hfind, hm⟩ := hm
  obtain rfl := Option.some.inj hm
  obtain ⟨hnr, hrl⟩ := mem_forwardPairs.1 (List.mem_of_find?_eq_some hfind)
  have hclose := List.find?_some hfind
  simp only [Bool.and_eq_true, holds_eq_true_iff, isHadamardOn_eq_true_iff] at hclose
  obtain ⟨⟨g', hr, hg'⟩, hl⟩ := hclose
  rw [eq_of_isSingle_family hg] at ho
  rw [eq_of_isSingle hq hg'] at hr
  rw [Gate.eq_cnot hk, hkt] at hn
  exact .phaseCnot hq ho hn hr hl hho hon hnr hrl

theorem found_of_match? (hc : c.Linked) {m : Match} (hm : match? c h = some m) :
    ∃ w, c.gate? h = some (.hadamard w) ∧ Found c h w m := by
  rw [match?] at hm
  split at hm
  case h_2 => cases hm
  case h_1 g hg =>
    rw [Option.ite_none_right_eq_some] at hm
    obtain ⟨hs, hm⟩ := hm
    rw [Gate.eq_hadamard hs] at hg
    refine ⟨g.target, hg, ?_⟩
    simp only [matchOn?, Option.or_eq_some_iff] at hm
    obtain hm | ⟨-, hm | ⟨-, hm⟩⟩ := hm
    · obtain ⟨e, he, hm⟩ := List.exists_of_findSome?_eq_some hm
      exact found_of_flipPhaseAt? he hm
    · obtain ⟨e, he, hm⟩ := List.exists_of_findSome?_eq_some hm
      exact found_of_reverseCnotAt? hc he hm
    · obtain ⟨e, he, hm⟩ := List.exists_of_findSome?_eq_some hm
      exact found_of_phaseCnotAt? he hm

/-! ## Matches as blocks

All but the controlled not are on one wire, so each has one neighbour on either side, and lies
between that neighbour and the middle of the match. -/

theorem exists_flipPhase_block (hc : c.Proper) {n l : VertexId} {p : Kind}
    (hh : c.gate? h = some (.hadamard w)) (hn : c.gate? n = some ⟨p, w, []⟩)
    (hl : c.gate? l = some (.hadamard w)) (hhn : c.Edge h n) (hnl : c.Edge n l) :
    ∃ A B, c.Linear (A ++ [h, n, l] ++ B) := by
  have hconv : c.Convex [h, n, l] := by
    refine convex_of_beside hc.acyclic (a := n) ?_
    simp only [List.forall_mem_cons]
    exact ⟨hc.linked.beside_before (hc.aligned.wire_eq hh rfl) (.single hhn) hhn (by simp), .anchor,
      hc.linked.beside_after (hc.aligned.wire_eq hl rfl) (.single hnl) hnl (by simp),
      List.forall_mem_nil _⟩
  have hlive : ∀ s ∈ [h, n, l], s ∈ c.ids := by
    simp [mem_ids_of_gate? hh, mem_ids_of_gate? hn, mem_ids_of_gate? hl]
  exact hc.gather_chain (by simp [hhn, hnl]) hlive hconv

theorem exists_phaseCnot_block (hc : c.Proper) {o n r l : VertexId} {p q : Kind} {k : Gate}
    (hh : c.gate? h = some (.hadamard w)) (ho : c.gate? o = some ⟨p, w, []⟩)
    (hn : c.gate? n = some k) (hr : c.gate? r = some ⟨q, w, []⟩)
    (hl : c.gate? l = some (.hadamard w)) (hho : c.Edge h o) (hon : c.Edge o n)
    (hnr : c.Edge n r) (hrl : c.Edge r l) : ∃ A B, c.Linear (A ++ [h, o, n, r, l] ++ B) := by
  have hconv : c.Convex [h, o, n, r, l] := by
    refine convex_of_beside hc.acyclic (a := n) ?_
    simp only [List.forall_mem_cons]
    exact ⟨hc.linked.beside_before (hc.aligned.wire_eq hh rfl) (.head hho (.single hon)) hho
        (by simp),
      hc.linked.beside_before (hc.aligned.wire_eq ho rfl) (.single hon) hon (by simp), .anchor,
      hc.linked.beside_after (hc.aligned.wire_eq hr rfl) (.single hnr) hnr (by simp),
      hc.linked.beside_after (hc.aligned.wire_eq hl rfl) (.head hnr (.single hrl)) hrl (by simp),
      List.forall_mem_nil _⟩
  have hlive : ∀ s ∈ [h, o, n, r, l], s ∈ c.ids := by
    simp [mem_ids_of_gate? hh, mem_ids_of_gate? ho, mem_ids_of_gate? hn, mem_ids_of_gate? hr,
      mem_ids_of_gate? hl]
  exact hc.gather_chain (by simp [hho, hon, hnr, hrl]) hlive hconv

/-- Gates that are each on one wire, and not the same one, are on no common strand. -/
theorem apart_of_ne (hc : c.Aligned) {x y : VertexId} {u : Wire} (hwu : w ≠ u)
    (hx : c.gate? x = some (.hadamard w)) (hy : c.gate? y = some (.hadamard u)) (z : Wire)
    (hxz : x ∈ c.strand z) : y ∉ c.strand z := by
  intro hyz
  rw [hc.wire_eq hx rfl z hxz] at hyz
  exact hwu (hc.wire_eq hy rfl w hyz)

theorem exists_reverseCnot_block (hc : c.Proper) {b n l a : VertexId} {u : Wire} {k : Gate}
    (hwu : w ≠ u) (hh : c.gate? h = some (.hadamard w)) (hb : c.gate? b = some (.hadamard u))
    (hn : c.gate? n = some k) (hl : c.gate? l = some (.hadamard w))
    (ha : c.gate? a = some (.hadamard u)) (hhn : c.Edge h n) (hbn : c.Edge b n)
    (hnl : c.Edge n l) (hna : c.Edge n a) : ∃ A B, c.Linear (A ++ [h, b, n, l, a] ++ B) := by
  have hconv : c.Convex [h, b, n, l, a] := by
    refine convex_of_beside hc.acyclic (a := n) ?_
    simp only [List.forall_mem_cons]
    exact ⟨hc.linked.beside_before (hc.aligned.wire_eq hh rfl) (.single hhn) hhn (by simp),
      hc.linked.beside_before (hc.aligned.wire_eq hb rfl) (.single hbn) hbn (by simp), .anchor,
      hc.linked.beside_after (hc.aligned.wire_eq hl rfl) (.single hnl) hnl (by simp),
      hc.linked.beside_after (hc.aligned.wire_eq ha rfl) (.single hna) hna (by simp),
      List.forall_mem_nil _⟩
  have hlive : ∀ s ∈ [h, b, n, l, a], s ∈ c.ids := by
    simp [mem_ids_of_gate? hh, mem_ids_of_gate? hb, mem_ids_of_gate? hn, mem_ids_of_gate? hl,
      mem_ids_of_gate? ha]
  have hord : [h, b, n, l, a].Pairwise fun x y =>
      TransGen c.Edge x y ∨ ∀ z, x ∈ c.strand z → y ∉ c.strand z := by
    simp only [List.pairwise_cons, List.mem_cons, List.not_mem_nil, or_false, forall_eq_or_imp,
      forall_eq, IsEmpty.forall_iff, implies_true, List.Pairwise.nil, and_true]
    exact ⟨⟨.inr (apart_of_ne hc.aligned hwu hh hb), .inl (.single hhn),
        .inl (.head hhn (.single hnl)), .inl (.head hhn (.single hna))⟩,
      ⟨.inl (.single hbn), .inl (.head hbn (.single hnl)), .inl (.head hbn (.single hna))⟩,
      ⟨.inl (.single hnl), .inl (.single hna)⟩, .inr (apart_of_ne hc.aligned hwu hl ha)⟩
  exact hc.gather_of_pairwise hlive hord hconv

/-! ## What the edits do to a block -/

section Edits

variable {A B : List VertexId}

theorem rewrites_flipPhase (hc : c.Proper) {n l : VertexId} {p q : Kind}
    (hL : c.Linear (A ++ [h, n, l] ++ B)) (hq : p.inversePhase? = some q)
    (hh : c.gate? h = some (.hadamard w)) (hn : c.gate? n = some ⟨p, w, []⟩)
    (hl : c.gate? l = some (.hadamard w)) :
    ∃ d, c.applyAll (Match.flipPhase h n l q).edits = (d, none) ∧ Rewrites Step c d := by
  have h₀ := Framed.start hc hL
  have hne : h ≠ n ∧ h ≠ l ∧ n ≠ l := by simpa [and_assoc] using h₀.nodup
  obtain ⟨d₁, ha₁, h₁, hd₁, hx₁⟩ := h₀.apply_setKind (by simp) hh q
  obtain ⟨d₂, ha₂, h₂, hd₂, hx₂⟩ := h₁.apply_setKind (v := n) (by simp)
    ((hx₁ n hne.1.symm).trans hn) .hadamard
  obtain ⟨d₃, ha₃, h₃, hd₃, hx₃⟩ := h₂.apply_setKind (v := l) (by simp)
    ((hx₂ l hne.2.2.symm).trans ((hx₁ l hne.2.1.symm).trans hl)) q
  refine ⟨d₃, ?_, h₃.rewrites (.flipPhase w hq) hL (by simp [hh, hn, hl]) ?_⟩
  · rw [Match.edits, applyAll_cons ha₁, applyAll_cons ha₂, applyAll_cons ha₃, applyAll]
  · simp only [List.map_cons, List.map_nil, hd₃, hx₃ n hne.2.2, hd₂, hx₃ h hne.2.1, hx₂ h hne.1,
      hd₁]
    rfl

theorem rewrites_phaseCnot (hc : c.Proper) {o n r l : VertexId} {p q : Kind} {cs : List Wire}
    (hL : c.Linear (A ++ [h, o, n, r, l] ++ B)) (hq : p.inversePhase? = some q) (hw : w ∉ cs)
    (hh : c.gate? h = some (.hadamard w)) (ho : c.gate? o = some ⟨p, w, []⟩)
    (hn : c.gate? n = some (.cnot cs w)) (hr : c.gate? r = some ⟨q, w, []⟩)
    (hl : c.gate? l = some (.hadamard w)) :
    ∃ d, c.applyAll (Match.phaseCnot h l o q r p).edits = (d, none) ∧ Rewrites Step c d := by
  have h₀ := Framed.start hc hL
  have hne := h₀.nodup
  simp only [List.nodup_cons, List.mem_cons, List.not_mem_nil, or_false, not_or,
    not_false_eq_true, List.nodup_nil, and_true] at hne
  obtain ⟨⟨hho, hhn, hhr, hhl⟩, ⟨hon, hor, hol⟩, ⟨hnr, hnl⟩, hrl⟩ := hne
  obtain ⟨d₁, ha₁, h₁, hx₁⟩ := h₀.apply_removes [h, l] (by simpa using hhl) (by simp)
  have hkeep : [h, o, n, r, l].filter (· ∉ [h, l]) = [o, n, r] := by
    simp [Ne.symm hho, Ne.symm hhn, Ne.symm hhr, hol, hnl, hrl]
  rw [hkeep] at h₁
  have ho₁ := (hx₁ o (by simp [Ne.symm hho, hol])).trans ho
  have hn₁ := (hx₁ n (by simp [Ne.symm hhn, hnl])).trans hn
  have hr₁ := (hx₁ r (by simp [Ne.symm hhr, hrl])).trans hr
  obtain ⟨d₂, ha₂, h₂, hd₂, hx₂⟩ := h₁.apply_setKind (by simp) ho₁ q
  obtain ⟨d₃, ha₃, h₃, hd₃, hx₃⟩ := h₂.apply_setKind (v := r) (by simp)
    ((hx₂ r (Ne.symm hor)).trans hr₁) p
  refine ⟨d₃, ?_, h₃.rewrites (.phaseCnot hq hw) hL (by simp [hh, ho, hn, hr, hl]) ?_⟩
  · refine (applyAll_append [.setKind o q, .setKind r p] ha₁).trans ?_
    rw [applyAll_cons ha₂, applyAll_cons ha₃, applyAll]
  · simp only [List.map_cons, List.map_nil, hd₃, hx₃ o hor, hd₂, hx₃ n hnr, hx₂ n (Ne.symm hon),
      hn₁]

theorem rewrites_reverseCnot (hc : c.Proper) {b n l a : VertexId} {u : Wire}
    (hL : c.Linear (A ++ [h, b, n, l, a] ++ B)) (hwu : w ≠ u)
    (hh : c.gate? h = some (.hadamard w)) (hb : c.gate? b = some (.hadamard u))
    (hn : c.gate? n = some (.cnot [w] u)) (hl : c.gate? l = some (.hadamard w))
    (ha : c.gate? a = some (.hadamard u)) :
    ∃ d, c.applyAll (Match.reverseCnot h l b a n u w).edits = (d, none) ∧
      Rewrites Step c d := by
  have h₀ := Framed.start hc hL
  have hne := h₀.nodup
  simp only [List.nodup_cons, List.mem_cons, List.not_mem_nil, or_false, not_or,
    not_false_eq_true, List.nodup_nil, and_true] at hne
  obtain ⟨⟨hhb, hhn, hhl, hha⟩, ⟨hbn, hbl, hba⟩, ⟨hnl, hna⟩, hla⟩ := hne
  have hgone : n ∉ [h, l, b, a] := by simp [Ne.symm hhn, hnl, Ne.symm hbn, hna]
  obtain ⟨d₁, ha₁, h₁, hx₁⟩ := h₀.apply_removes [h, l, b, a]
    (by simp [hhl, hhb, hha, Ne.symm hbl, hla, hba]) (by simp)
  have hkeep : [h, b, n, l, a].filter (· ∉ [h, l, b, a]) = [n] := by
    simp [Ne.symm hhn, hnl, Ne.symm hbn, hna]
  rw [hkeep] at h₁
  have hwires : (Gate.cnot [w] u).SameWires (.cnot [u] w) := by
    intro z
    simp [or_comm]
  obtain ⟨d₂, ha₂, h₂, hd₂, -⟩ := h₁.apply_setWires (by simp) ((hx₁ n hgone).trans hn) hwires
  refine ⟨d₂, ?_, h₂.rewrites (.reverseCnot hwu) hL (by simp [hh, hb, hn, hl, ha]) ?_⟩
  · refine (applyAll_append [.setWires n w [u]] ha₁).trans ?_
    rw [applyAll_cons ha₂, applyAll]
  · simp only [List.map_cons, List.map_nil, hd₂]
    rfl

end Edits

/-- A match is carried out, and replaces a block by a rule. -/
theorem rewrites_of_match? (hc : c.Proper)
    (hself : ∀ v g, c.gate? v = some g → ¬ g.SelfControlled) {m : Match}
    (hm : match? c h = some m) : ∃ d, c.applyAll m.edits = (d, none) ∧ Rewrites Step c d := by
  obtain ⟨w, hh, hfound⟩ := found_of_match? hc.linked hm
  cases hfound with
  | flipPhase hq hn hl hhn hnl =>
      obtain ⟨A, B, hL⟩ := exists_flipPhase_block hc hh hn hl hhn hnl
      exact rewrites_flipPhase hc hL hq hh hn hl
  | @reverseCnot b n l a u hb hn hl ha hhn hbn hnl hna =>
      have hwu : w ≠ u := fun hwu => hself n _ hn ⟨rfl, by simp [hwu]⟩
      obtain ⟨A, B, hL⟩ := exists_reverseCnot_block hc hwu hh hb hn hl ha hhn hbn hnl hna
      exact rewrites_reverseCnot hc hL hwu hh hb hn hl ha
  | @phaseCnot o n r l p q cs hq ho hn hr hl hho hon hnr hrl =>
      have hw : w ∉ cs := fun hw => hself n _ hn ⟨rfl, hw⟩
      obtain ⟨A, B, hL⟩ := exists_phaseCnot_block hc hh ho hn hr hl hho hon hnr hrl
      exact rewrites_phaseCnot hc hL hq hw hh ho hn hr hl

end Matches

end Peephole.Hadamard
