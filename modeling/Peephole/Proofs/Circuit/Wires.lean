import Mathlib.Data.List.Perm.Basic
import Peephole.Proofs.Circuit.Renaming

/-!
# The gates on a wire

A circuit does not order gates that share no wire, but on each wire all its linear orders have the
same gates in the same order. So a rule can be followed along every wire by itself: what is before
and behind the block stays, and in between one side of the rule gives way to the other.

* `Circuit.gatesOn`: the gates on a wire, in order.
* `Circuit.Reads`: a list of all gates that agrees with the circuit on every wire.
* `Rewrites.exists_context`: what a rule does to the gates on all wires.
* `stable_gatesOn`, `stable_perm_filter`: what the rules keep on every wire, and overall.
-/

namespace Peephole.Circuit

variable {c d : Circuit} {R : List Gate → List Gate → Prop}

/-- The gates on a wire, in order. -/
def gatesOn (c : Circuit) (w : Wire) : List Gate := c.gatesInOrder.filter (·.touches w)

/-- The list has all gates of the circuit, and has them in order on every wire. -/
structure Reads (c : Circuit) (gs : List Gate) : Prop where
  perm : c.gatesInOrder.Perm gs
  gatesOn_eq : ∀ w, c.gatesOn w = gs.filter (·.touches w)

/-- On a wire of a list of vertices, the gates are those of the vertices that touch it. -/
theorem filter_touches_filterMap (c : Circuit) (w : Wire) (vs : List VertexId) :
    (vs.filterMap c.gate?).filter (·.touches w) = (c.touching w vs).filterMap c.gate? := by
  rw [touching, List.filter_filterMap, List.filterMap_filter]
  refine List.filterMap_congr fun v _ => ?_
  rw [holds]
  cases c.gate? v with
  | none => rfl
  | some g => rfl

/-- Every linear order reads the circuit. -/
theorem Proper.reads (hc : c.Proper) {L : List VertexId} (hL : c.Linear L) :
    c.Reads (L.filterMap c.gate?) where
  perm := (hc.linear_order.perm.trans hL.perm.symm).filterMap _
  gatesOn_eq := by
    intro w
    rw [gatesOn, gatesInOrder_eq, filter_touches_filterMap, filter_touches_filterMap,
      hc.touching_order, hc.touching_linear hL]

/-- A rule replaces one side by the other within a list that reads the circuit. -/
theorem Rewrites.exists_context (h : Rewrites R c d) (hc : c.Proper) :
    ∃ lhs rhs P Q, R lhs rhs ∧ c.Reads (P ++ lhs ++ Q) ∧ d.Reads (P ++ rhs ++ Q) := by
  obtain ⟨lhs, rhs, A, S, T, B, hrule, hL, hL', hS, hT, hsame⟩ := h.block
  have hA : A.filterMap d.gate? = A.filterMap c.gate? :=
    List.filterMap_congr fun v hv => hsame v (List.mem_append_left B hv)
  have hB : B.filterMap d.gate? = B.filterMap c.gate? :=
    List.filterMap_congr fun v hv => hsame v (List.mem_append_right A hv)
  refine ⟨lhs, rhs, A.filterMap c.gate?, B.filterMap c.gate?, hrule, ?_, ?_⟩
  · rw [← filterMap_of_map_gate? hS, ← List.filterMap_append, ← List.filterMap_append]
    exact hc.reads hL
  · rw [← filterMap_of_map_gate? hT, ← hA, ← hB, ← List.filterMap_append,
      ← List.filterMap_append]
    exact h.proper.reads hL'

/-- Going back to a snapshot gives the same gates in the same order. -/
theorem gatesInOrder_restore {names : Renumbering} (h : c.snapshot.restore = .ok (names, d)) :
    d.gatesInOrder = c.gatesInOrder := by
  rw [(restore_eq_ok_iff.1 h).2.2, gatesInOrder_ofGates, gates_snapshot]

/-! ## What rules keep -/

/-- Two stable properties are stable together. -/
theorem Stable.and {P Q : Circuit → Prop} (hP : Stable R P) (hQ : Stable R Q) :
    Stable R fun c => P c ∧ Q c where
  proper h := hP.proper h.1
  rewrites h hr := ⟨hP.rewrites h.1 hr, hQ.rewrites h.2 hr⟩
  restore h hr := ⟨hP.restore h.1 hr, hQ.restore h.2 hr⟩

theorem Stable.congr {P Q : Circuit → Prop} (hP : Stable R P) (h : ∀ c, P c ↔ Q c) :
    Stable R Q where
  proper hc := hP.proper ((h _).2 hc)
  rewrites hc hr := (h _).1 (hP.rewrites ((h _).2 hc) hr)
  restore hc hr := (h _).1 (hP.restore ((h _).2 hc) hr)

/-- A circuit stays sound on the wires it has, if the rules make fitting gates from fitting ones. -/
theorem stable_sound_width
    (hfits : ∀ n lhs rhs, R lhs rhs → (∀ g ∈ lhs, g.Fits n) → ∀ g ∈ rhs, g.Fits n) (n : Nat) :
    Stable R fun c => c.Sound ∧ c.width = n :=
  ((stable_sound hfits).and (stable_width R n)).congr fun _ =>
    ⟨fun h => ⟨h.1, h.2.2⟩, fun h => ⟨h.1, h.1.1, h.2⟩⟩

/-- If the two sides of every rule are related on each wire, whatever stands around them, then so
are the circuit and what it was at first. -/
theorem stable_gatesOn {K : List Gate → List Gate → Prop}
    (htrans : ∀ {x y z}, K x y → K y z → K x z)
    (hR : ∀ lhs rhs, R lhs rhs → ∀ (w : Wire) (P Q : List Gate),
      K (P ++ lhs.filter (·.touches w) ++ Q) (P ++ rhs.filter (·.touches w) ++ Q))
    (c₀ : Circuit) : Stable R fun c => c.Proper ∧ ∀ w, K (c₀.gatesOn w) (c.gatesOn w) where
  proper h := h.1
  rewrites := by
    rintro c d ⟨hc, hK⟩ hr
    refine ⟨hr.proper, fun w => htrans (hK w) ?_⟩
    obtain ⟨lhs, rhs, P, Q, hrule, hreads, hreads'⟩ := hr.exists_context hc
    rw [hreads.gatesOn_eq, hreads'.gatesOn_eq]
    simpa only [List.filter_append] using hR lhs rhs hrule w _ _
  restore := by
    rintro c d names ⟨-, hK⟩ hr
    refine ⟨.of_restore hr, fun w => ?_⟩
    have hsame : d.gatesOn w = c.gatesOn w := by rw [gatesOn, gatesOn, gatesInOrder_restore hr]
    rw [hsame]
    exact hK w

/-- Gates that no rule takes out or brings in stay. -/
theorem stable_perm_filter {p : Gate → Bool}
    (hR : ∀ lhs rhs, R lhs rhs → lhs.filter p = rhs.filter p) (c₀ : Circuit) :
    Stable R fun c => c.Proper ∧
      (c₀.gatesInOrder.filter p).Perm (c.gatesInOrder.filter p) where
  proper h := h.1
  rewrites := by
    rintro c d ⟨hc, hperm⟩ hr
    refine ⟨hr.proper, hperm.trans ?_⟩
    obtain ⟨lhs, rhs, P, Q, hrule, hreads, hreads'⟩ := hr.exists_context hc
    refine (hreads.perm.filter p).trans (List.Perm.trans ?_ (hreads'.perm.filter p).symm)
    simp only [List.filter_append, hR lhs rhs hrule, List.Perm.refl]
  restore := by
    rintro c d names ⟨-, hperm⟩ hr
    refine ⟨.of_restore hr, ?_⟩
    rwa [gatesInOrder_restore hr]

end Peephole.Circuit
