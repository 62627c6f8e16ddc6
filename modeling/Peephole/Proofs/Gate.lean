import Peephole.Proofs.Circuit.View

/-!
# The gates that the optimizer knows

Names for the gates that patterns are made of, and what the tests of the optimizer say about a
gate: which of them it is.
-/

namespace Peephole

namespace Kind

theorem eq_hadamard {k : Kind} (h : k.family = .hadamard) : k = .hadamard := by
  cases k with
  | hadamard => rfl
  | _ => cases h

theorem eq_cnot {k : Kind} (h : k.family = .cnot) : k = .cnot := by
  cases k with
  | cnot => rfl
  | _ => cases h

theorem eq_phase {k : Kind} (h : k.family = .phase) : k = .phase := by
  cases k with
  | phase => rfl
  | _ => cases h

theorem eq_phaseDagger {k : Kind} (h : k.family = .phaseDagger) : k = .phaseDagger := by
  cases k with
  | phaseDagger => rfl
  | _ => cases h

theorem eq_rotation {k : Kind} (h : k.family = .rotation) : ∃ θ, k = .rotation θ := by
  cases k with
  | rotation θ => exact ⟨θ, rfl⟩
  | _ => cases h

end Kind

namespace Gate

/-- The Hadamard gate on a wire. -/
def hadamard (t : Wire) : Gate := ⟨.hadamard, t, []⟩

/-- The phase gate on a wire. -/
def phase (t : Wire) : Gate := ⟨.phase, t, []⟩

/-- The inverse phase gate on a wire. -/
def phaseDagger (t : Wire) : Gate := ⟨.phaseDagger, t, []⟩

/-- The rotation of a wire by an angle. -/
def rotation (θ : Angle) (t : Wire) : Gate := ⟨.rotation θ, t, []⟩

/-- The controlled not. -/
def cnot (cs : List Wire) (t : Wire) : Gate := ⟨.cnot, t, cs⟩

theorem isSingle_eq_true_iff {g : Gate} {f : Family} {w : Wire} :
    g.isSingle f w = true ↔ g.family = f ∧ g.target = w ∧ g.controls = [] := by
  simp only [isSingle, Bool.and_eq_true, decide_eq_true_eq, beq_iff_eq, List.isEmpty_iff,
    and_assoc]

theorem eq_hadamard {g : Gate} {w : Wire} (h : g.isSingle .hadamard w = true) :
    g = hadamard w := by
  obtain ⟨kind, target, controls⟩ := g
  obtain ⟨hk, ht, hc⟩ := isSingle_eq_true_iff.1 h
  simp only at ht hc
  subst ht hc
  rw [Kind.eq_hadamard (k := kind) hk]
  rfl

theorem eq_rotation {g : Gate} {w : Wire} (h : g.isSingle .rotation w = true) :
    ∃ θ, g = rotation θ w := by
  obtain ⟨kind, target, controls⟩ := g
  obtain ⟨hk, ht, hc⟩ := isSingle_eq_true_iff.1 h
  simp only at ht hc
  subst ht hc
  obtain ⟨θ, rfl⟩ := Kind.eq_rotation (k := kind) hk
  exact ⟨θ, rfl⟩

theorem eq_phase {g : Gate} {w : Wire} (h : g.isSingle .phase w = true) : g = phase w := by
  obtain ⟨kind, target, controls⟩ := g
  obtain ⟨hk, ht, hc⟩ := isSingle_eq_true_iff.1 h
  simp only at ht hc
  subst ht hc
  rw [Kind.eq_phase (k := kind) hk]
  rfl

theorem eq_phaseDagger {g : Gate} {w : Wire} (h : g.isSingle .phaseDagger w = true) :
    g = phaseDagger w := by
  obtain ⟨kind, target, controls⟩ := g
  obtain ⟨hk, ht, hc⟩ := isSingle_eq_true_iff.1 h
  simp only at ht hc
  subst ht hc
  rw [Kind.eq_phaseDagger (k := kind) hk]
  rfl

theorem eq_cnot {g : Gate} (h : g.isCnot = true) : g = cnot g.controls g.target := by
  obtain ⟨kind, target, controls⟩ := g
  rw [isCnot, decide_eq_true_eq] at h
  rw [Kind.eq_cnot (k := kind) h]
  rfl

theorem eq_of_beq_cnot {g : Gate} {cs : List Wire} {t : Wire} (h : (g == cnot cs t) = true) :
    g = cnot cs t := by
  obtain ⟨kind, target, controls⟩ := g
  change (kind == Kind.cnot && (target == t && controls == cs)) = true at h
  simp only [Bool.and_eq_true, beq_iff_eq] at h
  obtain ⟨hkind, rfl, rfl⟩ := h
  cases kind with
  | cnot => rfl
  | _ => cases hkind

@[simp] theorem target_rotation (θ : Angle) (t : Wire) : (rotation θ t).target = t := rfl

@[simp] theorem target_cnot (cs : List Wire) (t : Wire) : (cnot cs t).target = t := rfl

@[simp] theorem controls_cnot (cs : List Wire) (t : Wire) : (cnot cs t).controls = cs := rfl

@[simp] theorem wires_hadamard (t : Wire) : (hadamard t).wires = [t] := rfl

@[simp] theorem wires_rotation (θ : Angle) (t : Wire) : (rotation θ t).wires = [t] := rfl

@[simp] theorem wires_cnot (cs : List Wire) (t : Wire) : (cnot cs t).wires = cs ++ [t] := rfl

/-- A controlled not that its own target controls. -/
def SelfControlled (g : Gate) : Prop := g.isCnot = true ∧ g.target ∈ g.controls

theorem Fits.not_selfControlled {n : Nat} {g : Gate} (h : g.Fits n) : ¬ g.SelfControlled := by
  rintro ⟨-, ht⟩
  exact (List.nodup_append.1 h.1).2.2 g.target ht g.target (by simp) rfl

end Gate

end Peephole
