import Mathlib.Algebra.Group.End
import Peephole.Proofs.Circuit.Meaning
import Peephole.Proofs.Gate

/-!
# Gates as maps of Pauli operators

A gate of the Clifford group takes Pauli operators to Pauli operators by conjugation. Up to signs
this is a map of bits: two for every wire, for X and for Z. The identities that the optimizer rests
on hold for these maps, which makes them an interpretation of circuits that is neither trivial nor
commutative.

* `Pauli.conj`: the map of a gate. Rotations, gates with several controls and named gates have no
  such map and stand still.
* `Pauli.disjointCommute_conj`: gates without a common wire commute.
-/

namespace Peephole

open Circuit

/-- A Pauli operator up to sign: for every wire, whether X and whether Z takes part in it. -/
abbrev Pauli := Wire → Bool × Bool

namespace Pauli

/-- A change on one wire. -/
def on (t : Wire) (f : Bool × Bool → Bool × Bool) : Function.End Pauli :=
  fun p w => if w = t then f (p t) else p w

/-- Adds X of one wire to X of another, and Z of the other to Z of the one. -/
def copy (x t : Wire) : Function.End Pauli := fun p w =>
  ((p w).1 ^^ (decide (w = t) && (p x).1), (p w).2 ^^ (decide (w = x) && (p t).2))

/-- Adds Z of each of two wires to X of the other. -/
def cross (t y : Wire) : Function.End Pauli := fun p w =>
  ((p w).1 ^^ (decide (w = y) && (p t).2) ^^ (decide (w = t) && (p y).2), (p w).2)

/-- Adds X to Z. -/
def shear (b : Bool × Bool) : Bool × Bool := (b.1, b.2 ^^ b.1)

/-- The map of a gate. -/
def conj (g : Gate) : Function.End Pauli :=
  match g.kind, g.controls with
  | .hadamard, [] => on g.target Prod.swap
  | .phase, [] => on g.target shear
  | .phaseDagger, [] => on g.target shear
  | .cnot, [x] => if x = g.target then 1 else copy x g.target
  | _, _ => 1

theorem mul_apply (f g : Function.End Pauli) (p : Pauli) (w : Wire) : (f * g) p w = f (g p) w := rfl

theorem one_apply (p : Pauli) (w : Wire) : (1 : Function.End Pauli) p w = p w := rfl

theorem conj_hadamard (t : Wire) : conj (.hadamard t) = on t Prod.swap := rfl

theorem conj_cnot (x t : Wire) : conj (.cnot [x] t) = if x = t then 1 else copy x t := rfl

/-- A controlled not with no control or with several stands still. -/
theorem conj_cnot_of_ne {cs : List Wire} (t : Wire) (h : ∀ x, cs ≠ [x]) :
    conj (.cnot cs t) = 1 := by
  match cs with
  | [] => rfl
  | [x] => exact absurd rfl (h x)
  | _ :: _ :: _ => rfl

/-- A gate stands still, changes one wire, or copies between two. -/
theorem conj_cases (g : Gate) : conj g = 1 ∨ (∃ t f, g.wires = [t] ∧ conj g = on t f) ∨
    ∃ x t, x ≠ t ∧ g.wires = [x, t] ∧ conj g = copy x t := by
  obtain ⟨kind, t, controls⟩ := g
  match kind, controls with
  | .hadamard, [] => exact Or.inr (Or.inl ⟨t, Prod.swap, rfl, rfl⟩)
  | .phase, [] => exact Or.inr (Or.inl ⟨t, shear, rfl, rfl⟩)
  | .phaseDagger, [] => exact Or.inr (Or.inl ⟨t, shear, rfl, rfl⟩)
  | .cnot, [x] =>
      by_cases hx : x = t
      · exact Or.inl (if_pos hx)
      · exact Or.inr (Or.inr ⟨x, t, hx, rfl, if_neg hx⟩)
  | .cnot, [] | .cnot, _ :: _ :: _ => exact Or.inl rfl
  | .hadamard, _ :: _ | .phase, _ :: _ | .phaseDagger, _ :: _ => exact Or.inl rfl
  | .rotation _, _ | .named _, _ | .removed, _ => exact Or.inl rfl

/-! ## Identities -/

theorem on_mul_on (t : Wire) (f g : Bool × Bool → Bool × Bool) :
    on t f * on t g = on t (f ∘ g) := by
  funext p w
  simp only [mul_apply, on, if_true, Function.comp_apply]
  split <;> rfl

theorem on_id (t : Wire) : on t id = 1 := by
  funext p w
  simp only [on, one_apply, id]
  split
  · rw [‹w = t›]
  · rfl

theorem on_commute_on {t u : Wire} (f g : Bool × Bool → Bool × Bool) (h : t ≠ u) :
    Commute (on t f) (on u g) := by
  funext p w
  simp only [mul_apply, on]
  grind

theorem on_commute_copy {t x y : Wire} (f : Bool × Bool → Bool × Bool) (hx : t ≠ x) (hy : t ≠ y) :
    Commute (on t f) (copy x y) := by
  funext p w
  by_cases hw : w = t
  · subst hw
    simp [mul_apply, on, copy, hx, hy]
  · simp [mul_apply, on, copy, hw, hx.symm, hy.symm]

theorem copy_commute_copy {x t y u : Wire} (hxu : x ≠ u) (hty : t ≠ y) :
    Commute (copy x t) (copy y u) := by
  funext p w
  simp only [mul_apply, copy, hxu, hxu.symm, hty, hty.symm, decide_false, Bool.false_and,
    Bool.xor_false]
  rw [Bool.xor_right_comm, Bool.xor_right_comm (p w).2]

theorem copy_mul_self {x t : Wire} (h : x ≠ t) : copy x t * copy x t = 1 := by
  funext p w
  simp only [mul_apply, one_apply, copy, h, h.symm, decide_false, Bool.false_and, Bool.xor_false,
    Bool.xor_assoc, Bool.xor_self]

/-- What is left of a controlled not between Hadamard gates on its control. -/
theorem swap_copy_swap {t y : Wire} (h : y ≠ t) :
    on t Prod.swap * copy t y * on t Prod.swap = cross t y := by
  funext p w
  by_cases hwt : w = t
  · subst hwt
    simp [mul_apply, on, copy, cross, h, h.symm]
  · by_cases hwy : w = y
    · subst hwy
      simp [mul_apply, on, copy, cross, h]
    · simp [mul_apply, on, copy, cross, hwt, hwy]

theorem copy_commute_cross {x t y : Wire} (hxt : x ≠ t) (hyx : y ≠ x) :
    Commute (copy x t) (cross t y) := by
  funext p w
  simp only [mul_apply, copy, cross, hxt, hxt.symm, hyx, hyx.symm, decide_false, Bool.false_and,
    Bool.xor_false]
  congr 1
  rw [Bool.xor_right_comm, Bool.xor_right_comm (p w).1]

/-- Hadamard gates on both wires reverse a controlled not. -/
theorem swap_swap_copy {t u : Wire} (h : t ≠ u) :
    on t Prod.swap * on u Prod.swap * copy t u * on t Prod.swap * on u Prod.swap = copy u t := by
  funext p w
  by_cases hwt : w = t
  · subst hwt
    simp [mul_apply, on, copy, h, h.symm]
  · by_cases hwu : w = u
    · subst hwu
      simp [mul_apply, on, copy, h, h.symm]
    · simp [mul_apply, on, copy, hwt, hwu]

/-- A phase between Hadamard gates is a Hadamard gate between phases. -/
theorem swap_shear_swap (t : Wire) :
    on t Prod.swap * on t shear * on t Prod.swap = on t shear * on t Prod.swap * on t shear := by
  simp only [on_mul_on]
  congr 1
  funext b
  obtain ⟨x, z⟩ := b
  cases x <;> cases z <;> rfl

/-- Hadamard gates around phases around a controlled not can be left out. -/
theorem swap_shear_cnot {t : Wire} {cs : List Wire} (ht : t ∉ cs) :
    on t Prod.swap * on t shear * conj (.cnot cs t) * on t shear * on t Prod.swap
      = on t shear * conj (.cnot cs t) * on t shear := by
  by_cases hcs : ∃ x, cs = [x]
  · obtain ⟨x, rfl⟩ := hcs
    have h : x ≠ t := by simpa [eq_comm] using ht
    rw [conj_cnot, if_neg h]
    funext p w
    by_cases hwt : w = t
    · subst hwt
      simp [mul_apply, on, copy, shear, h, h.symm]
    · by_cases hwx : w = x
      · subst hwx
        simp [mul_apply, on, copy, shear, h, Bool.xor_comm]
      · simp [mul_apply, on, copy, shear, hwt, hwx]
  · rw [conj_cnot_of_ne t (not_exists.1 hcs), mul_one, mul_one]
    simp only [on_mul_on]
    congr 1
    funext b
    obtain ⟨x, z⟩ := b
    cases x <;> cases z <;> rfl

/-- What commutes with a copy commutes with the controlled not. -/
theorem commute_conj_cnot {f : Function.End Pauli} {x t : Wire}
    (h : x ≠ t → Commute f (copy x t)) : Commute f (conj (.cnot [x] t)) := by
  rw [conj_cnot]
  split
  · exact Commute.one_right f
  · exact h ‹_›

/-- Gates without a common wire commute. -/
theorem disjointCommute_conj : DisjointCommute conj := by
  intro g h hgh
  rcases conj_cases g with hg | ⟨t, f, hw, hg⟩ | ⟨x, t, hxt, hw, hg⟩
  · rw [hg]
    exact Commute.one_left _
  · rcases conj_cases h with hh | ⟨u, f', hu, hh⟩ | ⟨y, u, hyu, hu, hh⟩
    · rw [hh]
      exact Commute.one_right _
    · simp only [hw, hu, List.mem_singleton, forall_eq] at hgh
      rw [hg, hh]
      exact on_commute_on f f' hgh
    · simp only [hw, hu, List.mem_cons, List.not_mem_nil, or_false, forall_eq, not_or] at hgh
      rw [hg, hh]
      exact on_commute_copy f hgh.1 hgh.2
  · rcases conj_cases h with hh | ⟨u, f', hu, hh⟩ | ⟨y, u, hyu, hu, hh⟩
    · rw [hh]
      exact Commute.one_right _
    · simp only [hw, hu, List.mem_cons, List.not_mem_nil, or_false, forall_eq_or_imp,
        forall_eq] at hgh
      rw [hg, hh]
      exact (on_commute_copy f' (Ne.symm hgh.1) (Ne.symm hgh.2)).symm
    · simp only [hw, hu, List.mem_cons, List.not_mem_nil, or_false, forall_eq_or_imp, forall_eq,
        not_or] at hgh
      rw [hg, hh]
      exact copy_commute_copy hgh.1.2 hgh.2.1

end Pauli

end Peephole
