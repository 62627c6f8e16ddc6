import Mathlib.Algebra.Group.Pointwise.Set.Basic
import Mathlib.Analysis.Complex.Exponential
import Peephole.Proofs.Cancel.Sweep

/-!
# Exact angles

The sum of two angles is rounded, so an interpretation of gates cannot follow it exactly. Let the
angle of every rotation stand for a value of its own instead, an exact angle for instance, and let
the sum of two angles stand for the sum of their values. A sweep then keeps the product of what the
gates stand for: whatever values its angles had, the angles that it leaves have values for which
the product is the same.

* `Stands`: what a gate stands for, one value or several.
* `ExactLaws.prod_subset`: the two sides of a rule.
* `exists_values_sweep`: a sweep keeps the product, for some values of the angles it leaves.
* `exists_operators_sweep`: the operators of gates, with real angles.
-/

namespace Peephole.Cancel

open Circuit
open scoped Pointwise

variable {A M : Type*} {V : Angle → A → Prop} {rot : A → Wire → M} {den : Gate → M} {c : Circuit}

/-- What a gate stands for, where `V` tells the values that an angle stands for: a rotation for that
by any value of its angle, another gate for its value. -/
inductive Stands (V : Angle → A → Prop) (rot : A → Wire → M) (den : Gate → M) :
    Gate → M → Prop where
  | rotation {θ : Angle} {a : A} (t : Wire) (h : V θ a) : Stands V rot den (.rotation θ t) (rot a t)
  | other {g : Gate} (h : ∀ θ t, g ≠ .rotation θ t) : Stands V rot den g (den g)

/-- All that a gate stands for. -/
def values (V : Angle → A → Prop) (rot : A → Wire → M) (den : Gate → M) (g : Gate) : Set M :=
  {m | Stands V rot den g m}

theorem values_of_ne {g : Gate} (hg : ∀ θ t, g ≠ .rotation θ t) : values V rot den g = {den g} := by
  refine Set.ext fun m => ?_
  rw [Set.mem_singleton_iff]
  constructor
  · intro hm
    cases hm with
    | rotation t h => exact absurd rfl (hg _ t)
    | other h => rfl
  · rintro rfl
    exact .other hg

theorem values_cnot (cs : List Wire) (t : Wire) :
    values V rot den (.cnot cs t) = {den (.cnot cs t)} :=
  values_of_ne fun _ _ => by simp [Gate.cnot, Gate.rotation]

theorem exists_of_mem_values_rotation {θ : Angle} {t : Wire} {m : M}
    (hm : m ∈ values V rot den (.rotation θ t)) : ∃ a, V θ a ∧ m = rot a t := by
  cases hm with
  | rotation t h => exact ⟨_, h, rfl⟩
  | other h => exact absurd rfl (h θ t)

/-! ## Products of values -/

section Products

variable [Monoid M]

theorem commute_of_forall_mem {S T : Set M} (h : ∀ m ∈ S, ∀ n ∈ T, Commute m n) :
    Commute S T := by
  refine Set.ext fun p => ?_
  rw [Set.mem_mul, Set.mem_mul]
  constructor
  · rintro ⟨m, hm, n, hn, rfl⟩
    exact ⟨n, hn, m, hm, (h m hm n hn).symm⟩
  · rintro ⟨n, hn, m, hm, rfl⟩
    exact ⟨m, hm, n, hn, h m hm n hn⟩

/-- The products of what gates stand for. -/
theorem mem_prod_values {gs : List Gate} {m : M} :
    m ∈ (gs.map (values V rot den)).prod ↔
      ∃ ms, List.Forall₂ (Stands V rot den) gs ms ∧ ms.prod = m := by
  induction gs generalizing m with
  | nil => simp [eq_comm]
  | cons g gs ih =>
      rw [List.map_cons, List.prod_cons, Set.mem_mul]
      constructor
      · rintro ⟨k, hk, n, hn, rfl⟩
        obtain ⟨ms, hms, rfl⟩ := ih.1 hn
        exact ⟨k :: ms, .cons hk hms, List.prod_cons⟩
      · rintro ⟨ms, hms, rfl⟩
        cases hms with
        | cons hk hms => exact ⟨_, hk, _, ih.2 ⟨_, hms, rfl⟩, List.prod_cons.symm⟩

/-- Without rotations there is one product only. -/
theorem prod_values_of_ne {gs : List Gate} (hgs : ∀ g ∈ gs, ∀ θ t, g ≠ .rotation θ t) :
    (gs.map (values V rot den)).prod = {(gs.map den).prod} := by
  induction gs with
  | nil => rfl
  | cons g gs ih =>
      rw [List.forall_mem_cons] at hgs
      rw [List.map_cons, List.prod_cons, values_of_ne hgs.1, ih hgs.2, Set.singleton_mul_singleton,
        List.map_cons, List.prod_cons]

end Products

namespace ExactLaws

variable [Add A] [Monoid M]

theorem disjointCommute_values (h : ExactLaws rot den) : DisjointCommute (values V rot den) := by
  intro g k hgk
  refine commute_of_forall_mem fun m hm n hn => ?_
  cases hm with
  | rotation t hθ =>
      cases hn with
      | rotation u hφ =>
          exact h.rotation_rotation _ _ t u fun htu => hgk t (by simp) (by simp [htu])
      | other hk => exact h.rotation_disjoint _ t k (hgk t (by simp))
  | other hg =>
      cases hn with
      | rotation u hφ => exact (h.rotation_disjoint _ u g fun hu => hgk u hu (by simp)).symm
      | other hk => exact h.disjoint g k hgk

theorem commute_values_of_passes (h : ExactLaws rot den) {g : Gate} {gs : List Gate}
    (hg : Passes g gs) : Commute (values V rot den g) (gs.map (values V rot den)).prod := by
  refine commute_of_forall_mem fun m hm n hn => ?_
  cases hg with
  | hadamards θ t cs =>
      obtain ⟨a, -, rfl⟩ := exists_of_mem_values_rotation hm
      rw [prod_values_of_ne (by simp [Gate.hadamard, Gate.cnot, Gate.rotation])] at hn
      obtain rfl := hn
      simpa [mul_assoc] using h.rotation_hadamards a t cs
  | gadget θ φ x t =>
      obtain ⟨a, -, rfl⟩ := exists_of_mem_values_rotation hm
      simp only [List.map_cons, List.map_nil, List.prod_cons, List.prod_nil, mul_one, values_cnot,
        Set.singleton_mul, Set.mul_singleton, Set.image_image] at hn
      obtain ⟨k, hk, rfl⟩ := hn
      obtain ⟨b, -, rfl⟩ := exists_of_mem_values_rotation hk
      simpa [mul_assoc] using h.rotation_gadget a b x t
  | control θ t x =>
      obtain ⟨a, -, rfl⟩ := exists_of_mem_values_rotation hm
      rw [prod_values_of_ne (by simp [Gate.cnot, Gate.rotation])] at hn
      obtain rfl := hn
      simpa using h.rotation_control a t x
  | sameTarget x t cs =>
      rw [values_cnot] at hm
      rw [prod_values_of_ne (by simp [Gate.cnot, Gate.rotation])] at hn
      obtain rfl := hm
      obtain rfl := hn
      simpa using h.cnot_target x t cs
  | sameControl x t t' =>
      rw [values_cnot] at hm
      rw [prod_values_of_ne (by simp [Gate.cnot, Gate.rotation])] at hn
      obtain rfl := hm
      obtain rfl := hn
      simpa using h.cnot_control x t t'
  | conjugated x t y hy =>
      rw [values_cnot] at hm
      rw [prod_values_of_ne (by simp [Gate.hadamard, Gate.cnot, Gate.rotation])] at hn
      obtain rfl := hm
      obtain rfl := hn
      simpa [mul_assoc] using h.cnot_conjugated x t y hy

/-- What the left side of a rule stands for, the right side stands for as well. -/
theorem prod_subset (h : ExactLaws rot den)
    (hV : ∀ θ φ a b, V θ a → V φ b → V (θ + φ) (a + b)) (lhs rhs : List Gate)
    (hrule : Rule lhs rhs) :
    (lhs.map (values V rot den)).prod ⊆ (rhs.map (values V rot den)).prod := by
  cases hrule with
  | slide g gs hg =>
      rw [List.map_cons, List.prod_cons, List.map_append, List.prod_append, List.map_singleton,
        List.prod_singleton, (h.commute_values_of_passes hg).eq]
  | rotations θ φ t =>
      simp only [List.map_cons, List.map_nil, List.prod_cons, List.prod_nil, mul_one]
      intro m hm
      obtain ⟨k, hk, n, hn, rfl⟩ := Set.mem_mul.1 hm
      obtain ⟨a, ha, rfl⟩ := exists_of_mem_values_rotation hk
      obtain ⟨b, hb, rfl⟩ := exists_of_mem_values_rotation hn
      rw [h.rotation_mul]
      exact .rotation t (hV θ φ a b ha hb)
  | cnots x t =>
      rw [prod_values_of_ne (by simp [Gate.cnot, Gate.rotation])]
      simp [h.cnot_mul_self]

end ExactLaws

section Sweep

variable [Add A] [Monoid M]

/-- A sweep that ends well keeps the product of what the gates stand for. Whatever values the angles
had before, the angles that are left have values for which the product is the same; the sums among
them have the sums of the values. -/
theorem exists_values_sweep (hden : ExactLaws rot den)
    (hV : ∀ θ φ a b, V θ a → V φ b → V (θ + φ) (a + b)) (hc : Reachable Gate.SameWires c)
    (hac : c.Acyclic) {n : Nat} (h : (sweep c).result = .ok n) {ms : List M}
    (hms : List.Forall₂ (Stands V rot den) c.gatesInOrder ms) :
    ∃ ms', List.Forall₂ (Stands V rot den) (sweep c).circuit.gatesInOrder ms' ∧
      ms'.prod = ms.prod := by
  have hstable := stable_le_meaning hden.disjointCommute_values (hden.prod_subset hV)
    (c.meaning (values V rot den))
  have hmeaning := ((sweep_keeps hstable ⟨hc.proper hac, le_rfl⟩).circuit n h).2
  exact mem_prod_values.1 (hmeaning (mem_prod_values.2 ⟨ms, hms, rfl⟩))

end Sweep

/-! ## Operators -/

/-- The values of angles that were added up, where every summand has a value. -/
inductive SumOf [Add A] (value : Angle → A) : Angle → A → Prop where
  | self (θ : Angle) : SumOf value θ (value θ)
  | add {θ φ : Angle} {a b : A} :
      SumOf value θ a → SumOf value φ b → SumOf value (θ + φ) (a + b)

theorem stands_withRotations {value : Angle → A} (hV : ∀ θ, V θ (value θ)) (g : Gate) :
    Stands V rot den g (withRotations (fun θ t => rot (value θ) t) den g) := by
  rcases withRotations_cases (fun θ t => rot (value θ) t) den g with ⟨θ, t, rfl⟩ | ⟨hg, h⟩
  · exact .rotation t (hV θ)
  · rw [h]
    exact .other hg

/-- Whatever real numbers the angles of a circuit are taken for, a sweep that ends well keeps the
operator of the circuit, if sums of angles are taken for the sums of these numbers. -/
theorem exists_operators_sweep (value : Angle → ℝ) (hc : Reachable Gate.SameWires c)
    (hac : c.Acyclic) {n : Nat} (h : (sweep c).result = .ok n) :
    ∃ ms, List.Forall₂
        (Stands (SumOf value) (fun a t => .shift (Complex.exp (a * Complex.I)) t) Operator.ofGate)
        (sweep c).circuit.gatesInOrder ms ∧
      ms.prod = c.meaning (withRotations
        (fun θ t => Operator.shift (Complex.exp (value θ * Complex.I)) t) Operator.ofGate) := by
  have hlaws := exactLaws_operator (χ := fun a : ℝ => Complex.exp (a * Complex.I)) fun a b => by
    rw [Complex.ofReal_add, add_mul, Complex.exp_add]
  refine exists_values_sweep hlaws (fun _ _ _ _ => .add) hc hac h ?_
  rw [List.forall₂_map_right_iff, List.forall₂_same]
  exact fun g _ => stands_withRotations .self g

end Peephole.Cancel
