import Mathlib.Algebra.Algebra.Basic
import Mathlib.Algebra.Module.Equiv.Basic
import Mathlib.Analysis.Real.Sqrt
import Mathlib.Data.Complex.Basic
import Mathlib.Tactic.LinearCombination
import Mathlib.Tactic.NoncommRing
import Peephole.Proofs.Circuit.Meaning
import Peephole.Proofs.Gate

/-!
# Gates as operators

A state of the wires gives every setting of them a complex amplitude, and gates act on states by
linear operators. All of them are made of two: to turn a wire over, and to keep the settings in
which a wire is set. Rotations are taken up to a phase of the whole state.

* `Operator.flip`, `Operator.keep`: the two operators, and how they commute.
* `Operator.shift`, `Operator.hadamard`, `Operator.cnot`: the operators of gates.
* `Operator.cnot_keep_cnot`, `Operator.hadamard_cnot_hadamard`: what is left of products of them.
* `Operator.ofGate`: the operator of a gate; `Operator.commute_ofGate` tells what commutes with it.
-/

namespace Peephole

/-- A state: an amplitude for every setting of the wires. -/
abbrev Amplitudes := (Wire → Bool) → ℂ

/-- Linear operators on states. -/
abbrev Operator := Module.End ℂ Amplitudes

namespace Operator

/-- A setting with one wire turned over. -/
def toggled (t : Wire) (s : Wire → Bool) : Wire → Bool := Function.update s t (!s t)

/-- Turns a wire over. -/
def flip (t : Wire) : Operator := LinearMap.funLeft ℂ ℂ (toggled t)

/-- Keeps the settings in which a wire is set. -/
def keep (t : Wire) : Operator where
  toFun ψ s := if s t then ψ s else 0
  map_add' ψ φ := by
    funext s
    simp only [Pi.add_apply]
    split <;> simp
  map_smul' z ψ := by
    funext s
    simp only [Pi.smul_apply, RingHom.id_apply]
    split <;> simp

/-- Multiplies by a number where a wire is set. -/
noncomputable def shift (z : ℂ) (t : Wire) : Operator := 1 + (z - 1) • keep t

/-- The sum and the difference of the two settings of a wire. -/
noncomputable def hadamard (t : Wire) : Operator :=
  (1 / Real.sqrt 2 : ℂ) • (flip t + (1 - (2 : ℂ) • keep t))

/-- Turns a wire over where all of some others are set. -/
noncomputable def cnot (cs : List Wire) (t : Wire) : Operator :=
  1 + (cs.map keep).prod * (flip t - 1)

/-- The operator of a gate. Rotations are left to others, and gates that are not known stand
still. -/
noncomputable def ofGate (g : Gate) : Operator :=
  match g.kind, g.controls with
  | .hadamard, [] => hadamard g.target
  | .phase, [] => shift Complex.I g.target
  | .phaseDagger, [] => shift (-Complex.I) g.target
  | .cnot, cs => if g.target ∈ cs then 1 else cnot cs g.target
  | _, _ => 1

variable {A B : Operator} {t u x y : Wire} {cs : List Wire}

/-! ## Settings and states -/

@[simp] theorem toggled_toggled (t : Wire) (s : Wire → Bool) : toggled t (toggled t s) = s := by
  simp [toggled]

@[simp] theorem toggled_self (t : Wire) (s : Wire → Bool) : toggled t s t = !s t := by
  simp [toggled]

theorem toggled_of_ne (h : u ≠ t) (s : Wire → Bool) : toggled t s u = s u := by
  simp [toggled, h]

theorem toggled_comm (t u : Wire) (s : Wire → Bool) :
    toggled t (toggled u s) = toggled u (toggled t s) := by
  by_cases h : t = u
  · rw [h]
  · simp [toggled, h, Ne.symm h, Function.update_comm h]

@[simp] theorem flip_apply (t : Wire) (ψ : Amplitudes) (s : Wire → Bool) :
    flip t ψ s = ψ (toggled t s) := rfl

@[simp] theorem keep_apply (t : Wire) (ψ : Amplitudes) (s : Wire → Bool) :
    keep t ψ s = if s t then ψ s else 0 := rfl

theorem hadamard_apply (t : Wire) (ψ : Amplitudes) (s : Wire → Bool) :
    hadamard t ψ s = (1 / Real.sqrt 2 : ℂ) * (ψ (toggled t s) + if s t then -ψ s else ψ s) := by
  by_cases h : s t
  · simp [hadamard, h]
    ring
  · simp [hadamard, h]
    ring

/-- Operators that give every setting the same amplitude are the same. -/
theorem ext_apply (h : ∀ ψ s, A ψ s = B ψ s) : A = B :=
  LinearMap.ext fun ψ => funext fun s => h ψ s

/-! ## Products -/

theorem commute_flip_flip (t u : Wire) : Commute (flip t) (flip u) := by
  refine ext_apply fun ψ s => ?_
  simp [toggled_comm t u]

theorem commute_keep_keep (t u : Wire) : Commute (keep t) (keep u) := by
  refine ext_apply fun ψ s => ?_
  by_cases ht : s t <;> by_cases hu : s u <;> simp [ht, hu]

theorem commute_flip_keep (h : t ≠ u) : Commute (flip t) (keep u) := by
  refine ext_apply fun ψ s => ?_
  simp [toggled_of_ne h.symm]

theorem shift_mul_shift (z z' : ℂ) (t : Wire) : shift z t * shift z' t = shift (z * z') t := by
  refine ext_apply fun ψ s => ?_
  by_cases h : s t
  · simp [shift, h]
    ring
  · simp [shift, h]

theorem shift_ne_one {z : ℂ} (hz : z ≠ 1) (t : Wire) : shift z t ≠ 1 := by
  intro h
  have happly := congrFun (LinearMap.congr_fun h fun _ => 1) fun _ => true
  exact hz (by simpa [shift] using happly)

theorem sqrt_half_mul_self : (1 / Real.sqrt 2 : ℂ) * (1 / Real.sqrt 2 : ℂ) = 1 / 2 := by
  rw [div_mul_div_comm, one_mul, ← Complex.ofReal_mul, Real.mul_self_sqrt (by norm_num)]
  norm_num

theorem hadamard_mul_self (t : Wire) : hadamard t * hadamard t = 1 := by
  refine ext_apply fun ψ s => ?_
  by_cases h : s t
  · simp [hadamard_apply, h]
    linear_combination (2 * ψ s) * sqrt_half_mul_self
  · simp [hadamard_apply, h]
    linear_combination (2 * ψ s) * sqrt_half_mul_self

theorem hadamard_flip_hadamard (t : Wire) :
    hadamard t * flip t * hadamard t = 1 - (2 : ℂ) • keep t := by
  refine ext_apply fun ψ s => ?_
  by_cases h : s t
  · simp [hadamard_apply, h]
    linear_combination (-2 * ψ s) * sqrt_half_mul_self
  · simp [hadamard_apply, h]
    linear_combination (2 * ψ s) * sqrt_half_mul_self

theorem hadamard_keep_hadamard (t : Wire) :
    hadamard t * keep t * hadamard t = (1 / 2 : ℂ) • (1 - flip t) := by
  refine ext_apply fun ψ s => ?_
  by_cases h : s t
  · simp [hadamard_apply, h]
    linear_combination (ψ s - ψ (toggled t s)) * sqrt_half_mul_self
  · simp [hadamard_apply, h]
    linear_combination (ψ s - ψ (toggled t s)) * sqrt_half_mul_self

theorem cnot_mul_self (h : x ≠ t) : cnot [x] t * cnot [x] t = 1 := by
  refine ext_apply fun ψ s => ?_
  by_cases hx : s x <;> simp [cnot, hx, toggled_of_ne h]

/-- Where two wires differ. -/
theorem cnot_keep_cnot (h : x ≠ t) :
    cnot [x] t * keep t * cnot [x] t = keep t + keep x * (1 - (2 : ℂ) • keep t) := by
  refine ext_apply fun ψ s => ?_
  by_cases hx : s x <;> by_cases ht : s t <;> simp [cnot, hx, ht, toggled_of_ne h]
  ring

theorem cnot_shift_cnot (z : ℂ) (h : x ≠ t) :
    cnot [x] t * shift z t * cnot [x] t
      = 1 + (z - 1) • (keep t + keep x * (1 - (2 : ℂ) • keep t)) := by
  rw [shift, mul_add, add_mul, mul_one, cnot_mul_self h, mul_smul_comm, smul_mul_assoc,
    cnot_keep_cnot h]

/-! ## Operators that commute -/

/-- What commutes with both operators of a wire commutes with a phase of it. -/
theorem commute_shift (z : ℂ) (h : Commute A (keep t)) : Commute A (shift z t) :=
  (Commute.one_right A).add_right (h.smul_right _)

theorem commute_hadamard (hf : Commute A (flip t)) (hk : Commute A (keep t)) :
    Commute A (hadamard t) :=
  (hf.add_right ((Commute.one_right A).sub_right (hk.smul_right _))).smul_right _

theorem commute_keeps (h : ∀ c ∈ cs, Commute A (keep c)) : Commute A (cs.map keep).prod :=
  Commute.list_prod_right _ _ (List.forall_mem_map.2 h)

theorem commute_cnot (hcs : ∀ c ∈ cs, Commute A (keep c)) (hf : Commute A (flip t)) :
    Commute A (cnot cs t) :=
  (Commute.one_right A).add_right
    ((commute_keeps hcs).mul_right (hf.sub_right (Commute.one_right A)))

theorem commute_shift_keep (z : ℂ) (t u : Wire) : Commute (shift z t) (keep u) :=
  (commute_shift z (commute_keep_keep u t)).symm

theorem commute_shift_shift (z z' : ℂ) (t u : Wire) : Commute (shift z t) (shift z' u) :=
  commute_shift z' (commute_shift_keep z t u)

theorem commute_shift_flip (z : ℂ) (h : u ≠ t) : Commute (shift z t) (flip u) :=
  (commute_shift z (commute_flip_keep h)).symm

theorem commute_cnot_keep (h : u ≠ t) : Commute (cnot cs t) (keep u) :=
  (commute_cnot (fun c _ => commute_keep_keep u c) (commute_flip_keep h.symm).symm).symm

theorem commute_cnot_flip (h : u ∉ cs) : Commute (cnot cs t) (flip u) := by
  refine (commute_cnot (fun c hc => commute_flip_keep ?_) (commute_flip_flip u t)).symm
  rintro rfl
  exact h hc

/-- Controlled nots commute if none turns over a control of the other. -/
theorem commute_cnot_cnot {ds : List Wire} (ht : t ∉ ds) (hu : u ∉ cs) :
    Commute (cnot cs t) (cnot ds u) := by
  refine commute_cnot (fun c hc => commute_cnot_keep ?_) (commute_cnot_flip hu)
  rintro rfl
  exact ht hc

/-! ## Between Hadamard gates -/

/-- A controlled not between Hadamard gates on its target only tells settings apart. -/
theorem hadamard_cnot_hadamard (ht : t ∉ cs) :
    hadamard t * cnot cs t * hadamard t = 1 - (2 : ℂ) • ((cs.map keep).prod * keep t) := by
  have hcomm : Commute (cs.map keep).prod (hadamard t) := by
    refine commute_hadamard (commute_keeps fun c hc => ?_).symm (commute_keeps fun c _ => ?_).symm
    · exact commute_flip_keep fun h => ht (h ▸ hc)
    · exact commute_keep_keep t c
  calc hadamard t * cnot cs t * hadamard t
      = hadamard t * hadamard t
          + hadamard t * (cs.map keep).prod * (flip t - 1) * hadamard t := by
        rw [cnot]
        noncomm_ring
    _ = hadamard t * hadamard t + (cs.map keep).prod
          * (hadamard t * flip t * hadamard t - hadamard t * hadamard t) := by
        rw [← hcomm.eq]
        simp only [mul_sub, sub_mul, mul_one, mul_assoc]
    _ = 1 - (2 : ℂ) • ((cs.map keep).prod * keep t) := by
        rw [hadamard_flip_hadamard, hadamard_mul_self]
        simp only [mul_sub, mul_one, mul_smul_comm]
        abel

/-- A controlled not between Hadamard gates on its control turns wires over, or not. -/
theorem hadamard_control_hadamard (h : y ≠ t) :
    hadamard t * cnot [t] y * hadamard t = 1 + (1 / 2 : ℂ) • (1 - flip t) * (flip y - 1) := by
  have hcomm : Commute (flip y) (hadamard t) :=
    commute_hadamard (commute_flip_flip y t) (commute_flip_keep h)
  calc hadamard t * cnot [t] y * hadamard t
      = hadamard t * hadamard t
          + hadamard t * keep t * (flip y * hadamard t - hadamard t) := by
        rw [cnot, List.map_singleton, List.prod_singleton]
        noncomm_ring
    _ = hadamard t * hadamard t + hadamard t * keep t * hadamard t * (flip y - 1) := by
        rw [hcomm.eq]
        simp only [mul_sub, mul_one, mul_assoc]
    _ = 1 + (1 / 2 : ℂ) • (1 - flip t) * (flip y - 1) := by
        rw [hadamard_keep_hadamard, hadamard_mul_self]

/-- Phases commute with a controlled not between Hadamard gates on its target. -/
theorem commute_shift_hadamards (z : ℂ) (ht : t ∉ cs) :
    Commute (shift z t) (hadamard t * cnot cs t * hadamard t) := by
  have hkeeps : Commute (shift z t) (cs.map keep).prod :=
    commute_keeps fun c _ => commute_shift_keep z t c
  rw [hadamard_cnot_hadamard ht]
  exact (Commute.one_right _).sub_right
    ((hkeeps.mul_right (commute_shift_keep z t t)).smul_right _)

/-- Phases commute with a phase of the sum of two wires. -/
theorem commute_shift_gadget (z z' : ℂ) (h : x ≠ t) :
    Commute (shift z t) (cnot [x] t * shift z' t * cnot [x] t) := by
  have hkeep := commute_shift_keep z t
  rw [cnot_shift_cnot z' h]
  refine (Commute.one_right _).add_right (((hkeep t).add_right ?_).smul_right _)
  exact (hkeep x).mul_right ((Commute.one_right _).sub_right ((hkeep t).smul_right _))

/-- A controlled not commutes with another between Hadamard gates on its control, if that is the
target of the first. -/
theorem commute_cnot_hadamards (ht : t ∉ cs) (hy : y ∉ cs) (hyt : y ≠ t) :
    Commute (cnot cs t) (hadamard t * cnot [t] y * hadamard t) := by
  have hone := Commute.one_right (cnot cs t)
  have hflip : Commute (cnot cs t) (flip t) := commute_cnot_flip ht
  have hflip' : Commute (cnot cs t) (flip y) := commute_cnot_flip hy
  rw [hadamard_control_hadamard hyt]
  exact hone.add_right (((hone.sub_right hflip).smul_right _).mul_right (hflip'.sub_right hone))

/-! ## Gates -/

theorem ofGate_hadamard (t : Wire) : ofGate (.hadamard t) = hadamard t := rfl

theorem ofGate_cnot (cs : List Wire) (t : Wire) :
    ofGate (.cnot cs t) = if t ∈ cs then 1 else cnot cs t := rfl

theorem commute_ofGate_cnot {ds : List Wire}
    (h : t ∉ cs → u ∉ ds → Commute (cnot cs t) (cnot ds u)) :
    Commute (ofGate (.cnot cs t)) (ofGate (.cnot ds u)) := by
  rw [ofGate_cnot, ofGate_cnot]
  split
  · exact Commute.one_left _
  · split
    · exact Commute.one_right _
    · exact h ‹_› ‹_›

/-- What commutes with both operators of every wire of a gate commutes with the gate. -/
theorem commute_ofGate {g : Gate} (hf : ∀ w ∈ g.wires, Commute A (flip w))
    (hk : ∀ w ∈ g.wires, Commute A (keep w)) : Commute A (ofGate g) := by
  have ht : g.target ∈ g.wires := by simp [Gate.wires]
  have hcs : ∀ c ∈ g.controls, c ∈ g.wires := by simp +contextual [Gate.wires]
  unfold ofGate
  split
  · exact commute_hadamard (hf _ ht) (hk _ ht)
  · exact commute_shift _ (hk _ ht)
  · exact commute_shift _ (hk _ ht)
  · split
    · exact Commute.one_right A
    · exact commute_cnot (fun c hc => hk c (hcs c hc)) (hf _ ht)
  · exact Commute.one_right A

theorem commute_ofGate_of_disjoint {g h : Gate} (hgh : ∀ w ∈ g.wires, w ∉ h.wires) :
    Commute (ofGate g) (ofGate h) := by
  have hne : ∀ w ∈ g.wires, ∀ z ∈ h.wires, w ≠ z := by
    rintro w hw z hz rfl
    exact hgh w hw hz
  refine commute_ofGate (fun z hz => (commute_ofGate ?_ ?_).symm)
    fun z hz => (commute_ofGate ?_ ?_).symm
  · exact fun w hw => commute_flip_flip z w
  · exact fun w hw => commute_flip_keep (hne w hw z hz).symm
  · exact fun w hw => (commute_flip_keep (hne w hw z hz)).symm
  · exact fun w hw => commute_keep_keep z w

theorem commute_shift_ofGate (z : ℂ) {g : Gate} (ht : t ∉ g.wires) :
    Commute (shift z t) (ofGate g) := by
  have hne : ∀ w ∈ g.wires, w ≠ t := by
    rintro w hw rfl
    exact ht hw
  refine (commute_shift z (commute_ofGate (fun w hw => ?_) fun w hw => ?_).symm).symm
  · exact (commute_flip_keep (hne w hw)).symm
  · exact commute_keep_keep t w

end Operator

end Peephole
