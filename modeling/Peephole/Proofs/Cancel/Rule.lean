import Peephole.Proofs.Cancel.Slide
import Peephole.Proofs.Operator
import Peephole.Proofs.Pauli

/-!
# The rules of the cancellation

Each change that a search makes replaces a block by a rule: a gate moves past the block behind it,
two rotations become one, two equal controlled nots vanish.

* `Rule`: the rules, and `Laws`: what an interpretation of gates has to satisfy for them.
* `rewrites_of_slide?`, `rewrites_of_merge?`: the edits of a slide and of a merge are all carried
  out, and amount to a rule.
-/

namespace Peephole.Cancel

open Circuit

/-- What a block of gates may be replaced by. -/
inductive Rule : List Gate → List Gate → Prop where
  | slide (g : Gate) (gs : List Gate) (h : Passes g gs) : Rule (g :: gs) (gs ++ [g])
  | rotations (θ φ : Angle) (t : Wire) :
      Rule [.rotation θ t, .rotation φ t] [.rotation (θ + φ) t]
  | cnots (x t : Wire) : Rule [.cnot [x] t, .cnot [x] t] []

/-! ## What the rules ask of an interpretation -/

/-- The identities behind the rules, for an interpretation of gates in a monoid. Products are in
circuit order. -/
structure Laws {M : Type*} [Monoid M] (den : Gate → M) : Prop where
  disjoint : DisjointCommute den
  rotation_mul : ∀ θ φ t,
    den (.rotation θ t) * den (.rotation φ t) = den (.rotation (θ + φ) t)
  cnot_mul_self : ∀ x t, den (.cnot [x] t) * den (.cnot [x] t) = 1
  rotation_control : ∀ θ t x, Commute (den (.rotation θ t)) (den (.cnot [t] x))
  rotation_hadamards : ∀ θ t cs, Commute (den (.rotation θ t))
    (den (.hadamard t) * den (.cnot cs t) * den (.hadamard t))
  rotation_gadget : ∀ θ φ x t, Commute (den (.rotation θ t))
    (den (.cnot [x] t) * den (.rotation φ t) * den (.cnot [x] t))
  cnot_target : ∀ x t cs, Commute (den (.cnot [x] t)) (den (.cnot cs t))
  cnot_control : ∀ x t t', Commute (den (.cnot [x] t)) (den (.cnot [x] t'))
  cnot_conjugated : ∀ x t y, y ≠ x → Commute (den (.cnot [x] t))
    (den (.hadamard t) * den (.cnot [t] y) * den (.hadamard t))

/-- The laws hold for the maps of Pauli operators. -/
theorem laws_pauli : Laws Pauli.conj where
  disjoint := Pauli.disjointCommute_conj
  rotation_mul θ φ t := rfl
  cnot_mul_self x t := by
    rw [Pauli.conj_cnot]
    split
    · rfl
    · exact Pauli.copy_mul_self ‹_›
  rotation_control θ t x := Commute.one_left _
  rotation_hadamards θ t cs := Commute.one_left _
  rotation_gadget θ φ x t := Commute.one_left _
  cnot_target x t cs := by
    by_cases hcs : ∃ y, cs = [y]
    · obtain ⟨y, rfl⟩ := hcs
      refine Pauli.commute_conj_cnot fun hy => (Pauli.commute_conj_cnot fun hx => ?_).symm
      exact Pauli.copy_commute_copy hy hx.symm
    · rw [Pauli.conj_cnot_of_ne t (not_exists.1 hcs)]
      exact Commute.one_right _
  cnot_control x t t' := by
    refine Pauli.commute_conj_cnot fun hx' => (Pauli.commute_conj_cnot fun hx => ?_).symm
    exact Pauli.copy_commute_copy hx hx'.symm
  cnot_conjugated x t y hy := by
    refine (Pauli.commute_conj_cnot fun hx => ?_).symm
    rw [Pauli.conj_cnot, Pauli.conj_hadamard]
    split
    · rw [mul_one, Pauli.on_mul_on, Prod.swap_swap_eq, Pauli.on_id]
      exact Commute.one_left _
    · rename_i hty
      rw [Pauli.swap_copy_swap (Ne.symm hty)]
      exact (Pauli.copy_commute_cross hx hy).symm

/-! ## Exact angles -/

/-- The same identities where the angle of a rotation has a value of its own, in a type `A` with an
addition that need not be that of the angles. -/
structure ExactLaws {A M : Type*} [Add A] [Monoid M] (rot : A → Wire → M) (den : Gate → M) :
    Prop where
  disjoint : DisjointCommute den
  rotation_disjoint : ∀ a t g, t ∉ g.wires → Commute (rot a t) (den g)
  rotation_rotation : ∀ a b t u, t ≠ u → Commute (rot a t) (rot b u)
  rotation_mul : ∀ a b t, rot a t * rot b t = rot (a + b) t
  cnot_mul_self : ∀ x t, den (.cnot [x] t) * den (.cnot [x] t) = 1
  rotation_control : ∀ a t x, Commute (rot a t) (den (.cnot [t] x))
  rotation_hadamards : ∀ a t cs, Commute (rot a t)
    (den (.hadamard t) * den (.cnot cs t) * den (.hadamard t))
  rotation_gadget : ∀ a b x t, Commute (rot a t)
    (den (.cnot [x] t) * rot b t * den (.cnot [x] t))
  cnot_target : ∀ x t cs, Commute (den (.cnot [x] t)) (den (.cnot cs t))
  cnot_control : ∀ x t t', Commute (den (.cnot [x] t)) (den (.cnot [x] t'))
  cnot_conjugated : ∀ x t y, y ≠ x → Commute (den (.cnot [x] t))
    (den (.hadamard t) * den (.cnot [t] y) * den (.hadamard t))

/-- An interpretation in which rotations have values of their own. -/
def withRotations {M : Type*} (rot : Angle → Wire → M) (den : Gate → M) (g : Gate) : M :=
  match g.kind, g.controls with
  | .rotation θ, [] => rot θ g.target
  | _, _ => den g

theorem withRotations_cases {M : Type*} (rot : Angle → Wire → M) (den : Gate → M) (g : Gate) :
    (∃ θ t, g = .rotation θ t) ∨
      (∀ θ t, g ≠ .rotation θ t) ∧ withRotations rot den g = den g := by
  by_cases hg : ∃ θ t, g = .rotation θ t
  · exact Or.inl hg
  · refine Or.inr ⟨fun θ t h => hg ⟨θ, t, h⟩, ?_⟩
    obtain ⟨kind, t, controls⟩ := g
    unfold withRotations
    split
    · rename_i θ hkind hcontrols
      exact absurd ⟨θ, t, by simp_all [Gate.rotation]⟩ hg
    · rfl

/-- Where the values are the angles themselves, the exact identities are the others. -/
theorem ExactLaws.laws {M : Type*} [Monoid M] {rot : Angle → Wire → M} {den : Gate → M}
    (h : ExactLaws rot den) : Laws (withRotations rot den) where
  disjoint g k hgk := by
    rcases withRotations_cases rot den g with ⟨θ, t, rfl⟩ | ⟨-, hg⟩
    · rcases withRotations_cases rot den k with ⟨φ, u, rfl⟩ | ⟨-, hk⟩
      · exact h.rotation_rotation θ φ t u fun htu => hgk t (by simp) (by simp [htu])
      · rw [hk]
        exact h.rotation_disjoint θ t k (hgk t (by simp))
    · rcases withRotations_cases rot den k with ⟨φ, u, rfl⟩ | ⟨-, hk⟩
      · rw [hg]
        exact (h.rotation_disjoint φ u g fun hu => hgk u hu (by simp)).symm
      · rw [hg, hk]
        exact h.disjoint g k hgk
  rotation_mul := h.rotation_mul
  cnot_mul_self := h.cnot_mul_self
  rotation_control := h.rotation_control
  rotation_hadamards := h.rotation_hadamards
  rotation_gadget := h.rotation_gadget
  cnot_target := h.cnot_target
  cnot_control := h.cnot_control
  cnot_conjugated := h.cnot_conjugated

/-- The exact identities hold for the operators of gates, if adding angles multiplies what their
rotations multiply by. -/
theorem exactLaws_operator {A : Type*} [Add A] {χ : A → ℂ} (hχ : ∀ a b, χ (a + b) = χ a * χ b) :
    ExactLaws (fun a t => Operator.shift (χ a) t) Operator.ofGate where
  disjoint g h hgh := Operator.commute_ofGate_of_disjoint hgh
  rotation_disjoint a t g ht := Operator.commute_shift_ofGate _ ht
  rotation_rotation a b t u _ := Operator.commute_shift_shift _ _ t u
  rotation_mul a b t := by rw [Operator.shift_mul_shift, hχ]
  cnot_mul_self x t := by
    rw [Operator.ofGate_cnot]
    split
    · rw [one_mul]
    · rename_i ht
      exact Operator.cnot_mul_self (List.ne_of_not_mem_cons ht).symm
  rotation_control a t x := by
    rw [Operator.ofGate_cnot]
    split
    · exact Commute.one_right _
    · rename_i hx
      refine Operator.commute_cnot (fun c _ => Operator.commute_shift_keep _ t c) ?_
      exact Operator.commute_shift_flip _ (List.ne_of_not_mem_cons hx)
  rotation_hadamards a t cs := by
    rw [Operator.ofGate_cnot, Operator.ofGate_hadamard]
    split
    · rw [mul_one, Operator.hadamard_mul_self]
      exact Commute.one_right _
    · rename_i ht
      exact Operator.commute_shift_hadamards _ ht
  rotation_gadget a b x t := by
    rw [Operator.ofGate_cnot]
    split
    · rw [one_mul, mul_one]
      exact Operator.commute_shift_shift _ _ t t
    · rename_i ht
      exact Operator.commute_shift_gadget _ _ (List.ne_of_not_mem_cons ht).symm
  cnot_target x t cs :=
    Operator.commute_ofGate_cnot fun hx hcs => Operator.commute_cnot_cnot hcs hx
  cnot_control x t t' :=
    Operator.commute_ofGate_cnot fun ht ht' => Operator.commute_cnot_cnot ht ht'
  cnot_conjugated x t y hy := by
    rw [Operator.ofGate_cnot, Operator.ofGate_cnot, Operator.ofGate_hadamard]
    split
    · exact Commute.one_left _
    · split
      · rw [mul_one, Operator.hadamard_mul_self]
        exact Commute.one_right _
      · rename_i ht hyt
        exact Operator.commute_cnot_hadamards ht (by simpa using hy)
          (List.ne_of_not_mem_cons hyt)

section Interpretation

variable {M : Type*} [Monoid M] {den : Gate → M}

theorem Laws.commute_of_passes (h : Laws den) {g : Gate} {gs : List Gate} (hg : Passes g gs) :
    Commute (den g) (gs.map den).prod := by
  cases hg with
  | hadamards θ t cs => simpa [mul_assoc] using h.rotation_hadamards θ t cs
  | gadget θ φ x t => simpa [mul_assoc] using h.rotation_gadget θ φ x t
  | control θ t x => simpa using h.rotation_control θ t x
  | sameTarget x t cs => simpa using h.cnot_target x t cs
  | sameControl x t t' => simpa using h.cnot_control x t t'
  | conjugated x t y hy => simpa [mul_assoc] using h.cnot_conjugated x t y hy

/-- The two sides of a rule have the same value. -/
theorem Laws.prod_eq (h : Laws den) (lhs rhs : List Gate) (hrule : Rule lhs rhs) :
    (lhs.map den).prod = (rhs.map den).prod := by
  cases hrule with
  | slide g gs hg =>
      rw [List.map_cons, List.prod_cons, List.map_append, List.prod_append, List.map_singleton,
        List.prod_singleton]
      exact h.commute_of_passes hg
  | rotations θ φ t => simpa using h.rotation_mul θ φ t
  | cnots x t => simpa using h.cnot_mul_self x t

end Interpretation

/-- A rule makes no gate that does not fit. -/
theorem Rule.fits (n : Nat) (lhs rhs : List Gate) (h : Rule lhs rhs) (hf : ∀ g ∈ lhs, g.Fits n) :
    ∀ g ∈ rhs, g.Fits n := by
  cases h with
  | slide g gs hg => simpa [or_comm, forall_and] using hf
  | rotations θ φ t =>
      intro g hg
      obtain rfl := List.mem_singleton.1 hg
      exact hf (.rotation θ t) (by simp)
  | cnots x t => simp

/-! ## The edits -/

section Edits

variable {c : Circuit} {v : VertexId} {g : Gate} {k : Candidate}

/-- A slide is carried out, and moves the candidate past a block. -/
theorem rewrites_of_slide? (hc : c.Proper) (hg : c.gate? v = some g)
    (hk : Candidate.ofGate? g = some k) {path : List VertexId}
    (h : k.slide? c v = .ok (some path)) :
    ∃ d, c.applyAll (path.map (.commute v)) = (d, none) ∧ Rewrites Rule c d ∧
      ∀ x, d.gate? x = c.gate? x := by
  obtain ⟨gs, hs⟩ := slide_of_slide? hc hg hk h
  have hmem : ∀ p ∈ path, ∃ k ∈ gs, c.gate? p = some k := by
    intro p hp
    have hk : c.gate? p ∈ gs.map some := hs.gates ▸ List.mem_map_of_mem hp
    obtain ⟨k, hk, hkp⟩ := List.mem_map.1 hk
    exact ⟨k, hk, hkp.symm⟩
  have hlive : ∀ p ∈ v :: path, p ∈ c.ids := by
    intro p hp
    rcases List.mem_cons.1 hp with rfl | hp
    · exact mem_ids_of_gate? hg
    · obtain ⟨k, -, hk⟩ := hmem p hp
      exact mem_ids_of_gate? hk
  obtain ⟨w, hw, hws⟩ := hs.passes.exists_wire
  have hpath : ∀ p ∈ path, p ∈ c.strand w := by
    intro p hp
    obtain ⟨k, hk, hkp⟩ := hmem p hp
    exact (hc.aligned p k hkp w).2 (hws k hk)
  obtain ⟨A, B, hL⟩ := hc.gather_chain hs.chain hlive hs.convex
  have hstart : Framed c A B c ([] ++ v :: path) := .start hc hL
  obtain ⟨d, happly, hd, hgate⟩ := Framed.commute_path hstart ((hc.aligned v g hg w).2 hw) hpath
  refine ⟨d, happly, ?_, hgate⟩
  refine hd.rewrites (.slide g gs hs.passes) hL (by simp [hg, hs.gates]) ?_
  rw [List.nil_append, List.map_append, List.map_append, ← hs.gates]
  simp [hgate, hg]

/-- A vertex and its only successor stand side by side in a linear order. -/
theorem exists_linear_of_onlySuccessor? (hc : c.Proper) {n : VertexId}
    (hn : c.onlySuccessor? v = some n) : ∃ A B, c.Linear (A ++ [v, n] ++ B) :=
  hc.gather_pair (edge_of_onlySuccessor? hn) fun _ hy => Or.inl (eq_of_onlySuccessor? hn hy)

theorem rewrites_of_rotations (hc : c.Proper) {n : VertexId} {θ φ : Angle} {t : Wire}
    (hn : c.onlySuccessor? v = some n) (hg : c.gate? v = some (.rotation θ t))
    (hφ : c.gate? n = some (.rotation φ t)) :
    ∃ d, c.applyAll [.remove n, .turn v φ] = (d, none) ∧ Rewrites Rule c d := by
  obtain ⟨A, B, hL⟩ := exists_linear_of_onlySuccessor? hc hn
  have hstart : Framed c A B c ([v] ++ n :: []) := .start hc hL
  have hvn : v ≠ n := by simpa using hstart.nodup
  obtain ⟨d, happly, hd, hgate⟩ := hstart.apply_remove
  have hgv : d.gate? v = some (.rotation θ t) := by rw [hgate v hvn, hg]
  have hframe := hd.modify (f := Gate.turn φ) (by simp) hgv fun w => Iff.rfl
  refine ⟨d.modify v (Gate.turn φ), ?_, ?_⟩
  · rw [applyAll_cons happly]
    rfl
  · refine hframe.rewrites (.rotations θ φ t) hL (by simp [hg, hφ]) ?_
    simp only [List.append_nil, List.map_cons, List.map_nil, gate?_modify_self, hgv]
    rfl

theorem rewrites_of_cnots (hc : c.Proper) {n : VertexId} {x t : Wire}
    (hn : c.onlySuccessor? v = some n) (hg : c.gate? v = some (.cnot [x] t))
    (hu : c.gate? n = some (.cnot [x] t)) :
    ∃ d, c.applyAll [.remove n, .remove v] = (d, none) ∧ Rewrites Rule c d := by
  obtain ⟨A, B, hL⟩ := exists_linear_of_onlySuccessor? hc hn
  have hstart := Framed.start hc hL
  have hvn : v ≠ n := by simpa using hstart.nodup
  obtain ⟨d, happly, hd, -⟩ := hstart.apply_removes [n, v] (by simpa using hvn.symm) (by simp)
  exact ⟨d, happly, hd.rewrites (.cnots x t) hL (by simp [hg, hu]) (by simp)⟩

/-- A merge is carried out, and makes one rotation of two or lets two controlled nots vanish. -/
theorem rewrites_of_merge? (hc : c.Proper) (hg : c.gate? v = some g)
    (hk : Candidate.ofGate? g = some k) {m : Merge} (h : k.merge? c v = .ok (some m)) :
    ∃ d, c.applyAll m.edits = (d, none) ∧ Rewrites Rule c d := by
  obtain ⟨n, hn, ⟨-, θ, φ, t, rfl, hφ, rfl⟩ | ⟨-, x, t, rfl, hu, rfl⟩⟩ := merge_of_merge? hg hk h
  · exact rewrites_of_rotations hc hn hg hφ
  · exact rewrites_of_cnots hc hn hg hu

end Edits

end Peephole.Cancel
