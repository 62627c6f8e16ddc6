import Peephole.Proofs.Circuit.Wires
import Peephole.Proofs.Netlist.RoundTrip
import Peephole.Proofs.Netlist.Serial
import Peephole.Proofs.Pipeline

/-!
# Optimized netlists are in normal form

What the optimizer writes can be read again, makes a circuit, and is written in the very same way.
The rules only make gates that lines can stand for, and a circuit built from gates has them in the
order given. Angles need not come back as they were: two infinities that are added up make an angle
that is no number, and all that is asked of an angle is that its text stays the same.

* `Angle.Reprints`: the text of an angle is read as an angle with this text.
* `Netlist.Legible.render_of_read`: a legible netlist is written in the same way after it was read.
* `Hadamard.Step.legible`, `Cancel.Rule.legible`: the rules keep gates legible.
-/

namespace Peephole

open Circuit

/-! ## Angles -/

namespace Angle

/-- The angles have the same text. -/
def SameText (y θ : Angle) : Prop := y.render = θ.render

/-- The text of the angle is read as an angle with the same text. -/
def Reprints (θ : Angle) : Prop := θ.ReadsAs SameText

/-- No number at all, and the infinities, are read from their words. -/
theorem reprints_of_isFinite {θ : Angle} (h : θ.isFinite = false) : θ.Reprints := by
  have hword : ∀ (text : String) (y : Angle), θ.render = text →
      Angle.read? text = some y → y.render = text → θ.Reprints :=
    fun text y hθ hread hy => ⟨y, hθ ▸ hread, hy.trans hθ.symm⟩
  by_cases hnan : θ.isNaN = true
  · exact hword "NaN" (0.0 / 0.0) (if_pos hnan) (by decide +kernel) (by decide +kernel)
  · have hinf : θ.isInf = true := (isFinite_eq_false_iff.1 h).resolve_left hnan
    have hrender : θ.render = (if isNegative θ then "-" else "") ++ "inf" := by
      unfold render
      rw [if_neg hnan]
      exact if_pos hinf
    by_cases hneg : isNegative θ = true
    · rw [if_pos hneg] at hrender
      exact hword "-inf" (-(1.0 / 0.0)) hrender (by decide +kernel) (by decide +kernel)
    · rw [if_neg hneg] at hrender
      exact hword "inf" (1.0 / 0.0) hrender (by decide +kernel) (by decide +kernel)

end Angle

/-! ## Writing what was read -/

namespace Gate

theorem Agrees.wires_eq {R : Angle → Angle → Prop} {k g : Gate} (h : Agrees R k g) :
    k.wires = g.wires := by
  cases h <;> rfl

/-- The text of a gate does not tell angles with the same text apart. -/
theorem Agrees.render_eq {k g : Gate} (h : Agrees Angle.SameText k g) : k.render = g.render := by
  cases h with
  | @rotation y θ target controls h =>
      have htext : y.render = θ.render := h
      simp only [render, toWords, name, Kind.name, Kind.angle?, Option.map_some, htext]
      rfl
  | other => rfl

theorem Agrees.eq {k g : Gate} (h : Agrees Eq k g) : k = g := by
  cases h with
  | rotation target controls h => rw [h]
  | other => rfl

theorem Agrees.forall_fits {R : Angle → Angle → Prop} {ks gs : List Gate}
    (h : List.Forall₂ (Agrees R) ks gs) {n : Nat} (hgs : ∀ g ∈ gs, g.Fits n) :
    ∀ k ∈ ks, k.Fits n := by
  induction h with
  | nil => exact hgs
  | cons hk _ ih =>
      rw [List.forall_mem_cons] at hgs ⊢
      refine ⟨?_, ih hgs.2⟩
      rw [Fits, hk.wires_eq]
      exact hgs.1

theorem Agrees.map_render {ks gs : List Gate} (h : List.Forall₂ (Agrees Angle.SameText) ks gs) :
    ks.map render = gs.map render := by
  induction h with
  | nil => rfl
  | cons hk _ ih => rw [List.map_cons, List.map_cons, hk.render_eq, ih]

end Gate

namespace Netlist

/-- If every angle is read back from its text, the netlist is. -/
theorem read_render_of_eq {n : Netlist} (hwidth : n.width ≤ maxWidth) (h : ∀ g ∈ n.gates, g.Legible)
    (hangle : ∀ g ∈ n.gates, ∀ θ, g.kind = .rotation θ → θ.ReadsAs Eq) : read n.render = .ok n := by
  obtain ⟨ks, hks, hagrees⟩ := Netlist.read_render hwidth h hangle
  have heq : ks = n.gates := by
    rw [← List.forall₂_eq_eq_eq]
    exact hagrees.imp fun _ _ => Gate.Agrees.eq
  rw [hks, heq]

/-- A legible netlist whose gates fit it is read from its text, and the circuit of what was read is
written as this text again. -/
theorem Legible.render_of_read {n : Netlist} (h : n.Legible) (hfits : ∀ g ∈ n.gates, g.Fits n.width)
    (hangle : ∀ g ∈ n.gates, ∀ θ, g.kind = .rotation θ → θ.Reprints) :
    ∃ m d, read n.render = .ok m ∧ m.toCircuit = .ok d ∧ d.width = n.width ∧
      d.toNetlist.render = n.render := by
  obtain ⟨ks, hks, hagrees⟩ := Netlist.read_render h.width h.gates hangle
  have hbuild : Netlist.toCircuit ⟨n.width, ks⟩ = .ok (ofGates n.width ks) :=
    build_eq_ok_iff.2 ⟨Gate.Agrees.forall_fits hagrees hfits, rfl⟩
  refine ⟨_, _, hks, hbuild, rfl, ?_⟩
  rw [toNetlist, gatesInOrder_ofGates, render, render, Gate.Agrees.map_render hagrees]
  rfl

end Netlist

/-! ## The rules -/

/-- All gates that the rules of the Hadamard reduction make have lines. -/
theorem Hadamard.Step.legible (lhs rhs : List Gate) (h : Step lhs rhs) : ∀ g ∈ rhs, g.Legible := by
  cases h with
  | flipPhase t hpq =>
      rcases inversePhase?_eq_some hpq with ⟨rfl, rfl⟩ | ⟨rfl, rfl⟩
      · simp [Gate.Legible, Gate.hadamard]
      · simp [Gate.Legible, Gate.hadamard]
  | reverseCnot htu => simp [Gate.Legible, Gate.cnot]
  | phaseCnot hpq ht =>
      rcases inversePhase?_eq_some hpq with ⟨rfl, rfl⟩ | ⟨rfl, rfl⟩
      · simp [Gate.Legible, Gate.cnot]
      · simp [Gate.Legible, Gate.cnot]

/-- The cancellation makes no gate but sums of rotations, which have no controls. -/
theorem Cancel.Rule.legible (lhs rhs : List Gate) (h : Rule lhs rhs) (hl : ∀ g ∈ lhs, g.Legible) :
    ∀ g ∈ rhs, g.Legible := by
  cases h with
  | slide g gs hg =>
      rw [List.forall_mem_cons] at hl
      simpa [or_imp, forall_and] using hl.symm
  | rotations θ φ t => simp [Gate.Legible, Gate.rotation]
  | cnots x t => simp

/-! ## The optimizer -/

/-- Rules that make fitting gates from fitting gates, and legible ones from legible ones, keep both,
and the number of wires. -/
theorem stable_legible {R : List Gate → List Gate → Prop}
    (hfits : ∀ n lhs rhs, R lhs rhs → (∀ g ∈ lhs, g.Fits n) → ∀ g ∈ rhs, g.Fits n)
    (hR : ∀ lhs rhs, R lhs rhs → (∀ g ∈ lhs, g.Legible) → ∀ g ∈ rhs, g.Legible) (n : Nat) :
    Stable R fun c => c.Sound ∧ c.width = n ∧ ∀ v g, c.gate? v = some g → g.Legible := by
  exact ((stable_sound_width hfits n).and_forall_gate hR).congr fun _ => and_assoc

/-- Whatever text a circuit was read from, and whatever the settings: the text that the optimizer
makes of it is read again, makes a circuit with the same number of wires, and is written as the same
text again. Only of finite angles is it asked that their own texts are stable in this way. -/
theorem render_run_of_read {source : String} {n : Netlist} {c : Circuit}
    (hread : Netlist.read source = .ok n) (hbuild : n.toCircuit = .ok c) (s : Settings)
    (hangle : ∀ g ∈ (s.pipeline.run c).circuit.gatesInOrder, ∀ θ, g.kind = .rotation θ →
      θ.isFinite = true → θ.Reprints) :
    (∃ reports, (s.pipeline.run c).result = .ok reports) ∧
      ∃ m d, Netlist.read (s.pipeline.run c).circuit.toNetlist.render = .ok m ∧
        m.toCircuit = .ok d ∧ d.width = n.width ∧
        d.toNetlist.render = (s.pipeline.run c).circuit.toNetlist.render := by
  have hn := Netlist.legible_of_read hread
  have hlegible : ∀ v g, c.gate? v = some g → g.Legible := by
    intro v g hg
    rw [(build_eq_ok_iff.1 hbuild).2, gate?_ofGates] at hg
    exact hn.gates g (List.mem_of_getElem? hg)
  have hwidth : c.width = n.width := by rw [(build_eq_ok_iff.1 hbuild).2]; rfl
  have hstep := stable_legible Hadamard.Step.fits
    (fun lhs rhs h _ => Hadamard.Step.legible lhs rhs h) n.width
  have hrule := stable_legible Cancel.Rule.fits Cancel.Rule.legible n.width
  have hrun := Pipeline.run_keeps_of_stable (fun _ hd => hd.1) hstep hrule s
    ⟨Sound.of_build hbuild, hwidth, hlegible⟩
  obtain ⟨reports, hr⟩ := hrun.ends trivial
  obtain ⟨hsound, hwidth', hgates⟩ := hrun.circuit reports hr
  refine ⟨⟨reports, hr⟩, ?_⟩
  rw [← hwidth']
  refine Netlist.Legible.render_of_read ⟨hwidth'.trans_le hn.width, fun g hg => ?_⟩ (fun g hg => ?_)
    fun g hg θ hθ => ?_
  · obtain ⟨v, hv⟩ := hsound.1.linked.mem_gatesInOrder.1 hg
    exact hgates v g hv
  · obtain ⟨v, hv⟩ := hsound.1.linked.mem_gatesInOrder.1 hg
    exact hsound.2 v g hv
  · cases hfinite : θ.isFinite with
    | true => exact hangle g hg θ hθ hfinite
    | false => exact Angle.reprints_of_isFinite hfinite

/-- Two rotations of one wire are added up, past a rotation of another. -/
theorem circuit_run_rotations (θ φ ψ : Angle) :
    ({ hadamard := false : Settings }.pipeline.run
        (ofGates 2 [.rotation θ 0, .rotation ψ 1, .rotation φ 0])).circuit
      = ofGates 2 [.rotation (θ + φ) 0, .rotation ψ 1] := by
  -- the sum is left as it stands, and the rest is evaluated around it
  have hmerge : Cancel.Candidate.rotation.merge?
      (ofGates 2 [.rotation θ 0, .rotation ψ 1, .rotation φ 0]) 0
        = .ok (some ⟨2, [.remove 2, .turn 0 φ]⟩) := by cbv
  have hsearch : Cancel.search .rotation
      (ofGates 2 [.rotation θ 0, .rotation ψ 1, .rotation φ 0]) 0
        = .after (.rotationMerged 0 2)
            (.done (ofGates 2 [.rotation (θ + φ) 0, .rotation ψ 1]) .merged) := by
    show Cancel.seek .rotation _ 0 none = _
    rw [Cancel.seek, hmerge]
    rfl
  have hsweep : Cancel.sweep (ofGates 2 [.rotation θ 0, .rotation ψ 1, .rotation φ 0])
      = ⟨ofGates 2 [.rotation (θ + φ) 0, .rotation ψ 1], [.rotationMerged 0 2], .ok 1⟩ := by
    have hcandidates : Cancel.candidates
        (ofGates 2 [.rotation θ 0, .rotation ψ 1, .rotation φ 0]) = [0, 1, 2] := by cbv
    have hfirst : Cancel.candidateAt?
        (ofGates 2 [.rotation θ 0, .rotation ψ 1, .rotation φ 0]) 0 = some .rotation := by cbv
    rw [Cancel.sweep, hcandidates, Cancel.sweepFrom]
    simp only [hfirst, hsearch]
    generalize θ + φ = χ
    cbv
  have hwanted : Pass.cancellation.wanted
      (ofGates 2 [.rotation θ 0, .rotation ψ 1, .rotation φ 0]) = true := by cbv
  show (Pipeline.run ⟨[Pass.cancellation], 1, false⟩ _).circuit = _
  simp only [Pipeline.run, Pipeline.runRounds, Pipeline.runPasses, Pipeline.runPass, hwanted,
    if_true]
  simp only [Pass.cancellation, hsweep]
  generalize θ + φ = χ
  cbv

/-- Two infinities add up to no number at all, and the text with it is stable. -/
theorem render_run_of_read_infinities :
    ∃ n c, Netlist.read "INIT 2\nR_z inf 0\nR_z 0.5 1\nR_z -inf 0\n" = .ok n ∧
      n.toCircuit = .ok c ∧
      ({ hadamard := false : Settings }.pipeline.run c).circuit.toNetlist.render
        = "INIT 2\nR_z NaN 0\nR_z 0.5 1\n" ∧
      ∃ m d, Netlist.read "INIT 2\nR_z NaN 0\nR_z 0.5 1\n" = .ok m ∧ m.toCircuit = .ok d ∧
        d.width = 2 ∧ d.toNetlist.render = "INIT 2\nR_z NaN 0\nR_z 0.5 1\n" := by
  obtain ⟨n, hn⟩ : ∃ n : Netlist, n = ⟨2, [.rotation (1.0 / 0.0) 0, .rotation 0.5 1,
    .rotation (-(1.0 / 0.0)) 0]⟩ := ⟨_, rfl⟩
  have htext : n.render = "INIT 2\nR_z inf 0\nR_z 0.5 1\nR_z -inf 0\n" := by
    rw [hn]
    decide +kernel
  have hread : Netlist.read n.render = .ok n := by
    have hlegible : ∀ g ∈ n.gates, g.Legible := by simp [hn, Gate.Legible, Gate.rotation]
    refine Netlist.read_render_of_eq (by rw [hn]; decide) hlegible fun g hg θ hθ => ?_
    simp only [hn, List.mem_cons, List.not_mem_nil, or_false] at hg
    rcases hg with rfl | rfl | rfl
    · cases hθ
      exact ⟨1.0 / 0.0, by decide +kernel, rfl⟩
    · cases hθ
      exact ⟨0.5, by decide +kernel, rfl⟩
    · cases hθ
      exact ⟨-(1.0 / 0.0), by decide +kernel, rfl⟩
  have hbuild : n.toCircuit = .ok (ofGates 2 [.rotation (1.0 / 0.0) 0, .rotation 0.5 1,
      .rotation (-(1.0 / 0.0)) 0]) := by rw [hn]; rfl
  have hrun := circuit_run_rotations (1.0 / 0.0) (-(1.0 / 0.0)) 0.5
  have hout : (ofGates 2 [.rotation (1.0 / 0.0 + -(1.0 / 0.0)) 0, .rotation 0.5 1]).toNetlist.render
      = "INIT 2\nR_z NaN 0\nR_z 0.5 1\n" := by
    rw [toNetlist, gatesInOrder_ofGates]
    decide +kernel
  refine ⟨n, _, htext ▸ hread, hbuild, by rw [hrun, hout], ?_⟩
  have h := (render_run_of_read hread hbuild { hadamard := false } ?_).2
  · rw [hrun, hout, hn] at h
    exact h
  · intro g hg θ hθ hfinite
    rw [hrun, gatesInOrder_ofGates] at hg
    simp only [List.mem_cons, List.not_mem_nil, or_false] at hg
    rcases hg with rfl | rfl
    · cases hθ
      exact absurd hfinite (by decide +kernel)
    · cases hθ
      exact ⟨0.5, by decide +kernel, rfl⟩

end Peephole
