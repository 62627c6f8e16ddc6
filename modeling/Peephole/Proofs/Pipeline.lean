import Peephole.Pipeline.Basic
import Peephole.Proofs.Cancel.Sweep
import Peephole.Proofs.Circuit.Inspection
import Peephole.Proofs.Hadamard.Reduction

/-!
# Runs of a pipeline

Both passes keep a circuit sound, and an inspection finds nothing in a sound circuit. So a pipeline
made of them ends well on every circuit that was built from gates, and inspections change nothing.

* `Pass.Keeps`: a pass that keeps a property of circuits and does not fail on them.
* `Pipeline.run_keeps_of_pass`: so does a pipeline of such passes. The property has to make the
  circuits sound, for otherwise an inspection could stop the run.
* `Pipeline.run_keeps_of_stable`: so does the optimizer, if the rules of its passes do.
* `Pass.Safe`: a pass that keeps sound circuits sound.
* `Pipeline.run_inspected`: its runs are the same with and without inspections.
-/

namespace Peephole

open Circuit

/-! ## Passes -/

/-- The pass ends well on every circuit with the property, and keeps the property. -/
def Pass.Keeps (q : Pass) (P : Circuit → Prop) : Prop := ∀ c, P c → (q.run c).Keeps P True

/-- The pass ends well on every sound circuit, and leaves it sound. -/
def Pass.Safe (q : Pass) : Prop := ∀ c, c.Sound → (q.run c).Keeps Sound True

theorem Pass.keeps_hadamardReduction {P : Circuit → Prop}
    (h : ∀ c, P c → (Hadamard.reduce c).Keeps P True) : hadamardReduction.Keeps P := by
  intro c hc
  show ((Hadamard.reduce c).andThen fun d n => .after (.hadamardsReduced n) (.done d ())).Keeps _ _
  refine (h c hc).andThen fun n hn => ?_
  exact .after (.done ((h c hc).circuit n hn)) _

theorem Pass.keeps_cancellation {P : Circuit → Prop}
    (h : ∀ c, P c → (Cancel.sweep c).Keeps P True) : cancellation.Keeps P := by
  intro c hc
  show ((Cancel.sweep c).andThen fun d n => .after (.gatesCancelled n) (.done d ())).Keeps _ _
  refine (h c hc).andThen fun n hn => ?_
  exact .after (.done ((h c hc).circuit n hn)) _

/-- The optimizer has no other passes. -/
theorem Settings.eq_of_mem_passes {s : Settings} {q : Pass} (h : q ∈ s.pipeline.passes) :
    q = .hadamardReduction ∨ q = .cancellation := by
  simp only [pipeline, List.mem_append] at h
  rcases h with h | h
  · split at h
    · exact Or.inl (List.mem_singleton.1 h)
    · cases h
  · split at h
    · exact Or.inr (List.mem_singleton.1 h)
    · cases h

theorem Settings.keeps_of_mem_passes {P : Circuit → Prop}
    (hreduce : ∀ c, P c → (Hadamard.reduce c).Keeps P True)
    (hsweep : ∀ c, P c → (Cancel.sweep c).Keeps P True) {s : Settings} {q : Pass}
    (h : q ∈ s.pipeline.passes) : q.Keeps P := by
  rcases eq_of_mem_passes h with rfl | rfl
  · exact Pass.keeps_hadamardReduction hreduce
  · exact Pass.keeps_cancellation hsweep

/-- A sweep ends well on sound circuits, and keeps what the rules keep of them. -/
theorem Cancel.sweep_keeps_of_sound {P : Circuit → Prop} (hP : ∀ c, P c → c.Sound)
    (hrule : Stable Cancel.Rule P) {c : Circuit} (hc : P c) : (Cancel.sweep c).Keeps P True := by
  refine (sweep_keeps hrule hc).mono fun _ d hd => ?_
  obtain ⟨e, he⟩ := (hP d hd).2.restore_eq_ok
  exact ⟨_, e, he⟩

/-- So do both passes. -/
theorem Settings.keeps_of_stable {P : Circuit → Prop} (hP : ∀ c, P c → c.Sound)
    (hstep : Stable Hadamard.Step P) (hrule : Stable Cancel.Rule P) {s : Settings} {q : Pass}
    (h : q ∈ s.pipeline.passes) : q.Keeps P := by
  refine keeps_of_mem_passes (fun c hc => ?_) (fun _ => Cancel.sweep_keeps_of_sound hP hrule) h
  exact Hadamard.reduce_keeps hstep (fun c hc v g hg => ((hP c hc).2 v g hg).not_selfControlled) hc

theorem Settings.safe_of_mem_passes {s : Settings} {q : Pass} (h : q ∈ s.pipeline.passes) :
    q.Safe :=
  keeps_of_stable (fun _ h => h) (stable_sound Hadamard.Step.fits) (stable_sound Cancel.Rule.fits) h

namespace Pipeline

variable {p : Pipeline} {c : Circuit} (round : Nat)

/-! ## What passes keep

A pipeline keeps what its passes keep, as long as an inspection finds nothing on the way. -/

section Keeps

variable {P : Circuit → Prop} (hP : ∀ c, P c → c.Sound)

include hP

theorem runPass_keeps_of_pass {q : Pass} (hq : q.Keeps P) (hc : P c) :
    (p.runPass round q c).Keeps P True := by
  refine .after ((hq c hc).andThen fun u hu => ?_) _
  have hd := (hq c hc).circuit u hu
  rw [(hP _ hd).inspect_eq_ok, ite_self]
  exact .after (.done hd) _

theorem runPasses_keeps_of_pass {passes : List Pass} (hp : ∀ q ∈ passes, q.Keeps P) (hc : P c) :
    (p.runPasses round passes c).Keeps P True := by
  induction passes generalizing c with
  | nil => exact .done hc
  | cons q rest ih =>
      rw [List.forall_mem_cons] at hp
      rw [runPasses]
      split
      · have hq := runPass_keeps_of_pass (p := p) round hP hp.1 hc
        exact hq.andThen fun r hr => (ih hp.2 (hq.circuit r hr)).map _
      · exact (ih hp.2 hc).after _

theorem runRounds_keeps_of_pass (hp : ∀ q ∈ p.passes, q.Keeps P) (left : Nat) (hc : P c) :
    (p.runRounds left round c).Keeps P True := by
  induction left generalizing round c with
  | zero => exact .done hc
  | succ left ih =>
      have h := runPasses_keeps_of_pass (p := p) round hP hp hc
      refine h.andThen fun reports hr => ?_
      have hd := h.circuit reports hr
      split
      · exact .after (.done hd) _
      · exact (ih (round + 1) hd).map _

theorem run_keeps_of_pass (hp : ∀ q ∈ p.passes, q.Keeps P) (hc : P c) :
    (p.run c).Keeps P True := by
  have h := runRounds_keeps_of_pass 1 hP hp p.rounds hc
  refine .after (h.andThen fun reports hr => ?_) _
  have hd := h.circuit reports hr
  obtain ⟨n, hn⟩ := (hP _ hd).1.exists_depth
  rw [hn]
  exact .after (.done hd) _

end Keeps

/-- The optimizer ends well on sound circuits, and keeps what the rules of both passes keep. -/
theorem run_keeps_of_stable {P : Circuit → Prop} (hP : ∀ c, P c → c.Sound)
    (hstep : Stable Hadamard.Step P) (hrule : Stable Cancel.Rule P) (s : Settings) (hc : P c) :
    (s.pipeline.run c).Keeps P True :=
  run_keeps_of_pass hP (fun _ => Settings.keeps_of_stable hP hstep hrule) hc

/-! ## Pipelines of safe passes -/

theorem runPasses_keeps {passes : List Pass} (hp : ∀ q ∈ passes, q.Safe) (hc : c.Sound) :
    (p.runPasses round passes c).Keeps Sound True :=
  runPasses_keeps_of_pass round (fun _ h => h) hp hc

theorem run_keeps (hp : ∀ q ∈ p.passes, q.Safe) (hc : c.Sound) : (p.run c).Keeps Sound True :=
  run_keeps_of_pass (fun _ h => h) hp hc

/-- Inspections after a safe pass find nothing, so they may be asked for or not. -/
theorem runPass_inspected {q : Pass} (hq : q.Safe) (hc : c.Sound) (b : Bool) :
    { p with inspected := b }.runPass round q c = p.runPass round q c := by
  rw [runPass, runPass]
  refine congrArg _ (Run.andThen_congr fun u hu => ?_)
  rw [((hq c hc).circuit u hu).inspect_eq_ok, ite_self, ite_self]

theorem runPasses_inspected {passes : List Pass} (hp : ∀ q ∈ passes, q.Safe) (hc : c.Sound)
    (b : Bool) :
    { p with inspected := b }.runPasses round passes c = p.runPasses round passes c := by
  induction passes generalizing c with
  | nil => rfl
  | cons q rest ih =>
      rw [List.forall_mem_cons] at hp
      rw [runPasses, runPasses, runPass_inspected round hp.1 hc]
      have hq := runPass_keeps_of_pass (p := p) round (fun _ h => h) hp.1 hc
      split
      · refine Run.andThen_congr fun r hr => ?_
        rw [ih hp.2 (hq.circuit r hr)]
      · rw [ih hp.2 hc]

theorem runRounds_inspected (hp : ∀ q ∈ p.passes, q.Safe) (left : Nat) (hc : c.Sound) (b : Bool) :
    { p with inspected := b }.runRounds left round c = p.runRounds left round c := by
  induction left generalizing round c with
  | zero => rfl
  | succ left ih =>
      rw [runRounds, runRounds, runPasses_inspected round hp hc]
      refine Run.andThen_congr fun reports hr => ?_
      rw [ih (round + 1) ((runPasses_keeps round hp hc).circuit reports hr)]

theorem run_inspected (hp : ∀ q ∈ p.passes, q.Safe) (hc : c.Sound) (b : Bool) :
    { p with inspected := b }.run c = p.run c := by
  rw [run, run, runRounds_inspected 1 hp p.rounds hc]

end Pipeline

/-! ## The optimizer -/

theorem Circuit.Sound.of_build {c : Circuit} {width : Nat} {gs : List Gate}
    (h : build width gs = .ok c) : c.Sound := by
  refine ⟨?_, .of_build h⟩
  rw [(build_eq_ok_iff.1 h).2]
  exact .ofGates width gs

/-- The optimizer ends well on every circuit that was built from gates, whatever its settings. After
any of its passes, in any order and number, the circuit is acyclic and an inspection finds nothing.
A run with inspections has the same circuit, events and reports as one without. -/
theorem run_of_build {c : Circuit} {width : Nat} {gs : List Gate} (h : build width gs = .ok c)
    (s : Settings) :
    (∃ reports, (s.pipeline.run c).result = .ok reports) ∧
      (s.pipeline.run c).circuit.Acyclic ∧
      (∀ round passes, (∀ q ∈ passes, q ∈ s.pipeline.passes) →
        (∃ reports, (s.pipeline.runPasses round passes c).result = .ok reports) ∧
          (s.pipeline.runPasses round passes c).circuit.Acyclic ∧
          (s.pipeline.runPasses round passes c).circuit.inspect = .ok ()) ∧
      { s with verify := true }.pipeline.run c = { s with verify := false }.pipeline.run c := by
  have hc := Sound.of_build h
  have hsafe : ∀ q ∈ s.pipeline.passes, q.Safe := fun _ => Settings.safe_of_mem_passes
  have hrun := Pipeline.run_keeps hsafe hc
  obtain ⟨reports, hr⟩ := hrun.ends trivial
  refine ⟨⟨reports, hr⟩, (hrun.circuit reports hr).1.acyclic, fun round passes hp => ?_, ?_⟩
  · have hpasses := Pipeline.runPasses_keeps (p := s.pipeline) round
      (fun q hq => hsafe q (hp q hq)) hc
    obtain ⟨reports, hr⟩ := hpasses.ends trivial
    have hd := hpasses.circuit reports hr
    exact ⟨⟨reports, hr⟩, hd.1.acyclic, hd.inspect_eq_ok⟩
  · exact Pipeline.run_inspected (p := { s with verify := false }.pipeline) hsafe hc true

/-- A run in which a candidate slides, finds no partner and goes back. -/
theorem run_of_build_rollback :
    ∃ c, build 3 [.cnot [0] 1, .cnot [0] 2] = .ok c ∧
      ({ verify := true : Settings }.pipeline.run c).result
        = .ok [⟨"RotationCnotCancellation", 1, 2, 2⟩] ∧
      { verify := true : Settings }.pipeline.run c
        = { verify := false : Settings }.pipeline.run c := by
  have hbuild : build 3 [.cnot [0] 1, .cnot [0] 2] = .ok (ofGates 3 [.cnot [0] 1, .cnot [0] 2]) :=
    rfl
  exact ⟨_, hbuild, by cbv, (run_of_build hbuild {}).2.2.2⟩

end Peephole
