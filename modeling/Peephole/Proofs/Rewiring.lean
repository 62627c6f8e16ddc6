import Mathlib.Data.UInt
import Peephole.Proofs.Circuit.Rewiring
import Peephole.Proofs.Circuit.Wires
import Peephole.Proofs.Pipeline

/-!
# The optimizer on other wires

The optimizer picks gates by the names of their vertices and asks of wires only whether two of them
are the same. So it does the same on other wires: it finds the same partners, slides and rules, in
the same order, and goes back to its snapshots where it did before.

* `Candidate.merge?_rewire`, `Candidate.slide?_rewire`, `Hadamard.match?_rewire`: what is found.
* `Run.Mirrors`: a run is another one on other wires, if that one ends well. Only then, since a
  circuit that is too narrow for its gates may be wide enough for others.
* `Cancel.sweep_mirrors`, `Hadamard.drain_rewire`, `Pipeline.runRounds_mirrors`: runs.
-/

namespace Peephole

open Circuit

/-! ## Cancellation -/

namespace Cancel

variable (ρ : Rewiring) (c : Circuit)

@[simp]
theorem Candidate.ofGate?_mapWires (g : Gate) : ofGate? (g.mapWires ρ.wire) = ofGate? g := by
  obtain ⟨kind, target, controls⟩ := g
  rcases controls with _ | ⟨w, _ | ⟨v, rest⟩⟩ <;> cases kind <;> rfl

theorem candidateAt?_rewire (v : VertexId) : candidateAt? (c.rewire ρ) v = candidateAt? c v := by
  simp [candidateAt?, Option.bind_map]

theorem candidates_rewire : candidates (c.rewire ρ) = candidates c := by
  simp [candidates, Circuit.rewire, List.filter_map, Function.comp_def]

/-- Partners are found by their places and by what they share with the candidate. -/
theorem Candidate.merge?_rewire (k : Candidate) (v : VertexId) :
    k.merge? (c.rewire ρ) v = k.merge? c v := by
  cases k with
  | rotation =>
      simp only [merge?, mergeRotation?, onlySuccessor?_rewire]
      cases c.onlySuccessor? v with
      | none => rfl
      | some next => simp
  | cnot =>
      simp only [merge?, mergeCnot?, onlySuccessor?_rewire]
      cases c.onlySuccessor? v with
      | none => rfl
      | some next => simp

theorem slideHadamards?_rewire (w : Wire) (next : VertexId) (h : Gate) :
    slideHadamards? (c.rewire ρ) (ρ.wire w) next (h.mapWires ρ.wire)
      = slideHadamards? c w next h := by
  simp [slideHadamards?, holds_rewire, successorWhere?_rewire]

theorem slideGadget?_rewire (w : Wire) (next : VertexId) (h : Gate) :
    slideGadget? (c.rewire ρ) (ρ.wire w) next (h.mapWires ρ.wire) = slideGadget? c w next h := by
  obtain ⟨kind, target, controls⟩ := h
  rcases controls with _ | ⟨w, _ | ⟨v, rest⟩⟩
  · rfl
  · simp [slideGadget?, holds_rewire, successorWhere?_rewire]
  · rfl

theorem slideControl?_rewire (w : Wire) (next : VertexId) (h : Gate) :
    slideControl? (ρ.wire w) next (h.mapWires ρ.wire) = slideControl? w next h := by
  simp [slideControl?]

theorem commuting_mapWires (g h : Gate) :
    commuting (g.mapWires ρ.wire) (h.mapWires ρ.wire) = commuting g h := by
  simp [commuting, bne]

theorem slideCommuting?_rewire (v : VertexId) (g : Gate) :
    slideCommuting? (c.rewire ρ) v (g.mapWires ρ.wire) = slideCommuting? c v g := by
  funext next
  simp [slideCommuting?, commuting_mapWires]

theorem slideConjugated?_rewire (v : VertexId) (g : Gate) :
    slideConjugated? (c.rewire ρ) v (g.mapWires ρ.wire) = slideConjugated? c v g := by
  funext p
  simp [slideConjugated?, successorWhere?_rewire, List.forall_mem_ne']

/-- Slides are found by their places and by the wires that gates share. -/
theorem Candidate.slide?_rewire (k : Candidate) (v : VertexId) :
    k.slide? (c.rewire ρ) v = k.slide? c v := by
  cases k with
  | rotation =>
      simp only [slide?, slideRotation?, onlySuccessor?_rewire, gateOf_rewire, bind_map_left]
      cases c.onlySuccessor? v with
      | none => rfl
      | some next =>
          simp [slideHadamards?_rewire, slideGadget?_rewire, slideControl?_rewire]
  | cnot => simp [slide?, slideCnot?, slideCommuting?_rewire, slideConjugated?_rewire]

theorem Candidate.map_rewire_edits {k : Candidate} {v : VertexId} {m : Merge}
    (h : k.merge? c v = .ok (some m)) : m.edits.map (Edit.rewire ρ) = m.edits := by
  cases k with
  | rotation =>
      obtain ⟨n, g, l, θ, -, -, -, -, -, rfl⟩ := mergeRotation?_eq_some h
      rfl
  | cnot =>
      obtain ⟨n, g, l, -, -, -, -, rfl⟩ := mergeCnot?_eq_some h
      rfl

end Cancel

/-! ## Hadamard reduction -/

namespace Hadamard

/-- The match on other wires. -/
def Match.rewire (ρ : Rewiring) : Match → Match
  | .reverseCnot first last before after cnot control target =>
      .reverseCnot first last before after cnot (ρ.wire control) (ρ.wire target)
  | m => m

variable (ρ : Rewiring) (c : Circuit)

@[simp]
theorem Match.rule_rewire (m : Match) : (m.rewire ρ).rule = m.rule := by
  cases m <;> rfl

@[simp]
theorem Match.created_rewire (m : Match) : (m.rewire ρ).created = m.created := by
  cases m <;> rfl

@[simp]
theorem Match.edits_rewire (m : Match) : (m.rewire ρ).edits = m.edits.map (Edit.rewire ρ) := by
  cases m <;> rfl

theorem isHadamardOn_rewire (w : Wire) :
    isHadamardOn (c.rewire ρ) (ρ.wire w) = isHadamardOn c w := by
  funext v
  simp [isHadamardOn, holds_rewire]

theorem flipPhaseAt?_rewire (h : VertexId) (w : Wire) :
    flipPhaseAt? (c.rewire ρ) h (ρ.wire w)
      = fun p => (flipPhaseAt? c h w p).map (Match.rewire ρ) := by
  funext p
  simp [flipPhaseAt?, isHadamardOn_rewire, Option.bind_map, Option.map_bind, Function.comp_def,
    apply_ite (Option.map (Match.rewire ρ)), Match.rewire]

theorem reverseCnotAt?_rewire (h : VertexId) (w : Wire) :
    reverseCnotAt? (c.rewire ρ) h (ρ.wire w)
      = fun p => (reverseCnotAt? c h w p).map (Match.rewire ρ) := by
  funext p
  simp [reverseCnotAt?, isHadamardOn_rewire, successorWhere?_rewire, predecessorWhere?_rewire,
    Option.bind_map, Option.map_bind, Function.comp_def, apply_ite (Option.map (Match.rewire ρ)),
    Match.rewire]

theorem phaseCnotAt?_rewire (h : VertexId) (w : Wire) :
    phaseCnotAt? (c.rewire ρ) h (ρ.wire w)
      = fun p => (phaseCnotAt? c h w p).map (Match.rewire ρ) := by
  funext p
  simp [phaseCnotAt?, isHadamardOn_rewire, holds_rewire, Option.bind_map, Option.map_bind,
    Function.comp_def, apply_ite (Option.map (Match.rewire ρ)), Match.rewire]

theorem matchOn?_rewire (h : VertexId) (w : Wire) :
    matchOn? (c.rewire ρ) h (ρ.wire w) = (matchOn? c h w).map (Match.rewire ρ) := by
  simp [matchOn?, flipPhaseAt?_rewire, reverseCnotAt?_rewire, phaseCnotAt?_rewire, Option.map_or,
    List.map_findSome?, Function.comp_def]

/-- A rule applies on other wires where it applied before. -/
theorem match?_rewire (v : VertexId) :
    match? (c.rewire ρ) v = (match? c v).map (Match.rewire ρ) := by
  simp only [match?, gate?_rewire]
  cases c.gate? v with
  | none => rfl
  | some g =>
      simp only [Option.map_some, Gate.target_mapWires, Gate.isSingle_mapWires, matchOn?_rewire]
      split <;> rfl

theorem count_rewire : count (c.rewire ρ) = count c := by
  simp only [count, Circuit.rewire, List.countP_map]
  rfl

end Hadamard

/-! ## Runs -/

namespace Run

variable {α β : Type} {ρ : Rewiring}

/-- The run on other wires. Events and results do not name wires. -/
def rewire (ρ : Rewiring) (r : Run α) : Run α := { r with circuit := r.circuit.rewire ρ }

/-- The second run is the first on other wires, if the first ends well. -/
def Mirrors (ρ : Rewiring) (r r' : Run α) : Prop := ∀ a, r.result = .ok a → r' = r.rewire ρ

namespace Mirrors

theorem of_eq {r r' : Run α} (h : r' = r.rewire ρ) : Mirrors ρ r r' := fun _ _ => h

theorem failed {c : Circuit} {e : Failure} {r : Run α} : Mirrors ρ (.failed c e) r := nofun

theorem after {r r' : Run α} (h : Mirrors ρ r r') (e : Event) :
    Mirrors ρ (Run.after e r) (Run.after e r') := by
  intro a ha
  rw [h a ha]
  rfl

/-- Runs that begin with different events have the same result, and leave the same circuit on
other wires. -/
theorem of_after {r r' : Run α} {e e' : Event} {a : α} (h : Mirrors ρ r r')
    (ha : (Run.after e r).result = .ok a) :
    (Run.after e' r').circuit = (Run.after e r).circuit.rewire ρ ∧
      (Run.after e' r').result = .ok a := by
  have heq := h a ha
  exact ⟨congrArg Run.circuit heq, (congrArg Run.result heq).trans ha⟩

theorem andThen {r r' : Run α} {f f' : Circuit → α → Run β} (h : Mirrors ρ r r')
    (hf : ∀ a, r.result = .ok a → Mirrors ρ (f r.circuit a) (f' (r.circuit.rewire ρ) a)) :
    Mirrors ρ (r.andThen f) (r'.andThen f') := by
  intro b hb
  obtain ⟨a, ha, hb'⟩ := exists_of_andThen_ok hb
  have hfa : f' (r.rewire ρ).circuit a = (f r.circuit a).rewire ρ := hf a ha b hb'
  rw [h a ha, andThen_of_ok ha, andThen_of_ok (r := r.rewire ρ) ha, hfa]
  rfl

theorem map {r r' : Run α} (h : Mirrors ρ r r') (f : α → β) :
    Mirrors ρ (Run.map f r) (Run.map f r') := by
  intro b hb
  obtain ⟨a, ha, -⟩ := exists_of_map_ok hb
  rw [h a ha]
  rfl

end Mirrors

end Run

namespace Cancel

variable {ρ : Rewiring}

theorem giveUp_mirrors (c : Circuit) (v : VertexId) (saved : Option Snapshot) :
    (giveUp c v saved).Mirrors ρ (giveUp (c.rewire ρ) v (saved.map (Snapshot.rewire ρ))) := by
  cases saved with
  | none => exact .of_eq rfl
  | some s =>
      intro o ho
      simp only [giveUp, Option.map_some] at ho ⊢
      cases hs : s.restore with
      | error e =>
          rw [hs] at ho
          cases ho
      | ok r =>
          obtain ⟨names, d⟩ := r
          rw [Snapshot.restore_rewire ρ hs]
          rfl

theorem seek_mirrors (k : Candidate) (c : Circuit) (v : VertexId) (saved : Option Snapshot) :
    (seek k c v saved).Mirrors ρ (seek k (c.rewire ρ) v (saved.map (Snapshot.rewire ρ))) := by
  fun_induction seek k c v saved with
  | case1 c saved e he => exact .failed
  | case2 c saved m hm d hd =>
      have happly := applyAll_rewire ρ c m.edits
      rw [k.map_rewire_edits ρ c hm, hd] at happly
      rw [seek, Candidate.merge?_rewire, hm]
      simp only [happly]
      exact .of_eq rfl
  | case3 c saved m hm d e hd => exact .failed
  | case4 c saved hm e he => exact .failed
  | case5 c saved hm a rest hslide d hd ih =>
      have happly : (c.rewire ρ).applyAll ((a :: rest).map (.commute v)) = (d.rewire ρ, none) := by
        have := applyAll_rewire ρ c ((a :: rest).map (.commute v))
        rw [hd, List.map_map] at this
        exact this
      have hsaved : some ((saved.map (Snapshot.rewire ρ)).getD (c.rewire ρ).snapshot)
          = (some (saved.getD c.snapshot)).map (Snapshot.rewire ρ) := by
        cases saved with
        | none => rw [Snapshot.snapshot_rewire]; rfl
        | some s => rfl
      rw [seek.eq_def k (c.rewire ρ), Candidate.merge?_rewire, hm]
      simp only [Candidate.slide?_rewire, hslide]
      split
      · rename_i d' hd'
        rw [happly] at hd'
        cases hd'
        rw [hsaved]
        exact ih.after _
      · rename_i d' e hd'
        rw [happly] at hd'
        cases hd'
  | case6 c saved hm a rest hslide d e hd => exact .failed
  | case7 c saved hm r hnone hslide =>
      rw [seek, Candidate.merge?_rewire, hm]
      simp only [Candidate.slide?_rewire, hslide]
      exact giveUp_mirrors c v saved

theorem search_mirrors (k : Candidate) (c : Circuit) (v : VertexId) :
    (search k c v).Mirrors ρ (search k (c.rewire ρ) v) := by
  simp only [search, gateOf_rewire]
  cases c.gateOf v with
  | error e => exact .failed
  | ok g =>
      simp only [Functor.map, Except.map, Candidate.ofGate?_mapWires]
      split
      · exact seek_mirrors k c v none
      · exact .failed

theorem sweepFrom_mirrors (c : Circuit) (pending : List VertexId) :
    (sweepFrom c pending).Mirrors ρ (sweepFrom (c.rewire ρ) pending) := by
  fun_induction sweepFrom c pending with
  | case1 c =>
      rw [sweepFrom]
      exact .of_eq rfl
  | case2 c v rest hk ih =>
      rw [sweepFrom, candidateAt?_rewire, hk]
      exact ih
  | case3 c v rest k hk ih =>
      rw [sweepFrom, candidateAt?_rewire, hk]
      exact (search_mirrors k c v).andThen fun o _ => ih _ o

/-- A sweep does the same on other wires. -/
theorem sweep_mirrors (c : Circuit) : (sweep c).Mirrors ρ (sweep (c.rewire ρ)) := by
  rw [sweep, sweep, candidates_rewire]
  refine (sweepFrom_mirrors c _).andThen fun _ _ => .of_eq ?_
  rw [size_rewire, size_rewire]
  rfl

end Cancel

namespace Hadamard

variable {ρ : Rewiring}

theorem drain_rewire (left : Nat) (c : Circuit) (queue : List VertexId) :
    drain left (c.rewire ρ) queue = (drain left c queue).rewire ρ := by
  fun_induction drain left c queue with
  | case1 left c =>
      rw [drain]
      rfl
  | case2 left c v rest hm ih =>
      rw [drain, match?_rewire, hm]
      exact ih
  | case3 c v rest m hm =>
      rw [drain, match?_rewire, hm]
      rfl
  | case4 c v rest m hm left ih =>
      rw [drain, match?_rewire, hm]
      simp only [Option.map_some, Match.rule_rewire, Match.edits_rewire, Match.created_rewire,
        applyAll_rewire]
      rcases c.applyAll m.edits with ⟨d, _ | e⟩
      · simp only [ih d]
        rfl
      · rfl

/-- A reduction does the same on other wires. -/
theorem reduce_rewire (c : Circuit) : reduce (c.rewire ρ) = (reduce c).rewire ρ := by
  rw [reduce, idsNamed_rewire, count_rewire, drain_rewire, reduce]

end Hadamard

/-! ## Passes and pipelines -/

/-- The pass is wanted on other wires where it was wanted before, and does the same there. -/
structure Pass.Mirrors (ρ : Rewiring) (q : Pass) : Prop where
  wanted : ∀ c, q.wanted (c.rewire ρ) = q.wanted c
  run : ∀ c, (q.run c).Mirrors ρ (q.run (c.rewire ρ))

theorem Pass.mirrors_hadamardReduction (ρ : Rewiring) : hadamardReduction.Mirrors ρ where
  wanted c := by
    simp only [hadamardReduction, rewire, List.any_map]
    rfl
  run c := by
    simp only [hadamardReduction]
    exact (Run.Mirrors.of_eq (Hadamard.reduce_rewire c)).andThen fun _ _ => .of_eq rfl

theorem Pass.mirrors_cancellation (ρ : Rewiring) : cancellation.Mirrors ρ where
  wanted c := by simp [cancellation, rewire, List.any_map, Function.comp_def]
  run c := by
    simp only [cancellation]
    exact (Cancel.sweep_mirrors c).andThen fun _ _ => .of_eq rfl

theorem Settings.mirrors_of_mem_passes {s : Settings} {q : Pass} (h : q ∈ s.pipeline.passes)
    (ρ : Rewiring) : q.Mirrors ρ := by
  rcases eq_of_mem_passes h with rfl | rfl
  · exact Pass.mirrors_hadamardReduction ρ
  · exact Pass.mirrors_cancellation ρ

namespace Pipeline

variable {p : Pipeline} {ρ : Rewiring} (hp : p.inspected = false)

include hp

theorem runPass_mirrors (round : Nat) {q : Pass} (hq : q.Mirrors ρ) (c : Circuit) :
    (p.runPass round q c).Mirrors ρ (p.runPass round q (c.rewire ρ)) := by
  simp only [runPass, hp, Bool.false_eq_true, if_false, size_rewire]
  refine ((hq.run c).andThen fun _ _ => .of_eq ?_).after _
  rw [size_rewire]
  rfl

theorem runPasses_mirrors (round : Nat) {passes : List Pass} (hq : ∀ q ∈ passes, q.Mirrors ρ)
    (c : Circuit) :
    (p.runPasses round passes c).Mirrors ρ (p.runPasses round passes (c.rewire ρ)) := by
  induction passes generalizing c with
  | nil => exact .of_eq rfl
  | cons q rest ih =>
      rw [List.forall_mem_cons] at hq
      simp only [runPasses, hq.1.wanted]
      split
      · exact (runPass_mirrors hp round hq.1 c).andThen fun r _ => (ih hq.2 _).map _
      · exact (ih hq.2 c).after _

theorem runRounds_mirrors (hq : ∀ q ∈ p.passes, q.Mirrors ρ) (left round : Nat) (c : Circuit) :
    (p.runRounds left round c).Mirrors ρ (p.runRounds left round (c.rewire ρ)) := by
  induction left generalizing round c with
  | zero => exact .of_eq rfl
  | succ left ih =>
      refine (runPasses_mirrors hp round hq c).andThen fun reports _ => ?_
      simp only [size_rewire]
      split
      · exact .of_eq rfl
      · exact (ih (round + 1) _).map _

/-- A run that ends well has the same result on other wires, and leaves the same circuit there. -/
theorem run_rewire (hq : ∀ q ∈ p.passes, q.Mirrors ρ) {c : Circuit} {reports : List Report}
    (h : (p.run c).result = .ok reports) :
    (p.run (c.rewire ρ)).circuit = (p.run c).circuit.rewire ρ ∧
      (p.run (c.rewire ρ)).result = .ok reports := by
  -- the first event tells the number of wires, so only what comes after it is mirrored
  unfold run at h ⊢
  refine Run.Mirrors.of_after ?_ h
  refine (runRounds_mirrors hp hq p.rounds 1 c).andThen fun reports _ => ?_
  rw [depth_rewire, size_rewire]
  split
  · exact .failed
  · exact .of_eq rfl

end Pipeline

/-- The optimizer does not depend on how wires are named. If a map keeps the wires of a circuit
apart, the renamed gates make a circuit, and a run on it ends with the same reports. The circuits
that are left have the same vertices with the same neighbours and the renamed gates, which come in
the same order. -/
theorem run_mapWires_of_build {n m : Nat} {gs : List Gate} {c : Circuit} (h : build n gs = .ok c)
    {f : Wire → Wire} (hinj : Set.InjOn f {w | w.toNat < n})
    (hf : ∀ w : Wire, w.toNat < n → (f w).toNat < m) (s : Settings) :
    ∃ d reports, build m (gs.map (Gate.mapWires f)) = .ok d ∧
      (s.pipeline.run c).result = .ok reports ∧ (s.pipeline.run d).result = .ok reports ∧
      (s.pipeline.run d).circuit.ids = (s.pipeline.run c).circuit.ids ∧
      (∀ v, (s.pipeline.run d).circuit.successors v = (s.pipeline.run c).circuit.successors v) ∧
      (∀ v, (s.pipeline.run d).circuit.predecessors v
        = (s.pipeline.run c).circuit.predecessors v) ∧
      (∀ v, (s.pipeline.run d).circuit.gate? v
        = ((s.pipeline.run c).circuit.gate? v).map (Gate.mapWires f)) ∧
      (s.pipeline.run d).circuit.gatesInOrder
        = (s.pipeline.run c).circuit.gatesInOrder.map (Gate.mapWires f) := by
  obtain ⟨ρ, rfl, hρ⟩ := Rewiring.exists_extending hinj hf
  have hmap : ∀ g : Gate, g.Fits n → g.mapWires ρ.wire = g.mapWires f := fun g hg =>
    Gate.mapWires_congr fun w hw => hρ w (hg.2 w hw)
  -- the run keeps the circuit as wide as it was, so the renaming is still that of the rewiring
  have hstep := stable_sound_width Hadamard.Step.fits n
  have hrule := stable_sound_width Cancel.Rule.fits n
  have hwidth : c.width = n := by rw [(build_eq_ok_iff.1 h).2]; rfl
  have hrun := Pipeline.run_keeps_of_stable (fun _ hd => hd.1) hstep hrule s
    ⟨Sound.of_build h, hwidth⟩
  obtain ⟨reports, hr⟩ := hrun.ends trivial
  obtain ⟨⟨hproper, hfits⟩, hwidth'⟩ := hrun.circuit reports hr
  have hbuild : build (ρ.width n) (gs.map (Gate.mapWires f)) = .ok (c.rewire ρ) := by
    rw [← build_rewire ρ h]
    exact congrArg _ (List.map_congr_left fun g hg => (hmap g ((build_eq_ok_iff.1 h).1 g hg)).symm)
  have hgate : ∀ g ∈ (s.pipeline.run c).circuit.gatesInOrder, g.mapWires ρ.wire = g.mapWires f := by
    intro g hg
    obtain ⟨v, hv⟩ := hproper.linked.mem_gatesInOrder.1 hg
    exact hmap g (hwidth' ▸ hfits v g hv)
  -- inspections find nothing on either side, so the runs may be compared without them
  have hplain : ∀ {e : Circuit}, e.Sound →
      { s with verify := false }.pipeline.run e = s.pipeline.run e := fun he =>
    Pipeline.run_inspected (p := s.pipeline) (fun _ => Settings.safe_of_mem_passes) he false
  have hresult := hr
  rw [← hplain (Sound.of_build h)] at hresult
  obtain ⟨hcircuit, hresult'⟩ := Pipeline.run_rewire (p := { s with verify := false }.pipeline) rfl
    (fun q hq => Settings.mirrors_of_mem_passes hq ρ) hresult
  rw [hplain (Sound.of_build hbuild)] at hcircuit hresult'
  rw [hplain (Sound.of_build h)] at hcircuit
  refine ⟨_, reports, hbuild, hr, hresult', ?_⟩
  rw [hcircuit, ids_rewire, successors_rewire, predecessors_rewire, gatesInOrder_rewire]
  refine ⟨rfl, fun _ => rfl, fun _ => rfl, fun v => ?_, List.map_congr_left hgate⟩
  rw [gate?_rewire]
  cases hv : (s.pipeline.run c).circuit.gate? v with
  | none => rfl
  | some g => exact congrArg some (hgate g (hproper.linked.mem_gatesInOrder.2 ⟨v, hv⟩))

/-- Wires in reverse order: a controlled not still slides past another one to its equal. -/
theorem run_mapWires_of_build_reversed :
    ∃ c d, build 3 [.hadamard 1, .cnot [0] 1, .cnot [0] 2, .cnot [0] 1] = .ok c ∧
      build 8 [.hadamard 6, .cnot [7] 6, .cnot [7] 5, .cnot [7] 6] = .ok d ∧
      (({} : Settings).pipeline.run c).circuit.gatesInOrder = [.hadamard 1, .cnot [0] 2] ∧
      (({} : Settings).pipeline.run d).circuit.gatesInOrder = [.hadamard 6, .cnot [7] 5] := by
  have hbuild : build 3 [.hadamard 1, .cnot [0] 1, .cnot [0] 2, .cnot [0] 1]
      = .ok (ofGates 3 [.hadamard 1, .cnot [0] 1, .cnot [0] 2, .cnot [0] 1]) := rfl
  have hinj : Set.InjOn (fun w : Wire => 7 - w) {w | w.toNat < 3} := fun v _ w _ h =>
    sub_right_injective h
  have hlt : ∀ w : Wire, w.toNat < 3 → (7 - w).toNat < 8 := by
    intro w hw
    rw [UInt32.toNat_sub]
    simp only [UInt32.reduceToNat]
    omega
  obtain ⟨d, reports, hd, -, -, -, -, -, -, horder⟩ := run_mapWires_of_build hbuild hinj hlt {}
  have hrun : (({} : Settings).pipeline.run (ofGates 3 [.hadamard 1, .cnot [0] 1, .cnot [0] 2,
      .cnot [0] 1])).circuit.gatesInOrder = [.hadamard 1, .cnot [0] 2] := by cbv
  rw [hrun] at horder
  exact ⟨_, d, hbuild, hd, hrun, horder⟩

end Peephole
