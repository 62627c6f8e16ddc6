import Peephole.Proofs.Cancel.Merge
import Peephole.Proofs.Cancel.Search
import Peephole.Proofs.Circuit.Embedding
import Peephole.Proofs.Pipeline

/-!
# The optimizer makes no circuit larger

The slides of a search may make a circuit deeper for a while, but they move nothing except the
candidate, and the candidate goes: it vanishes with its partner or takes the place of the partner.
So what a merge leaves lies inside the circuit before the search, whatever the slides were. The
rules that save Hadamard gates only remove and overwrite, and a search that goes back gives the same
circuit under other names.

* `Cancel.Merging.embeds`: what a merge leaves lies inside the circuit before the search.
* `Cancel.sweep_keeps_inside`, `Hadamard.reduce_keeps_inside`: both passes lead inside the circuit.
-/

namespace Peephole

open Circuit

/-! ## Cancellation -/

namespace Cancel

variable {c d e : Circuit} {k : Candidate} {v : VertexId}

/-- What a merge leaves lies inside the circuit without the candidate, and so inside every circuit
from which the candidate has moved to its partner. -/
theorem Merging.embeds (h : Merging e v k d) (he : e.Proper) (hmoved : Moved v c e)
    (hc : c.Linked) : Embeds d c := by
  refine Embeds.trans ?_ (hc.embeds_without v)
  rw [← hmoved.without_eq]
  cases h with
  | @rotation n θ φ t hn hv hφ =>
      have hiso := isomorphic_of_rotations he (edge_of_onlySuccessor? hn) hv hφ
      refine (hiso.toRenamed.embeds ((he.linked.without v).modify n _)
        ((he.linked.without n).modify v _)).trans (embeds_modify _ _ _)
  | @cnot n x t hn hv hu =>
      rw [without_comm]
      exact (he.linked.without v).embeds_without n

/-- A search leads inside the circuit, whatever its outcome. -/
theorem search_keeps_inside {c₀ : Circuit} (hc : c.Sound ∧ Embeds c c₀)
    (hk : candidateAt? c v = some k) :
    (search k c v).Keeps (fun d => d.Sound ∧ Embeds d c₀) True := by
  obtain ⟨hsound, hc₀⟩ := hc
  have hkeeps := search_keeps (stable_sound Rule.fits) hsound hk
  refine ⟨fun o ho => ⟨hkeeps.circuit o ho, Embeds.trans ?_ hc₀⟩, fun _ => hkeeps.ends ?_⟩
  · have haccount := (search_meets hsound.1 hk).ok o ho
    cases o with
    | merged =>
        obtain ⟨g, hg, hgk⟩ := Option.bind_eq_some_iff.1 hk
        obtain ⟨e, hmoved, he, hmerging⟩ := (search_merges hsound.1 hg hgk).ok _ ho rfl
        exact hmerging.embeds he hmoved hsound.1.linked
    | unchanged =>
        have hsame : (search k c v).circuit = c := haccount
        rw [hsame]
        exact .refl c
    | rolledBack names =>
        have hback : Restores names c (search k c v).circuit := haccount
        exact hback.isomorphic.toRenamed.embeds hsound.1.linked (hkeeps.circuit _ ho).1.linked
  · intro d hd
    obtain ⟨e, he⟩ := hd.2.restore_eq_ok
    exact ⟨_, e, he⟩

theorem sweep_keeps_inside {c₀ : Circuit} (hc : c.Sound ∧ Embeds c c₀) :
    (sweep c).Keeps (fun d => d.Sound ∧ Embeds d c₀) True :=
  sweep_keeps_of_search (fun _ _ _ hc hk => search_keeps_inside hc hk) hc

end Cancel

/-! ## Hadamard reduction -/

namespace Hadamard

variable {c : Circuit}

theorem Match.isCommutation_of_mem_edits (m : Match) : ∀ e ∈ m.edits, e.isCommutation = false := by
  cases m <;> simp [Match.edits, Edit.isCommutation]

/-- The rules only remove and overwrite, so a reduction leads inside the circuit. -/
theorem reduce_keeps_inside {c₀ : Circuit} (hc : c.Sound ∧ Embeds c c₀) :
    (reduce c).Keeps (fun d => d.Sound ∧ Embeds d c₀) True := by
  refine drain_keeps_of_match (fun c v m hc hm => ?_) hc _ _
  obtain ⟨hsound, hc₀⟩ := hc
  obtain ⟨d, hd, hr⟩ := rewrites_of_match? hsound.1
    (fun v g hg => (hsound.2 v g hg).not_selfControlled) hm
  refine ⟨d, hd, (stable_sound Step.fits).rewrites hsound hr, Embeds.trans ?_ hc₀⟩
  exact hsound.1.linked.embeds_applyAll m.isCommutation_of_mem_edits hd

end Hadamard

/-! ## The optimizer -/

theorem Settings.keeps_inside {s : Settings} {q : Pass} (h : q ∈ s.pipeline.passes)
    (c₀ : Circuit) : q.Keeps fun d => d.Sound ∧ Embeds d c₀ :=
  keeps_of_mem_passes (fun _ => Hadamard.reduce_keeps_inside)
    (fun _ => Cancel.sweep_keeps_inside) h

/-- The optimizer ends well on every circuit that was built from gates, whatever its settings, and
the circuit is then neither longer nor deeper than before. The same is true of each of its passes,
whatever passes ran before it. -/
theorem run_noLarger {c : Circuit} {width : Nat} {gs : List Gate} (h : build width gs = .ok c)
    (s : Settings) :
    (∃ reports, (s.pipeline.run c).result = .ok reports) ∧
      NoLarger (s.pipeline.run c).circuit c ∧
      ∀ round passes, (∀ q ∈ passes, q ∈ s.pipeline.passes) → ∀ q ∈ s.pipeline.passes,
        NoLarger (q.run (s.pipeline.runPasses round passes c).circuit).circuit
          (s.pipeline.runPasses round passes c).circuit := by
  have hc := Sound.of_build h
  have hrun := Pipeline.run_keeps_of_pass (p := s.pipeline) (fun d (hd : d.Sound ∧ _) => hd.1)
    (fun q hq => Settings.keeps_inside hq c) ⟨hc, .refl c⟩
  obtain ⟨reports, hr⟩ := hrun.ends trivial
  obtain ⟨hsound, hinside⟩ := hrun.circuit reports hr
  refine ⟨⟨reports, hr⟩, hinside.noLarger hsound.1 hc.1, fun round passes hp q hq => ?_⟩
  have hpasses := Pipeline.runPasses_keeps (p := s.pipeline) round
    (fun q hq => Settings.safe_of_mem_passes (hp q hq)) hc
  obtain ⟨reports, hr⟩ := hpasses.ends trivial
  have hd := hpasses.circuit reports hr
  have hpass := Settings.keeps_inside hq _ _ ⟨hd, .refl _⟩
  obtain ⟨u, hu⟩ := hpass.ends trivial
  obtain ⟨hsound, hinside⟩ := hpass.circuit u hu
  exact hinside.noLarger hsound.1 hd.1

/-- A controlled not slides past another to cancel with its equal. -/
theorem run_noLarger_slide :
    ∃ c, build 3 [.hadamard 1, .cnot [0] 1, .cnot [0] 2, .cnot [0] 1] = .ok c ∧
      c.size = 4 ∧ c.depth = .ok 4 ∧
      (({} : Settings).pipeline.run c).circuit.size = 2 ∧
      (({} : Settings).pipeline.run c).circuit.depth = .ok 1 ∧
      NoLarger (({} : Settings).pipeline.run c).circuit c := by
  have hbuild : build 3 [.hadamard 1, .cnot [0] 1, .cnot [0] 2, .cnot [0] 1]
      = .ok (ofGates 3 [.hadamard 1, .cnot [0] 1, .cnot [0] 2, .cnot [0] 1]) := rfl
  exact ⟨_, hbuild, by cbv, by cbv, by cbv, by cbv, (run_noLarger hbuild {}).2.1⟩

end Peephole
