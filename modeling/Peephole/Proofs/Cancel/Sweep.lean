import Peephole.Cancel.Sweep
import Peephole.Proofs.Cancel.Rule
import Peephole.Proofs.Run

/-!
# What a sweep keeps

A search either changes the circuit by the rules of the cancellation or goes back to a snapshot of
a circuit it started from, so a sweep keeps every property that both keep. The only thing that can
stop a sweep is a snapshot that cannot be restored.

* `sweepFrom_keeps_of_search`: a sweep keeps what its searches keep.
* `seek_keeps`, `search_keeps`, `sweep_keeps`: a property that is stable under the rules is kept. In
  particular the meaning of the circuit is, in every interpretation that satisfies the laws
  behind the rules.
-/

namespace Peephole.Cancel

open Circuit

variable {P : Circuit → Prop} {c : Circuit}

/-- Every circuit with the property can be restored from its snapshot. -/
def Restorable (P : Circuit → Prop) : Prop :=
  ∀ c, P c → ∃ names d, c.snapshot.restore = .ok (names, d)

theorem giveUp_keeps (hP : Stable Rule P) (hc : P c) (v : VertexId) {saved : Option Snapshot}
    (hs : ∀ s ∈ saved, ∃ c₀, P c₀ ∧ s = c₀.snapshot) :
    (giveUp c v saved).Keeps P (Restorable P) := by
  cases saved with
  | none => exact .done hc
  | some s =>
      obtain ⟨c₀, hc₀, rfl⟩ := hs s rfl
      rw [giveUp]
      cases hr : c₀.snapshot.restore with
      | ok r =>
          obtain ⟨names, d⟩ := r
          exact .after (.done (hP.restore hc₀ hr)) _
      | error e =>
          refine .after (.failed fun hsafe => ?_) _
          obtain ⟨names, d, hd⟩ := hsafe c₀ hc₀
          rw [hr] at hd
          cases hd

/-- A search that goes on keeps a stable property, whatever happened before it. -/
theorem seek_keeps (hP : Stable Rule P) {k : Candidate} {v : VertexId} {g : Gate}
    {saved : Option Snapshot} (hc : P c) (hg : c.gate? v = some g)
    (hk : Candidate.ofGate? g = some k) (hs : ∀ s ∈ saved, ∃ c₀, P c₀ ∧ s = c₀.snapshot) :
    (seek k c v saved).Keeps P (Restorable P) := by
  -- along the recursion: each slide is a rule, and leaves the candidate with its gate
  fun_induction seek k c v saved with
  | case1 c saved e he =>
      obtain ⟨r, hr⟩ := exists_merge?_eq_ok (hP.proper hc).linked (mem_ids_of_gate? hg) k
      cases hr.symm.trans he
  | case2 c saved m hm d hd =>
      obtain ⟨d', hd', hr⟩ := rewrites_of_merge? (hP.proper hc) hg hk hm
      obtain rfl : d = d' := congrArg Prod.fst (hd.symm.trans hd')
      exact .after (.done (hP.rewrites hc hr)) _
  | case3 c saved m hm d e hd =>
      obtain ⟨d', hd', -⟩ := rewrites_of_merge? (hP.proper hc) hg hk hm
      rw [hd] at hd'
      cases hd'
  | case4 c saved hm e he =>
      obtain ⟨r, hr⟩ := exists_slide?_eq_ok (hP.proper hc).linked (mem_ids_of_gate? hg) k
      cases hr.symm.trans he
  | case5 c saved hm a rest hslide d hd ih =>
      obtain ⟨d', hd', hr, hgate⟩ := rewrites_of_slide? (hP.proper hc) hg hk hslide
      obtain rfl : d = d' := congrArg Prod.fst (hd.symm.trans hd')
      refine .after (ih (hP.rewrites hc hr) (by rw [hgate, hg]) ?_) _
      intro s hs'
      obtain rfl := Option.some.inj hs'
      cases saved with
      | none => exact ⟨c, hc, rfl⟩
      | some s => exact hs s rfl
  | case6 c saved hm a rest hslide d e hd =>
      obtain ⟨d', hd', -⟩ := rewrites_of_slide? (hP.proper hc) hg hk hslide
      rw [hd] at hd'
      cases hd'
  | case7 c saved hm r hnone hslide => exact giveUp_keeps hP hc v hs

theorem search_eq_seek {k : Candidate} {v : VertexId} (hk : candidateAt? c v = some k) :
    search k c v = seek k c v none := by
  obtain ⟨g, hg, hgk⟩ := Option.bind_eq_some_iff.1 hk
  rw [search, gateOf_eq_ok_iff.2 hg]
  exact if_pos hgk

/-- A search from a vertex that does not hold a candidate of its kind fails at once. -/
theorem search_eq_failed {k : Candidate} {v : VertexId} (hk : candidateAt? c v ≠ some k) :
    ∃ e, search k c v = .failed c e := by
  rw [search]
  cases hg : c.gateOf v with
  | error e => exact ⟨_, rfl⟩
  | ok g =>
      rw [candidateAt?, gateOf_eq_ok_iff.1 hg, Option.bind_some] at hk
      exact ⟨_, if_neg hk⟩

theorem search_keeps (hP : Stable Rule P) (hc : P c) {k : Candidate} {v : VertexId}
    (hk : candidateAt? c v = some k) : (search k c v).Keeps P (Restorable P) := by
  obtain ⟨g, hg, hgk⟩ := Option.bind_eq_some_iff.1 hk
  rw [search_eq_seek hk]
  exact seek_keeps hP hc hg hgk nofun

/-- A sweep keeps what every one of its searches keeps. -/
theorem sweepFrom_keeps_of_search {safe : Prop}
    (hsearch : ∀ c v k, P c → candidateAt? c v = some k → (search k c v).Keeps P safe) (hc : P c)
    (pending : List VertexId) : (sweepFrom c pending).Keeps P safe := by
  fun_induction sweepFrom c pending with
  | case1 c => exact .done hc
  | case2 c v rest hk ih => exact ih hc
  | case3 c v rest k hk ih =>
      have h := hsearch c v k hc hk
      exact h.andThen fun o ho => ih _ o (h.circuit o ho)

theorem sweep_keeps_of_search {safe : Prop}
    (hsearch : ∀ c v k, P c → candidateAt? c v = some k → (search k c v).Keeps P safe) (hc : P c) :
    (sweep c).Keeps P safe := by
  have hfrom := sweepFrom_keeps_of_search hsearch hc (candidates c)
  exact hfrom.andThen fun u hu => .done (hfrom.circuit u hu)

theorem sweep_keeps (hP : Stable Rule P) (hc : P c) : (sweep c).Keeps P (Restorable P) :=
  sweep_keeps_of_search (fun _ _ _ hc hk => search_keeps hP hc hk) hc

/-- A sweep that ends well keeps the meaning of the circuit, however the circuit came about, as
long as it is acyclic and its gates have kept their wires. -/
theorem meaning_sweep {M : Type*} [Monoid M] {den : Gate → M} (hden : Laws den)
    (hc : Reachable Gate.SameWires c) (hac : c.Acyclic) {n : Nat}
    (h : (sweep c).result = .ok n) : (sweep c).circuit.meaning den = c.meaning den := by
  have hproper : c.Proper := ⟨hc.linked, hc.aligned fun _ _ => id, hac⟩
  have hstable := stable_meaning hden.disjoint hden.prod_eq (c.meaning den)
  exact ((sweep_keeps hstable ⟨hproper, rfl⟩).circuit n h).2

/-- A rotation slides past the control of a controlled not, to be added to another. -/
theorem sweep_rotations {θ φ : Angle}
    (hc : c = ofGates 2 [.rotation θ 0, .cnot [0] 1, .rotation φ 0]) :
    (sweep c).result = .ok 1 ∧
      (sweep c).circuit.gatesInOrder = [.cnot [0] 1, .rotation (θ + φ) 0] := by
  have hmerge : Candidate.rotation.merge? c 0 = .ok none := by
    rw [hc]
    cbv
  have hslide : Candidate.rotation.slide? c 0 = .ok (some [1]) := by
    rw [hc]
    cbv
  have hcommute : c.applyAll [.commute 0 1] = (c.swapped 0 1, none) := by
    rw [hc]
    rfl
  have hmerge' : Candidate.rotation.merge? (c.swapped 0 1) 0
      = .ok (some ⟨2, [.remove 2, .turn 0 φ]⟩) := by
    rw [hc]
    cbv
  have hturn : (c.swapped 0 1).applyAll [.remove 2, .turn 0 φ]
      = ((ofGates 2 [.rotation (θ + φ) 0, .cnot [0] 1]).swapped 0 1, none) := by
    rw [hc]
    rfl
  have hsearch : search .rotation c 0 = .after (.slid 0) (.after (.rotationMerged 0 2)
      (.done ((ofGates 2 [.rotation (θ + φ) 0, .cnot [0] 1]).swapped 0 1) .merged)) := by
    rw [search_eq_seek (by rw [hc]; cbv), seek, hmerge]
    simp only [hslide]
    split
    · rename_i d hd
      obtain rfl : c.swapped 0 1 = d := congrArg Prod.fst (hcommute.symm.trans hd)
      rw [seek, hmerge']
      simp only [hturn]
      rfl
    · rename_i hd
      cases hcommute.symm.trans hd
  have hcandidates : candidates c = [0, 1, 2] := by
    rw [hc]
    cbv
  have hfirst : candidateAt? c 0 = some .rotation := by
    rw [hc]
    cbv
  have hsize : c.size = 3 := by
    rw [hc]
    rfl
  -- the sum is left as it stands, and the rest is evaluated around it
  rw [sweep, hcandidates, sweepFrom]
  simp only [hfirst, hsearch, hsize]
  generalize θ + φ = χ
  constructor
  · cbv
  · cbv

/-- A controlled not slides past another with the same control and cancels with its equal; a
rotation slides past the control of a controlled not and is added to another. -/
theorem meaning_sweep_slides :
    (∃ c, build 3 [.hadamard 1, .cnot [0] 1, .cnot [0] 2, .cnot [0] 1] = .ok c ∧
      (sweep c).result = .ok 2 ∧ (sweep c).circuit.gatesInOrder = [.hadamard 1, .cnot [0] 2] ∧
      (sweep c).circuit.meaning Pauli.conj = c.meaning Pauli.conj) ∧
    ∃ (c : Circuit) (den : Gate → Operator),
      build 2 [.rotation 0.5 0, .cnot [0] 1, .rotation 0.25 0] = .ok c ∧
      (sweep c).result = .ok 1 ∧
      (sweep c).circuit.gatesInOrder = [.cnot [0] 1, .rotation (0.5 + 0.25) 0] ∧
      den (.rotation 0.5 0) ≠ 1 ∧ (sweep c).circuit.meaning den = c.meaning den := by
  constructor
  · have hbuild : build 3 [.hadamard 1, .cnot [0] 1, .cnot [0] 2, .cnot [0] 1]
        = .ok (ofGates 3 [.hadamard 1, .cnot [0] 1, .cnot [0] 2, .cnot [0] 1]) := rfl
    refine ⟨_, hbuild, by cbv, by cbv, ?_⟩
    exact meaning_sweep laws_pauli (.build hbuild) (Proper.ofGates _ _).acyclic (n := 2) (by cbv)
  · have hbuild : build 2 [.rotation 0.5 0, .cnot [0] 1, .rotation 0.25 0]
        = .ok (ofGates 2 [.rotation 0.5 0, .cnot [0] 1, .rotation 0.25 0]) := rfl
    have hlaws := (exactLaws_operator (χ := fun _ : Angle => 0) fun _ _ => by rw [mul_zero]).laws
    obtain ⟨hresult, hgates⟩ := sweep_rotations (θ := 0.5) (φ := 0.25) rfl
    exact ⟨_, _, hbuild, hresult, hgates, Operator.shift_ne_one zero_ne_one 0,
      meaning_sweep hlaws (.build hbuild) (Proper.ofGates _ _).acyclic hresult⟩

end Peephole.Cancel
