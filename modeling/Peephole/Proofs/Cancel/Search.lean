import Peephole.Proofs.Cancel.Sweep
import Peephole.Proofs.Circuit.Snapshot

/-!
# What a search leaves behind

The outcome of a search tells what became of the circuit. A merge took out one rotation or two
controlled nots; a search that did nothing left the circuit alone; and one that slid its candidate
in vain gave the circuit back under new names. So a sweep that removes nothing leaves the gates in
the order they were in.

* `Outcome.Accounts`: what each outcome says about the circuit before and after.
* `seek_meets`, `search_meets`: every search lives up to its outcome, and can only fail because a
  snapshot cannot be restored.
* `sweepFrom_meets`: a sweep makes the circuit smaller or leaves the gates in order.
-/

namespace Peephole.Cancel

open Circuit

variable {c : Circuit} {k : Candidate} {v : VertexId}

/-! ## Candidates -/

/-- The gates that a search can start from: a rotation without controls, or a controlled not with
one. -/
def Candidate.Admits : Candidate → Gate → Prop
  | .rotation, g => ∃ θ t, g = .rotation θ t
  | .cnot, g => ∃ x t, g = .cnot [x] t

theorem Candidate.ofGate?_eq_some_iff {g : Gate} : ofGate? g = some k ↔ k.Admits g := by
  constructor
  · intro h
    rcases eq_of_ofGate? h with ⟨rfl, hg⟩ | ⟨rfl, hg⟩
    · exact hg
    · exact hg
  · cases k with
    | rotation =>
        rintro ⟨θ, t, rfl⟩
        rfl
    | cnot =>
        rintro ⟨x, t, rfl⟩
        rfl

/-- How many gates a merge takes out of the circuit. -/
def Candidate.removed : Candidate → Nat
  | .rotation => 1
  | .cnot => 2

theorem countP_isRemoval_of_merge? {m : Merge} (h : k.merge? c v = .ok (some m)) :
    m.edits.countP Edit.isRemoval = k.removed := by
  cases k with
  | rotation =>
      obtain ⟨n, -, -, θ, -, -, -, -, -, rfl⟩ := mergeRotation?_eq_some h
      rfl
  | cnot =>
      obtain ⟨n, -, -, -, -, -, -, rfl⟩ := mergeCnot?_eq_some h
      rfl

/-! ## Outcomes -/

/-- What an outcome says about the circuit before and after the search. -/
def Outcome.Accounts (k : Candidate) (c d : Circuit) : Outcome → Prop
  | .merged => d.size + k.removed = c.size
  | .unchanged => d = c
  | .rolledBack names => Restores names c d

/-- A failure to go back to the snapshot of a circuit. -/
def Unrestorable (c : Circuit) (e : Failure) : Prop :=
  ∃ cause, e = .circuit cause ∧ c.snapshot.restore = .error cause

/-- A search without a partner gives back the circuit from before the first slide. -/
theorem giveUp_meets {c₀ : Circuit} (hc₀ : c₀.Proper) {saved : Option Snapshot}
    (hs : saved = none ∧ c = c₀ ∨ saved = some c₀.snapshot) :
    (giveUp c v saved).Meets (fun d o => o.Accounts k c₀ d) (Unrestorable c₀) := by
  rcases hs with ⟨rfl, rfl⟩ | rfl
  · exact .done rfl
  · rw [giveUp]
    cases hr : c₀.snapshot.restore with
    | ok r =>
        obtain ⟨names, d⟩ := r
        refine .after (.done ?_) _
        exact hc₀.restores hr
    | error e => exact .after (.failed ⟨e, rfl, hr⟩) _

theorem seek_meets {c₀ : Circuit} (hc₀ : c₀.Proper) {g : Gate} {saved : Option Snapshot}
    (hc : c.Proper) (hsize : c.size = c₀.size) (hg : c.gate? v = some g)
    (hk : Candidate.ofGate? g = some k)
    (hs : saved = none ∧ c = c₀ ∨ saved = some c₀.snapshot) :
    (seek k c v saved).Meets (fun d o => o.Accounts k c₀ d) (Unrestorable c₀) := by
  -- along the recursion: slides take out no gate, and only the first of them takes a snapshot
  fun_induction seek k c v saved with
  | case1 c saved e he =>
      obtain ⟨r, hr⟩ := exists_merge?_eq_ok hc.linked (mem_ids_of_gate? hg) k
      cases hr.symm.trans he
  | case2 c saved m hm d hd =>
      refine .after (.done ?_) _
      have := hc.linked.size_applyAll hd
      rw [countP_isRemoval_of_merge? hm, hsize] at this
      exact this
  | case3 c saved m hm d e hd =>
      obtain ⟨d', hd', -⟩ := rewrites_of_merge? hc hg hk hm
      rw [hd] at hd'
      cases hd'
  | case4 c saved hm e he =>
      obtain ⟨r, hr⟩ := exists_slide?_eq_ok hc.linked (mem_ids_of_gate? hg) k
      cases hr.symm.trans he
  | case5 c saved hm a rest hslide d hd ih =>
      obtain ⟨d', hd', hr, hgate⟩ := rewrites_of_slide? hc hg hk hslide
      obtain rfl : d = d' := congrArg Prod.fst (hd.symm.trans hd')
      have hslid : d.size = c.size := by
        have hnone : ((a :: rest).map (Edit.commute v)).countP Edit.isRemoval = 0 := by
          rw [List.countP_map, List.countP_eq_zero]
          exact fun _ _ => Bool.false_ne_true
        have := hc.linked.size_applyAll hd
        rwa [hnone] at this
      refine .after (ih hr.proper (hslid.trans hsize) (by rw [hgate, hg]) (Or.inr ?_)) _
      rcases hs with ⟨rfl, rfl⟩ | rfl
      · rfl
      · rfl
  | case6 c saved hm a rest hslide d e hd =>
      obtain ⟨d', hd', -⟩ := rewrites_of_slide? hc hg hk hslide
      rw [hd] at hd'
      cases hd'
  | case7 c saved hm r hnone hslide => exact giveUp_meets hc₀ hs

/-- Every search lives up to its outcome. -/
theorem search_meets (hc : c.Proper) (hk : candidateAt? c v = some k) :
    (search k c v).Meets (fun d o => o.Accounts k c d) (Unrestorable c) := by
  obtain ⟨g, hg, hgk⟩ := Option.bind_eq_some_iff.1 hk
  rw [search_eq_seek hk]
  exact seek_meets hc hc rfl hg hgk (Or.inl ⟨rfl, rfl⟩)

/-- A search from a vertex without a candidate of its kind fails, and does nothing. -/
theorem search_of_not_admits (h : ¬ ∃ g, c.gate? v = some g ∧ k.Admits g) :
    (search k c v).circuit = c ∧ ∃ e, (search k c v).result = .error e := by
  have hk : candidateAt? c v ≠ some k := by
    intro hk
    obtain ⟨g, hg, hgk⟩ := Option.bind_eq_some_iff.1 hk
    exact h ⟨g, hg, Candidate.ofGate?_eq_some_iff.1 hgk⟩
  obtain ⟨e, he⟩ := search_eq_failed hk
  rw [he]
  exact ⟨rfl, e, rfl⟩

/-! ## Sweeps -/

/-- The second circuit has fewer gates, or the same gates in the same order. -/
def Shrinks (c d : Circuit) : Prop :=
  d.size < c.size ∨ d.size = c.size ∧ d.gatesInOrder = c.gatesInOrder

theorem Shrinks.trans {c d e : Circuit} (hcd : Shrinks c d) (hde : Shrinks d e) : Shrinks c e := by
  rcases hcd with hcd | ⟨hcd, hgates⟩
  · refine Or.inl ?_
    rcases hde with hde | ⟨hde, -⟩
    · exact hde.trans hcd
    · exact hde ▸ hcd
  · rcases hde with hde | ⟨hde, hgates'⟩
    · exact Or.inl (hcd ▸ hde)
    · exact Or.inr ⟨hde.trans hcd, hgates'.trans hgates⟩

theorem Outcome.Accounts.shrinks {d : Circuit} {o : Outcome} (h : o.Accounts k c d)
    (hc : c.Linked) (hd : d.Linked) : Shrinks c d := by
  cases o with
  | merged =>
      refine Or.inl ?_
      have hsize : d.size + k.removed = c.size := h
      have hpos : 0 < k.removed := by cases k <;> decide
      omega
  | unchanged =>
      obtain rfl : d = c := h
      exact Or.inr ⟨rfl, rfl⟩
  | rolledBack names =>
      have hgates : d.gatesInOrder = c.gatesInOrder := h.gatesInOrder_eq
      refine Or.inr ⟨?_, hgates⟩
      rw [← hd.length_gatesInOrder, hgates, hc.length_gatesInOrder]

theorem sweepFrom_meets (hc : c.Proper) (pending : List VertexId) :
    (sweepFrom c pending).Meets (fun d _ => Shrinks c d) fun _ => True := by
  fun_induction sweepFrom c pending with
  | case1 c => exact .done (Or.inr ⟨rfl, rfl⟩)
  | case2 c v rest hk ih => exact ih hc
  | case3 c v rest k hk ih =>
      have hsearch := search_meets hc hk
      have hproper := (search_keeps (stable_proper Rule) hc hk).circuit
      refine Run.Meets.andThen ⟨hsearch.ok, fun _ _ => trivial⟩ fun o ho => ?_
      have hd := hproper o ho
      have hshrinks := (hsearch.ok o ho).shrinks hc.linked hd.linked
      exact (ih _ o hd).mono fun e _ he => hshrinks.trans he

theorem sweep_meets (hc : c.Proper) :
    (sweep c).Meets (fun d n => Shrinks c d ∧ n = c.size - d.size) fun _ => True := by
  have hfrom := sweepFrom_meets hc (candidates c)
  exact hfrom.andThen fun u hu => .done ⟨hfrom.ok u hu, rfl⟩

end Peephole.Cancel
