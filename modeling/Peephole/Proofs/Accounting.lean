import Peephole.Proofs.Cancel.Search
import Peephole.Proofs.Pipeline

/-!
# The accounts of a run

A pipeline reports the number of gates before and after every pass that ran. Passes that are not
wanted leave no report, and a run ends with the first round that removes nothing. Still the reports
say all there is to say about sizes, since no pass makes a circuit larger: they lead without a gap
from the first circuit to the last, every round but the last one removes a gate, and a run can be
taken up where another one stopped.

* `Report.Account`, `Report.Spans`: how reports hang together.
* `Pass.Shrinks`: a pass that makes no circuit larger, and none cyclic.
* `Pipeline.runRounds_accounts`: the accounts of a pipeline with such passes.
* `Pipeline.runRounds_add`, `Pipeline.runRounds_shift`: rounds that are run in two parts.
-/

namespace Peephole

open Circuit

/-! ## Reports -/

namespace Report

/-- The reports lead from one number of gates to another: each begins where the one before it ended,
and none goes up. -/
def Account : Nat → List Report → Nat → Prop
  | n, [], m => n = m
  | n, r :: rest, m => r.opsBefore = n ∧ r.opsAfter ≤ n ∧ Account r.opsAfter rest m

/-- Some pass removed a gate in this round. -/
def RemovedIn (round : Nat) (reports : List Report) : Prop :=
  ∃ r ∈ reports, r.round = round ∧ 0 < r.removed

/-- Whether a round removed something can be decided. -/
instance (round : Nat) (reports : List Report) : Decidable (RemovedIn round reports) :=
  inferInstanceAs (Decidable (∃ r ∈ reports, r.round = round ∧ 0 < r.removed))

/-- The rounds in the reports are `k` ones from `first` on, without a gap and in order, and all but
the last of them removed a gate. -/
structure Spans (first k : Nat) (reports : List Report) : Prop where
  mem_iff : ∀ i, (∃ r ∈ reports, r.round = i) ↔ first ≤ i ∧ i < first + k
  ascending : (reports.map round).Pairwise (· ≤ ·)
  removed : ∀ i, first ≤ i → i + 1 < first + k → RemovedIn i reports

/-- The report with its round counted from later on. -/
def shift (a : Nat) (r : Report) : Report := { r with round := r.round + a }

variable {n m l : Nat} {rs rest : List Report}

/-- The reports of one round say nothing about others. -/
theorem removedIn_append_iff {first i : Nat} (h : ∀ r ∈ rs, r.round = first) (hi : first < i) :
    RemovedIn i (rs ++ rest) ↔ RemovedIn i rest := by
  constructor
  · rintro ⟨r, hr, hround, hpos⟩
    rcases List.mem_append.1 hr with hr | hr
    · have := h r hr
      omega
    · exact ⟨r, hr, hround, hpos⟩
  · rintro ⟨r, hr, hr'⟩
    exact ⟨r, List.mem_append_right _ hr, hr'⟩

namespace Account

theorem append (h : Account n rs m) (h' : Account m rest l) : Account n (rs ++ rest) l := by
  induction rs generalizing n with
  | nil =>
      obtain rfl : n = m := h
      exact h'
  | cons r rs ih => exact ⟨h.1, h.2.1, ih h.2.2⟩

/-- What was removed and what is left make up what there was. -/
theorem sum_removed (h : Account n rs m) : (rs.map Report.removed).sum + m = n := by
  induction rs generalizing n with
  | nil =>
      obtain rfl : n = m := h
      simp
  | cons r rs ih =>
      obtain ⟨hbefore, hle, hrest⟩ := h
      have hsum := ih hrest
      rw [List.map_cons, List.sum_cons, Report.removed]
      omega

theorem le (h : Account n rs m) : m ≤ n := by
  have hsum := h.sum_removed
  omega

/-- If gates are gone, some report shows it, and only then. -/
theorem lt_iff (h : Account n rs m) : m < n ↔ ∃ r ∈ rs, 0 < r.removed := by
  have hsum := h.sum_removed
  constructor
  · intro hlt
    by_contra hnone
    have hzero : (rs.map Report.removed).sum = 0 := by
      rw [List.sum_eq_zero_iff]
      intro x hx
      obtain ⟨r, hr, rfl⟩ := List.mem_map.1 hx
      by_contra hpos
      exact hnone ⟨r, hr, Nat.pos_of_ne_zero hpos⟩
    omega
  · rintro ⟨r, hr, hpos⟩
    have hle := List.le_sum_of_mem (List.mem_map_of_mem (f := Report.removed) hr)
    omega

end Account

namespace Spans

variable {first k : Nat}

theorem ascending_of_round_eq (h : ∀ r ∈ rs, r.round = first) :
    (rs.map round).Pairwise (· ≤ ·) := by
  rw [List.pairwise_map]
  refine List.pairwise_of_forall_mem_list fun a ha b hb => ?_
  rw [h a ha, h b hb]

theorem nil (first : Nat) : Spans first 0 [] where
  mem_iff i := by
    simp only [List.not_mem_nil, false_and, exists_false, false_iff]
    omega
  ascending := .nil
  removed i _ _ := by omega

/-- The reports of one round, if there are any. -/
theorem single (hne : rs ≠ []) (h : ∀ r ∈ rs, r.round = first) : Spans first 1 rs where
  mem_iff i := by
    constructor
    · rintro ⟨r, hr, rfl⟩
      have := h r hr
      omega
    · intro hi
      obtain ⟨r, hr⟩ := List.exists_mem_of_ne_nil rs hne
      have := h r hr
      exact ⟨r, hr, by omega⟩
  ascending := ascending_of_round_eq h
  removed i _ _ := by omega

/-- The reports of a round that removed a gate, and of the rounds after it. -/
theorem append (h : ∀ r ∈ rs, r.round = first) (hrs : RemovedIn first rs)
    (hrest : Spans (first + 1) k rest) : Spans first (k + 1) (rs ++ rest) where
  mem_iff i := by
    have hi := hrest.mem_iff i
    simp only [List.mem_append]
    constructor
    · rintro ⟨r, hr | hr, rfl⟩
      · have := h r hr
        omega
      · have := hi.1 ⟨r, hr, rfl⟩
        omega
    · intro hle
      by_cases hfirst : i = first
      · obtain ⟨r, hr, hround, -⟩ := hrs
        exact ⟨r, Or.inl hr, hround.trans hfirst.symm⟩
      · obtain ⟨r, hr, hround⟩ := hi.2 (by omega)
        exact ⟨r, Or.inr hr, hround⟩
  ascending := by
    rw [List.map_append, List.pairwise_append]
    refine ⟨ascending_of_round_eq h, hrest.ascending, fun x hx y hy => ?_⟩
    obtain ⟨r, hr, rfl⟩ := List.mem_map.1 hx
    obtain ⟨q, hq, rfl⟩ := List.mem_map.1 hy
    have hround := h r hr
    have hlater := (hrest.mem_iff q.round).1 ⟨q, hq, rfl⟩
    omega
  removed i hi hlt := by
    by_cases hfirst : i = first
    · obtain ⟨r, hr, hround⟩ := hrs
      exact ⟨r, List.mem_append_left _ hr, by rw [hround.1, hfirst], hround.2⟩
    · obtain ⟨r, hr, hround⟩ := hrest.removed i (by omega) (by omega)
      exact ⟨r, List.mem_append_right _ hr, hround⟩

end Spans

end Report

/-! ## Edits that keep wires -/

theorem Gate.wires_turn (θ : Angle) (g : Gate) : (g.turn θ).wires = g.wires := by
  obtain ⟨kind, target, controls⟩ := g
  cases kind <;> rfl

namespace Circuit

variable {c₀ c d : Circuit}

/-- The edit moves no vertex, and leaves every gate of a circuit on the wires it has. -/
def Edit.KeepsWires (c₀ : Circuit) : Edit → Prop
  | .commute _ _ => False
  | .setWires v target controls =>
      ∀ g, c₀.gate? v = some g → g.SameWires { g with target, controls }
  | _ => True

/-- A circuit in order, whose gates are on the wires they had in another one. -/
structure OnWiresOf (c₀ c : Circuit) : Prop where
  proper : c.Proper
  sameWires : ∀ v g, c.gate? v = some g → ∃ g₀, c₀.gate? v = some g₀ ∧ g₀.SameWires g

namespace OnWiresOf

theorem refl (hc : c.Proper) : OnWiresOf c c := ⟨hc, fun _ g hg => ⟨g, hg, fun _ => Iff.rfl⟩⟩

theorem modify (h : OnWiresOf c₀ c) {v : VertexId} {f : Gate → Gate}
    (hf : ∀ g, c.gate? v = some g → g.SameWires (f g)) : OnWiresOf c₀ (c.modify v f) where
  proper := h.proper.modify hf
  sameWires := by
    intro x g hg
    by_cases hx : x = v
    · subst hx
      rw [gate?_modify_self, Option.map_eq_some_iff] at hg
      obtain ⟨k, hk, rfl⟩ := hg
      obtain ⟨g₀, hg₀, hsame⟩ := h.sameWires x k hk
      exact ⟨g₀, hg₀, fun w => (hsame w).trans (hf k hk w)⟩
    · rw [gate?_modify_of_ne _ _ _ hx] at hg
      exact h.sameWires x g hg

theorem apply (h : OnWiresOf c₀ c) {e : Edit} (hk : e.KeepsWires c₀) (he : e.apply c = .ok d) :
    OnWiresOf c₀ d := by
  cases e with
  | remove v =>
      obtain ⟨-, rfl⟩ := apply_remove_eq_ok_iff.1 he
      exact ⟨h.proper.without v, fun x g hg => h.sameWires x g (gate?_without c v hg).2⟩
  | commute a b => exact hk.elim
  | setKind v kind =>
      obtain ⟨-, rfl⟩ := apply_setKind_eq_ok_iff.1 he
      exact h.modify fun _ _ _ => Iff.rfl
  | setWires v target controls =>
      obtain ⟨-, rfl⟩ := apply_setWires_eq_ok_iff.1 he
      refine h.modify fun g hg w => ?_
      obtain ⟨g₀, hg₀, hsame⟩ := h.sameWires v g hg
      exact (hsame w).symm.trans (hk g₀ hg₀ w)
  | turn v θ =>
      cases he
      refine h.modify fun g _ w => ?_
      rw [Gate.wires_turn]

theorem applyAll (h : OnWiresOf c₀ c) {es : List Edit} (hk : ∀ e ∈ es, e.KeepsWires c₀)
    (he : c.applyAll es = (d, none)) : OnWiresOf c₀ d :=
  applyAll_keeps (fun e hmem _ _ hx hxy => hx.apply (hk e hmem) hxy) h he

end OnWiresOf

end Circuit

/-! ## Passes -/

/-- If the pass ends well, it has left no acyclic circuit cyclic, and made none larger. -/
def Pass.Shrinks (q : Pass) : Prop :=
  ∀ c, c.Proper → (q.run c).Keeps (fun d => d.Proper ∧ d.size ≤ c.size) False

namespace Hadamard

variable {c : Circuit}

/-- A rule trades the wires of a gate for each other, at most. -/
theorem keepsWires_of_match? (hc : c.Linked) {v : VertexId} {m : Match} (hm : match? c v = some m) :
    ∀ e ∈ m.edits, e.KeepsWires c := by
  obtain ⟨w, -, hfound⟩ := found_of_match? hc hm
  cases hfound with
  | flipPhase => simp [Match.edits, Edit.KeepsWires]
  | @reverseCnot b n l a u hb hn =>
      have hwires : (Edit.setWires n w [u]).KeepsWires c := by
        intro g hg z
        obtain rfl := Option.some.inj (hn.symm.trans hg)
        simp [or_comm, Gate.wires]
      simp [Match.edits, Edit.KeepsWires] at hwires ⊢
      exact hwires
  | phaseCnot => simp [Match.edits, Edit.KeepsWires]

/-- A reduction that ends well leaves an acyclic circuit acyclic, even if some controlled not is
controlled by its own target. -/
theorem reduce_shrinks (hc : c.Proper) :
    (reduce c).Keeps (fun d => d.Proper ∧ d.size ≤ c.size) False := by
  refine drain_keeps (fun x v m d hx hm hd => ?_) False.elim ⟨hc, le_rfl⟩ _ _
  have hd' := (OnWiresOf.refl hx.1).applyAll (keepsWires_of_match? hx.1.linked hm) hd
  have hsize := hx.1.linked.size_applyAll hd
  exact ⟨hd'.proper, by omega⟩

end Hadamard

theorem Cancel.sweep_shrinks {c : Circuit} (hc : c.Proper) :
    (sweep c).Keeps (fun d => d.Proper ∧ d.size ≤ c.size) False := by
  have hproper := sweep_keeps (stable_proper Rule) hc
  refine ⟨fun n hn => ⟨hproper.circuit n hn, ?_⟩, False.elim⟩
  rcases ((sweep_meets hc).ok n hn).1 with hlt | ⟨heq, -⟩
  · exact hlt.le
  · exact heq.le

theorem Settings.shrinks_of_mem_passes {s : Settings} {q : Pass} (h : q ∈ s.pipeline.passes) :
    q.Shrinks := by
  intro c hc
  rcases eq_of_mem_passes h with rfl | rfl
  · have hreduce := Hadamard.reduce_shrinks hc
    simp only [Pass.hadamardReduction]
    exact hreduce.andThen fun n hn => .after (.done (hreduce.circuit n hn)) _
  · have hsweep := Cancel.sweep_shrinks hc
    simp only [Pass.cancellation]
    exact hsweep.andThen fun n hn => .after (.done (hsweep.circuit n hn)) _

/-! ## Rounds -/

namespace Pipeline

variable {p : Pipeline} {c : Circuit} (round : Nat)

/-- A run of a pass leaves one report, with the sizes before and after it. -/
theorem runPass_accounts {q : Pass} (hq : q.Shrinks) (hc : c.Proper) :
    (p.runPass round q c).Meets
      (fun d r => d.Proper ∧ d.size ≤ c.size ∧ r = ⟨q.name, round, c.size, d.size⟩)
      fun _ => True := by
  have hpass : (q.run c).Meets (fun d _ => d.Proper ∧ d.size ≤ c.size) fun _ => True :=
    ⟨(hq c hc).circuit, fun _ _ => trivial⟩
  refine .after (hpass.andThen fun u hu => ?_) _
  obtain ⟨hproper, hsize⟩ := hpass.ok u hu
  split
  · exact .failed trivial
  · exact .after (.done ⟨hproper, hsize, rfl⟩) _

/-- The reports of a round lead from the circuit before it to the one after it. -/
theorem runPasses_accounts {passes : List Pass} (hp : ∀ q ∈ passes, q.Shrinks) (hc : c.Proper) :
    (p.runPasses round passes c).Meets
      (fun d rs => d.Proper ∧ Report.Account c.size rs d.size ∧ ∀ r ∈ rs, r.round = round)
      fun _ => True := by
  induction passes generalizing c with
  | nil => exact .done ⟨hc, rfl, List.forall_mem_nil _⟩
  | cons q rest ih =>
      rw [List.forall_mem_cons] at hp
      rw [runPasses]
      split
      · have hq := runPass_accounts (p := p) round hp.1 hc
        refine hq.andThen fun r hr => .map ?_
        obtain ⟨hproper, hsize, rfl⟩ := hq.ok r hr
        refine (ih hp.2 hproper).mono fun d rs hd => ?_
        exact ⟨hd.1, ⟨rfl, hsize, hd.2.1⟩, List.forall_mem_cons.2 ⟨rfl, hd.2.2⟩⟩
      · exact (ih hp.2 hc).after _

/-- The reports of a run lead from its first circuit to its last, round by round. -/
theorem runRounds_accounts (hp : ∀ q ∈ p.passes, q.Shrinks) (left : Nat) (hc : c.Proper) :
    (p.runRounds left round c).Meets
      (fun d rs => d.Proper ∧ Report.Account c.size rs d.size ∧
        ∃ k, k ≤ left ∧ k ≤ c.size + 1 ∧ Report.Spans round k rs)
      fun _ => True := by
  induction left generalizing round c with
  | zero => exact .done ⟨hc, rfl, 0, le_rfl, Nat.zero_le _, .nil round⟩
  | succ left ih =>
      have hround := runPasses_accounts (p := p) round hp hc
      refine hround.andThen fun rs hrs => ?_
      obtain ⟨hproper, haccount, hrounds⟩ := hround.ok rs hrs
      split
      · -- an idle round is the last one; it need not have left a report
        refine .after (.done ⟨hproper, haccount, ?_⟩) _
        by_cases hne : rs = []
        · subst hne
          exact ⟨0, Nat.zero_le _, Nat.zero_le _, .nil round⟩
        · exact ⟨1, by omega, by omega, .single hne hrounds⟩
      · rename_i hsize
        have hlt : (p.runPasses round p.passes c).circuit.size < c.size :=
          lt_of_le_of_ne haccount.le hsize
        obtain ⟨r, hr, hpos⟩ := haccount.lt_iff.1 hlt
        refine .map ((ih (round + 1) hproper).mono ?_)
        rintro d later ⟨hd, hlater, k, hleft, hk, hspans⟩
        refine ⟨hd, haccount.append hlater, k + 1, by omega, by omega, ?_⟩
        exact .append hrounds ⟨r, hr, hrounds r hr, hpos⟩ hspans

/-- The depth is measured of an acyclic circuit, so a run ends as its rounds do. -/
theorem run_eq_runRounds (hp : ∀ q ∈ p.passes, q.Shrinks) (hc : c.Proper) :
    (p.run c).circuit = (p.runRounds p.rounds 1 c).circuit ∧
      (p.run c).result = (p.runRounds p.rounds 1 c).result := by
  have hrounds := runRounds_accounts 1 hp p.rounds hc
  cases hr : (p.runRounds p.rounds 1 c).result with
  | error e => simp only [run, Run.after, Run.andThen, hr, and_self]
  | ok reports =>
      obtain ⟨n, hn⟩ := (hrounds.ok reports hr).1.exists_depth
      simp only [run, Run.after, Run.andThen, hr, hn, Run.done, and_self]

/-! ## Rounds in two parts -/

/-- More rounds go on where fewer of them stopped, unless these have come to a round that removed
nothing. -/
theorem runRounds_add (hp : ∀ q ∈ p.passes, q.Shrinks) (hc : c.Proper) (a b : Nat) :
    p.runRounds (a + b) round c = (p.runRounds a round c).andThen fun d rs =>
      if a = 0 ∨ Report.RemovedIn (round + a - 1) rs then
        (p.runRounds b (round + a) d).map (rs ++ ·)
      else .done d rs := by
  induction a generalizing round c with
  | zero =>
      rw [Nat.zero_add, runRounds, Run.done_andThen, if_pos (Or.inl rfl)]
      exact (Run.map_id _).symm
  | succ a ih =>
      rw [Nat.add_right_comm, runRounds, runRounds, Run.andThen_assoc]
      refine Run.andThen_congr fun rs hrs => ?_
      obtain ⟨hproper, haccount, hrounds⟩ := (runPasses_accounts round hp hc).ok rs hrs
      split
      · rename_i hsize
        have hidle : ¬ (a + 1 = 0 ∨ Report.RemovedIn (round + (a + 1) - 1) rs) := by
          rintro (h | ⟨r, hr, -, hpos⟩)
          · omega
          · have hlt := haccount.lt_iff.2 ⟨r, hr, hpos⟩
            omega
        simp only [Run.after, Run.done, Run.andThen, if_neg hidle, List.append_nil]
      · rename_i hsize
        have hlt : (p.runPasses round p.passes c).circuit.size < c.size :=
          lt_of_le_of_ne haccount.le hsize
        rw [ih (round + 1) hproper, Run.map_andThen, Run.andThen_map]
        refine Run.andThen_congr fun later hlater => ?_
        have hgoOn : (a = 0 ∨ Report.RemovedIn (round + 1 + a - 1) later) ↔
            a + 1 = 0 ∨ Report.RemovedIn (round + (a + 1) - 1) (rs ++ later) := by
          cases a with
          | zero =>
              obtain ⟨r, hr, hpos⟩ := haccount.lt_iff.1 hlt
              have hremoved : Report.RemovedIn round (rs ++ later) :=
                ⟨r, List.mem_append_left _ hr, hrounds r hr, hpos⟩
              simpa using hremoved
          | succ a =>
              rw [Report.removedIn_append_iff hrounds (by omega)]
              simp only [Nat.add_eq_zero_iff, one_ne_zero, and_false, false_or]
              rw [Nat.add_right_comm round 1, Nat.add_assoc round (a + 1) 1]
        simp only [hgoOn]
        split
        · rw [Run.map_map, Nat.add_right_comm round 1 a, Nat.add_assoc round a 1]
          simp only [List.append_assoc]
        · rfl

/-- The same rounds under other numbers: nothing but the reports shows them. -/
theorem runPass_shift (q : Pass) (c : Circuit) (a : Nat) :
    (p.runPass round q c).Echoes (Report.shift a) (p.runPass (round + a) q c) := by
  refine .after _ _ (.andThen (.refl _) fun u hu => ?_)
  split
  · exact .failed
  · exact .after _ _ .done

theorem runPasses_shift (passes : List Pass) (c : Circuit) (a : Nat) :
    (p.runPasses round passes c).Echoes (List.map (Report.shift a))
      (p.runPasses (round + a) passes c) := by
  induction passes generalizing c with
  | nil => exact .done
  | cons q rest ih =>
      rw [runPasses, runPasses]
      split
      · exact (runPass_shift round q c a).andThen fun r _ => (ih _).map fun _ => rfl
      · exact .after _ _ (ih c)

theorem runRounds_shift (left : Nat) (c : Circuit) (a : Nat) :
    (p.runRounds left round c).Echoes (List.map (Report.shift a))
      (p.runRounds left (round + a) c) := by
  induction left generalizing round c with
  | zero => exact .done
  | succ left ih =>
      refine (runPasses_shift round p.passes c a).andThen fun rs _ => ?_
      split
      · exact .after _ _ .done
      · rw [Nat.add_right_comm]
        exact (ih (round + 1) _).map fun _ => List.map_append.symm

/-- The most rounds that are asked for do not matter to a round. -/
theorem runPasses_withRounds (k : Nat) (passes : List Pass) (c : Circuit) :
    { p with rounds := k }.runPasses round passes c = p.runPasses round passes c := by
  induction passes generalizing c with
  | nil => rfl
  | cons q rest ih =>
      simp only [runPasses, ih]
      rfl

theorem runRounds_withRounds (k left : Nat) (c : Circuit) :
    { p with rounds := k }.runRounds left round c = p.runRounds left round c := by
  induction left generalizing round c with
  | zero => rfl
  | succ left ih => simp only [runRounds, runPasses_withRounds, ih]

end Pipeline

/-! ## The optimizer -/

/-- A run with the given number of iterations, all else being as in the settings. -/
def Settings.iterate (s : Settings) (iterations : Nat) (c : Circuit) : Run (List Report) :=
  { s with iterations }.pipeline.run c

/-- The run is its rounds, whose number is all that the iterations have to do with. -/
theorem Settings.iterate_eq_runRounds (s : Settings) {c : Circuit} (hc : c.Proper) {k : Nat}
    (hk : 1 ≤ k) :
    (s.iterate k c).circuit = (s.pipeline.runRounds k 1 c).circuit ∧
      (s.iterate k c).result = (s.pipeline.runRounds k 1 c).result := by
  have hrounds : { s with iterations := k }.pipeline.runRounds (max 1 k) 1 c
      = s.pipeline.runRounds k 1 c := by
    rw [max_eq_right hk]
    exact Pipeline.runRounds_withRounds (p := s.pipeline) 1 (max 1 k) k c
  rw [← hrounds]
  exact Pipeline.run_eq_runRounds (p := { s with iterations := k }.pipeline)
    (fun _ => shrinks_of_mem_passes) hc

/-- The accounts of the optimizer, however an acyclic circuit came about, as long as its gates have
kept their wires. A run ends well if no gate has a wire twice. If it ends well, its reports lead
from the first number of gates to the last; their rounds are `1` to `r`, where `r` is at most the
number of iterations, at most one more than the number of gates, and all but the last of these
rounds removed a gate.

A run with `a + b` iterations starts with one of `a` iterations. If that fails, so does the whole.
If it got to a round that removed nothing, which means that it has no report of a gate removed in
round `a`, it is the whole. Otherwise a run with `b` iterations follows, in which the rounds are
numbered on. -/
theorem run_accounts_of_reachable {c : Circuit} (hc : Reachable Gate.SameWires c)
    (hac : c.Acyclic) (s : Settings) :
    ((∀ v g, c.gate? v = some g → g.wires.Nodup) →
      ∃ reports, (s.pipeline.run c).result = .ok reports) ∧
    (∀ reports, (s.pipeline.run c).result = .ok reports →
      Report.Account c.size reports (s.pipeline.run c).circuit.size ∧
      (reports.map Report.removed).sum + (s.pipeline.run c).circuit.size = c.size ∧
      ∃ r, r ≤ max 1 s.iterations ∧ r ≤ c.size + 1 ∧ Report.Spans 1 r reports) ∧
    ∀ a b, 1 ≤ a → 1 ≤ b →
      (∀ e, (s.iterate a c).result = .error e →
        (s.iterate (a + b) c).result = .error e ∧
          (s.iterate (a + b) c).circuit = (s.iterate a c).circuit) ∧
      ∀ reports, (s.iterate a c).result = .ok reports →
        (¬ Report.RemovedIn a reports →
          (s.iterate (a + b) c).result = .ok reports ∧
            (s.iterate (a + b) c).circuit = (s.iterate a c).circuit) ∧
        (Report.RemovedIn a reports → ∀ second, second = s.iterate b (s.iterate a c).circuit →
          (s.iterate (a + b) c).circuit = second.circuit ∧
            (s.iterate (a + b) c).result
              = second.result.map fun later => reports ++ later.map (Report.shift a)) := by
  have hproper := hc.proper hac
  have hshrinks : ∀ q ∈ s.pipeline.passes, q.Shrinks := fun _ => Settings.shrinks_of_mem_passes
  refine ⟨fun hnodup => ?_, fun reports hr => ?_, fun a b ha hb => ?_⟩
  · have hsound : c.Sound := ⟨hproper, hc.fits_iff.2 hnodup⟩
    exact (Pipeline.run_keeps (fun _ => Settings.safe_of_mem_passes) hsound).ends trivial
  · obtain ⟨hcircuit, hresult⟩ := Pipeline.run_eq_runRounds hshrinks hproper
    obtain ⟨-, haccount, hspans⟩ :=
      (Pipeline.runRounds_accounts 1 hshrinks s.pipeline.rounds hproper).ok reports (hresult ▸ hr)
    rw [hcircuit]
    exact ⟨haccount, haccount.sum_removed, hspans⟩
  · obtain ⟨hcircuit, hresult⟩ := s.iterate_eq_runRounds hproper ha
    obtain ⟨hwhole, hwhole'⟩ := s.iterate_eq_runRounds hproper (Nat.le_add_right_of_le (k := b) ha)
    rw [Pipeline.runRounds_add 1 hshrinks hproper] at hwhole hwhole'
    rw [hwhole, hwhole', hcircuit, hresult]
    have hround : 1 + a - 1 = a := by omega
    refine ⟨fun e he => ?_, fun reports hr => ⟨fun hidle => ?_, ?_⟩⟩
    · simp only [Run.andThen, he, and_self]
    · have hstop : ¬ (a = 0 ∨ Report.RemovedIn (1 + a - 1) reports) := by
        rw [hround]
        rintro (h | h)
        · omega
        · exact hidle h
      rw [Run.andThen_of_ok hr, if_neg hstop]
      exact ⟨rfl, rfl⟩
    · rintro hremoved second rfl
      have hgoOn : a = 0 ∨ Report.RemovedIn (1 + a - 1) reports := Or.inr (hround.symm ▸ hremoved)
      have hd := ((Pipeline.runRounds_accounts 1 hshrinks a hproper).ok reports hr).1
      obtain ⟨hcircuit', hresult'⟩ := s.iterate_eq_runRounds hd hb
      have hecho := Pipeline.runRounds_shift (p := s.pipeline) 1 b
        (s.pipeline.runRounds a 1 c).circuit a
      rw [Run.andThen_of_ok hr, if_pos hgoOn, hcircuit', hresult']
      refine ⟨hecho.circuit, ?_⟩
      show ((s.pipeline.runRounds b (1 + a) _).result).map _ = _
      rw [hecho.result]
      cases (s.pipeline.runRounds b 1 (s.pipeline.runRounds a 1 c).circuit).result <;> rfl

/-- The gates within a pair of equal gates cancel in the first round and the pair in the second.
After that there is nothing left to report on. -/
theorem run_accounts_of_reachable_nested :
    ∃ c, build 3 [.cnot [0] 1, .cnot [1] 2, .cnot [1] 2, .cnot [0] 1] = .ok c ∧
      (({} : Settings).iterate 1 c).result = .ok [⟨"RotationCnotCancellation", 1, 4, 2⟩] ∧
      (({} : Settings).iterate (1 + 2) c).result
        = .ok [⟨"RotationCnotCancellation", 1, 4, 2⟩, ⟨"RotationCnotCancellation", 2, 2, 0⟩] ∧
      (({} : Settings).iterate (1 + 2) c).circuit.gatesInOrder = [] := by
  have hbuild : build 3 [.cnot [0] 1, .cnot [1] 2, .cnot [1] 2, .cnot [0] 1]
      = .ok (ofGates 3 [.cnot [0] 1, .cnot [1] 2, .cnot [1] 2, .cnot [0] 1]) := rfl
  have hfirst : (({} : Settings).iterate 1 (ofGates 3 [.cnot [0] 1, .cnot [1] 2, .cnot [1] 2,
      .cnot [0] 1])).result = .ok [⟨"RotationCnotCancellation", 1, 4, 2⟩] := by cbv
  have haccounts := run_accounts_of_reachable (.build hbuild) (Proper.ofGates _ _).acyclic {}
  obtain ⟨hcircuit, hresult⟩ := ((haccounts.2.2 1 2 (by decide) (by decide)).2 _ hfirst).2
    (by decide) _ rfl
  refine ⟨_, hbuild, hfirst, ?_, ?_⟩
  · rw [hresult]
    cbv
  · rw [hcircuit]
    cbv

end Peephole
