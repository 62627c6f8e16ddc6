import Peephole.Hadamard.Reduction
import Peephole.Proofs.Hadamard.Step
import Peephole.Proofs.Run

/-!
# What a Hadamard reduction keeps

The reduction applies one rule after another, and every match it finds is carried out, so it ends
well and keeps what the rules keep. What it cannot cope with is a controlled not that its own target
controls: between two Hadamard gates it looks like one between Hadamard gates on two wires, and the
four gates to be removed are only two.

* `drain_keeps`, `drain_keeps_of_match`: working off a queue keeps what every match keeps.
* `reduce_keeps`: a property that is stable under the rules is kept. In particular the meaning of
  the circuit is, in every interpretation that satisfies the laws behind the rules.
-/

namespace Peephole.Hadamard

open Circuit

variable {P : Circuit → Prop} {c : Circuit}

/-- Working off a queue keeps what the edits of every match keep, whatever waits in it. It ends well
if they are all carried out. -/
theorem drain_keeps {safe : Prop}
    (hkeeps : ∀ c v m d, P c → match? c v = some m → c.applyAll m.edits = (d, none) → P d)
    (hsafe : safe → ∀ c v m, P c → match? c v = some m → (c.applyAll m.edits).2 = none)
    (hc : P c) (left : Nat) (queue : List VertexId) : (drain left c queue).Keeps P safe := by
  fun_induction drain left c queue with
  | case1 left c => exact .done hc
  | case2 left c v rest hm ih => exact ih hc
  | case3 c v rest m hm => exact .done hc
  | case4 c v rest m hm left ih =>
      refine .after ?_ _
      rcases hd : c.applyAll m.edits with ⟨d, _ | e⟩
      · exact (ih d (hkeeps c v m d hc hm hd)).map _
      · refine .failed fun hs => ?_
        have hnone := hsafe hs c v m hc hm
        rw [hd] at hnone
        cases hnone

theorem drain_keeps_of_match
    (hmatch : ∀ c v m, P c → match? c v = some m → ∃ d, c.applyAll m.edits = (d, none) ∧ P d)
    (hc : P c) (left : Nat) (queue : List VertexId) : (drain left c queue).Keeps P True := by
  refine drain_keeps (fun c v m d hc hm hd => ?_) (fun _ c v m hc hm => ?_) hc left queue
  · obtain ⟨d', hd', hPd⟩ := hmatch c v m hc hm
    obtain rfl : d' = d := congrArg Prod.fst (hd'.symm.trans hd)
    exact hPd
  · obtain ⟨d, hd, -⟩ := hmatch c v m hc hm
    rw [hd]

theorem reduce_keeps (hP : Stable Step P)
    (hself : ∀ c, P c → ∀ v g, c.gate? v = some g → ¬ g.SelfControlled) (hc : P c) :
    (reduce c).Keeps P True := by
  refine drain_keeps_of_match (fun c v m hc hm => ?_) hc _ _
  obtain ⟨d, hd, hr⟩ := rewrites_of_match? (hP.proper hc) (hself c hc) hm
  exact ⟨d, hd, hP.rewrites hc hr⟩

/-- A reduction ends well and keeps the meaning of the circuit, however the circuit came about, as
long as it is acyclic, its gates have kept their wires and no controlled not has its target among
its controls. -/
theorem meaning_reduce {M : Type*} [Monoid M] {den : Gate → M} (hden : Laws den)
    (hc : Reachable Gate.SameWires c) (hac : c.Acyclic)
    (hself : ∀ v g, c.gate? v = some g → ¬ g.SelfControlled) :
    (∃ n, (reduce c).result = .ok n) ∧ (reduce c).circuit.meaning den = c.meaning den := by
  have hproper : c.Proper := ⟨hc.linked, hc.aligned fun _ _ => id, hac⟩
  have hstable := (stable_meaning hden.disjoint hden.prod_eq (c.meaning den)).and_forall_gate
    fun lhs rhs hrule _ => Step.not_selfControlled lhs rhs hrule
  have hkeeps := reduce_keeps hstable (fun c hc => hc.2) ⟨⟨hproper, rfl⟩, hself⟩
  obtain ⟨n, hn⟩ := hkeeps.ends trivial
  exact ⟨⟨n, hn⟩, (hkeeps.circuit n hn).1.2⟩

/-- The last Hadamard gate of a reversal is the first of a phase flip, which then does not apply. -/
theorem meaning_reduce_overlap :
    ∃ c, build 2 [.hadamard 0, .hadamard 1, .cnot [0] 1, .hadamard 1, .hadamard 0, .phase 0,
        .hadamard 0] = .ok c ∧
      (reduce c).result = .ok 1 ∧
      (reduce c).circuit.gatesInOrder = [.cnot [1] 0, .phase 0, .hadamard 0] ∧
      (reduce c).circuit.meaning Pauli.conj = c.meaning Pauli.conj := by
  have hbuild : build 2 [.hadamard 0, .hadamard 1, .cnot [0] 1, .hadamard 1, .hadamard 0, .phase 0,
      .hadamard 0] = .ok (ofGates 2 [.hadamard 0, .hadamard 1, .cnot [0] 1, .hadamard 1,
        .hadamard 0, .phase 0, .hadamard 0]) := rfl
  refine ⟨_, hbuild, by cbv, by cbv, ?_⟩
  exact (meaning_reduce laws_pauli (.build hbuild) (Proper.ofGates _ _).acyclic
    fun v g hg => (Fits.of_build hbuild v g hg).not_selfControlled).2

/-- A gate between two Hadamard gates is overwritten by a controlled not that its own target
controls. It has kept its wires, and the circuit is acyclic, but the reduction fails: it takes the
first Hadamard gate for the one on the other wire as well, and removes it twice. -/
theorem reduce_self_control : Laws Pauli.conj ∧
    ∃ c, Reachable Gate.SameWires c ∧ c.Acyclic ∧
      (reduce c).result = .error (.circuit (.noVertex 0)) := by
  have hbuild : build 1 [.hadamard 0, ⟨.named "X", 0, []⟩, .hadamard 0]
      = .ok (ofGates 1 [.hadamard 0, ⟨.named "X", 0, []⟩, .hadamard 0]) := rfl
  have hproper := Proper.ofGates 1 [.hadamard 0, ⟨.named "X", 0, []⟩, .hadamard 0]
  refine ⟨laws_pauli, _, .modify (v := 1) (f := fun _ => .cnot [0] 0) (.build hbuild) ?_,
    (hproper.linear_order.modify 1 _).acyclic (hproper.linked.modify 1 _), by cbv⟩
  intro g hg w
  rw [gate?_ofGates] at hg
  obtain rfl := Option.some.inj hg
  simp [Gate.wires]

end Peephole.Hadamard
