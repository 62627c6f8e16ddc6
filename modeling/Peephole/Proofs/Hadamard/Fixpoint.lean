import Peephole.Proofs.Hadamard.Queue

/-!
# How far a Hadamard reduction goes

A vertex leaves the queue when it is taken from it, and comes back only if a rule makes a new
Hadamard gate of it. A rule that is applied later may still change what follows a vertex that was
passed over, and a rule then applies there after all. So a reduction need not leave a circuit where
no rule applies: that takes reductions until one of them applies no rule, and there are at most as
many of them as there are Hadamard gates.

* `Settled`: no rule applies at any vertex.
* `PassedOver`: a vertex that no rule applied at when its turn came.
* `Reaches.waits_or_passedOver`: where the Hadamard gates are at every point of a reduction.
-/

namespace Peephole.Hadamard

open Circuit
open Relation (ReflTransGen)

variable {c d : Circuit} {v x : VertexId} {p q : Progress}

/-- No rule applies. -/
def Settled (c : Circuit) : Prop := ∀ v, match? c v = none

/-- The vertex holds a Hadamard gate, which may be controlled. -/
def HoldsHadamard (c : Circuit) (v : VertexId) : Prop :=
  ∃ g, c.gate? v = some g ∧ g.kind = .hadamard

/-! ## Where Hadamard gates come from -/

theorem HoldsHadamard.of_match? (hc : c.Linked) {m : Match} (hm : match? c v = some m) :
    HoldsHadamard c v := by
  obtain ⟨w, hv, -⟩ := found_of_match? hc hm
  exact ⟨_, hv, rfl⟩

theorem HoldsHadamard.mem_idsNamed (h : HoldsHadamard c v) : v ∈ c.idsNamed "H" := by
  obtain ⟨g, hg, hkind⟩ := h
  have hname : g.name = "H" := by rw [Gate.name, hkind]; rfl
  exact List.mem_map.2 ⟨(v, g), List.mem_filter.2 ⟨mem_of_lookup hg, by simp [hname]⟩, rfl⟩

theorem holdsHadamard_modify_of_ne {f : Gate → Gate} (hx : x ≠ v) :
    HoldsHadamard (c.modify v f) x ↔ HoldsHadamard c x := by
  rw [HoldsHadamard, gate?_modify_of_ne c v f hx, HoldsHadamard]

theorem HoldsHadamard.of_modify {f : Gate → Gate} (h : HoldsHadamard (c.modify v f) x)
    (hf : ∀ g, (f g).kind = .hadamard → g.kind = .hadamard) : HoldsHadamard c x := by
  by_cases hx : x = v
  · subst hx
    obtain ⟨g, hg, hkind⟩ := h
    rw [gate?_modify_self, Option.map_eq_some_iff] at hg
    obtain ⟨k, hk, rfl⟩ := hg
    exact ⟨k, hk, hf k hkind⟩
  · exact (holdsHadamard_modify_of_ne hx).1 h

/-- An edit makes a Hadamard gate, or leaves one where it was. -/
theorem holdsHadamard_of_apply {e : Edit} (he : e.apply c = .ok d) (hx : HoldsHadamard d x) :
    e = .setKind x .hadamard ∨
      HoldsHadamard c x ∧ e ≠ .remove x ∧ ∀ kind, e ≠ .setKind x kind := by
  cases e with
  | remove y =>
      obtain ⟨-, rfl⟩ := apply_remove_eq_ok_iff.1 he
      obtain ⟨g, hg, hkind⟩ := hx
      obtain ⟨hne, hg⟩ := gate?_without c y hg
      refine Or.inr ⟨⟨g, hg, hkind⟩, ?_, by simp⟩
      rintro ⟨⟩
      exact hne rfl
  | commute a b =>
      obtain ⟨-, rfl⟩ := commute_eq_ok_iff.1 he
      rw [HoldsHadamard, gate?_swapped] at hx
      exact Or.inr ⟨hx, by simp, by simp⟩
  | setKind y kind =>
      obtain ⟨-, rfl⟩ := apply_setKind_eq_ok_iff.1 he
      by_cases hxy : x = y
      · subst hxy
        obtain ⟨g, hg, hkind⟩ := hx
        rw [gate?_modify_self, Option.map_eq_some_iff] at hg
        obtain ⟨k, -, rfl⟩ := hg
        obtain rfl : kind = .hadamard := hkind
        exact Or.inl rfl
      · refine Or.inr ⟨(holdsHadamard_modify_of_ne hxy).1 hx, by simp, ?_⟩
        rintro kind' ⟨⟩
        exact hxy rfl
  | setWires y target controls =>
      obtain ⟨-, rfl⟩ := apply_setWires_eq_ok_iff.1 he
      exact Or.inr ⟨hx.of_modify fun _ => id, by simp, by simp⟩
  | turn y θ =>
      cases he
      refine Or.inr ⟨hx.of_modify fun g hg => ?_, by simp, by simp⟩
      obtain ⟨kind, target, controls⟩ := g
      cases kind <;> first | exact hg | cases hg

theorem holdsHadamard_of_applyAll {es : List Edit} (h : c.applyAll es = (d, none))
    (hx : HoldsHadamard d x) :
    .setKind x .hadamard ∈ es ∨
      HoldsHadamard c x ∧ .remove x ∉ es ∧ ∀ kind, .setKind x kind ∉ es := by
  induction es generalizing c with
  | nil =>
      obtain rfl : c = d := congrArg Prod.fst h
      exact Or.inr ⟨hx, by simp, by simp⟩
  | cons e rest ih =>
      obtain ⟨c', he, hrest⟩ := applyAll_cons_eq_iff.1 h
      rcases ih hrest with hmem | ⟨hx', hremove, hkind⟩
      · exact Or.inl (List.mem_cons_of_mem e hmem)
      · rcases holdsHadamard_of_apply he hx' with rfl | ⟨hx, hremove', hkind'⟩
        · exact Or.inl List.mem_cons_self
        · refine Or.inr ⟨hx, ?_, fun kind => ?_⟩
          · rw [List.mem_cons, not_or]
            exact ⟨hremove'.symm, hremove⟩
          · rw [List.mem_cons, not_or]
            exact ⟨(hkind' kind).symm, hkind kind⟩

/-- After a match, a Hadamard gate is one that the rule created or one that was there before, but
not the one the match was found at. -/
theorem holdsHadamard_of_match? (hc : c.Linked) {m : Match} (hm : match? c v = some m)
    (hd : c.applyAll m.edits = (d, none)) (hx : HoldsHadamard d x) :
    x ∈ m.created ∨ x ≠ v ∧ HoldsHadamard c x := by
  obtain ⟨w, -, hfound⟩ := found_of_match? hc hm
  have hphase : ∀ {p q : Kind}, p.inversePhase? = some q → p ≠ .hadamard ∧ q ≠ .hadamard := by
    intro p q hq
    rcases inversePhase?_eq_some hq with ⟨rfl, rfl⟩ | ⟨rfl, rfl⟩ <;> simp
  rcases holdsHadamard_of_applyAll hd hx with hmem | ⟨hx', hremove, hkind⟩
  · cases hfound with
    | flipPhase hq =>
        refine Or.inl ?_
        simpa [Match.edits, Match.created, (hphase hq).2.symm] using hmem
    | reverseCnot => simp [Match.edits] at hmem
    | phaseCnot hq =>
        simp [Match.edits, (hphase hq).1.symm, (hphase hq).2.symm] at hmem
  · refine Or.inr ⟨?_, hx'⟩
    rintro rfl
    cases hfound with
    | flipPhase hq => exact hkind _ List.mem_cons_self
    | reverseCnot => exact hremove List.mem_cons_self
    | phaseCnot hq => exact hremove List.mem_cons_self

/-! ## What a reduction leaves -/

/-- At an earlier point of the reduction it was the turn of the vertex, and no rule applied. -/
def PassedOver (c : Circuit) (p : Progress) (v : VertexId) : Prop :=
  ∃ q, Reaches c q ∧ ReflTransGen Advances q p ∧ q.queue.head? = some v ∧ match? q.circuit v = none

theorem PassedOver.step (h : PassedOver c p v) (hpq : Advances p q) : PassedOver c q v := by
  obtain ⟨q', hreach, hpath, hturn⟩ := h
  exact ⟨q', hreach, hpath.tail hpq, hturn⟩

/-- Every Hadamard gate waits in the queue, unless its vertex was passed over. -/
theorem Reaches.waits_or_passedOver (hc : Reachable Gate.SameWires c) (h : Reaches c p) :
    ∀ v, HoldsHadamard p.circuit v → v ∈ p.queue ∨ PassedOver c p v := by
  induction h with
  | refl => exact fun v hv => Or.inl hv.mem_idsNamed
  | tail hp hstep ih =>
      intro x hx
      have hreach := Reaches.reachable hc hp
      cases hstep with
      | @pass c' v rest applied hm =>
          rcases ih x hx with hwaits | hpassed
          · rcases List.mem_cons.1 hwaits with rfl | hwaits
            · exact Or.inr ⟨_, hp, .single (.pass hm), rfl, hm⟩
            · exact Or.inl hwaits
          · exact Or.inr (hpassed.step (.pass hm))
      | @apply c' d v rest applied m hm hd =>
          rcases holdsHadamard_of_match? hreach.linked hm hd hx with hcreated | ⟨hne, hx'⟩
          · exact Or.inl (List.mem_append_right rest hcreated)
          · rcases ih x hx' with hwaits | hpassed
            · exact Or.inl (List.mem_append_left _ ((List.mem_cons.1 hwaits).resolve_left hne))
            · exact Or.inr (hpassed.step (.apply hm hd))

/-- Between two points of a reduction no rule was applied, or Hadamard gates were saved. -/
theorem circuit_eq_or_count_lt (hp : Reachable Gate.SameWires p.circuit)
    (h : ReflTransGen Advances p q) :
    q.circuit = p.circuit ∨ count q.circuit < count p.circuit := by
  induction h with
  | refl => exact Or.inl rfl
  | tail hpath hstep ih =>
      rcases hstep.accounts (descent_advances.of_reflTransGen hp hpath) with
        ⟨hcircuit, -⟩ | ⟨v, r, -, hcount, -⟩
      · rwa [hcircuit]
      · have hpos := r.saved_pos
        rcases ih with heq | hlt
        · rw [heq] at hcount
          exact Or.inr (by omega)
        · exact Or.inr (by omega)

/-- Where a rule still applies after a reduction, the vertex was passed over, and another rule was
applied later. -/
theorem Reaches.exists_passedOver (hc : Reachable Gate.SameWires c) (h : Reaches c p)
    (hqueue : p.queue = []) {m : Match} (hm : match? p.circuit v = some m) :
    ∃ q, Reaches c q ∧ q.queue.head? = some v ∧ match? q.circuit v = none ∧
      count p.circuit < count q.circuit := by
  have hv := HoldsHadamard.of_match? (Reaches.reachable hc h).linked hm
  rcases Reaches.waits_or_passedOver hc h v hv with hwaits | ⟨q, hq, hpath, hturn, hnone⟩
  · rw [hqueue] at hwaits
    cases hwaits
  · refine ⟨q, hq, hturn, hnone, ?_⟩
    refine (circuit_eq_or_count_lt (Reaches.reachable hc hq) hpath).resolve_left fun heq => ?_
    rw [heq, hnone] at hm
    cases hm

/-! ## Reduction after reduction -/

theorem drain_of_settled (h : Settled c) (left : Nat) (queue : List VertexId) :
    drain left c queue = .done c 0 := by
  induction queue with
  | nil => rw [drain]
  | cons v rest ih => rw [drain_cons_of_none (h v), ih]

/-- A reduction that applies no rule has found that none applies. -/
theorem settled_of_ok_zero (hc : Reachable Gate.SameWires c) (h : (reduce c).result = .ok 0) :
    Settled c := by
  obtain ⟨p, hp, hqueue, -, -, hnone⟩ := exists_of_reduce_eq_ok hc h
  have hcount : count p.circuit = count c := by
    have := (Reaches.totals hc hp).1
    rwa [List.length_eq_zero_iff.1 hnone, List.map_nil, List.sum_nil, Nat.add_zero] at this
  have hcircuit : p.circuit = c :=
    (circuit_eq_or_count_lt hc hp).resolve_right fun hlt => Nat.ne_of_lt hlt hcount
  intro v
  by_contra hm
  obtain ⟨m, hm⟩ := Option.ne_none_iff_exists'.1 hm
  rw [← hcircuit] at hm
  -- a vertex that was passed over wrongly would need a rule applied after it
  obtain ⟨q, hq, -, -, hlt⟩ := Reaches.exists_passedOver hc hp hqueue hm
  have hle := (Reaches.totals hc hq).1
  omega

/-- The circuit that a reduction leaves. -/
def reduced (c : Circuit) : Circuit := (reduce c).circuit

theorem reduced_of_ok (hc : Reachable Gate.SameWires c) {n : Nat} (h : (reduce c).result = .ok n) :
    Reachable Gate.SameWires (reduced c) ∧ n + count (reduced c) ≤ count c := by
  obtain ⟨p, hp, -, hcircuit, -, hlen⟩ := exists_of_reduce_eq_ok hc h
  rw [reduced, ← hcircuit]
  have htotal := (Reaches.totals hc hp).1
  have hle := length_le_sum_saved p.applied
  exact ⟨Reaches.reachable hc hp, by omega⟩

/-- Reductions one after another apply rules, until none applies or one of them fails. -/
theorem exists_settled_or_error {c : Circuit} (hc : Reachable Gate.SameWires c) :
    ∃ k ≤ count c, (∀ j < k, ∃ n, 0 < n ∧ (reduce (reduced^[j] c)).result = .ok n) ∧
      (Settled (reduced^[k] c) ∨ ∃ e, (reduce (reduced^[k] c)).result = .error e) := by
  cases hr : (reduce c).result with
  | error e => exact ⟨0, Nat.zero_le _, by simp, Or.inr ⟨e, hr⟩⟩
  | ok n =>
      cases n with
      | zero => exact ⟨0, Nat.zero_le _, by simp, Or.inl (settled_of_ok_zero hc hr)⟩
      | succ n =>
          obtain ⟨hreach, hle⟩ := reduced_of_ok hc hr
          obtain ⟨k, hk, hbefore, hend⟩ := exists_settled_or_error hreach
          refine ⟨k + 1, by omega, fun j hj => ?_, hend⟩
          cases j with
          | zero => exact ⟨n + 1, Nat.succ_pos n, hr⟩
          | succ j => exact hbefore j (by omega)
termination_by count c
decreasing_by omega

/-- Without cycles, and without controlled nots that their own target controls, no reduction in a
row fails. -/
theorem reduce_iterate_ok (hc : c.Proper)
    (hself : ∀ v g, c.gate? v = some g → ¬ g.SelfControlled) (k : Nat) :
    ∃ n, (reduce (reduced^[k] c)).result = .ok n := by
  have hstable := (stable_proper Step).and_forall_gate
    fun lhs rhs hrule _ => Step.not_selfControlled lhs rhs hrule
  induction k generalizing c with
  | zero => exact (reduce_keeps hstable (fun c hc => hc.2) ⟨hc, hself⟩).ends trivial
  | succ k ih =>
      have hkeeps := reduce_keeps hstable (fun c hc => hc.2) ⟨hc, hself⟩
      obtain ⟨n, hn⟩ := hkeeps.ends trivial
      obtain ⟨hproper, hself'⟩ := hkeeps.circuit n hn
      exact ih hproper hself'

/-- A reduction applies no rule exactly when none applies anywhere, and then it changes nothing. One
that does may leave a place where a rule applies; but that vertex was passed over, and later another
rule was applied. Reductions in a row come to a circuit where no rule applies, unless one of them
fails, after no more of them than there are Hadamard gates at first. -/
theorem reduce_fixpoint_of_reachable (hc : Reachable Gate.SameWires c) :
    (Settled c ↔ (reduce c).result = .ok 0) ∧ (Settled c → (reduce c).circuit = c) ∧
    (∀ n, (reduce c).result = .ok n → ∀ v m, match? (reduce c).circuit v = some m →
      ∃ p, Reaches c p ∧ p.queue.head? = some v ∧ match? p.circuit v = none ∧
        count (reduce c).circuit < count p.circuit) ∧
    (∃ k ≤ count c, (∀ j < k, ∃ n, 0 < n ∧ (reduce (reduced^[j] c)).result = .ok n) ∧
      (Settled (reduced^[k] c) ∨ ∃ e, (reduce (reduced^[k] c)).result = .error e)) ∧
    (c.Acyclic → (∀ v g, c.gate? v = some g → ¬ g.SelfControlled) →
      ∃ k ≤ count c, Settled (reduced^[k] c)) := by
  have hsettled : Settled c → reduce c = .done c 0 := fun h => drain_of_settled h _ _
  refine ⟨⟨fun h => ?_, settled_of_ok_zero hc⟩, fun h => ?_, fun n hn v m hm => ?_,
    exists_settled_or_error hc, fun hac hself => ?_⟩
  · rw [hsettled h]
    rfl
  · rw [hsettled h]
    rfl
  · obtain ⟨p, hp, hqueue, hcircuit, -⟩ := exists_of_reduce_eq_ok hc hn
    rw [← hcircuit] at hm ⊢
    exact Reaches.exists_passedOver hc hp hqueue hm
  · obtain ⟨k, hk, -, hend⟩ := exists_settled_or_error hc
    refine ⟨k, hk, hend.resolve_right ?_⟩
    rintro ⟨e, he⟩
    obtain ⟨n, hn⟩ := reduce_iterate_ok (hc.proper hac) hself k
    rw [hn] at he
    cases he

/-- Of three Hadamard gates, the first is passed over and the second then becomes a phase. Now a
rule applies at the first. -/
theorem reduce_fixpoint_of_reachable_passed :
    ∃ c, build 1 [.hadamard 0, .hadamard 0, .phase 0, .hadamard 0] = .ok c ∧
      (reduce c).result = .ok 1 ∧ ∃ p, Reaches c p ∧ p.queue.head? = some 0 ∧
        match? p.circuit 0 = none ∧ count (reduce c).circuit < count p.circuit := by
  have hbuild : build 1 [.hadamard 0, .hadamard 0, .phase 0, .hadamard 0]
      = .ok (ofGates 1 [.hadamard 0, .hadamard 0, .phase 0, .hadamard 0]) := rfl
  obtain ⟨-, -, hpassed, -, -⟩ := reduce_fixpoint_of_reachable (.build hbuild)
  exact ⟨_, hbuild, by cbv, hpassed 1 (by cbv) 0 (.flipPhase 0 1 2 .phase) (by cbv)⟩

/-- A second reduction applies a rule that the first one has left. -/
theorem reduce_leaves_match :
    ∃ c, build 1 [.hadamard 0, .hadamard 0, .phase 0, .hadamard 0] = .ok c ∧ c.Acyclic ∧
      (reduce c).result = .ok 1 ∧
      match? (reduce c).circuit 0 = some (.flipPhase 0 1 2 .phase) ∧
      (reduce (reduce c).circuit).result = .ok 1 ∧
      (reduce (reduce c).circuit).circuit.gatesInOrder
        = [.phase 0, .hadamard 0, .phase 0, .phaseDagger 0] := by
  refine ⟨_, rfl, (Proper.ofGates _ _).acyclic, by cbv, by cbv, by cbv, by cbv⟩

end Peephole.Hadamard
