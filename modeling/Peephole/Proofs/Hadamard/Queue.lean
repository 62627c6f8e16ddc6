import Mathlib.Algebra.GroupWithZero.Nat
import Peephole.Proofs.Circuit.Commutation
import Peephole.Proofs.Hadamard.Reduction

/-!
# The queue of a Hadamard reduction

The reduction takes vertices from a queue it also adds to, and applies rules that turn phases into
Hadamard gates. It ends because every rule saves Hadamard gates. That the vertices of a match differ
from each other is needed here: a vertex between two others tells them apart, and one that is to be
removed a second time is refused. No order of the whole circuit is, so all this holds on cycles as
well.

* `Rule.saved`, `Rule.removed`: the Hadamard gates and the gates that a rule saves.
* `saves_of_match?`: what one match saves.
* `drain_eq_of_count_le`: as many rules as there are Hadamard gates are always enough.
* `Progress`, `Advances`: the points of a reduction, and the steps between them.
* `Progress.outcome`: the run that a point is part of, which no step changes.
-/

namespace Peephole.Hadamard

open Circuit
open Relation (ReflTransGen)

variable {c d : Circuit} {v : VertexId} {g : Gate}

/-! ## Counting Hadamard gates -/

/-- What a gate of this kind adds to the count. -/
def weight (k : Kind) : Nat := if k.family = .hadamard then 1 else 0

theorem weight_kind (g : Gate) : weight g.kind = if g.family = .hadamard then 1 else 0 := rfl

theorem weight_of_inversePhase? {p q : Kind} (h : p.inversePhase? = some q) :
    weight p = 0 ∧ weight q = 0 := by
  rcases inversePhase?_eq_some h with ⟨rfl, rfl⟩ | ⟨rfl, rfl⟩ <;> exact ⟨rfl, rfl⟩

theorem count_modify (hc : c.Linked) (hg : c.gate? v = some g) (f : Gate → Gate) :
    count (c.modify v f) + weight g.kind = count c + weight (f g).kind := by
  obtain ⟨A, B, hcut, -, hmodify⟩ := hc.exists_gates_eq hg
  rw [count, count, hmodify, hcut, List.countP_append, List.countP_append, List.countP_cons,
    List.countP_cons, weight_kind, weight_kind]
  simp only [decide_eq_true_eq]
  omega

theorem count_without (hc : c.Linked) (hg : c.gate? v = some g) :
    count (c.without v) + weight g.kind = count c := by
  obtain ⟨A, B, hcut, hwithout, -⟩ := hc.exists_gates_eq hg
  rw [count, count, hwithout, hcut, List.countP_append, List.countP_append, List.countP_cons,
    weight_kind]
  simp only [decide_eq_true_eq]
  omega

/-! ## What a rule saves -/

/-- How many Hadamard gates the rule saves. -/
def Rule.saved : Rule → Nat
  | .flipPhase => 1
  | .reverseCnot => 4
  | .phaseCnot => 2

/-- How many gates the rule removes. -/
def Rule.removed : Rule → Nat
  | .flipPhase => 0
  | .reverseCnot => 4
  | .phaseCnot => 2

theorem Rule.saved_pos (r : Rule) : 0 < r.saved := by cases r <;> decide

theorem Match.countP_isRemoval_edits (m : Match) :
    m.edits.countP Edit.isRemoval = m.rule.removed := by
  cases m <;> rfl

theorem Match.length_created_le (m : Match) : m.created.length ≤ 1 := by
  cases m <;> simp [Match.created]

section Saving

variable {w : Wire} {allowed : Gate → Gate → Prop} (hsame : ∀ g h, g.SameWires h → allowed g h)
  (hc : Reachable allowed c)
include hc

/-- A match is found at a Hadamard gate. -/
theorem count_pos_of_match? {m : Match} (hm : match? c v = some m) : 0 < count c := by
  obtain ⟨w, hv, -⟩ := found_of_match? hc.linked hm
  exact List.countP_pos_iff.2 ⟨_, mem_of_lookup hv, rfl⟩

include hsame

theorem saves_setKind (hg : c.gate? v = some g) (kind : Kind) :
    Reachable allowed (c.modify v fun g => { g with kind }) ∧
      count (c.modify v fun g => { g with kind }) + weight g.kind = count c + weight kind :=
  ⟨.modify hc fun _ _ => hsame _ _ fun _ => Iff.rfl, count_modify hc.linked hg _⟩

omit hsame in
/-- Removing Hadamard gates one by one leaves the other gates as they are. A vertex that is listed
twice would be refused. -/
theorem saves_removes {vs : List VertexId}
    (hvs : ∀ v ∈ vs, ∀ g, c.gate? v = some g → g.kind = .hadamard)
    (hd : c.applyAll (vs.map .remove) = (d, none)) :
    Reachable allowed d ∧ count d + vs.length = count c ∧
      ∀ x g, d.gate? x = some g → c.gate? x = some g := by
  induction vs generalizing c with
  | nil =>
      obtain rfl : c = d := congrArg Prod.fst hd
      exact ⟨hc, rfl, fun _ _ => id⟩
  | cons v rest ih =>
      obtain ⟨c', he, hrest⟩ := applyAll_cons_eq_iff.1 hd
      obtain ⟨hv, rfl⟩ := apply_remove_eq_ok_iff.1 he
      obtain ⟨g, hg⟩ := mem_ids.1 hv
      rw [List.forall_mem_cons] at hvs
      have hsub : ∀ x k, (c.without v).gate? x = some k → c.gate? x = some k :=
        fun x k hk => (gate?_without c v hk).2
      obtain ⟨hr, hcount, hgates⟩ := ih (.remove hc (remove_of_gate? hg))
        (fun x hx k hk => hvs.2 x hx k (hsub x k hk)) hrest
      have hone : count (c.without v) + 1 = count c := by
        have := count_without hc.linked hg
        rwa [hvs.1 g hg] at this
      refine ⟨hr, ?_, fun x k hk => hsub x k (hgates x k hk)⟩
      rw [List.length_cons]
      omega

theorem saves_flipPhase {n l : VertexId} {p q : Kind} (hq : p.inversePhase? = some q)
    (hv : c.gate? v = some (.hadamard w)) (hn : c.gate? n = some ⟨p, w, []⟩)
    (hl : c.gate? l = some (.hadamard w)) (hvn : c.Edge v n) (hnl : c.Edge n l)
    (hd : c.applyAll (Match.flipPhase v n l q).edits = (d, none)) :
    Reachable allowed d ∧ count d + 1 = count c := by
  obtain ⟨c₁, h₁, hd⟩ := applyAll_cons_eq_iff.1 hd
  obtain ⟨c₂, h₂, hd⟩ := applyAll_cons_eq_iff.1 hd
  obtain ⟨c₃, h₃, hd⟩ := applyAll_cons_eq_iff.1 hd
  obtain rfl : c₃ = d := congrArg Prod.fst hd
  obtain ⟨-, rfl⟩ := apply_setKind_eq_ok_iff.1 h₁
  obtain ⟨-, rfl⟩ := apply_setKind_eq_ok_iff.1 h₂
  obtain ⟨-, rfl⟩ := apply_setKind_eq_ok_iff.1 h₃
  have hnv : n ≠ v := (hc.linked.ne_of_edge hvn).symm
  have hln : l ≠ n := (hc.linked.ne_of_edge hnl).symm
  have hlv : l ≠ v := (hc.alike.ne_of_edges hc.linked hvn hnl).symm
  -- the three vertices differ, so that each overwriting finds the gate of the match
  obtain ⟨hr₁, hcount₁⟩ := saves_setKind hsame hc hv q
  obtain ⟨hr₂, hcount₂⟩ :=
    saves_setKind hsame hr₁ ((gate?_modify_of_ne _ _ _ hnv).trans hn) .hadamard
  obtain ⟨hr₃, hcount₃⟩ := saves_setKind hsame hr₂
    ((gate?_modify_of_ne _ _ _ hln).trans ((gate?_modify_of_ne _ _ _ hlv).trans hl)) q
  have hone : weight .hadamard = 1 := rfl
  obtain ⟨hp, hq⟩ := weight_of_inversePhase? hq
  simp only [Gate.hadamard, hone, hp, hq] at hcount₁ hcount₂ hcount₃
  exact ⟨hr₃, by omega⟩

theorem saves_reverseCnot {b n l a : VertexId} {u : Wire} (hv : c.gate? v = some (.hadamard w))
    (hb : c.gate? b = some (.hadamard u)) (hn : c.gate? n = some (.cnot [w] u))
    (hl : c.gate? l = some (.hadamard w)) (ha : c.gate? a = some (.hadamard u))
    (hd : c.applyAll (Match.reverseCnot v l b a n u w).edits = (d, none)) :
    Reachable allowed d ∧ count d + 4 = count c := by
  obtain ⟨c', hremoves, hd⟩ :
      ∃ c', c.applyAll ([v, l, b, a].map .remove) = (c', none) ∧
        c'.applyAll [.setWires n w [u]] = (d, none) := applyAll_append_eq_iff.1 hd
  obtain ⟨hr, hcount, hgates⟩ := saves_removes hc
    (by simp [hv, hl, hb, ha, Gate.hadamard]) hremoves
  obtain ⟨d', h₁, hd⟩ := applyAll_cons_eq_iff.1 hd
  obtain rfl : d' = d := congrArg Prod.fst hd
  obtain ⟨hlive, rfl⟩ := apply_setWires_eq_ok_iff.1 h₁
  obtain ⟨g, hg⟩ := mem_ids.1 hlive
  obtain rfl : g = .cnot [w] u := Option.some.inj ((hgates n g hg).symm.trans hn)
  have hkeep : count (c'.modify n fun g => { g with target := w, controls := [u] }) = count c' :=
    Nat.add_right_cancel (count_modify hr.linked hg _)
  refine ⟨.modify hr fun k hk => hsame _ _ fun z => ?_, hkeep ▸ hcount⟩
  obtain rfl := Option.some.inj (hg.symm.trans hk)
  simp [Gate.wires, or_comm]

theorem saves_phaseCnot {o r l : VertexId} {p q : Kind} (hq : p.inversePhase? = some q)
    (hv : c.gate? v = some (.hadamard w)) (ho : c.gate? o = some ⟨p, w, []⟩)
    (hr : c.gate? r = some ⟨q, w, []⟩) (hl : c.gate? l = some (.hadamard w))
    (hd : c.applyAll (Match.phaseCnot v l o q r p).edits = (d, none)) :
    Reachable allowed d ∧ count d + 2 = count c := by
  obtain ⟨c', hremoves, hd⟩ :
      ∃ c', c.applyAll ([v, l].map .remove) = (c', none) ∧
        c'.applyAll [.setKind o q, .setKind r p] = (d, none) := applyAll_append_eq_iff.1 hd
  obtain ⟨hr', hcount, hgates⟩ := saves_removes hc (by simp [hv, hl, Gate.hadamard]) hremoves
  obtain ⟨c₁, h₁, hd⟩ := applyAll_cons_eq_iff.1 hd
  obtain ⟨c₂, h₂, hd⟩ := applyAll_cons_eq_iff.1 hd
  obtain rfl : c₂ = d := congrArg Prod.fst hd
  obtain ⟨hlive, rfl⟩ := apply_setKind_eq_ok_iff.1 h₁
  obtain ⟨hlive', rfl⟩ := apply_setKind_eq_ok_iff.1 h₂
  rw [ids_modify] at hlive'
  obtain ⟨g, hg⟩ := mem_ids.1 hlive
  obtain ⟨k, hk⟩ := mem_ids.1 hlive'
  obtain rfl : g = ⟨p, w, []⟩ := Option.some.inj ((hgates o g hg).symm.trans ho)
  obtain rfl : k = ⟨q, w, []⟩ := Option.some.inj ((hgates r k hk).symm.trans hr)
  -- the two phases are inverse to each other, and so not the same gate
  have hro : r ≠ o := by
    rintro rfl
    rw [hg] at hk
    rcases inversePhase?_eq_some hq with ⟨rfl, rfl⟩ | ⟨rfl, rfl⟩ <;> cases hk
  obtain ⟨hr₁, hcount₁⟩ := saves_setKind hsame hr' hg q
  obtain ⟨hr₂, hcount₂⟩ := saves_setKind hsame hr₁ ((gate?_modify_of_ne _ _ _ hro).trans hk) p
  obtain ⟨hp, hq⟩ := weight_of_inversePhase? hq
  simp only [hp, hq, List.length_cons, List.length_nil] at hcount hcount₁ hcount₂
  exact ⟨hr₂, by omega⟩

/-- A match whose edits are all carried out saves what its rule says. -/
theorem saves_of_match? {m : Match} (hm : match? c v = some m)
    (hd : c.applyAll m.edits = (d, none)) :
    Reachable allowed d ∧ count d + m.rule.saved = count c ∧
      d.size + m.rule.removed = c.size := by
  have hsize := hc.linked.size_applyAll hd
  rw [m.countP_isRemoval_edits] at hsize
  obtain ⟨w, hv, hfound⟩ := found_of_match? hc.linked hm
  cases hfound with
  | flipPhase hq hn hl hvn hnl =>
      obtain ⟨hr, hcount⟩ := saves_flipPhase hsame hc hq hv hn hl hvn hnl hd
      exact ⟨hr, hcount, hsize⟩
  | reverseCnot hb hn hl ha =>
      obtain ⟨hr, hcount⟩ := saves_reverseCnot hsame hc hv hb hn hl ha hd
      exact ⟨hr, hcount, hsize⟩
  | phaseCnot hq ho hn hr hl =>
      obtain ⟨hr', hcount⟩ := saves_phaseCnot hsame hc hq hv ho hr hl hd
      exact ⟨hr', hcount, hsize⟩

end Saving

/-! ## Steps -/

section Drain

variable {left : Nat} {rest : List VertexId} {m : Match}

theorem drain_cons_of_none (hm : match? c v = none) :
    drain left c (v :: rest) = drain left c rest := by
  rw [drain, hm]

theorem drain_succ_of_error {e : Error} (hm : match? c v = some m)
    (hd : c.applyAll m.edits = (d, some e)) :
    drain (left + 1) c (v :: rest) = .after (.reducing v m.rule) (.failed d (.circuit e)) := by
  rw [drain, hm]
  simp only [hd]

theorem drain_succ_of_ok (hm : match? c v = some m) (hd : c.applyAll m.edits = (d, none)) :
    drain (left + 1) c (v :: rest)
      = .after (.reducing v m.rule) ((drain left d (rest ++ m.created)).map (· + 1)) := by
  rw [drain, hm]
  simp only [hd]

variable {allowed : Gate → Gate → Prop} (hsame : ∀ g h, g.SameWires h → allowed g h)
  (hc : Reachable allowed c)
include hc

theorem drain_cons_of_error {e : Error} (hm : match? c v = some m)
    (hd : c.applyAll m.edits = (d, some e)) :
    drain (count c) c (v :: rest) = .after (.reducing v m.rule) (.failed d (.circuit e)) := by
  obtain ⟨left, hleft⟩ := Nat.exists_eq_add_one.2 (count_pos_of_match? hc hm)
  rw [hleft, drain_succ_of_error hm hd]

include hsame

theorem count_le_of_match? (hm : match? c v = some m) (hd : c.applyAll m.edits = (d, none))
    (hle : count c ≤ left + 1) : Reachable allowed d ∧ count d ≤ left := by
  obtain ⟨hr, hcount, -⟩ := saves_of_match? hsame hc hm hd
  have hpos := m.rule.saved_pos
  exact ⟨hr, by omega⟩

/-- Rules never run out. Whatever a circuit went through, a queue is worked off in the same way by
any number of rules that is not below the number of Hadamard gates. -/
theorem drain_eq_of_count_le {left' : Nat} (hle : count c ≤ left) (hle' : count c ≤ left')
    (queue : List VertexId) : drain left c queue = drain left' c queue := by
  fun_induction drain left c queue generalizing left' with
  | case1 left c => rw [drain]
  | case2 left c v rest hm ih => rw [ih hc hle hle', drain_cons_of_none hm]
  | case3 c v rest m hm => exact absurd (count_pos_of_match? hc hm) (by omega)
  | case4 c v rest m hm left ih =>
      obtain ⟨left', rfl⟩ := Nat.exists_eq_add_one.2 ((count_pos_of_match? hc hm).trans_le hle')
      rcases hd : c.applyAll m.edits with ⟨d, _ | e⟩
      · obtain ⟨hr, hd_le⟩ := count_le_of_match? hsame hc hm hd hle
        have hd_le' := (count_le_of_match? hsame hc hm hd hle').2
        rw [drain_succ_of_ok hm hd, ← ih d hr hd_le hd_le']
      · rw [drain_succ_of_error hm hd]

theorem drain_cons_of_ok (hm : match? c v = some m) (hd : c.applyAll m.edits = (d, none)) :
    drain (count c) c (v :: rest)
      = .after (.reducing v m.rule) ((drain (count d) d (rest ++ m.created)).map (· + 1)) := by
  obtain ⟨left, hleft⟩ := Nat.exists_eq_add_one.2 (count_pos_of_match? hc hm)
  obtain ⟨hr, hle⟩ := count_le_of_match? hsame hc hm hd hleft.le
  rw [hleft, drain_succ_of_ok hm hd, drain_eq_of_count_le hsame hr hle le_rfl]

end Drain

/-- A point of a reduction: the circuit as far as it got, what waits in the queue, and the rules
that were applied, each with the vertex it was found at. -/
structure Progress where
  circuit : Circuit
  queue : List VertexId
  applied : List (VertexId × Rule)

namespace Progress

/-- Before the first step. -/
def start (c : Circuit) : Progress := ⟨c, c.idsNamed "H", []⟩

/-- What the rules that were applied report. -/
def log (p : Progress) : List Event := p.applied.map fun a => .reducing a.1 a.2

/-- The whole run that the point is part of: what was done before, and what the queue leads to. -/
def outcome (p : Progress) : Run Nat where
  circuit := (drain (count p.circuit) p.circuit p.queue).circuit
  events := p.log ++ (drain (count p.circuit) p.circuit p.queue).events
  result := (drain (count p.circuit) p.circuit p.queue).result.map (p.applied.length + ·)

/-- The run stops here: the queue is empty, or an edit of the rule that is due is refused. -/
inductive Ends (p : Progress) : Run Nat → Prop where
  | done (hq : p.queue = []) : p.Ends ⟨p.circuit, p.log, .ok p.applied.length⟩
  | refused {v : VertexId} {rest : List VertexId} {m : Match} {d : Circuit} {e : Error}
      (hq : p.queue = v :: rest) (hm : match? p.circuit v = some m)
      (hd : p.circuit.applyAll m.edits = (d, some e)) :
      p.Ends ⟨d, p.log ++ [.reducing v m.rule], .error (.circuit e)⟩

end Progress

/-- One step of a reduction: the first vertex in the queue is passed over, or the rule that applies
there is carried out. -/
inductive Advances : Progress → Progress → Prop where
  | pass {c : Circuit} {v : VertexId} {rest : List VertexId} {applied : List (VertexId × Rule)}
      (hm : match? c v = none) : Advances ⟨c, v :: rest, applied⟩ ⟨c, rest, applied⟩
  | apply {c d : Circuit} {v : VertexId} {rest : List VertexId}
      {applied : List (VertexId × Rule)} {m : Match} (hm : match? c v = some m)
      (hd : c.applyAll m.edits = (d, none)) :
      Advances ⟨c, v :: rest, applied⟩ ⟨d, rest ++ m.created, applied ++ [(v, m.rule)]⟩

/-- The points that a reduction of a circuit comes to. -/
def Reaches (c : Circuit) (p : Progress) : Prop := ReflTransGen Advances (.start c) p

variable {p q : Progress}

/-- A step leaves the circuit alone, or applies one rule and saves what the rule says. -/
theorem Advances.accounts (h : Advances p q) (hp : Reachable Gate.SameWires p.circuit) :
    (q.circuit = p.circuit ∧ q.applied = p.applied) ∨
      ∃ v r, q.applied = p.applied ++ [(v, r)] ∧ count q.circuit + r.saved = count p.circuit ∧
        q.circuit.size + r.removed = p.circuit.size := by
  cases h with
  | pass hm => exact Or.inl ⟨rfl, rfl⟩
  | @apply c d v rest applied m hm hd =>
      exact Or.inr ⟨v, m.rule, rfl, (saves_of_match? (fun _ _ => id) hp hm hd).2⟩

theorem Advances.outcome_eq (h : Advances p q) (hp : Reachable Gate.SameWires p.circuit) :
    q.outcome = p.outcome := by
  cases h with
  | pass hm => simp only [Progress.outcome, Progress.log, drain_cons_of_none hm]
  | @apply c d v rest applied m hm hd =>
      simp only [Progress.outcome, Progress.log, drain_cons_of_ok (fun _ _ => id) hp hm hd,
        Run.after, Run.map,
        List.map_append, List.map_cons, List.map_nil, List.append_assoc, List.cons_append,
        List.nil_append, List.length_append, List.length_cons, List.length_nil, Run.mk.injEq,
        true_and]
      cases (drain (count d) d (rest ++ m.created)).result with
      | error e => rfl
      | ok n =>
          simp only [Except.map]
          rw [Nat.add_assoc, Nat.add_comm n]

/-- Every step takes a vertex from the queue or saves a Hadamard gate. -/
theorem descent_advances : Descent Advances (fun p => Reachable Gate.SameWires p.circuit)
    fun p => p.queue.length + count p.circuit where
  keeps := by
    intro p q hp h
    cases h with
    | pass hm => exact hp
    | apply hm hd => exact (saves_of_match? (fun _ _ => id) hp hm hd).1
  lowers := by
    intro p q hp h
    cases h with
    | pass hm => simp
    | @apply c d v rest applied m hm hd =>
        have hcount : count d + m.rule.saved = count c :=
          (saves_of_match? (fun _ _ => id) hp hm hd).2.1
        have hpos := m.rule.saved_pos
        have hcreated := m.length_created_le
        simp only [List.length_append, List.length_cons]
        omega

/-! ## Whole reductions -/

theorem Progress.outcome_start (c : Circuit) : (Progress.start c).outcome = reduce c := by
  have hid : ∀ r : Except Failure Nat, r.map (0 + ·) = r := by
    rintro (e | n)
    · rfl
    · simp only [Except.map, Nat.zero_add]
  simp only [Progress.outcome, Progress.start, Progress.log, List.map_nil, List.nil_append,
    List.length_nil, hid, reduce]

/-- Where no step can be made, the run is over. -/
theorem Progress.ends_outcome (hp : Reachable Gate.SameWires p.circuit)
    (h : ∀ q, ¬ Advances p q) : p.Ends p.outcome := by
  obtain ⟨c, queue, applied⟩ := p
  cases queue with
  | nil =>
      have hrun : outcome ⟨c, [], applied⟩ = ⟨c, log ⟨c, [], applied⟩, .ok applied.length⟩ := by
        simp [outcome, drain, Run.done, Except.map]
      rw [hrun]
      exact .done rfl
  | cons v rest =>
      cases hm : match? c v with
      | none => exact absurd (.pass hm) (h _)
      | some m =>
          rcases hd : c.applyAll m.edits with ⟨d, _ | e⟩
          · exact absurd (.apply hm hd) (h _)
          · have hrun : outcome ⟨c, v :: rest, applied⟩ = ⟨d, log ⟨c, v :: rest, applied⟩ ++
                [.reducing v m.rule], .error (.circuit e)⟩ := by
              simp [outcome, drain_cons_of_error hp hm hd, Run.after, Run.failed, Except.map]
            rw [hrun]
            exact .refused rfl hm hd

namespace Reaches

variable (hc : Reachable Gate.SameWires c)
include hc

theorem reachable (h : Reaches c p) : Reachable Gate.SameWires p.circuit :=
  descent_advances.of_reflTransGen hc h

theorem outcome_eq (h : Reaches c p) : p.outcome = reduce c := by
  induction h with
  | refl => exact Progress.outcome_start c
  | tail hp hstep ih => exact (hstep.outcome_eq (reachable hc hp)).trans ih

/-- What was saved so far is what the rules that were applied save. -/
theorem totals (h : Reaches c p) :
    count p.circuit + (p.applied.map fun a => a.2.saved).sum = count c ∧
      p.circuit.size + (p.applied.map fun a => a.2.removed).sum = c.size := by
  induction h with
  | refl => exact ⟨rfl, rfl⟩
  | tail hp hstep ih =>
      rcases hstep.accounts (reachable hc hp) with
        ⟨hcircuit, happlied⟩ | ⟨v, r, happlied, hcount, hsize⟩
      · rwa [hcircuit, happlied]
      · simp only [happlied, List.map_append, List.map_cons, List.map_nil, List.sum_append,
          List.sum_cons, List.sum_nil]
        omega

end Reaches

theorem length_le_sum_saved (applied : List (VertexId × Rule)) :
    applied.length ≤ (applied.map fun a => a.2.saved).sum := by
  induction applied with
  | nil => exact le_rfl
  | cons a rest ih =>
      have := a.2.saved_pos
      simp only [List.length_cons, List.map_cons, List.sum_cons]
      omega

theorem exists_ends (hc : Reachable Gate.SameWires c) : ∃ p, Reaches c p ∧ p.Ends (reduce c) := by
  obtain ⟨p, hp, hlast⟩ := descent_advances.exists_last (a := .start c) hc
  exact ⟨p, hp, Reaches.outcome_eq hc hp ▸ Progress.ends_outcome (Reaches.reachable hc hp) hlast⟩

/-- A reduction that ends well comes to an empty queue. -/
theorem exists_of_reduce_eq_ok (hc : Reachable Gate.SameWires c) {n : Nat}
    (hn : (reduce c).result = .ok n) :
    ∃ p, Reaches c p ∧ p.queue = [] ∧ p.circuit = (reduce c).circuit ∧
      p.log = (reduce c).events ∧ p.applied.length = n := by
  obtain ⟨p, hp, hends⟩ := exists_ends hc
  generalize reduce c = r at hn hends
  cases hends with
  | done hq => exact ⟨p, hp, hq, rfl, rfl, Except.ok.inj hn⟩
  | refused => cases hn

/-- A reduction ends, on cycles as well, and there is a bound on its steps. Each step passes over a
vertex or applies one rule, which saves as many Hadamard gates, and removes as many gates, as the
rule says. The number that is returned is the number of rules that were applied, so no more than the
Hadamard gates saved. -/
theorem reduce_ends_of_reachable (hc : Reachable Gate.SameWires c) :
    (∀ ps, (Progress.start c :: ps).IsChain Advances →
      ps.length ≤ (c.idsNamed "H").length + count c) ∧
    (∀ p q, Reaches c p → Advances p q → (q.circuit = p.circuit ∧ q.applied = p.applied) ∨
      ∃ v r, q.applied = p.applied ++ [(v, r)] ∧ count q.circuit + r.saved = count p.circuit ∧
        q.circuit.size + r.removed = p.circuit.size) ∧
    (∃ p, Reaches c p ∧ p.Ends (reduce c)) ∧
    ∀ n, (reduce c).result = .ok n → n + count (reduce c).circuit ≤ count c ∧
      ∃ applied : List (VertexId × Rule), applied.length = n ∧
        (reduce c).events = applied.map (fun a => .reducing a.1 a.2) ∧
        count (reduce c).circuit + (applied.map fun a => a.2.saved).sum = count c ∧
        (reduce c).circuit.size + (applied.map fun a => a.2.removed).sum = c.size := by
  refine ⟨fun ps hps => descent_advances.length_le hc hps,
    fun p q hp hpq => hpq.accounts (Reaches.reachable hc hp), exists_ends hc, fun n hn => ?_⟩
  obtain ⟨p, hp, -, hcircuit, hlog, rfl⟩ := exists_of_reduce_eq_ok hc hn
  obtain ⟨hcount, hsize⟩ := Reaches.totals hc hp
  have hle := length_le_sum_saved p.applied
  rw [← hcircuit, ← hlog]
  exact ⟨by omega, p.applied, rfl, rfl, hcount, hsize⟩

/-- The Hadamard gates around a controlled not on a cycle are removed, and the cycle stays. -/
theorem reduce_ends_of_reachable_cyclic :
    ∃ c d, build 3 [.cnot [0] 1, .hadamard 1, .hadamard 2, .cnot [1] 2, .hadamard 1, .hadamard 2,
        .cnot [0] 2] = .ok c ∧ c.commute 0 6 = .ok d ∧ ¬ d.Acyclic ∧
      (reduce d).result = .ok 1 ∧ (reduce d).events = [.reducing 1 .reverseCnot] ∧
      count d = 4 ∧ 1 + count (reduce d).circuit ≤ count d ∧
      (reduce d).circuit.size + 4 = d.size := by
  have hbuild : build 3 [.cnot [0] 1, .hadamard 1, .hadamard 2, .cnot [1] 2, .hadamard 1,
      .hadamard 2, .cnot [0] 2] = .ok (ofGates 3 [.cnot [0] 1, .hadamard 1, .hadamard 2,
        .cnot [1] 2, .hadamard 1, .hadamard 2, .cnot [0] 2]) := rfl
  have hcommute : (ofGates 3 [.cnot [0] 1, .hadamard 1, .hadamard 2, .cnot [1] 2, .hadamard 1,
      .hadamard 2, .cnot [0] 2]).commute 0 6 = .ok ((ofGates 3 [.cnot [0] 1, .hadamard 1,
        .hadamard 2, .cnot [1] 2, .hadamard 1, .hadamard 2, .cnot [0] 2]).swapped 0 6) := rfl
  have hreach : Reachable Gate.SameWires _ := .commute (.build hbuild) hcommute
  obtain ⟨-, -, -, htotal⟩ := reduce_ends_of_reachable hreach
  obtain ⟨hle, -⟩ := htotal 1 (by cbv)
  refine ⟨_, _, hbuild, hcommute, ?_, by cbv, by cbv, by decide, hle, by cbv⟩
  rw [← hreach.linked.isCyclic_eq_false_iff, Bool.not_eq_false]
  cbv

end Peephole.Hadamard
