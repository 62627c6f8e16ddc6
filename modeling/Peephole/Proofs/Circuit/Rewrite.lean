import Peephole.Proofs.Circuit.Block
import Peephole.Proofs.Circuit.Meaning

/-!
# Local rewriting

A circuit is rewritten by a rule when a block of one of its linear orders holds the left side of
the rule and is replaced by the right side. All the optimizer does is of this kind, up to going
back to a snapshot.

* `Circuit.Rewrites`: one step with a set of rules.
* `Circuit.Framed`: a circuit with edits to one block only, step by step.
* `Rewrites.meaning_eq`: a rule whose two sides have the same value keeps the meaning.
* `Rewrites.fits`: a rule that makes fitting gates from fitting gates keeps all gates fitting.
* `meaning_restore`, `Fits.restore_eq_ok`: going back to a snapshot keeps the meaning, and succeeds
  where all gates fit.
-/

namespace Peephole.Circuit

variable {M : Type*} [Monoid M] {den : Gate → M} {c d : Circuit}

/-- All gates of the circuit fit it. -/
def Fits (c : Circuit) : Prop := ∀ v g, c.gate? v = some g → g.Fits c.width

/-- A proper circuit whose gates fit it. -/
def Sound (c : Circuit) : Prop := c.Proper ∧ c.Fits

/-- One step by a rule: around a block the two circuits agree, and the block of the first holds
the left side of the rule, that of the second the right side. -/
structure Rewrites (R : List Gate → List Gate → Prop) (c d : Circuit) : Prop where
  width_eq : d.width = c.width
  linked : d.Linked
  aligned : d.Aligned
  block : ∃ lhs rhs A S T B, R lhs rhs ∧ c.Linear (A ++ S ++ B) ∧ d.Linear (A ++ T ++ B) ∧
    S.map c.gate? = lhs.map some ∧ T.map d.gate? = rhs.map some ∧
    ∀ v ∈ A ++ B, d.gate? v = c.gate? v

theorem filterMap_of_map_gate? {S : List VertexId} {gs : List Gate}
    (h : S.map c.gate? = gs.map some) : S.filterMap c.gate? = gs := by
  calc S.filterMap c.gate? = (S.map c.gate?).filterMap id := by
        rw [List.filterMap_map]
        rfl
    _ = gs := by
        rw [h, List.filterMap_map]
        exact List.filterMap_some

theorem along_of_map_gate? {S : List VertexId} {gs : List Gate}
    (h : S.map c.gate? = gs.map some) : c.along den S = (gs.map den).prod := by
  rw [← prod_filterMap_gate?, filterMap_of_map_gate? h]

namespace Rewrites

variable {R : List Gate → List Gate → Prop}

theorem proper (h : Rewrites R c d) : d.Proper := by
  obtain ⟨lhs, rhs, A, S, T, B, -, -, hL, -⟩ := h.block
  exact .of_linear h.linked h.aligned hL

/-- A rule whose two sides have the same value keeps the meaning of the circuit. -/
theorem meaning_eq (h : Rewrites R c d) (hc : c.Proper) (hden : DisjointCommute den)
    (hR : ∀ lhs rhs, R lhs rhs → (lhs.map den).prod = (rhs.map den).prod) :
    d.meaning den = c.meaning den := by
  obtain ⟨lhs, rhs, A, S, T, B, hrule, hL, hL', hS, hT, hsame⟩ := h.block
  refine meaning_eq_of_blocks hden hc h.proper hL hL'
    (fun v hv => hsame v (List.mem_append_left B hv))
    (fun v hv => hsame v (List.mem_append_right A hv)) ?_
  rw [along_of_map_gate? hS, along_of_map_gate? hT, hR lhs rhs hrule]

/-- A rule whose right side has a larger value does not make the meaning smaller. -/
theorem meaning_le [Preorder M] [MulLeftMono M] [MulRightMono M] (h : Rewrites R c d)
    (hc : c.Proper) (hden : DisjointCommute den)
    (hR : ∀ lhs rhs, R lhs rhs → (lhs.map den).prod ≤ (rhs.map den).prod) :
    c.meaning den ≤ d.meaning den := by
  obtain ⟨lhs, rhs, A, S, T, B, hrule, hL, hL', hS, hT, hsame⟩ := h.block
  refine meaning_le_of_blocks hden hc h.proper hL hL'
    (fun v hv => hsame v (List.mem_append_left B hv))
    (fun v hv => hsame v (List.mem_append_right A hv)) ?_
  rw [along_of_map_gate? hS, along_of_map_gate? hT]
  exact hR lhs rhs hrule

/-- What holds of all gates still does, if the rules keep it. -/
theorem forall_gate (h : Rewrites R c d) {Q : Gate → Prop}
    (hR : ∀ lhs rhs, R lhs rhs → (∀ g ∈ lhs, Q g) → ∀ g ∈ rhs, Q g)
    (hc : ∀ v g, c.gate? v = some g → Q g) (v : VertexId) (g : Gate) (hg : d.gate? v = some g) :
    Q g := by
  obtain ⟨lhs, rhs, A, S, T, B, hrule, hL, hL', hS, hT, hsame⟩ := h.block
  have hlhs : ∀ g ∈ lhs, Q g := by
    intro g hg
    have hmem : some g ∈ S.map c.gate? := by
      rw [hS]
      exact List.mem_map_of_mem hg
    obtain ⟨v, -, hv⟩ := List.mem_map.1 hmem
    exact hc v g hv
  have hv : v ∈ A ++ T ++ B := hL'.perm.mem_iff.2 (mem_ids_of_gate? hg)
  by_cases hvT : v ∈ T
  · have hmem : some g ∈ rhs.map some := by
      rw [← hT, ← hg]
      exact List.mem_map_of_mem hvT
    obtain ⟨k, hk, hkg⟩ := List.mem_map.1 hmem
    rw [← Option.some.inj hkg]
    exact hR lhs rhs hrule hlhs k hk
  · have hvAB : v ∈ A ++ B := by
      simp only [List.mem_append] at hv ⊢
      tauto
    exact hc v g ((hsame v hvAB).symm.trans hg)

/-- A rule that makes fitting gates from fitting gates keeps all gates fitting. -/
theorem fits (h : Rewrites R c d) (hc : c.Fits)
    (hR : ∀ n lhs rhs, R lhs rhs → (∀ g ∈ lhs, g.Fits n) → ∀ g ∈ rhs, g.Fits n) : d.Fits := by
  intro v g hg
  rw [h.width_eq]
  exact h.forall_gate (hR c.width) hc v g hg

end Rewrites

/-! ## Editing a block -/

/-- The circuit `d` comes from `c` by edits to a block between `A` and `B`, which now is `T`. -/
structure Framed (c : Circuit) (A B : List VertexId) (d : Circuit) (T : List VertexId) : Prop where
  width_eq : d.width = c.width
  linked : d.Linked
  aligned : d.Aligned
  linear : d.Linear (A ++ T ++ B)
  same : ∀ v ∈ A ++ B, d.gate? v = c.gate? v

namespace Framed

variable {A B T T₁ T₂ : List VertexId} {a b v : VertexId}

theorem start (hc : c.Proper) (hL : c.Linear (A ++ T ++ B)) : Framed c A B c T :=
  ⟨rfl, hc.linked, hc.aligned, hL, fun _ _ => rfl⟩

theorem nodup (h : Framed c A B d T) : T.Nodup := by
  have hAT := (List.nodup_append.1 (h.linear.nodup h.linked)).1
  exact (List.nodup_append.1 hAT).2.1

theorem ne_of_mem (h : Framed c A B d T) {x : VertexId} (hx : x ∈ A ++ B) (hv : v ∈ T) :
    x ≠ v := by
  rintro rfl
  obtain ⟨hAT, -, hB⟩ := List.nodup_append.1 (h.linear.nodup h.linked)
  rcases List.mem_append.1 hx with hx | hx
  · exact (List.nodup_append.1 hAT).2.2 x hx x hv rfl
  · exact hB x (List.mem_append_right A hv) x hx rfl

theorem remove (h : Framed c A B d (T₁ ++ v :: T₂)) : Framed c A B (d.without v) (T₁ ++ T₂) where
  width_eq := h.width_eq
  linked := h.linked.without v
  aligned := h.aligned.without v
  linear := by
    have hL : d.Linear ((A ++ T₁) ++ v :: (T₂ ++ B)) := by simpa using h.linear
    simpa using hL.without_append h.linked
  same := by
    intro x hx
    rw [gate?_without_of_ne d v (h.ne_of_mem hx (by simp)), h.same x hx]

theorem modify (h : Framed c A B d T) {g : Gate} {f : Gate → Gate} (hv : v ∈ T)
    (hg : d.gate? v = some g) (hf : g.SameWires (f g)) : Framed c A B (d.modify v f) T where
  width_eq := h.width_eq
  linked := h.linked.modify v f
  aligned := by
    refine h.aligned.modify fun k hk => ?_
    rw [hg] at hk
    exact Option.some.inj hk ▸ hf
  linear := h.linear.modify v f
  same := by
    intro x hx
    rw [gate?_modify_of_ne d v f (h.ne_of_mem hx hv), h.same x hx]

theorem swap (h : Framed c A B d (T₁ ++ a :: b :: T₂)) :
    Framed c A B (d.swapped a b) (T₁ ++ b :: a :: T₂) where
  width_eq := h.width_eq
  linked := h.linked.swapped a b
  aligned := h.aligned.swapped a b
  linear := by
    have hL : d.Linear ((A ++ T₁) ++ a :: b :: (T₂ ++ B)) := by simpa using h.linear
    simpa using hL.swapped h.linked
  same := h.same

theorem exists_gate (h : Framed c A B d T) (hv : v ∈ T) : ∃ g, d.gate? v = some g := by
  have hlive : v ∈ A ++ T ++ B := List.mem_append_left B (List.mem_append_right A hv)
  exact mem_ids.1 (h.linear.perm.mem_iff.1 hlive)

/-- A vertex of the block can be removed. -/
theorem apply_remove (h : Framed c A B d (T₁ ++ v :: T₂)) :
    ∃ e, (Edit.remove v).apply d = .ok e ∧ Framed c A B e (T₁ ++ T₂) ∧
      ∀ x, x ≠ v → e.gate? x = d.gate? x := by
  obtain ⟨g, hg⟩ := h.exists_gate (v := v) (by simp)
  exact ⟨d.without v, Circuit.apply_remove hg, h.remove, fun x hx => gate?_without_of_ne d v hx⟩

/-- Vertices of the block can be removed one after another. -/
theorem apply_removes (h : Framed c A B d T) (vs : List VertexId) (hvs : vs.Nodup)
    (hT : ∀ v ∈ vs, v ∈ T) :
    ∃ e, d.applyAll (vs.map .remove) = (e, none) ∧ Framed c A B e (T.filter (· ∉ vs)) ∧
      ∀ x, x ∉ vs → e.gate? x = d.gate? x := by
  induction vs generalizing d T with
  | nil => exact ⟨d, rfl, by simpa using h, fun x _ => rfl⟩
  | cons v rest ih =>
      obtain ⟨hv, hrest⟩ := List.nodup_cons.1 hvs
      obtain ⟨T₁, T₂, rfl⟩ := List.append_of_mem (hT v (by simp))
      obtain ⟨d', happly, hd', hgate⟩ := h.apply_remove
      have hnot := Strand.notMem_of_nodup_append h.nodup
      have hT' : ∀ x ∈ rest, x ∈ T₁ ++ T₂ := by
        intro x hx
        have hxv : x ≠ v := fun e => hv (e ▸ hx)
        simpa [hxv] using hT x (by simp [hx])
      obtain ⟨e, happly', he, hgate'⟩ := ih hd' hrest hT'
      have hfilter : (T₁ ++ v :: T₂).filter (· ∉ v :: rest) = (T₁ ++ T₂).filter (· ∉ rest) := by
        rw [← Strand.filter_ne_of_notMem (v := v) (s := T₁ ++ T₂) (by simp [hnot]),
          List.filter_filter, List.filter_append, List.filter_cons_of_neg (by simp),
          ← List.filter_append]
        refine List.filter_congr fun x _ => ?_
        simp [Bool.and_comm]
      refine ⟨e, ?_, hfilter ▸ he, fun x hx => ?_⟩
      · rw [List.map_cons, applyAll_cons happly, happly']
      · rw [List.mem_cons, not_or] at hx
        rw [hgate' x hx.2, hgate x hx.1]

/-- A vertex of the block can be given another kind. -/
theorem apply_setKind (h : Framed c A B d T) (hv : v ∈ T) {g : Gate} (hg : d.gate? v = some g)
    (kind : Kind) :
    ∃ e, (Edit.setKind v kind).apply d = .ok e ∧ Framed c A B e T ∧
      e.gate? v = some { g with kind } ∧ ∀ x, x ≠ v → e.gate? x = d.gate? x := by
  refine ⟨_, Circuit.apply_setKind hg kind, h.modify hv hg fun w => Iff.rfl, ?_, fun x hx => ?_⟩
  · rw [gate?_modify_self, hg]
    rfl
  · rw [gate?_modify_of_ne d v _ hx]

/-- A vertex of the block can be given the same wires in other places. -/
theorem apply_setWires (h : Framed c A B d T) (hv : v ∈ T) {g : Gate} (hg : d.gate? v = some g)
    {target : Wire} {controls : List Wire} (hw : g.SameWires { g with target, controls }) :
    ∃ e, (Edit.setWires v target controls).apply d = .ok e ∧ Framed c A B e T ∧
      e.gate? v = some { g with target, controls } ∧ ∀ x, x ≠ v → e.gate? x = d.gate? x := by
  refine ⟨_, Circuit.apply_setWires hg target controls, h.modify hv hg hw, ?_, fun x hx => ?_⟩
  · rw [gate?_modify_self, hg]
    rfl
  · rw [gate?_modify_of_ne d v _ hx]

/-- Neighbours in the block that share a wire can be commuted. -/
theorem commutable (h : Framed c A B d (T₁ ++ a :: b :: T₂)) {w : Wire} (ha : a ∈ d.strand w)
    (hb : b ∈ d.strand w) : d.Commutable a b := by
  have hL : d.Linear ((A ++ T₁) ++ a :: b :: (T₂ ++ B)) := by simpa using h.linear
  exact hL.commutable_of_append h.linked ha hb

/-- A vertex in front of the rest of a block moves behind it, if they have a wire in common. -/
theorem commute_path {path : List VertexId} {w : Wire}
    (h : Framed c A B d (T ++ v :: path)) (hv : v ∈ d.strand w)
    (hpath : ∀ p ∈ path, p ∈ d.strand w) :
    ∃ e, d.applyAll (path.map (.commute v)) = (e, none) ∧ Framed c A B e (T ++ path ++ [v]) ∧
      ∀ x, e.gate? x = d.gate? x := by
  -- one exchange takes `v` behind the head of the path, which then belongs to what is in front
  induction path generalizing d T with
  | nil => exact ⟨d, rfl, by simpa using h, fun x => rfl⟩
  | cons p rest ih =>
      have hcomm := h.commutable hv (hpath p (by simp))
      have h' : Framed c A B (d.swapped v p) ((T ++ [p]) ++ v :: rest) := by simpa using h.swap
      obtain ⟨e, happly, he, hgate⟩ := ih h' (by simpa [Strand.mem_exchange] using hv)
        (fun q hq => by simpa [Strand.mem_exchange] using hpath q (by simp [hq]))
      refine ⟨e, ?_, by simpa using he, hgate⟩
      rw [List.map_cons, applyAll_cons (apply_commute hcomm), happly]

theorem rewrites {R : List Gate → List Gate → Prop} {S : List VertexId} {lhs rhs : List Gate}
    (h : Framed c A B d T) (hrule : R lhs rhs) (hL : c.Linear (A ++ S ++ B))
    (hS : S.map c.gate? = lhs.map some) (hT : T.map d.gate? = rhs.map some) : Rewrites R c d :=
  ⟨h.width_eq, h.linked, h.aligned, lhs, rhs, A, S, T, B, hrule, hL, h.linear, hS, hT, h.same⟩

end Framed

/-! ## Snapshots -/

theorem gates_snapshot (c : Circuit) : c.snapshot.gates = c.gatesInOrder := by
  rw [Snapshot.gates, snapshot_eq, gatesInOrder_eq, List.map_filterMap]
  refine List.filterMap_congr fun v _ => ?_
  cases c.gate? v with
  | none => rfl
  | some g => rfl

theorem Proper.ofGates (width : Nat) (gs : List Gate) : (Circuit.ofGates width gs).Proper :=
  .of_linear (.ofGates width gs) (.ofGates width gs) (.ofGates width gs)

theorem map_gate?_ofGates (width : Nat) (gs : List Gate) :
    (List.range gs.length).map (ofGates width gs).gate? = gs.map some := by
  refine List.ext_getElem? fun i => ?_
  rw [List.getElem?_map, List.getElem?_map]
  by_cases hi : i < gs.length
  · rw [List.getElem?_range hi, Option.map_some, gate?_ofGates, List.getElem?_eq_getElem hi,
      Option.map_some]
  · rw [List.getElem?_eq_none (by simpa using hi), List.getElem?_eq_none (by simpa using hi)]
    rfl

/-- A circuit built from a list of gates means their product. -/
theorem meaning_ofGates (hden : DisjointCommute den) (width : Nat) (gs : List Gate) :
    (ofGates width gs).meaning den = (gs.map den).prod := by
  rw [(Proper.ofGates width gs).meaning_eq_along hden (.ofGates width gs)]
  exact along_of_map_gate? (map_gate?_ofGates width gs)

/-- Going back to a snapshot of a circuit gives a circuit with the same meaning. -/
theorem meaning_restore (hden : DisjointCommute den) {names : Renumbering}
    (h : c.snapshot.restore = .ok (names, d)) : d.meaning den = c.meaning den := by
  rw [(restore_eq_ok_iff.1 h).2.2, meaning_ofGates hden, gates_snapshot]
  rfl

theorem Proper.of_restore {s : Snapshot} {names : Renumbering}
    (h : s.restore = .ok (names, d)) : d.Proper := by
  rw [(restore_eq_ok_iff.1 h).2.2]
  exact .ofGates _ _

theorem Fits.of_build {width : Nat} {gs : List Gate} (h : build width gs = .ok c) : c.Fits := by
  obtain ⟨hf, rfl⟩ := build_eq_ok_iff.1 h
  intro v g hg
  rw [gate?_ofGates] at hg
  exact hf g (List.mem_of_getElem? hg)

theorem Fits.of_restore {s : Snapshot} {names : Renumbering}
    (h : s.restore = .ok (names, d)) : d.Fits := by
  obtain ⟨hf, -, hd⟩ := restore_eq_ok_iff.1 h
  exact .of_build (build_eq_ok_iff.2 ⟨hf, hd⟩)

/-- A circuit whose gates fit it can be restored from its snapshot. -/
theorem Fits.restore_eq_ok (h : c.Fits) :
    ∃ d, c.snapshot.restore = .ok (c.snapshot.renumbering, d) := by
  refine ⟨_, restore_eq_ok_iff.2 ⟨fun g hg => ?_, rfl, rfl⟩⟩
  rw [gates_snapshot, gatesInOrder_eq, List.mem_filterMap] at hg
  obtain ⟨v, -, hv⟩ := hg
  exact h v g hv

/-- Every gate that is given back was there before. -/
theorem exists_gate?_of_restore {names : Renumbering} (h : c.snapshot.restore = .ok (names, d))
    {v : VertexId} {g : Gate} (hg : d.gate? v = some g) : ∃ u, c.gate? u = some g := by
  rw [(restore_eq_ok_iff.1 h).2.2, gate?_ofGates, gates_snapshot] at hg
  obtain ⟨u, -, hu⟩ := List.mem_filterMap.1 (List.mem_of_getElem? hg)
  exact ⟨u, hu⟩

/-! ## What rewriting keeps -/

/-- A property of acyclic circuits that rules keep, and that survives going back to a snapshot. -/
structure Stable (R : List Gate → List Gate → Prop) (P : Circuit → Prop) : Prop where
  proper : ∀ {c}, P c → c.Proper
  rewrites : ∀ {c d}, P c → Rewrites R c d → P d
  restore : ∀ {c d names}, P c → c.snapshot.restore = .ok (names, d) → P d

theorem stable_proper (R : List Gate → List Gate → Prop) : Stable R Proper :=
  ⟨fun h => h, fun _ hr => hr.proper, fun _ hr => .of_restore hr⟩

/-- No rule changes the number of wires. -/
theorem stable_width (R : List Gate → List Gate → Prop) (n : Nat) :
    Stable R fun c => c.Proper ∧ c.width = n where
  proper h := h.1
  rewrites h hr := ⟨hr.proper, hr.width_eq.trans h.2⟩
  restore h hr := by
    refine ⟨.of_restore hr, ?_⟩
    rw [(restore_eq_ok_iff.1 hr).2.2]
    exact h.2

/-- What rules keep of all gates is kept on top. -/
theorem Stable.and_forall_gate {R : List Gate → List Gate → Prop} {P : Circuit → Prop}
    {Q : Gate → Prop} (hP : Stable R P)
    (hR : ∀ lhs rhs, R lhs rhs → (∀ g ∈ lhs, Q g) → ∀ g ∈ rhs, Q g) :
    Stable R fun c => P c ∧ ∀ v g, c.gate? v = some g → Q g where
  proper h := hP.proper h.1
  rewrites h hr := ⟨hP.rewrites h.1 hr, hr.forall_gate hR h.2⟩
  restore h hr := by
    refine ⟨hP.restore h.1 hr, fun v g hg => ?_⟩
    obtain ⟨u, hu⟩ := exists_gate?_of_restore hr hg
    exact h.2 u g hu

/-- Rules whose two sides have the same value keep what a circuit means. -/
theorem stable_meaning {R : List Gate → List Gate → Prop} (hden : DisjointCommute den)
    (hR : ∀ lhs rhs, R lhs rhs → (lhs.map den).prod = (rhs.map den).prod) (m : M) :
    Stable R fun c => c.Proper ∧ c.meaning den = m where
  proper h := h.1
  rewrites h hr := ⟨hr.proper, (hr.meaning_eq h.1 hden hR).trans h.2⟩
  restore h hr := ⟨.of_restore hr, (meaning_restore hden hr).trans h.2⟩

/-- Rules whose right sides have larger values do not make what a circuit means smaller. -/
theorem stable_le_meaning [Preorder M] [MulLeftMono M] [MulRightMono M]
    {R : List Gate → List Gate → Prop} (hden : DisjointCommute den)
    (hR : ∀ lhs rhs, R lhs rhs → (lhs.map den).prod ≤ (rhs.map den).prod) (m : M) :
    Stable R fun c => c.Proper ∧ m ≤ c.meaning den where
  proper h := h.1
  rewrites h hr := ⟨hr.proper, h.2.trans (hr.meaning_le h.1 hden hR)⟩
  restore h hr := ⟨.of_restore hr, h.2.trans_eq (meaning_restore hden hr).symm⟩

/-- Rules that make fitting gates from fitting gates keep a circuit sound. -/
theorem stable_sound {R : List Gate → List Gate → Prop}
    (hR : ∀ n lhs rhs, R lhs rhs → (∀ g ∈ lhs, g.Fits n) → ∀ g ∈ rhs, g.Fits n) :
    Stable R Sound where
  proper h := h.1
  rewrites h hr := ⟨hr.proper, hr.fits h.2 hR⟩
  restore _ hr := ⟨.of_restore hr, .of_restore hr⟩

end Peephole.Circuit
