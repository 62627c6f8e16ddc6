import Mathlib.Computability.Primrec.List
import Mathlib.Data.List.Nodup
import Mathlib.Data.List.Permutation
import Mathlib.Data.List.Range
import Peephole.Circuit.Edit

-- `Primrec.List` and `Permutation` have the equations of `List.lookup` and of `Prod.snd` by which
-- circuits are evaluated.

/-!
# Circuits through their gates and strands

A circuit is read through four views: its width, its vertices, the gate of a vertex and the strand
of a wire. This file says what every operation does to each of them, so that nothing later has to
open an operation again.

* `remove_eq_ok_iff` and `commute_eq_ok_iff` say when a removal and a commutation are carried out
  and what comes out, `remove_eq_error_iff` and `commute_cases` why they are refused.
* `build_eq_ok_iff`: a circuit is built exactly from gates that fit it (`Gate.Fits`);
  `build_eq_error_iff`: otherwise the first that does not is reported (`Gate.Misfit`).
-/

namespace Peephole

/-! ## Gates -/

/-- The wires of the gate differ from each other and exist in a circuit of this width. -/
def Gate.Fits (width : Nat) (g : Gate) : Prop := g.wires.Nodup ∧ ∀ w ∈ g.wires, w.toNat < width

/-- The gate does not fit: the error names the first of its wires, controls before the target, that
is out of range or has come before. -/
def Gate.Misfit (width : Nat) (g : Gate) (e : Circuit.Error) : Prop :=
  ∃ before w after, g.wires = before ++ w :: after ∧
    (before.Nodup ∧ ∀ x ∈ before, x.toNat < width) ∧
    (width ≤ w.toNat ∧ e = .wireOutOfRange w width g.name ∨
      w ∈ before ∧ e = .repeatedWire w g.name)

theorem Gate.touches_eq_true_iff {g : Gate} {w : Wire} : g.touches w = true ↔ w ∈ g.wires := by
  simp only [touches, wires, Bool.or_eq_true, beq_iff_eq, List.contains_eq_mem, decide_eq_true_eq,
    List.mem_append, List.mem_singleton]
  constructor
  · rintro (h | h)
    · exact Or.inr h.symm
    · exact Or.inl h
  · rintro (h | h)
    · exact Or.inr h
    · exact Or.inl h.symm

namespace Circuit

/-! ## Association lists -/

section Lookup

variable {κ β γ : Type} [BEq κ] [LawfulBEq κ]

theorem lookup_map_keyed (f : κ → β → γ) (l : List (κ × β)) (k : κ) :
    (l.map fun p => (p.1, f p.1 p.2)).lookup k = (l.lookup k).map (f k) := by
  induction l with
  | nil => rfl
  | cons p rest ih =>
      obtain ⟨k', b⟩ := p
      rw [List.map_cons, List.lookup_cons, List.lookup_cons, ih]
      cases hk : k == k' with
      | true =>
          obtain rfl := eq_of_beq hk
          rfl
      | false => rfl

theorem lookup_mapped (f : β → γ) (l : List (κ × β)) (k : κ) :
    (l.map fun p => (p.1, f p.2)).lookup k = (l.lookup k).map f :=
  lookup_map_keyed (fun _ => f) l k

theorem lookup_filter_ne (l : List (κ × β)) (k k' : κ) :
    (l.filter fun p => p.1 != k).lookup k' = if k' == k then none else l.lookup k' := by
  induction l with
  | nil => simp
  | cons p rest ih =>
      obtain ⟨k₀, b⟩ := p
      by_cases hk₀ : k₀ = k
      · subst hk₀
        rw [List.filter_cons_of_neg (by simp), ih, List.lookup_cons]
        cases k' == k₀ <;> rfl
      · rw [List.filter_cons_of_pos (by simpa using hk₀), List.lookup_cons, List.lookup_cons, ih]
        cases hk' : k' == k₀ with
        | true =>
            obtain rfl := eq_of_beq hk'
            simp [hk₀]
        | false => rfl

theorem mem_of_lookup {l : List (κ × β)} {k : κ} {b : β} (h : l.lookup k = some b) :
    (k, b) ∈ l := by
  obtain ⟨l₁, l₂, rfl, -⟩ := List.lookup_eq_some_iff.1 h
  simp

theorem lookup_of_mem {l : List (κ × β)} (hl : (l.map (·.1)).Nodup) {k : κ} {b : β}
    (h : (k, b) ∈ l) : l.lookup k = some b := by
  obtain ⟨l₁, l₂, rfl⟩ := List.append_of_mem h
  refine List.lookup_eq_some_iff.2 ⟨l₁, l₂, rfl, fun p hp => ?_⟩
  rw [List.map_append, List.map_cons] at hl
  have hd := (List.nodup_append.1 hl).2.2 p.1 (List.mem_map_of_mem hp) k (by simp)
  simpa using Ne.symm hd

theorem lookup_isSome_iff_mem_keys {l : List (κ × β)} {k : κ} :
    (l.lookup k).isSome ↔ k ∈ l.map (·.1) := by
  rw [List.lookup_isSome_iff, List.mem_map]
  constructor
  · rintro ⟨p, hp, hk⟩
    exact ⟨p, hp, (eq_of_beq hk).symm⟩
  · rintro ⟨p, hp, rfl⟩
    exact ⟨p, hp, by simp⟩

end Lookup

/-! ## Ascending lists -/

theorem pairwise_insertId {vs : List VertexId} (h : vs.Pairwise (· < ·)) (v : VertexId) :
    (insertId v vs).Pairwise (· < ·) := by
  induction vs with
  | nil => simp [insertId]
  | cons a rest ih =>
      obtain ⟨ha, hrest⟩ := List.pairwise_cons.1 h
      rw [insertId]
      split
      · rename_i hva
        exact List.pairwise_cons.2
          ⟨List.forall_mem_cons.2 ⟨hva, fun x hx => hva.trans (ha x hx)⟩, h⟩
      · split
        · exact h
        · rename_i hva hne
          refine List.pairwise_cons.2 ⟨fun x hx => ?_, ih hrest⟩
          rcases mem_insertId.1 hx with rfl | hx
          · exact Nat.lt_of_le_of_ne (Nat.not_lt.1 hva) (Ne.symm hne)
          · exact ha x hx

theorem pairwise_ascending (vs : List VertexId) : (ascending vs).Pairwise (· < ·) := by
  induction vs with
  | nil => exact .nil
  | cons a rest ih => exact pairwise_insertId ih a

/-- An ascending list is determined by its members. -/
theorem eq_of_mem_iff {vs us : List VertexId} (hvs : vs.Pairwise (· < ·))
    (hus : us.Pairwise (· < ·)) (h : ∀ x, x ∈ vs ↔ x ∈ us) : vs = us := by
  have hperm : vs.Perm us :=
    (List.perm_ext_iff_of_nodup (hvs.imp Nat.ne_of_lt) (hus.imp Nat.ne_of_lt)).2 h
  exact hperm.eq_of_pairwise (fun _ _ _ _ hab hba => absurd hba (Nat.lt_asymm hab)) hvs hus

/-! ## Vertices and gates -/

theorem mem_ids {c : Circuit} {v : VertexId} : v ∈ c.ids ↔ ∃ g, c.gate? v = some g := by
  rw [ids, ← lookup_isSome_iff_mem_keys, ← Option.isSome_iff_exists]
  rfl

theorem mem_ids_of_gate? {c : Circuit} {v : VertexId} {g : Gate} (h : c.gate? v = some g) :
    v ∈ c.ids :=
  mem_ids.2 ⟨g, h⟩

theorem contains_eq_true_iff {c : Circuit} {v : VertexId} : c.contains v = true ↔ v ∈ c.ids := by
  rw [contains, Option.isSome_iff_exists, mem_ids]

theorem gate?_of_mem {c : Circuit} (h : c.ids.Nodup) {v : VertexId} {g : Gate}
    (hv : (v, g) ∈ c.gates) : c.gate? v = some g :=
  lookup_of_mem h hv

theorem strand_nodup (c : Circuit) (w : Wire) : (c.strand w).Nodup := by
  rw [strand]
  cases hl : c.strands.lookup w with
  | none => exact List.nodup_nil
  | some s => exact c.nodup (w, s) (mem_of_lookup hl)

/-! ## Overwriting a gate -/

section Modify

variable (c : Circuit) (v : VertexId) (f : Gate → Gate)

@[simp] theorem strand_modify (w : Wire) : (c.modify v f).strand w = c.strand w := rfl

@[simp] theorem ids_modify : (c.modify v f).ids = c.ids := by
  rw [ids, ids, modify, List.map_map]
  refine List.map_congr_left fun p _ => ?_
  simp only [Function.comp_apply]
  split <;> rfl

theorem gate?_modify (x : VertexId) :
    (c.modify v f).gate? x = if x = v then (c.gate? v).map f else c.gate? x := by
  have hgates : (c.modify v f).gates
      = c.gates.map fun p => (p.1, if p.1 = v then f p.2 else p.2) := by
    refine List.map_congr_left fun p _ => ?_
    split <;> rfl
  rw [gate?, hgates, lookup_map_keyed fun u g => if u = v then f g else g]
  by_cases hx : x = v
  · simp [hx, gate?]
  · simp [hx, gate?]

@[simp] theorem gate?_modify_self : (c.modify v f).gate? v = (c.gate? v).map f := by
  rw [gate?_modify, if_pos rfl]

theorem gate?_modify_of_ne {x : VertexId} (h : x ≠ v) : (c.modify v f).gate? x = c.gate? x := by
  rw [gate?_modify, if_neg h]

end Modify

/-! ## Removal -/

theorem remove_of_gate? {c : Circuit} {v : VertexId} {g : Gate} (h : c.gate? v = some g) :
    c.remove v = .ok (g.markRemoved, c.without v) := by
  rw [remove, h]

theorem remove_eq_ok_iff {c d : Circuit} {v : VertexId} {g : Gate} :
    c.remove v = .ok (g, d) ↔ ∃ k, c.gate? v = some k ∧ g = k.markRemoved ∧ d = c.without v := by
  constructor
  · intro h
    cases hv : c.gate? v with
    | none => simp [remove, hv] at h
    | some k =>
        rw [remove_of_gate? hv, Except.ok.injEq, Prod.mk.injEq] at h
        exact ⟨k, rfl, h.1.symm, h.2.symm⟩
  · rintro ⟨k, hk, rfl, rfl⟩
    exact remove_of_gate? hk

section Without

variable (c : Circuit) (v : VertexId)

@[simp] theorem ids_without : (c.without v).ids = c.ids.filter (· ≠ v) := by
  rw [ids, ids, without, List.filter_map]
  rfl

theorem mem_ids_without {x : VertexId} : x ∈ (c.without v).ids ↔ x ∈ c.ids ∧ x ≠ v := by
  rw [ids_without, List.mem_filter, decide_eq_true_eq]

@[simp] theorem strand_without (w : Wire) :
    (c.without v).strand w = (c.strand w).filter (· ≠ v) := by
  rw [strand, strand, without, lookup_mapped]
  cases c.strands.lookup w with
  | none => rfl
  | some s => rfl

theorem gate?_without_eq (x : VertexId) :
    (c.without v).gate? x = if x = v then none else c.gate? x := by
  have hgates : (c.without v).gates = c.gates.filter fun p => p.1 != v :=
    List.filter_congr fun p _ => by simp [bne, beq_eq_decide]
  rw [gate?, hgates, lookup_filter_ne, gate?]
  simp only [beq_iff_eq]

theorem gate?_without_of_ne {x : VertexId} (h : x ≠ v) : (c.without v).gate? x = c.gate? x := by
  rw [gate?_without_eq, if_neg h]

theorem gate?_without {x : VertexId} {g : Gate} (h : (c.without v).gate? x = some g) :
    x ≠ v ∧ c.gate? x = some g := by
  have hx : x ≠ v := ((mem_ids_without c v).1 (mem_ids_of_gate? h)).2
  exact ⟨hx, by rwa [gate?_without_of_ne c v hx] at h⟩

/-- Two vertices may be removed in either order. -/
theorem without_comm (n : VertexId) : (c.without n).without v = (c.without v).without n := by
  simp only [without, List.filter_filter, List.map_map, Circuit.mk.injEq, true_and]
  refine ⟨List.filter_congr fun p _ => Bool.and_comm _ _, ?_⟩
  refine List.map_congr_left fun s _ => ?_
  simp only [Function.comp_apply, List.filter_filter, Prod.mk.injEq, true_and]
  exact List.filter_congr fun p _ => Bool.and_comm _ _

end Without

/-! ## Commutation -/

/-- What a commutation asks for: both vertices are there, and the second comes right after the first
on some strand, and on every strand that has both. -/
structure Commutable (c : Circuit) (a b : VertexId) : Prop where
  first : a ∈ c.ids
  edge : b ∈ c.successors a
  second : b ∈ c.ids
  adjacent : ∀ s ∈ c.strands, a ∈ s.2 → b ∈ s.2 → Strand.next? a s.2 = some b

/-- A vertex is not its own successor. -/
theorem ne_of_mem_successors {c : Circuit} {a b : VertexId} (h : b ∈ c.successors a) : a ≠ b := by
  rw [successors, mem_ascending, List.mem_filterMap] at h
  obtain ⟨s, hs, hn⟩ := h
  exact Strand.ne_of_next? (c.nodup s hs) hn

theorem Commutable.ne {c : Circuit} {a b : VertexId} (h : c.Commutable a b) : a ≠ b :=
  ne_of_mem_successors h.edge

theorem adjacentOn_eq_true_iff {a b : VertexId} {s : List VertexId} :
    adjacentOn a b s = true ↔ (a ∈ s → b ∈ s → Strand.next? a s = some b) := by
  simp only [adjacentOn, Bool.or_eq_true, Bool.not_eq_true', Bool.and_eq_false_iff,
    List.contains_eq_mem, decide_eq_false_iff_not, decide_eq_true_eq]
  tauto

theorem contains_eq_false_iff {c : Circuit} {v : VertexId} : c.contains v = false ↔ v ∉ c.ids := by
  rw [← contains_eq_true_iff, Bool.not_eq_true]

/-- A commutation is refused for the first of these reasons that applies, and else carried out. -/
theorem commute_cases (c : Circuit) (a b : VertexId) :
    (a ∉ c.ids ∧ c.commute a b = .error (.noVertex a)) ∨
      (a ∈ c.ids ∧ b ∈ c.successors a ∧ b ∉ c.ids ∧ c.commute a b = .error (.noVertex b)) ∨
      (a ∈ c.ids ∧ (b ∈ c.successors a → b ∈ c.ids) ∧ ¬ c.Commutable a b ∧
        c.commute a b = .error (.notAdjacent a b)) ∨
      (c.Commutable a b ∧ c.commute a b = .ok (c.swapped a b)) := by
  rw [commute]
  by_cases ha : a ∈ c.ids
  · rw [if_neg (by simp [contains_eq_true_iff.2 ha])]
    by_cases he : b ∈ c.successors a
    · rw [if_neg (by simpa using he)]
      by_cases hb : b ∈ c.ids
      · rw [if_neg (by simp [contains_eq_true_iff.2 hb])]
        by_cases hall : c.strands.all fun s => adjacentOn a b s.2
        · rw [if_pos hall]
          rw [List.all_eq_true] at hall
          have hadj := fun s hs => adjacentOn_eq_true_iff.1 (hall s hs)
          exact Or.inr (Or.inr (Or.inr ⟨⟨ha, he, hb, hadj⟩, rfl⟩))
        · rw [if_neg hall]
          refine Or.inr (Or.inr (Or.inl ⟨ha, fun _ => hb, fun hc => hall ?_, rfl⟩))
          exact List.all_eq_true.2 fun s hs => adjacentOn_eq_true_iff.2 (hc.adjacent s hs)
      · rw [if_pos (by simp [contains_eq_false_iff.2 hb])]
        exact Or.inr (Or.inl ⟨ha, he, hb, rfl⟩)
    · rw [if_pos (by simpa using he)]
      exact Or.inr (Or.inr (Or.inl ⟨ha, fun h => absurd h he, fun hc => he hc.edge, rfl⟩))
  · rw [if_pos (by simp [contains_eq_false_iff.2 ha])]
    exact Or.inl ⟨ha, rfl⟩

theorem commute_eq_ok_iff {c d : Circuit} {a b : VertexId} :
    c.commute a b = .ok d ↔ c.Commutable a b ∧ d = c.swapped a b := by
  rcases commute_cases c a b with ⟨ha, h⟩ | ⟨-, -, hb, h⟩ | ⟨-, -, hn, h⟩ | ⟨hc, h⟩
  · simp only [h, reduceCtorEq, false_iff]
    exact fun hd => ha hd.1.first
  · simp only [h, reduceCtorEq, false_iff]
    exact fun hd => hb hd.1.second
  · simp only [h, reduceCtorEq, false_iff]
    exact fun hd => hn hd.1
  · simp only [h, Except.ok.injEq, hc, true_and, eq_comm]

section Swapped

variable (c : Circuit) (a b : VertexId)

@[simp] theorem ids_swapped : (c.swapped a b).ids = c.ids := rfl

@[simp] theorem gate?_swapped (x : VertexId) : (c.swapped a b).gate? x = c.gate? x := rfl

@[simp] theorem strand_swapped (w : Wire) :
    (c.swapped a b).strand w = Strand.exchange a b (c.strand w) := by
  rw [strand, strand, swapped, lookup_mapped]
  cases c.strands.lookup w with
  | none => rfl
  | some s => rfl

end Swapped

theorem remove_eq_error_iff {c : Circuit} {v : VertexId} {e : Error} :
    c.remove v = .error e ↔ e = .noVertex v ∧ v ∉ c.ids := by
  rw [mem_ids]
  cases hv : c.gate? v with
  | none => simp [remove, hv, eq_comm]
  | some g => simp [remove_of_gate? hv]

/-! ## Edits as data -/

section Edits

variable {c d : Circuit} {v : VertexId} {g : Gate}

theorem applyAll_cons {e : Edit} {rest : List Edit} (h : e.apply c = .ok d) :
    c.applyAll (e :: rest) = d.applyAll rest := by
  rw [applyAll, h]

/-- Edits are all carried out when the first one is and then the others are. -/
theorem applyAll_cons_eq_iff {e : Edit} {rest : List Edit} :
    c.applyAll (e :: rest) = (d, none) ↔
      ∃ c', e.apply c = .ok c' ∧ c'.applyAll rest = (d, none) := by
  rw [applyAll]
  cases he : e.apply c with
  | ok c' => simp
  | error err => simp

/-- What each of some edits keeps is kept by all of them together. -/
theorem applyAll_keeps {P : Circuit → Prop} {es : List Edit}
    (hstep : ∀ e ∈ es, ∀ c d, P c → e.apply c = .ok d → P d) (hc : P c)
    (h : c.applyAll es = (d, none)) : P d := by
  induction es generalizing c with
  | nil =>
      obtain rfl : c = d := congrArg Prod.fst h
      exact hc
  | cons e rest ih =>
      rw [List.forall_mem_cons] at hstep
      obtain ⟨c', he, hrest⟩ := applyAll_cons_eq_iff.1 h
      exact ih hstep.2 (hstep.1 c c' hc he) hrest

theorem applyAll_append {es : List Edit} (fs : List Edit) (h : c.applyAll es = (d, none)) :
    c.applyAll (es ++ fs) = d.applyAll fs := by
  induction es generalizing c with
  | nil =>
      obtain rfl : c = d := congrArg Prod.fst h
      rfl
  | cons e rest ih =>
      obtain ⟨c', he, hrest⟩ := applyAll_cons_eq_iff.1 h
      rw [List.cons_append, applyAll_cons he]
      exact ih hrest

theorem applyAll_append_eq_iff {es fs : List Edit} :
    c.applyAll (es ++ fs) = (d, none) ↔
      ∃ c', c.applyAll es = (c', none) ∧ c'.applyAll fs = (d, none) := by
  constructor
  · intro h
    induction es generalizing c with
    | nil => exact ⟨c, rfl, h⟩
    | cons e rest ih =>
        obtain ⟨c₁, he, hrest⟩ := applyAll_cons_eq_iff.1 h
        obtain ⟨c', hes, hfs⟩ := ih hrest
        exact ⟨c', applyAll_cons_eq_iff.2 ⟨c₁, he, hes⟩, hfs⟩
  · rintro ⟨c', hes, hfs⟩
    rw [applyAll_append fs hes, hfs]

theorem apply_remove (h : c.gate? v = some g) :
    (Edit.remove v).apply c = .ok (c.without v) := by
  rw [Edit.apply, remove_of_gate? h]
  rfl

theorem apply_commute {a b : VertexId} (h : c.Commutable a b) :
    (Edit.commute a b).apply c = .ok (c.swapped a b) :=
  commute_eq_ok_iff.2 ⟨h, rfl⟩

theorem apply_setKind (h : c.gate? v = some g) (kind : Kind) :
    (Edit.setKind v kind).apply c = .ok (c.modify v fun g => { g with kind }) := by
  rw [Edit.apply, if_pos (contains_eq_true_iff.2 (mem_ids_of_gate? h))]

theorem apply_setWires (h : c.gate? v = some g) (target : Wire) (controls : List Wire) :
    (Edit.setWires v target controls).apply c
      = .ok (c.modify v fun g => { g with target, controls }) := by
  rw [Edit.apply, if_pos (contains_eq_true_iff.2 (mem_ids_of_gate? h))]

theorem apply_remove_eq_ok_iff :
    (Edit.remove v).apply c = .ok d ↔ v ∈ c.ids ∧ d = c.without v := by
  constructor
  · intro h
    by_cases hv : v ∈ c.ids
    · obtain ⟨g, hg⟩ := mem_ids.1 hv
      rw [apply_remove hg, Except.ok.injEq] at h
      exact ⟨hv, h.symm⟩
    · rw [Edit.apply, remove_eq_error_iff.2 ⟨rfl, hv⟩] at h
      cases h
  · rintro ⟨hv, rfl⟩
    obtain ⟨g, hg⟩ := mem_ids.1 hv
    exact apply_remove hg

/-- An overwriting is carried out exactly when the vertex is there. -/
theorem overwrite_eq_ok_iff {f : Gate → Gate} {e : Error} :
    (if c.contains v then Except.ok (c.modify v f) else .error e) = .ok d ↔
      v ∈ c.ids ∧ d = c.modify v f := by
  rw [← contains_eq_true_iff]
  by_cases hv : c.contains v = true
  · rw [if_pos hv, Except.ok.injEq, eq_comm, and_iff_right hv]
  · simp only [hv, if_false, reduceCtorEq, false_and]

theorem apply_setKind_eq_ok_iff {kind : Kind} :
    (Edit.setKind v kind).apply c = .ok d ↔
      v ∈ c.ids ∧ d = c.modify v fun g => { g with kind } :=
  overwrite_eq_ok_iff

theorem apply_setWires_eq_ok_iff {target : Wire} {controls : List Wire} :
    (Edit.setWires v target controls).apply c = .ok d ↔
      v ∈ c.ids ∧ d = c.modify v fun g => { g with target, controls } :=
  overwrite_eq_ok_iff

end Edits

/-! ## Building -/

section OfGates

variable (width : Nat) (gs : List Gate)

@[simp] theorem ids_ofGates : (ofGates width gs).ids = List.range gs.length := by
  rw [ids, ofGates, List.map_map, List.range_eq_range', ← List.zipIdx_map_snd]
  rfl

@[simp] theorem gate?_ofGates (i : VertexId) : (ofGates width gs).gate? i = gs[i]? := by
  have key : ∀ (i : Nat) (l : List Gate) (k : Nat), k ≤ i →
      ((l.zipIdx k).map fun p => (p.2, p.1)).lookup i = l[i - k]? := by
    intro i l
    induction l with
    | nil => simp
    | cons g rest ih =>
        intro k hk
        by_cases hi : i = k
        · simp [hi]
        · have hlt : k + 1 ≤ i := by omega
          have hsub : i - k = (i - (k + 1)) + 1 := by omega
          rw [List.zipIdx_cons, List.map_cons, List.lookup_cons, ih (k + 1) hlt, hsub]
          simp [beq_eq_false_iff_ne.2 hi]
  exact key i gs 0 (Nat.zero_le i)

theorem nodup_eraseDups (ws : List Wire) : ws.eraseDups.Nodup := by
  match ws with
  | [] => exact List.nodup_nil
  | w :: rest =>
      rw [List.eraseDups_cons, List.nodup_cons]
      refine ⟨by simp [List.mem_eraseDups], ?_⟩
      exact nodup_eraseDups (rest.filter fun x => !x == w)
termination_by ws.length
decreasing_by
  have := List.length_filter_le (fun x => !x == w) rest
  simp only [List.length_cons]
  omega

theorem mem_positionsOn {w : Wire} {gs : List Gate} {i : VertexId} :
    i ∈ positionsOn w gs ↔ ∃ g, gs[i]? = some g ∧ w ∈ g.wires := by
  simp only [positionsOn, List.mem_map, List.mem_filter, Prod.exists, exists_eq_right,
    List.mk_mem_zipIdx_iff_getElem?, Gate.touches_eq_true_iff]

theorem positionsOn_append (w : Wire) (A B : List Gate) :
    positionsOn w (A ++ B) =
      positionsOn w A ++ ((B.zipIdx A.length).filter fun p => p.1.touches w).map (·.2) := by
  rw [positionsOn, List.zipIdx_append, List.filter_append, List.map_append, Nat.zero_add]
  rfl

theorem positionsOn_concat (w : Wire) (gs : List Gate) (g : Gate) :
    positionsOn w (gs ++ [g]) = positionsOn w gs ++ if w ∈ g.wires then [gs.length] else [] := by
  rw [positionsOn_append]
  by_cases hw : w ∈ g.wires
  · simp [hw, Gate.touches_eq_true_iff.2 hw]
  · simp [hw, mt Gate.touches_eq_true_iff.1 hw]

theorem strand_ofGates (w : Wire) : (ofGates width gs).strand w = positionsOn w gs := by
  have key : ∀ l : List Wire, ((l.map fun w => (w, positionsOn w gs)).lookup w).getD [] =
      if w ∈ l then positionsOn w gs else [] := by
    intro l
    induction l with
    | nil => simp
    | cons x rest ih =>
        by_cases hx : w = x
        · simp [hx]
        · have hx' : (w == x) = false := by simpa using hx
          rw [List.map_cons, List.lookup_cons]
          simp only [hx']
          rw [ih]
          simp [hx]
  rw [strand, ofGates, key]
  split
  · rfl
  · rename_i hw
    symm
    rw [List.eq_nil_iff_forall_not_mem]
    intro i hi
    obtain ⟨g, hg, hwg⟩ := mem_positionsOn.1 hi
    exact hw (List.mem_eraseDups.2 (List.mem_flatMap.2 ⟨g, List.mem_of_getElem? hg, hwg⟩))

end OfGates

theorem checkWires_eq_ok_iff {width : Nat} {gate : String} {seen ws : List Wire} :
    checkWires width gate seen ws = .ok () ↔
      (∀ w ∈ ws, w.toNat < width ∧ w ∉ seen) ∧ ws.Nodup := by
  induction ws generalizing seen with
  | nil => simp [checkWires]
  | cons w rest ih =>
      rw [checkWires]
      by_cases hw : width ≤ w.toNat
      · rw [if_pos hw]
        refine ⟨nofun, fun h => ?_⟩
        have := (h.1 w (by simp)).1
        omega
      · rw [if_neg hw]
        by_cases hs : w ∈ seen
        · rw [if_pos (by simpa using hs)]
          exact ⟨nofun, fun h => absurd hs (h.1 w (by simp)).2⟩
        · rw [if_neg (by simpa using hs), ih, List.nodup_cons]
          constructor
          · rintro ⟨h₁, h₂⟩
            refine ⟨fun x hx => ?_, fun hm => (h₁ w hm).2 (by simp), h₂⟩
            rcases List.mem_cons.1 hx with rfl | hx
            · exact ⟨by omega, hs⟩
            · exact ⟨(h₁ x hx).1, fun hm => (h₁ x hx).2 (List.mem_cons_of_mem w hm)⟩
          · rintro ⟨h₁, h₂, h₃⟩
            refine ⟨fun x hx => ⟨(h₁ x (List.mem_cons_of_mem w hx)).1, ?_⟩, h₃⟩
            intro hm
            rcases List.mem_cons.1 hm with rfl | hm
            · exact h₂ hx
            · exact (h₁ x (List.mem_cons_of_mem w hx)).2 hm

/-- Wires that pass are remembered. -/
theorem checkWires_append {width : Nat} {gate : String} {seen ws : List Wire}
    (hnodup : ws.Nodup) (hfit : ∀ x ∈ ws, x.toNat < width ∧ x ∉ seen) (rest : List Wire) :
    checkWires width gate seen (ws ++ rest) = checkWires width gate (ws.reverse ++ seen) rest := by
  induction ws generalizing seen with
  | nil => rfl
  | cons w more ih =>
      obtain ⟨hw, hmore⟩ := List.nodup_cons.1 hnodup
      rw [List.forall_mem_cons] at hfit
      have hfit' : ∀ x ∈ more, x.toNat < width ∧ x ∉ w :: seen := by
        intro x hx
        have hne : x ≠ w := fun he => hw (he ▸ hx)
        simp [hfit.2 x hx, hne]
      rw [List.cons_append, checkWires, if_neg (by omega), if_neg (by simpa using hfit.1.2),
        ih hmore hfit']
      simp

theorem checkWires_eq_error {width : Nat} {gate : String} {seen ws : List Wire} {e : Error}
    (h : checkWires width gate seen ws = .error e) :
    ∃ before w after, ws = before ++ w :: after ∧
      (before.Nodup ∧ ∀ x ∈ before, x.toNat < width ∧ x ∉ seen) ∧
      (width ≤ w.toNat ∧ e = .wireOutOfRange w width gate ∨
        (w ∈ before ∨ w ∈ seen) ∧ e = .repeatedWire w gate) := by
  induction ws generalizing seen with
  | nil => cases h
  | cons x rest ih =>
      rw [checkWires] at h
      split at h
      · rename_i hx
        exact ⟨[], x, rest, rfl, by simp, Or.inl ⟨hx, (Except.error.inj h).symm⟩⟩
      · rename_i hx
        split at h
        · rename_i hseen
          have hmem : x ∈ seen := by simpa using hseen
          exact ⟨[], x, rest, rfl, by simp, Or.inr ⟨Or.inr hmem, (Except.error.inj h).symm⟩⟩
        · rename_i hseen
          have hnew : x ∉ seen := by simpa using hseen
          obtain ⟨before, w, after, rfl, ⟨hnodup, hfit⟩, he⟩ := ih h
          refine ⟨x :: before, w, after, rfl, ⟨List.nodup_cons.2 ⟨?_, hnodup⟩, ?_⟩, ?_⟩
          · exact fun hm => (hfit x hm).2 (by simp)
          · rw [List.forall_mem_cons]
            refine ⟨⟨by omega, hnew⟩, fun y hy => ⟨(hfit y hy).1, fun hm => (hfit y hy).2 ?_⟩⟩
            exact List.mem_cons_of_mem x hm
          · refine he.imp id fun he => ⟨?_, he.2⟩
            have hw := he.1
            simp only [List.mem_cons] at hw ⊢
            tauto

/-- Checking the wires of a gate reports the first that fails. -/
theorem checkWires_eq_error_iff {width : Nat} {g : Gate} {e : Error} :
    checkWires width g.name [] g.wires = .error e ↔ g.Misfit width e := by
  constructor
  · intro h
    obtain ⟨before, w, after, hw, ⟨hnodup, hfit⟩, he⟩ := checkWires_eq_error h
    exact ⟨before, w, after, hw, ⟨hnodup, fun x hx => (hfit x hx).1⟩, by simpa using he⟩
  · rintro ⟨before, w, after, hw, ⟨hnodup, hfit⟩, he⟩
    rw [hw, checkWires_append hnodup (fun x hx => ⟨hfit x hx, List.not_mem_nil⟩), checkWires]
    rcases he with ⟨hout, rfl⟩ | ⟨hmem, rfl⟩
    · rw [if_pos hout]
    · have hlt := hfit w hmem
      rw [if_neg (by omega), if_pos (by simpa using hmem)]

theorem checkWires_gate_eq_ok_iff {width : Nat} {g : Gate} :
    checkWires width g.name [] g.wires = .ok () ↔ g.Fits width := by
  rw [checkWires_eq_ok_iff, Gate.Fits, and_comm]
  simp

/-- Gates that fit are passed over. -/
theorem checkGates_append {width : Nat} {gs : List Gate} (h : ∀ g ∈ gs, g.Fits width)
    (rest : List Gate) : checkGates width (gs ++ rest) = checkGates width rest := by
  induction gs with
  | nil => rfl
  | cons g more ih =>
      rw [List.forall_mem_cons] at h
      rw [List.cons_append, checkGates, checkWires_gate_eq_ok_iff.2 h.1]
      exact ih h.2

/-- Checking gates reports the first that does not fit. -/
theorem checkGates_eq_error_iff {width : Nat} {gs : List Gate} {e : Error} :
    checkGates width gs = .error e ↔
      ∃ A g B, gs = A ++ g :: B ∧ (∀ k ∈ A, k.Fits width) ∧ g.Misfit width e := by
  constructor
  · intro h
    induction gs with
    | nil => cases h
    | cons g rest ih =>
        rw [checkGates] at h
        cases hg : checkWires width g.name [] g.wires with
        | ok u =>
            rw [hg] at h
            obtain ⟨A, k, B, rfl, hA, hk⟩ := ih h
            have hfits := checkWires_gate_eq_ok_iff.1 hg
            exact ⟨g :: A, k, B, rfl, List.forall_mem_cons.2 ⟨hfits, hA⟩, hk⟩
        | error e' =>
            rw [hg] at h
            obtain rfl := Except.error.inj h
            exact ⟨[], g, rest, rfl, by simp, checkWires_eq_error_iff.1 hg⟩
  · rintro ⟨A, g, B, rfl, hA, hg⟩
    rw [checkGates_append hA, checkGates, checkWires_eq_error_iff.2 hg]

theorem checkGates_eq_ok_iff {width : Nat} {gs : List Gate} :
    checkGates width gs = .ok () ↔ ∀ g ∈ gs, g.Fits width := by
  induction gs with
  | nil => simp [checkGates]
  | cons g rest ih =>
      rw [checkGates, List.forall_mem_cons, ← ih, ← checkWires_gate_eq_ok_iff]
      cases checkWires width g.name [] g.wires with
      | ok u => simp
      | error e => simp

/-- A circuit is built exactly from gates that fit it. -/
theorem build_eq_ok_iff {width : Nat} {gs : List Gate} {c : Circuit} :
    build width gs = .ok c ↔ (∀ g ∈ gs, g.Fits width) ∧ c = ofGates width gs := by
  rw [← checkGates_eq_ok_iff, build]
  cases checkGates width gs with
  | ok u => simp [eq_comm]
  | error e => simp

/-- A circuit is not built because of the first gate that does not fit, and its first wire that
fails. -/
theorem build_eq_error_iff {width : Nat} {gs : List Gate} {e : Error} :
    build width gs = .error e ↔
      ∃ A g B, gs = A ++ g :: B ∧ (∀ k ∈ A, k.Fits width) ∧ g.Misfit width e := by
  rw [← checkGates_eq_error_iff, build]
  cases checkGates width gs with
  | ok u => simp
  | error e' => simp

end Circuit

end Peephole
