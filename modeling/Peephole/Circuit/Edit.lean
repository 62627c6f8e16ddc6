import Peephole.Circuit.Basic

/-!
# Edits

The changes a circuit can undergo, as functions and as data. An operation that is refused leaves
the circuit as it was; a list of edits stops at the first one that is refused and keeps those
before it.

* `Circuit.remove` takes a vertex out and joins what was before and after it on every strand.
* `Circuit.commute` exchanges two vertices that directly follow each other on all the strands
  they share.
* `Circuit.modify` overwrites a gate in place.
-/

namespace Peephole

namespace Circuit

/-- The circuit with the gate of one vertex changed. -/
def modify (c : Circuit) (v : VertexId) (f : Gate → Gate) : Circuit :=
  { c with gates := c.gates.map fun p => if p.1 = v then (p.1, f p.2) else p }

/-- The circuit without a vertex: what was before it on a strand is followed by what was after. -/
def without (c : Circuit) (v : VertexId) : Circuit where
  width := c.width
  gates := c.gates.filter fun p => p.1 ≠ v
  strands := c.strands.map fun s => (s.1, s.2.filter (· ≠ v))
  nodup := by
    intro s hs
    obtain ⟨t, ht, rfl⟩ := List.mem_map.1 hs
    exact (c.nodup t ht).filter _

/-- Removal of a vertex, with the gate it held. -/
def remove (c : Circuit) (v : VertexId) : Except Error (Gate × Circuit) :=
  match c.gate? v with
  | none => .error (.noVertex v)
  | some g => .ok (g.markRemoved, c.without v)

/-- The circuit with `a` and `b` exchanged on every strand where `b` comes right after `a`. -/
def swapped (c : Circuit) (a b : VertexId) : Circuit where
  width := c.width
  gates := c.gates
  strands := c.strands.map fun s => (s.1, Strand.exchange a b s.2)
  nodup := by
    intro s hs
    obtain ⟨t, ht, rfl⟩ := List.mem_map.1 hs
    exact (Strand.exchange_perm a b t.2).nodup_iff.2 (c.nodup t ht)

/-- Whether `b` comes right after `a` on a strand that has both. -/
def adjacentOn (a b : VertexId) (s : List VertexId) : Bool :=
  !(s.contains a && s.contains b) || Strand.next? a s = some b

/-- Exchange of two vertices, so that `b` comes before `a`. -/
def commute (c : Circuit) (a b : VertexId) : Except Error Circuit :=
  if !c.contains a then .error (.noVertex a)
  else if !(c.successors a).contains b then .error (.notAdjacent a b)
  else if !c.contains b then .error (.noVertex b)
  else if c.strands.all (fun s => adjacentOn a b s.2) then .ok (c.swapped a b)
  else .error (.notAdjacent a b)

/-! ## Edits as data -/

/-- One change to a circuit. -/
inductive Edit where
  | remove (v : VertexId)
  | commute (a b : VertexId)
  | setKind (v : VertexId) (kind : Kind)
  | setWires (v : VertexId) (target : Wire) (controls : List Wire)
  /-- Turns a rotation further; no other gate changes. -/
  | turn (v : VertexId) (angle : Angle)

/-- The circuit after an edit. -/
def Edit.apply (c : Circuit) : Edit → Except Error Circuit
  | .remove v => (c.remove v).map (·.2)
  | .commute a b => c.commute a b
  | .setKind v kind =>
      if c.contains v then .ok (c.modify v fun g => { g with kind }) else .error (.noVertex v)
  | .setWires v target controls =>
      if c.contains v then .ok (c.modify v fun g => { g with target, controls })
      else .error (.noVertex v)
  | .turn v θ => .ok (c.modify v (Gate.turn θ))

/-- Applies edits in order. The result is the circuit after the last one that was carried out and
the error of the one that was refused, if any. -/
def applyAll (c : Circuit) : List Edit → Circuit × Option Error
  | [] => (c, none)
  | e :: rest =>
      match e.apply c with
      | .ok d => applyAll d rest
      | .error err => (c, some err)

/-! ## Progress -/

/-- How many vertices are ahead of `v`, over all strands. -/
def ahead (c : Circuit) (v : VertexId) : Nat :=
  c.strands.foldr (fun s n => Strand.ahead v s.2 + n) 0

theorem ahead_exchange_le {a b : VertexId} (hab : a ≠ b) (s : List VertexId) :
    Strand.ahead a (Strand.exchange a b s) ≤ Strand.ahead a s := by
  by_cases h : Strand.next? a s = some b
  · have := Strand.ahead_exchange hab h
    omega
  · exact Nat.le_of_eq (congrArg (Strand.ahead a) (Strand.exchange_eq_self h))

theorem sum_ahead_exchange_le {a b : VertexId} (hab : a ≠ b) (ss : List (Wire × List VertexId)) :
    ss.foldr (fun s n => Strand.ahead a (Strand.exchange a b s.2) + n) 0
      ≤ ss.foldr (fun s n => Strand.ahead a s.2 + n) 0 := by
  induction ss with
  | nil => simp
  | cons s rest ih =>
      have := ahead_exchange_le hab s.2
      simp only [List.foldr_cons]
      omega

theorem sum_ahead_exchange_lt {a b : VertexId} (hab : a ≠ b) {ss : List (Wire × List VertexId)}
    (h : ∃ s ∈ ss, Strand.next? a s.2 = some b) :
    ss.foldr (fun s n => Strand.ahead a (Strand.exchange a b s.2) + n) 0
      < ss.foldr (fun s n => Strand.ahead a s.2 + n) 0 := by
  induction ss with
  | nil => simp at h
  | cons s rest ih =>
      simp only [List.foldr_cons]
      by_cases hs : Strand.next? a s.2 = some b
      · have := Strand.ahead_exchange hab hs
        have := sum_ahead_exchange_le hab rest
        omega
      · obtain ⟨t, ht, hn⟩ := h
        rcases List.mem_cons.mp ht with rfl | ht
        · exact absurd hn hs
        · have := ih ⟨t, ht, hn⟩
          have := ahead_exchange_le hab s.2
          omega

/-- A vertex that is commuted forward has fewer vertices ahead of it. -/
theorem ahead_commute {c d : Circuit} {a b : VertexId} (h : c.commute a b = .ok d) :
    d.ahead a < c.ahead a := by
  unfold commute at h
  split at h
  · cases h
  · split at h
    · cases h
    · rename_i hmem
      split at h
      · cases h
      · split at h
        · cases h
          have hb : b ∈ c.successors a := by simpa using hmem
          rw [successors, mem_ascending, List.mem_filterMap] at hb
          obtain ⟨s, hs, hn⟩ := hb
          have hab := Strand.ne_of_next? (c.nodup s hs) hn
          simpa [ahead, swapped, List.foldr_map] using sum_ahead_exchange_lt hab ⟨s, hs, hn⟩
        · cases h

/-- A vertex that is commuted past all of a path has fewer vertices ahead of it. -/
theorem ahead_applyAll_commute {c d : Circuit} {v : VertexId} {path : List VertexId}
    (h : c.applyAll (path.map (.commute v)) = (d, none)) (hne : path ≠ []) :
    d.ahead v < c.ahead v := by
  induction path generalizing c with
  | nil => exact absurd rfl hne
  | cons b rest ih =>
      simp only [List.map_cons, applyAll, Edit.apply] at h
      split at h
      · rename_i e he
        have hlt := ahead_commute he
        by_cases hr : rest = []
        · subst hr
          simp only [List.map_nil, applyAll, Prod.mk.injEq] at h
          rw [← h.1]
          exact hlt
        · exact Nat.lt_trans (ih h hr) hlt
      · simp at h

end Circuit

end Peephole
