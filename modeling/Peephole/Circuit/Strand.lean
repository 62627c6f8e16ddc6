/-!
# Strands

A strand is the list of the vertices on one wire, in the order they act. This file has what a
circuit asks of a strand: the neighbours of a vertex, the exchange of two neighbours, and how many
vertices are still ahead of one.
-/

namespace Peephole

/-- The name of a vertex within one circuit. -/
abbrev VertexId := Nat

namespace Strand

/-- The vertex right after `v`. -/
def next? (v : VertexId) : List VertexId → Option VertexId
  | [] => none
  | a :: rest => if a = v then rest.head? else next? v rest

/-- The vertex right before `v`. -/
def prev? (v : VertexId) : List VertexId → Option VertexId
  | [] => none
  | a :: rest => if rest.head? = some v then some a else prev? v rest

/-- The strand with `a` and `b` exchanged where `b` comes right after `a`. -/
def exchange (a b : VertexId) : List VertexId → List VertexId
  | [] => []
  | x :: rest =>
      if x = a then
        match rest with
        | [] => [x]
        | y :: more => if y = b then b :: a :: more else x :: y :: more
      else x :: exchange a b rest

/-- How many vertices come after `v`. -/
def ahead (v : VertexId) : List VertexId → Nat
  | [] => 0
  | a :: rest => if a = v then rest.length else ahead v rest

theorem exchange_eq_self {a b : VertexId} {s : List VertexId} (h : next? a s ≠ some b) :
    exchange a b s = s := by
  induction s with
  | nil => rfl
  | cons x rest ih =>
      by_cases hx : x = a
      · cases rest with
        | nil => simp [exchange, hx]
        | cons y more =>
            have hy : y ≠ b := by simpa [next?, hx] using h
            simp [exchange, hx, hy]
      · have h' : next? a rest ≠ some b := by simpa [next?, hx] using h
        simp [exchange, hx, ih h']

/-- An exchange loses no vertex and invents none. -/
theorem exchange_perm (a b : VertexId) (s : List VertexId) : (exchange a b s).Perm s := by
  induction s with
  | nil => exact .refl _
  | cons x rest ih =>
      by_cases hx : x = a
      · subst hx
        cases rest with
        | nil => simp [exchange]
        | cons y more =>
            by_cases hy : y = b
            · subst hy
              simpa [exchange] using List.Perm.swap x y more
            · simp [exchange, hy]
      · simpa [exchange, hx] using ih

/-- On a strand that has no vertex twice, nothing comes after itself. -/
theorem ne_of_next? {a b : VertexId} {s : List VertexId} (hs : s.Nodup)
    (h : next? a s = some b) : a ≠ b := by
  induction s with
  | nil => simp [next?] at h
  | cons x rest ih =>
      obtain ⟨hx, hrest⟩ := List.nodup_cons.1 hs
      by_cases hxa : x = a
      · rw [next?, if_pos hxa] at h
        intro hab
        exact hx (hxa.trans hab ▸ List.mem_of_head? h)
      · rw [next?, if_neg hxa] at h
        exact ih hrest h

/-- An exchange brings the first vertex one step forward. -/
theorem ahead_exchange {a b : VertexId} (hab : a ≠ b) {s : List VertexId}
    (h : next? a s = some b) : ahead a (exchange a b s) + 1 = ahead a s := by
  induction s with
  | nil => simp [next?] at h
  | cons x rest ih =>
      by_cases hx : x = a
      · subst hx
        cases rest with
        | nil => simp [next?] at h
        | cons y more =>
            have hy : y = b := by simpa [next?] using h
            subst hy
            simp [exchange, ahead, Ne.symm hab]
      · have h' : next? a rest = some b := by simpa [next?, hx] using h
        simp [exchange, ahead, hx, ih h']

end Strand

end Peephole
