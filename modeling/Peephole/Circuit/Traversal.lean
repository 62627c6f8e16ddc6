import Peephole.Circuit.Strand

/-!
# Depth-first traversal

A traversal enters a vertex, then everything below it that was not entered yet, and leaves it. The
work still to do is a list of entries and exits. Listed from the last exit to the first, the
vertices of an acyclic graph come before everything below them.

A search for one vertex needs no exits. It keeps a stack of vertices to look at, and stops as soon
as it meets the one it looks for.

Only vertices of a given finite set are entered or visited, each once, which bounds a traversal and
a search on any graph, cyclic ones included.
-/

namespace Peephole.Traversal

/-- A step still to do. -/
inductive Step where
  | enter (v : VertexId)
  | leave (v : VertexId)

/-- The vertices that were not entered yet. -/
def unseen (live seen : List VertexId) : List VertexId :=
  live.filter fun v => !seen.contains v

theorem unseen_cons (live seen : List VertexId) (v : VertexId) :
    unseen live (v :: seen) = (unseen live seen).filter fun x => !(x == v) := by
  rw [unseen, unseen, List.filter_filter]
  congr 1
  funext x
  rw [List.contains_cons, Bool.not_or]

theorem length_unseen_cons_lt {live seen : List VertexId} {v : VertexId} (hv : v ∈ live)
    (hs : v ∉ seen) : (unseen live (v :: seen)).length < (unseen live seen).length := by
  rw [unseen_cons, List.length_filter_lt_length_iff_exists]
  exact ⟨v, by simp [unseen, hv, hs], by simp⟩

/-- Does the steps of `todo` and all they lead to. `done` are the vertices left so far, the last
one first. -/
def run (below : VertexId → List VertexId) (live : List VertexId) (todo : List Step)
    (seen done : List VertexId) : List VertexId :=
  match todo with
  | [] => done
  | .leave v :: rest => run below live rest seen (v :: done)
  | .enter v :: rest =>
      if h : v ∈ live ∧ v ∉ seen then
        run below live ((below v).map .enter ++ .leave v :: rest) (v :: seen) done
      else run below live rest seen done
termination_by ((unseen live seen).length, todo.length)
decreasing_by
  · apply Prod.Lex.right
    simp
  · apply Prod.Lex.left
    exact length_unseen_cons_lt h.1 h.2
  · apply Prod.Lex.right
    simp

/-- The vertices reached from the roots, from the last one left to the first. -/
def lastLeftFirst (below : VertexId → List VertexId) (live roots : List VertexId) :
    List VertexId :=
  run below live (roots.map .enter) [] []

/-! ## Looking for one vertex -/

/-- What a visit puts on the stack: the vertices below the one visited, without those visited
before, the last of them on top. -/
def pushed (below : VertexId → List VertexId) (visited : List VertexId) (v : VertexId) :
    List VertexId :=
  ((below v).filter fun w => !visited.contains w).reverse

/-- Whether a search meets `goal`. The stack may hold a vertex several times; only the first time
counts as a visit. -/
def meets (below : VertexId → List VertexId) (live : List VertexId) (goal : VertexId)
    (stack visited : List VertexId) : Bool :=
  match stack with
  | [] => false
  | v :: rest =>
      if v = goal then true
      else if _ : v ∈ live ∧ v ∉ visited then
        meets below live goal (pushed below (v :: visited) v ++ rest) (v :: visited)
      else meets below live goal rest visited
termination_by ((unseen live visited).length, stack.length)
decreasing_by
  · rename_i hv
    apply Prod.Lex.left
    exact length_unseen_cons_lt hv.1 hv.2
  · apply Prod.Lex.right
    simp

end Peephole.Traversal
