import Peephole.Hadamard.Rule
import Peephole.Run

/-!
# Hadamard reduction

The vertices that hold a Hadamard gate wait in a queue. Each is taken in turn, and the first rule
that applies there is carried out; a Hadamard gate that a rule creates joins the queue. An entry
whose vertex is gone, or holds another gate by now, is passed over.

Every rule leaves fewer Hadamard gates, since two vertices stand in the same order on all the
strands they share, so that no vertex is both the first and the last of a match. There are at most
as many rules to apply as there are Hadamard gates, which is where the recursion takes its bound
from.
-/

namespace Peephole.Hadamard

/-- The number of Hadamard gates, controlled ones included. -/
def count (c : Circuit) : Nat := c.gates.countP fun p => p.2.family = .hadamard

/-- Works off a queue by at most `left` rules, and returns the number of rules applied. -/
def drain (left : Nat) (c : Circuit) (queue : List VertexId) : Run Nat :=
  match queue with
  | [] => .done c 0
  | v :: rest =>
      match match? c v with
      | none => drain left c rest
      | some m =>
          match left with
          | 0 => .done c 0
          | left + 1 =>
              .after (.reducing v m.rule) <|
                match c.applyAll m.edits with
                | (d, some e) => .failed d (.circuit e)
                | (d, none) => (drain left d (rest ++ m.created)).map (· + 1)
termination_by (left, queue.length)
decreasing_by
  · apply Prod.Lex.right
    simp
  · apply Prod.Lex.left
    simp

/-- Applies the rules to a whole circuit. Every vertex named `H` is queued, by ascending name. -/
def reduce (c : Circuit) : Run Nat := drain (count c) c (c.idsNamed "H")

end Peephole.Hadamard
