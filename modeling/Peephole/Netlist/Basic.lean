import Peephole.Gate.Basic

/-!
# Netlists

A netlist is a number of wires and a list of gates, in the order they act. Nothing ties the gates
to the wires yet; that is checked when a circuit is built.
-/

namespace Peephole

/-- A list of gates over some wires. -/
structure Netlist where
  /-- The number of wires. -/
  width : Nat
  gates : List Gate
  deriving BEq

namespace Netlist

/-- The names in use, each once, in ascending order. -/
def names (n : Netlist) : List String :=
  (n.gates.map Gate.name).eraseDups.mergeSort (fun a b => decide (a ≤ b))

/-- How many gates there are of each name, by ascending name. -/
def census (n : Netlist) : List (String × Nat) :=
  n.names.map fun name => (name, n.gates.countP fun g => g.name = name)

end Netlist

end Peephole
