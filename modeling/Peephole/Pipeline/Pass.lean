import Peephole.Cancel.Sweep
import Peephole.Hadamard.Reduction

/-!
# Passes

A pass is a named transformation of circuits that can tell whether it has anything to do.
-/

namespace Peephole

/-- A named transformation of circuits. -/
structure Pass where
  name : String
  /-- Whether the pass has anything to do. -/
  wanted : Circuit → Bool := fun _ => true
  run : Circuit → Run Unit

namespace Pass

/-- Reduction of Hadamard gates. -/
def hadamardReduction : Pass where
  name := "HadamardReduction"
  wanted c := c.gates.any fun p => p.2.family = .hadamard
  run c := (Hadamard.reduce c).andThen fun d n => .after (.hadamardsReduced n) (.done d ())

/-- Cancellation of rotations and controlled nots. -/
def cancellation : Pass where
  name := "RotationCnotCancellation"
  wanted c := c.gates.any fun p => (Cancel.Candidate.ofGate? p.2).isSome
  run c := (Cancel.sweep c).andThen fun d n => .after (.gatesCancelled n) (.done d ())

end Pass

end Peephole
