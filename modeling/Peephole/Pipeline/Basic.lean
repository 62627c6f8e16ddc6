import Peephole.Circuit.Inspection
import Peephole.Pipeline.Pass

/-!
# Pipelines

A pipeline runs its passes in order, round after round, until a round leaves the number of gates
as it was or the rounds are used up. A pass that is not wanted is skipped. On request the circuit
is inspected after every pass.

* `Settings.pipeline` is the optimizer's own pipeline.
* `Pipeline.run` returns a report for every pass that ran.
-/

namespace Peephole

/-- What a pass did. -/
structure Report where
  pass : String
  /-- The round the pass ran in; rounds count from one. -/
  round : Nat
  opsBefore : Nat
  opsAfter : Nat
  deriving DecidableEq

/-- How many gates the pass removed. -/
def Report.removed (r : Report) : Nat := r.opsBefore - r.opsAfter

/-- Passes, and how to run them. -/
structure Pipeline where
  passes : List Pass := []
  /-- The most rounds. -/
  rounds : Nat := 1
  /-- Whether to inspect the circuit after every pass. -/
  inspected : Bool := false

namespace Pipeline

/-- Runs one pass, and inspects the circuit if that is asked for. -/
def runPass (p : Pipeline) (round : Nat) (pass : Pass) (c : Circuit) : Run Report :=
  .after (.passStarted pass.name round) <|
    (pass.run c).andThen fun d _ =>
      match if p.inspected then d.inspect else .ok () with
      | .error e => .failed d (.passFailed pass.name e)
      | .ok () =>
          .after (.passCompleted pass.name d.size)
            (.done d ⟨pass.name, round, c.size, d.size⟩)

/-- Runs passes in order. -/
def runPasses (p : Pipeline) (round : Nat) : List Pass → Circuit → Run (List Report)
  | [], c => .done c []
  | pass :: rest, c =>
      if pass.wanted c then
        (p.runPass round pass c).andThen fun d r => (p.runPasses round rest d).map (r :: ·)
      else .after (.passSkipped pass.name) (p.runPasses round rest c)

/-- Runs up to `left` rounds, the first of which has this number. -/
def runRounds (p : Pipeline) : (left round : Nat) → Circuit → Run (List Report)
  | 0, _, c => .done c []
  | left + 1, round, c =>
      (p.runPasses round p.passes c).andThen fun d reports =>
        if d.size = c.size then .after (.roundIdle round) (.done d reports)
        else (p.runRounds left (round + 1) d).map (reports ++ ·)

/-- Runs the pipeline. -/
def run (p : Pipeline) (c : Circuit) : Run (List Report) :=
  .after (.started p.passes.length c.width c.size) <|
    (p.runRounds p.rounds 1 c).andThen fun d reports =>
      match d.depth with
      | .error e => .failed d (.circuit e)
      | .ok depth => .after (.completed depth d.size) (.done d reports)

end Pipeline

/-- The choices that the optimizer leaves to its user. -/
structure Settings where
  hadamard : Bool := true
  cancel : Bool := true
  iterations : Nat := 1
  verify : Bool := false

/-- The pipeline of some settings. There is always at least one round. -/
def Settings.pipeline (s : Settings) : Pipeline where
  passes :=
    (if s.hadamard then [Pass.hadamardReduction] else [])
      ++ (if s.cancel then [Pass.cancellation] else [])
  rounds := max 1 s.iterations
  inspected := s.verify

end Peephole
