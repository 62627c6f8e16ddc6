import Peephole.Hadamard.Rule

/-!
# Events

What an optimization reports while it runs, and how each event is written to a log.
-/

namespace Peephole

/-- How much detail a log shows. -/
inductive Level where
  | info | debug | trace
  deriving DecidableEq

/-- The name of a level in a log. -/
def Level.name : Level → String
  | .info => "INFO"
  | .debug => "DEBUG"
  | .trace => "TRACE"

/-- Something that happened during an optimization. -/
inductive Event where
  /-- A rule is about to be applied at a Hadamard gate. -/
  | reducing (v : VertexId) (rule : Hadamard.Rule)
  /-- A rotation took up the angle of another. -/
  | rotationMerged (v partner : VertexId)
  /-- Two controlled nots vanished. -/
  | cnotCancelled (v partner : VertexId)
  /-- A gate moved past others. -/
  | slid (v : VertexId)
  /-- A gate moved without finding a partner and goes back. -/
  | rollingBack (v : VertexId)
  | hadamardsReduced (count : Nat)
  | gatesCancelled (count : Nat)
  | started (passes width ops : Nat)
  | passSkipped (pass : String)
  | passStarted (pass : String) (round : Nat)
  | passCompleted (pass : String) (ops : Nat)
  /-- A round removed nothing, so that no other follows. -/
  | roundIdle (round : Nat)
  | completed (depth ops : Nat)
  | loaded (ops width : Nat) (path : String)

namespace Event

/-- The detail that an event belongs to. -/
def level : Event → Level
  | .reducing .. | .rotationMerged .. | .cnotCancelled .. | .slid .. => .trace
  | .started .. | .completed .. => .info
  | _ => .debug

/-- The text of an event. -/
def message : Event → String
  | .reducing v rule => "Hadamard rewrite vertex=" ++ vertexText v ++ " rule=" ++ rule.name
  | .rotationMerged v p => "R_z merge vertex=" ++ vertexText v ++ " merged=" ++ vertexText p
  | .cnotCancelled v p =>
      "CNOT cancellation vertex=" ++ vertexText v ++ " merged=" ++ vertexText p
  | .slid v => "slid forward vertex=" ++ vertexText v
  | .rollingBack v => "no merge partner, rolling back vertex=" ++ vertexText v
  | .hadamardsReduced n => s!"HadamardReduction applied {n} rewrites"
  | .gatesCancelled n => s!"RotationCnotCancellation removed {n} gates"
  | .started passes width ops =>
      s!"Running pass manager with {passes} passes on circuit with {width} qubits and {ops} ops"
  | .passSkipped pass => s!"Skipping pass: {pass}"
  | .passStarted pass round => s!"Running pass: {pass} (round {round})"
  | .passCompleted pass ops => s!"Pass {pass} completed, ops: {ops}"
  | .roundIdle round => s!"Round {round} removed nothing, stopping"
  | .completed depth ops => s!"Pass manager completed, final depth: {depth}, ops: {ops}"
  | .loaded ops width path => s!"Loaded {ops} ops on {width} qubits from {path}"

/-- The line of an event in a log. -/
def render (e : Event) : String := e.level.name ++ " " ++ e.message

end Event

end Peephole
