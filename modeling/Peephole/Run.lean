import Peephole.Event

/-!
# Runs

A run is what an optimization leaves behind: the circuit as far as it got, the events in order,
and its result or the failure that stopped it. A failure keeps the changes made before it.
-/

namespace Peephole

/-- Why an optimization stopped. -/
inductive Failure where
  /-- An operation on the circuit was refused. -/
  | circuit (cause : Circuit.Error)
  /-- A search was given a vertex that holds another gate. -/
  | unexpectedGate (v : VertexId) (expected found : String)
  /-- The circuit was not sound after a pass. -/
  | passFailed (pass : String) (cause : Circuit.Error)

/-- The text of a failure. -/
def Failure.message : Failure → String
  | .circuit cause => "IR error: " ++ cause.message
  | .unexpectedGate v expected found =>
      "Vertex " ++ vertexText v ++ " holds '" ++ found ++ "', expected " ++ expected
  | .passFailed pass cause => "Pass '" ++ pass ++ "' failed: " ++ cause.message

/-- What an optimization leaves behind. -/
structure Run (α : Type) where
  circuit : Circuit
  events : List Event
  result : Except Failure α

namespace Run

/-- A run that ends well. -/
def done {α : Type} (c : Circuit) (a : α) : Run α := ⟨c, [], .ok a⟩

/-- A run that stops. -/
def failed {α : Type} (c : Circuit) (e : Failure) : Run α := ⟨c, [], .error e⟩

/-- The run with an event in front. -/
def after {α : Type} (e : Event) (r : Run α) : Run α := { r with events := e :: r.events }

/-- The run with its result mapped. -/
def map {α β : Type} (f : α → β) (r : Run α) : Run β := { r with result := r.result.map f }

/-- The run followed by another, if it ends well. -/
def andThen {α β : Type} (r : Run α) (next : Circuit → α → Run β) : Run β :=
  match r.result with
  | .error e => { r with result := .error e }
  | .ok a =>
      let s := next r.circuit a
      { s with events := r.events ++ s.events }

end Run

end Peephole
