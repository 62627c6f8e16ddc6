import Peephole.Angle

/-!
# Gates

A gate is a kind, the wire it acts on and the wires that control it. The optimizer understands
Hadamard, phase and controlled-not gates and rotations about the Z axis; any other gate is known
by its name alone and is carried along.

* `Kind` and its `Family`, which forgets angles and names.
* `Gate.wires`: controls first, then the target.
* `Gate.isSingle`: an uncontrolled gate of one family on one wire.
-/

namespace Peephole

/-- A wire of a circuit, by its index. -/
abbrev Wire := UInt32

/-- What a gate does. -/
inductive Kind where
  /-- Hadamard. -/
  | hadamard
  /-- Phase: the square root of Z. -/
  | phase
  /-- The inverse of the phase gate. -/
  | phaseDagger
  /-- Negation of the target under the controls. -/
  | cnot
  /-- Rotation about the Z axis. -/
  | rotation (angle : Angle)
  /-- A gate that is known by name only. -/
  | named (name : String)
  /-- The mark of a gate that was taken out of its circuit. -/
  | removed
  deriving BEq

/-- A kind up to the angle of a rotation and the name of a named gate. -/
inductive Family where
  | hadamard | phase | phaseDagger | cnot | rotation | named | removed
  deriving DecidableEq

namespace Kind

/-- The family of a kind. -/
def family : Kind → Family
  | .hadamard => .hadamard
  | .phase => .phase
  | .phaseDagger => .phaseDagger
  | .cnot => .cnot
  | .rotation _ => .rotation
  | .named _ => .named
  | .removed => .removed

/-- The name of a kind in a netlist. -/
def name : Kind → String
  | .hadamard => "H"
  | .phase => "P"
  | .phaseDagger => "P_dag"
  | .cnot => "CNOT"
  | .rotation _ => "R_z"
  | .named name => name
  | .removed => "DELETED"

/-- The kind a name stands for. A rotation needs its angle, so no name stands for one. -/
def ofName (name : String) : Kind :=
  if name = "H" then .hadamard
  else if name = "P" then .phase
  else if name = "P_dag" then .phaseDagger
  else if name = "CNOT" then .cnot
  else .named name

/-- The inverse of a phase gate. -/
def inversePhase? : Kind → Option Kind
  | .phase => some .phaseDagger
  | .phaseDagger => some .phase
  | _ => none

/-- The angle of a rotation. -/
def angle? : Kind → Option Angle
  | .rotation θ => some θ
  | _ => none

end Kind

/-- One operation of a circuit. -/
structure Gate where
  kind : Kind
  /-- The wire the gate acts on. -/
  target : Wire
  /-- The wires that control it, in the order they are written. -/
  controls : List Wire := []
  deriving BEq

namespace Gate

/-- The family of a gate. -/
def family (g : Gate) : Family := g.kind.family

/-- The name of a gate. -/
def name (g : Gate) : String := g.kind.name

/-- All wires of a gate: the controls, then the target. -/
def wires (g : Gate) : List Wire := g.controls ++ [g.target]

/-- Whether a wire belongs to the gate. -/
def touches (g : Gate) (w : Wire) : Bool := g.target == w || g.controls.contains w

/-- Whether some wire belongs to both gates. -/
def sharesWire (g h : Gate) : Bool := g.wires.any h.touches

/-- Whether the gate is an uncontrolled one of this family on this wire. -/
def isSingle (g : Gate) (f : Family) (w : Wire) : Bool :=
  g.family = f && g.target == w && g.controls.isEmpty

/-- Whether the gate is a controlled not, with any number of controls. -/
def isCnot (g : Gate) : Bool := g.family = .cnot

/-- The gate with the mark of removal. -/
def markRemoved (g : Gate) : Gate := { g with kind := .removed }

/-- The gate turned further by an angle; other gates than rotations stay as they are. -/
def turn (θ : Angle) (g : Gate) : Gate :=
  match g.kind with
  | .rotation φ => { g with kind := .rotation (φ + θ) }
  | _ => g

end Gate

end Peephole
