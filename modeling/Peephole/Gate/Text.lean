import Peephole.Gate.Basic
import Peephole.Text.Blank
import Peephole.Text.Natural

/-!
# Instruction lines

A gate is written as its name, its controls and its target, with blanks between them. A rotation
is written as `R_z`, its angle and its target.

* `Gate.read` reads a line; `Gate.ReadError` says what is wrong with one that is no gate.
* `Gate.render` writes a gate.
-/

namespace Peephole

namespace Gate

/-- Why a line is not an instruction. -/
inductive ReadError where
  /-- There is no word on the line. -/
  | empty
  /-- The name stands alone. -/
  | noTarget (name : String)
  /-- A rotation takes an angle and a target, not this many operands. -/
  | rotationArity (found : Nat)
  /-- The token is not the index of a wire. -/
  | badWire (token : String)
  /-- The token is not an angle. -/
  | badAngle (token : String)

/-- The text of an error. -/
def ReadError.message : ReadError → String
  | .empty => "Empty instruction"
  | .noTarget name => s!"Gate '{name}' has no target qubit"
  | .rotationArity found => s!"R_z expects an angle and a target, got {found} operand(s)"
  | .badWire token => s!"Invalid qubit index '{token}'"
  | .badAngle token => s!"Invalid rotation angle '{token}'"

/-- The wire a token stands for. -/
def readWire (token : String) : Except ReadError Wire :=
  match Text.natural? UInt32.size token with
  | some n => .ok (UInt32.ofNat n)
  | none => .error (.badWire token)

/-- A rotation from its operands. -/
def readRotation : List String → Except ReadError Gate
  | [angle, target] =>
      match Angle.read? angle with
      | none => .error (.badAngle angle)
      | some θ => do
          let target ← readWire target
          return ⟨.rotation θ, target, []⟩
  | operands => .error (.rotationArity operands.length)

/-- A gate from its words. The controls are read before the target. -/
def ofWords : List String → Except ReadError Gate
  | [] => .error .empty
  | name :: operands =>
      if name = "R_z" then readRotation operands
      else
        match operands.getLast? with
        | none => .error (.noTarget name)
        | some last => do
            let controls ← operands.dropLast.mapM readWire
            let target ← readWire last
            return ⟨.ofName name, target, controls⟩

/-- The gate on an instruction line. -/
def read (line : String) : Except ReadError Gate :=
  ofWords (Text.words line)

/-! ## Writing -/

/-- The text of a wire as an operand. -/
def operand (w : Wire) : String := toString w.toNat

/-- The words of a gate: its name, its angle if it has one, its wires. -/
def toWords (g : Gate) : List String :=
  g.name :: (g.kind.angle?.map Angle.render).toList ++ g.wires.map operand

/-- The instruction line of a gate. -/
def render (g : Gate) : String :=
  Text.unwords g.toWords

end Gate

end Peephole
