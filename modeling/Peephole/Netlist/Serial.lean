import Peephole.Json.Basic
import Peephole.Netlist.Basic

/-!
# Netlists as JSON values

A netlist is an object with the members `num_qubits` and `gates`, a gate one with `kind`, `target`
and `controls`. A kind without parameters is its name; a rotation or a named gate is an object with
that one member.

Reading is wider than writing. A record may also be an array of its fields in order, members that
have no meaning are passed over, a kind without parameters may be an object whose one member is
null, and the angle of a rotation may be an integer.
-/

namespace Peephole

/-! ## Writing -/

/-- The value of a kind. -/
def Kind.toJson : Kind → Json
  | .hadamard => .string "H"
  | .phase => .string "P"
  | .phaseDagger => .string "PDag"
  | .cnot => .string "Cnot"
  | .rotation θ => .object [("Rz", if θ.isFinite then .real θ else .null)]
  | .named name => .object [("Other", .string name)]
  | .removed => .string "Deleted"

/-- The value of a gate. -/
def Gate.toJson (g : Gate) : Json :=
  .object [("kind", g.kind.toJson), ("target", .ofNat g.target.toNat),
    ("controls", .array (g.controls.map fun w => .ofNat w.toNat))]

/-- The value of a netlist. -/
def Netlist.toJson (n : Netlist) : Json :=
  .object [("num_qubits", .ofNat n.width), ("gates", .array (n.gates.map Gate.toJson))]

/-! ## Reading -/

namespace Json

/-- A natural number below a bound, from an integer literal. -/
def natBelow? (bound : Nat) : Json → Option Nat
  | .integer (.ofNat n) => if n < bound then some n else none
  | _ => none

/-- The wire that a value stands for. -/
def wire? (j : Json) : Option Wire :=
  (j.natBelow? UInt32.size).map UInt32.ofNat

/-- The angle that a value stands for. -/
def angle? : Json → Option Angle
  | .real x => some x
  | .integer n => some (Float.ofInt n)
  | _ => none

/-- The fields of a record: the members of these names, or the items of an array of that length. -/
def fields? (names : List String) : Json → Option (List Json)
  | .array items => if items.length = names.length then some items else none
  | j@(.object _) => names.mapM fun name => j.get? name
  | _ => none

/-- A kind that has no parameters. -/
def plainKind? (tag : String) : Option Kind :=
  if tag = "H" then some .hadamard
  else if tag = "P" then some .phase
  else if tag = "PDag" then some .phaseDagger
  else if tag = "Cnot" then some .cnot
  else if tag = "Deleted" then some .removed
  else none

/-- The kind that a value stands for. -/
def kind? : Json → Option Kind
  | .string tag => plainKind? tag
  | .object [("Rz", j)] => j.angle?.map .rotation
  | .object [("Other", .string name)] => some (.named name)
  | .object [(tag, .null)] => plainKind? tag
  | _ => none

/-- The items of an array. -/
def items? : Json → Option (List Json)
  | .array items => some items
  | _ => none

end Json

/-- The gate that a value stands for. -/
def Gate.ofJson? (j : Json) : Option Gate :=
  match j.fields? ["kind", "target", "controls"] with
  | some [kind, target, controls] => do
      let kind ← kind.kind?
      let target ← target.wire?
      let controls ← (← controls.items?).mapM Json.wire?
      return ⟨kind, target, controls⟩
  | _ => none

/-- The netlist that a value stands for. -/
def Netlist.ofJson? (j : Json) : Option Netlist :=
  match j.fields? ["num_qubits", "gates"] with
  | some [width, gates] => do
      let width ← width.natBelow? UInt64.size
      let gates ← (← gates.items?).mapM Gate.ofJson?
      return ⟨width, gates⟩
  | _ => none

end Peephole
