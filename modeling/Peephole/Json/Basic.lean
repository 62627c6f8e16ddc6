/-!
# JSON values

Numbers keep what matters for reading them: an integer literal is exact and of any size, every
other number is a double.
-/

namespace Peephole

/-- A JSON value. -/
inductive Json where
  | null
  | bool (b : Bool)
  | integer (n : Int)
  | real (x : Float)
  | string (s : String)
  | array (items : List Json)
  /-- The members in the order they are written. -/
  | object (members : List (String × Json))

namespace Json

/-- The value of a member. -/
def get? (key : String) : Json → Option Json
  | .object members => members.lookup key
  | _ => none

/-- A natural number as a value. -/
def ofNat (n : Nat) : Json := .integer n

end Json

end Peephole
