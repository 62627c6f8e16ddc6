import Peephole.Decimal.Literal
import Peephole.Decimal.Shortest

/-!
# Rotation angles

An angle is a double. It is read from a signed decimal literal or one of the words `inf`,
`infinity` and `nan` in any case, and written with the fewest digits that read back, always in
positional notation: a whole number has no decimal point, and there is never an exponent.
-/

namespace Peephole

/-- The angle of a rotation. -/
abbrev Angle := Float

namespace Angle

/-- An angle without its sign. -/
def magnitude? (cs : List Char) : Option Angle :=
  let word := String.ofList (cs.map Char.toLower)
  if word = "inf" ∨ word = "infinity" then some (1.0 / 0.0)
  else if word = "nan" then some (0.0 / 0.0)
  else (Decimal.Literal.read? cs).map Decimal.Literal.toFloat

/-- The angle a token stands for. -/
def read? (token : String) : Option Angle :=
  match token.toList with
  | '-' :: rest => (magnitude? rest).map fun x => -x
  | '+' :: rest => magnitude? rest
  | cs => magnitude? cs

/-- Digits in positional notation. -/
def positional (d : Decimal.Digits) : String :=
  let ds := Nat.toDigits 10 d.value
  let n : Int := ds.length
  if d.point ≤ 0 then
    "0." ++ String.ofList (List.replicate (-d.point).toNat '0' ++ ds)
  else if n ≤ d.point then
    String.ofList (ds ++ List.replicate (d.point - n).toNat '0')
  else
    String.ofList (ds.take d.point.toNat ++ '.' :: ds.drop d.point.toNat)

/-- Whether the sign bit is set, which also tells the two zeros apart. -/
def isNegative (x : Angle) : Bool := x.toBits.toNat >>> 63 = 1

/-- The text of an angle. -/
def render (x : Angle) : String :=
  if x.isNaN then "NaN"
  else
    let sign := if isNegative x then "-" else ""
    if x.isInf then sign ++ "inf"
    else if x == 0.0 then sign ++ "0"
    else sign ++ positional (Decimal.Binary.ofFloat x).shortest

end Angle

end Peephole
