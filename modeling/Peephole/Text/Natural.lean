/-!
# Unsigned numerals

Wire indices and counts are written as ASCII decimal digits, with an optional plus sign and any
number of leading zeros. A numeral is read against a bound: wires have thirty-two bits, counts
sixty-four.
-/

namespace Peephole.Text

/-- The number that a list of decimal digits stands for. -/
def digitsValue (ds : List Char) : Nat :=
  ds.foldl (fun n d => 10 * n + (d.toNat - '0'.toNat)) 0

/-- The digits of a numeral: one or more, nothing else. -/
def digits? (cs : List Char) : Option Nat :=
  if cs.isEmpty then none
  else if cs.all Char.isDigit then some (digitsValue cs)
  else none

/-- The number a token stands for, if it is a numeral and its value is below `bound`. -/
def natural? (bound : Nat) (token : String) : Option Nat :=
  let body :=
    match token.toList with
    | '+' :: rest => rest
    | cs => cs
  (digits? body).filter (· < bound)

end Peephole.Text
