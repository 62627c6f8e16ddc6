import Peephole.Text.Natural

/-!
# Decimal literals

A literal has an integer part and a fraction, with a digit in at least one of them, and may have
an exponent of ten. Its value is the nearest double; from the range of doubles upwards that is
infinity, and downwards zero.
-/

namespace Peephole.Decimal

/-- An unsigned literal: the number `digits * 10 ^ exponent`, its digits as they were written. -/
structure Literal where
  digits : List Char
  exponent : Int

/-- An exponent: an optional sign and at least one digit. -/
def exponent? : List Char → Option Int
  | '-' :: rest => (Text.digits? rest).map fun n => -n
  | '+' :: rest => (Text.digits? rest).map fun n => n
  | rest => (Text.digits? rest).map fun n => n

/-- What follows the digits: nothing, or `e` and an exponent. -/
def scale? : List Char → Option Int
  | [] => some 0
  | c :: rest => if c = 'e' ∨ c = 'E' then exponent? rest else none

/-- A literal that takes up all the characters. -/
def Literal.read? (cs : List Char) : Option Literal :=
  let whole := cs.takeWhile Char.isDigit
  let (fraction, rest) :=
    match cs.dropWhile Char.isDigit with
    | '.' :: r => (r.takeWhile Char.isDigit, r.dropWhile Char.isDigit)
    | r => ([], r)
  if whole.isEmpty && fraction.isEmpty then none
  else (scale? rest).map fun e => ⟨whole ++ fraction, e - fraction.length⟩

/-- The nearest double. Literals outside the range of doubles are told by the position of their
first digit, so that no power of ten is formed for them. -/
def Literal.toFloat (l : Literal) : Float :=
  let significant := l.digits.dropWhile (· = '0')
  let point := significant.length + l.exponent
  if significant.isEmpty then 0.0
  else if 310 < point then 1.0 / 0.0
  else if point < -330 then 0.0
  else Float.ofScientific (Text.digitsValue significant) (l.exponent < 0) l.exponent.natAbs

end Peephole.Decimal
