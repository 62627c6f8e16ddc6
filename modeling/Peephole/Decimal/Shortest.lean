/-!
# The fewest digits that read back

A finite double is `m * 2 ^ q` for whole numbers `m` and `q`. Every real number closer to it than
to its neighbours reads back as this double, and so do the ends of that interval when `m` is even.
Among the decimals in the interval, `shortest` selects one with the fewest significant digits, and
of those the nearest to the value; of two equally near, the larger.

All comparisons are exact, in natural numbers.
-/

namespace Peephole.Decimal

/-- A positive double: `significand * 2 ^ exponent`. The `tight` ones are the powers of two whose
lower neighbour is half as far away as the upper one. -/
structure Binary where
  significand : Nat
  exponent : Int
  tight : Bool

/-- The magnitude of a finite double that is not zero. -/
def Binary.ofFloat (x : Float) : Binary :=
  let bits := x.toBits.toNat
  let field : Nat := (bits >>> 52) % 2048
  let fraction : Nat := bits % (1 <<< 52)
  if field = 0 then ⟨fraction, -1074, false⟩
  else ⟨(1 <<< 52) + fraction, (field : Int) - 1075, fraction = 0 && 1 < field⟩

/-- A positive decimal: `0.d₁d₂…dₙ * 10 ^ point`, the digits written as one number. -/
structure Digits where
  value : Nat
  point : Int

/-- How many decimal digits a number has; zero has one. -/
def digitCount (n : Nat) : Nat := (Nat.toDigits 10 n).length

/-- The position of the decimal point: `10 ^ (p - 1) ≤ b < 10 ^ p`. -/
def Binary.point (b : Binary) : Int :=
  let num := b.significand <<< b.exponent.toNat
  let den := 1 <<< (-b.exponent).toNat
  if den ≤ num then digitCount (num / den) else 1 - digitCount ((den - 1) / num)

/-- Compare `n * 10 ^ unit` with `(4 * b.significand + offset) * 2 ^ (b.exponent - 2)`; with offset
zero the latter is the value itself. -/
def Binary.compareTo (b : Binary) (n : Nat) (unit : Int) (offset : Int) : Ordering :=
  compare
    ((n * Nat.pow 10 unit.toNat) <<< (2 - b.exponent).toNat)
    (((4 * (b.significand : Int) + offset).toNat <<< (b.exponent - 2).toNat)
      * Nat.pow 10 (-unit).toNat)

/-- Whether `n * 10 ^ unit` reads back as `b`. -/
def Binary.reads (b : Binary) (n : Nat) (unit : Int) : Bool :=
  let closed := b.significand % 2 = 0
  match b.compareTo n unit (if b.tight then -1 else -2), b.compareTo n unit 2 with
  | .gt, .lt => true
  | .eq, _ => closed
  | _, .eq => closed
  | _, _ => false

/-- The larger of two candidates, unless the smaller one is nearer to the value. -/
def Binary.nearer (b : Binary) (n : Nat) (unit : Int) : Nat :=
  -- twice the value against `2 * n + 1` units
  match ({ b with significand := 2 * b.significand } : Binary).compareTo (2 * n + 1) unit 0 with
  | .gt => n
  | _ => n + 1

/-- The selected decimal on the grid of `count` significant digits, if one there reads back. -/
def Binary.onGrid (b : Binary) (count : Nat) : Option Digits :=
  let point := b.point
  let unit := point - count
  let below :=
    (b.significand <<< b.exponent.toNat) * Nat.pow 10 (-unit).toNat
      / (Nat.pow 10 unit.toNat <<< (-b.exponent).toNat)
  match b.reads below unit, b.reads (below + 1) unit with
  | true, true => some ⟨b.nearer below unit, point⟩
  | true, false => some ⟨below, point⟩
  | false, true => some ⟨below + 1, point⟩
  | false, false => none

/-- The selected decimal. Seventeen digits always read back, so the search ends there. -/
def Binary.shortest (b : Binary) : Digits :=
  let grids := (List.range 17).filterMap fun k => (b.onGrid (k + 1)).map fun d => (d, k + 1)
  match grids with
  | [] => ⟨0, 0⟩
  | (d, count) :: _ => if d.value = Nat.pow 10 count then ⟨1, d.point + 1⟩ else d

end Peephole.Decimal
