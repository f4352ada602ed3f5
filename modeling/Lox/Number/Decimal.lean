/-!
The decimal with the fewest digits that reads back as a given double, by exact arithmetic on natural
numbers: the reals that round to a double form an interval, and the decimal grids are tried from
coarse to fine until one has a point in it.
-/

namespace Lox

/-- A finite magnitude, `mantissa * 2 ^ exponent`. -/
structure Binary where
  mantissa : Nat
  exponent : Int
  /-- The gap to the next magnitude below is half the gap to the next one above. -/
  narrowBelow : Bool
  deriving DecidableEq, Repr

/-- A magnitude written in base ten, `digits * 10 ^ exponent`. -/
structure Decimal where
  digits : Nat
  exponent : Int
  deriving DecidableEq, Repr

namespace Binary

/-- The magnitude of a finite double from its bits. The sign bit is not looked at. -/
def ofBits (bits : UInt64) : Binary :=
  let field := ((bits >>> 52) &&& 0x7FF).toNat
  let fraction := (bits &&& 0xFFFFFFFFFFFFF).toNat
  if field == 0 then ⟨fraction, -1074, false⟩
  else ⟨Nat.pow 2 52 + fraction, (field : Int) - 1075, fraction == 0 && field > 1⟩

/-- Numerator and denominator of a magnitude, in quarters of the last binary place. -/
def quarters (x : Binary) (count : Nat) : Nat × Nat :=
  (count * Nat.pow 2 (x.exponent - 2).toNat, Nat.pow 2 (2 - x.exponent).toNat)

/-- Lower end of the interval of reals that round to the magnitude, in quarters. -/
def low (x : Binary) : Nat := if x.narrowBelow then 4 * x.mantissa - 1 else 4 * x.mantissa - 2

/-- Upper end of that interval, in quarters. -/
def high (x : Binary) : Nat := 4 * x.mantissa + 2

/-- Compares `digits * 10 ^ exponent` with a number of quarters. -/
def compareDecimal (x : Binary) (d : Decimal) (count : Nat) : Ordering :=
  let (num, den) := x.quarters count
  compare (d.digits * Nat.pow 10 d.exponent.toNat * den) (num * Nat.pow 10 (-d.exponent).toNat)

/-- Whether a decimal lies among the reals that round to the magnitude. The ends of the interval
belong to it when the mantissa is even. -/
def readsBack (x : Binary) (d : Decimal) : Bool :=
  let even := x.mantissa % 2 == 0
  let below := x.compareDecimal d x.low
  let above := x.compareDecimal d x.high
  (below == .gt || even && below == .eq) && (above == .lt || even && above == .eq)

/-- The least `k` for which a nonzero magnitude is below `10 ^ k`. -/
def scale (x : Binary) : Int :=
  let (num, den) := x.quarters (4 * x.mantissa)
  if den ≤ num then (Nat.toDigits 10 (num / den)).length
  else 1 - (Nat.toDigits 10 ((den - 1) / num)).length

/-- Of the two neighbours of the magnitude on the grid of `10 ^ place`, the one that reads back; of
two that do, the nearer one, and the upper one when both are equally near. -/
def onGrid? (x : Binary) (place : Int) : Option Decimal :=
  let (num, den) := x.quarters (4 * x.mantissa)
  let dividend := num * Nat.pow 10 (-place).toNat
  let divisor := den * Nat.pow 10 place.toNat
  let floor := dividend / divisor
  let lower : Decimal := ⟨floor, place⟩
  let upper : Decimal := ⟨floor + 1, place⟩
  match x.readsBack lower, x.readsBack upper with
  | true, true => if 2 * (dividend % divisor) < divisor then some lower else some upper
  | true, false => some lower
  | false, true => some upper
  | false, false => none

/-- The magnitude itself in base ten. -/
def exact (x : Binary) : Decimal :=
  if 0 ≤ x.exponent then ⟨x.mantissa * Nat.pow 2 x.exponent.toNat, 0⟩
  else ⟨x.mantissa * Nat.pow 5 (-x.exponent).toNat, x.exponent⟩

end Binary

namespace Decimal

/-- Moves trailing zeros of the digits into the exponent, at most `n` of them. -/
def trim : Nat → Decimal → Decimal
  | 0, d => d
  | n + 1, d =>
      if d.digits % 10 = 0 then trim n ⟨d.digits / 10, d.exponent + 1⟩ else d

/-- The decimal with the fewest digits that reads back as a nonzero magnitude, and of those the
nearest one. Seventeen digits are enough for every double. -/
def shortest (x : Binary) : Decimal :=
  let found := (List.range' 1 17).findSome? fun (count : Nat) => x.onGrid? (x.scale - count)
  trim 20 (found.getD x.exact)

end Decimal
end Lox
