import Lox.Number.Decimal

/-!
How numbers are written, and the value of a numeral in a program.
-/

namespace Lox

/-- The decisions of one way to write numbers. -/
structure NumberStyle where
  /-- Whole numbers end in `.0`. -/
  pointZero : Bool
  /-- The places of the leading digit that are written positionally, `none` for all of them: place 0
  is the units, place -1 the tenths. Outside these bounds a power of ten is written. -/
  positional : Option (Int × Int)
  infinity : String
  deriving Repr

namespace NumberStyle

/-- How a program prints numbers: always positionally. -/
def plain : NumberStyle where
  pointZero := false
  positional := none
  infinity := "Infinity"

/-- How numbers stand in the text of a tree. -/
def inTree : NumberStyle where
  pointZero := false
  positional := none
  infinity := "inf"

/-- How numbers stand in listings of tokens: always with a point or a power of ten. -/
def inListing : NumberStyle where
  pointZero := true
  positional := some (-4, 15)
  infinity := "inf"

def zeros (n : Nat) : String := String.ofList (List.replicate n '0')

/-- Digits whose first one stands at a place, written positionally. -/
def layOut (f : NumberStyle) (digits : List Char) (place : Int) : String :=
  if place < 0 then
    "0." ++ zeros (-place - 1).toNat ++ String.ofList digits
  else
    let whole := place.toNat + 1
    if digits.length ≤ whole then
      String.ofList digits ++ zeros (whole - digits.length) ++ (if f.pointZero then ".0" else "")
    else
      String.ofList (digits.take whole) ++ "." ++ String.ofList (digits.drop whole)

/-- Digits whose first one stands at a place, written with a power of ten. -/
def scientific (digits : List Char) (place : Int) : String :=
  let mantissa :=
    match digits with
    | d :: e :: rest => String.ofList (d :: '.' :: e :: rest)
    | _ => String.ofList digits
  mantissa ++ "e" ++ toString place

def isPositional (f : NumberStyle) (place : Int) : Bool :=
  match f.positional with
  | none => true
  | some (low, high) => low ≤ place && place ≤ high

/-- The text of a nonzero decimal. -/
def decimal (f : NumberStyle) (d : Decimal) : String :=
  let digits := Nat.toDigits 10 d.digits
  let place := d.exponent + digits.length - 1
  if f.isPositional place then f.layOut digits place else scientific digits place

/-- The text of a magnitude, the fewest digits that read back. -/
def magnitude (f : NumberStyle) (bits : UInt64) : String :=
  let x := Binary.ofBits bits
  if x.mantissa = 0 then f.layOut ['0'] 0 else f.decimal (Decimal.shortest x)

/-- The text of a number. Minus stands before every number whose sign bit is set, zero and infinity
included; what is not a number has one text. -/
def render (f : NumberStyle) (x : Float) : String :=
  if x.isNaN then "NaN"
  else
    let bits := x.toBits
    let sign := if bits >>> 63 == 1 then "-" else ""
    sign ++ if x.isInf then f.infinity else f.magnitude bits

end NumberStyle

/-- The value of a string of digits in base ten. -/
def digitsValue (digits : List Char) : Nat :=
  digits.foldl (fun n d => n * 10 + (d.toNat - '0'.toNat)) 0

/-- The double nearest to the decimal that a numeral stands for: digits, then perhaps a point and
more digits. -/
def numeralValue (text : List Char) : Float :=
  let whole := text.takeWhile (· != '.')
  let fraction := (text.dropWhile (· != '.')).drop 1
  Float.ofScientific (digitsValue (whole ++ fraction)) true fraction.length

end Lox
