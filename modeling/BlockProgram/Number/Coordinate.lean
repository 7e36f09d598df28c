import BlockProgram.Number.Double

/-!
# Coordinates as text

A coordinate that lies within `10 ^ -9` of a whole number is written as that whole
number, kept within 64 signed bits; any other is written with six decimal places, of
which closing zeros, and a point left bare, are dropped.
-/

namespace BlockProgram.Coordinate

/-- The least whole number that is written. -/
def least : Int := -0x8000000000000000

/-- The greatest whole number that is written. -/
def greatest : Int := 0x7FFFFFFFFFFFFFFF

/-- The nearest whole number to an absolute value, a half upwards. -/
def nearest (d : Double) : Nat := Double.divRoundUp d.units Double.one

/-- Whether a finite number is less than `10 ^ -9` away from the nearest whole number. -/
def isNearWhole (d : Double) : Bool :=
  let there := nearest d * Double.one
  1000000000 * ((d.units - there) + (there - d.units)) < Double.one

/-- A whole number with its sign, kept within range. -/
def wholeText (negative : Bool) (n : Nat) : String :=
  let value : Int := if negative then -n else n
  toString (max least (min greatest value))

/-- A number below a million as six digits. -/
def sixDigits (n : Nat) : List Char :=
  [100000, 10000, 1000, 100, 10, 1].map fun place => Nat.digitChar (n / place % 10)

/-- A count of millionths as digits with a point, closing zeros dropped. -/
def millionthsText (n : Nat) : String :=
  let places := ((sixDigits (n % 1000000)).reverse.dropWhile (· == '0')).reverse
  toString (n / 1000000) ++ (if places.isEmpty then "" else "." ++ String.ofList places)

/-- The sign of a number as text. -/
def signText (negative : Bool) : String := if negative then "-" else ""

/-- The text of a coordinate. -/
def text (d : Double) : String :=
  if d.isNaN then "NaN"
  else if !d.isFinite then signText d.negative ++ "inf"
  else if isNearWhole d then wholeText d.negative (nearest d)
  else
    signText d.negative ++ millionthsText (Double.divRoundEven (d.units * 1000000) Double.one)

end BlockProgram.Coordinate
