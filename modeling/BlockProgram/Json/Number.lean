import BlockProgram.Number.Numeral

/-!
# JSON numbers

A number is kept as a significand of at most 64 bits and an exponent of ten. Digits are taken
into the significand from the left as long as it does not outgrow 64 bits; of those that are
left over, the ones before the point count in the exponent. A number is in range if its
significand and its power of ten, each as the nearest 64-bit floating-point number, have a
finite product.
-/

namespace BlockProgram.Json

/-- A number: its sign, its significand, and the exponent of ten that goes with it. -/
structure Number where
  /-- Whether there is a minus sign. -/
  negative : Bool
  /-- The digits that are kept, read as a whole number. -/
  significand : Nat
  /-- The exponent of ten. -/
  exponent : Int
  deriving DecidableEq, Repr

namespace Number

/-- The largest significand. -/
def maxSignificand : Nat := 0xFFFFFFFFFFFFFFFF

/-- A significand with one digit more. -/
def push (significand : Nat) (digit : Char) : Nat :=
  10 * significand + (digit.toNat - '0'.toNat)

/-- A significand with as many of the digits as it can take, and how many it cannot. -/
def takeDigits (significand : Nat) : List Char → Nat × Nat
  | [] => (significand, 0)
  | c :: cs =>
    if push significand c ≤ maxSignificand then takeDigits (push significand c) cs
    else (significand, cs.length + 1)

/-- The number that a numeral stands for. -/
def ofNumeral (negative : Bool) (n : Numeral) : Number :=
  let fraction := n.fraction.getD []
  let (whole, excess) := takeDigits 0 n.whole
  let (significand, dropped) := takeDigits whole fraction
  ⟨negative, significand, n.exponent + excess - (fraction.length - dropped : Nat)⟩

/-- The largest exponent of a power of ten that is finite. -/
def maxExponent : Int := 308

/-- Whether a number is in range. -/
def inRange (n : Number) : Bool :=
  n.significand = 0 || n.exponent < 0 ||
    (n.exponent ≤ maxExponent &&
      ((Double.ofNat n.significand).mul (Double.ofNat (Nat.pow 10 n.exponent.toNat))).isFinite)

end Number

end BlockProgram.Json
