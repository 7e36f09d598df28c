/-!
# 64-bit floating-point numbers

A coordinate is a 64-bit binary floating-point number, kept as its sign and the 63
bits below it. Those bits, read as a natural number, grow with the absolute value, so
the total order of floating-point numbers is an order of integers. Every finite
number is a whole multiple of the smallest positive one, `2 ^ -1074`, and rounding,
reading and writing are done on these multiples without loss.
-/

namespace BlockProgram

/-- A 64-bit floating-point number: its sign and the 63 bits below the sign. -/
structure Double where
  /-- Whether the sign bit is set. -/
  negative : Bool
  /-- The exponent and fraction bits as one number. -/
  magnitude : Fin 0x8000000000000000
  deriving DecidableEq, Repr

namespace Double

/-- How many magnitudes share an exponent. -/
def binade : Nat := 0x10000000000000

/-- The magnitude of the two infinities; what lies above it is not a number. -/
def infinite : Nat := 0x7FF0000000000000

/-- How many of the smallest positive number make up one. -/
def one : Nat := Nat.pow 2 1074

/-- The number with a given sign and magnitude, infinity if the magnitude is too large. -/
def ofMagnitude (negative : Bool) (m : Nat) : Double :=
  ⟨negative, min m infinite, by simp only [infinite]; omega⟩

/-- Zero of a given sign. -/
def zero (negative : Bool) : Double := ofMagnitude negative 0

/-- Infinity of a given sign. -/
def infinity (negative : Bool) : Double := ofMagnitude negative infinite

/-- The quiet value that is not a number. -/
def nan (negative : Bool) : Double := ⟨negative, 0x7FF8000000000000, by decide⟩

/-- Neither infinite nor not a number. -/
def isFinite (d : Double) : Bool := d.magnitude.val < infinite

/-- Not a number. -/
def isNaN (d : Double) : Bool := infinite < d.magnitude.val

/-- All 64 bits, the sign on top. -/
def bits (d : Double) : Nat :=
  (if d.negative then 0x8000000000000000 else 0) + d.magnitude.val

/-! ### The total order -/

/-- The place of a number in the total order
`-NaN < -∞ < ... < -0 < +0 < ... < ∞ < NaN`. -/
def rank (d : Double) : Int :=
  if d.negative then -(d.magnitude.val : Int) - 1 else d.magnitude.val

/-- Only equal numbers share a place. -/
theorem rank_injective {a b : Double} (h : a.rank = b.rank) : a = b := by
  obtain ⟨na, ma⟩ := a
  obtain ⟨nb, mb⟩ := b
  simp only [rank] at h
  cases na <;> cases nb <;> simp_all [Fin.ext_iff] <;> omega

/-! ### Exact values -/

/-- The absolute value of a finite number, counted in smallest positive numbers. -/
def units (d : Double) : Nat :=
  let e := d.magnitude.val / binade
  let f := d.magnitude.val % binade
  if e = 0 then f else (binade + f) * Nat.pow 2 (e - 1)

/-- The quotient rounded to the nearest whole number, a tie to the even one. -/
def divRoundEven (n d : Nat) : Nat :=
  if 2 * (n % d) < d || (2 * (n % d) == d && n / d % 2 == 0) then n / d else n / d + 1

/-- The quotient rounded to the nearest whole number, a tie upwards. -/
def divRoundUp (n d : Nat) : Nat := (2 * n + d) / (2 * d)

/-- The number nearest to a fraction, a tie to the even one: as many low bits are
dropped as leave 53 significant ones. -/
def ofFraction (negative : Bool) (num den : Nat) : Double :=
  let scaled := num * one
  let dropped := (scaled / den).log2 - 52
  ofMagnitude negative (dropped * binade + divRoundEven scaled (den * Nat.pow 2 dropped))

/-- The number nearest to a whole number. -/
def ofNat (n : Nat) : Double := ofFraction false n 1

/-- The number nearest to the product of two finite numbers. -/
def mul (a b : Double) : Double :=
  ofFraction (a.negative != b.negative) (a.units * b.units) (one * one)

end Double

end BlockProgram
