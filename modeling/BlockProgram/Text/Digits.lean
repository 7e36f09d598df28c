/-!
# Digits

Decimal and hexadecimal digits, and the numbers that runs of them stand for.
-/

namespace BlockProgram.Text

/-- A decimal digit. -/
def isDigit (c : Char) : Bool := '0' ≤ c && c ≤ '9'

/-- The number that a run of decimal digits stands for. -/
def decimalValue (digits : List Char) : Nat :=
  digits.foldl (fun n c => 10 * n + (c.toNat - '0'.toNat)) 0

@[simp] theorem decimalValue_nil : decimalValue [] = 0 := rfl

/-- The value of one hexadecimal digit, of either letter case. -/
def hexDigitValue? (c : Char) : Option Nat :=
  if '0' ≤ c && c ≤ '9' then some (c.toNat - '0'.toNat)
  else if 'a' ≤ c && c ≤ 'f' then some (c.toNat - 'a'.toNat + 10)
  else if 'A' ≤ c && c ≤ 'F' then some (c.toNat - 'A'.toNat + 10)
  else none

/-- The number that a run of hexadecimal digits stands for. -/
def hexValue? (digits : List Char) : Option Nat :=
  digits.foldlM (fun n c => (hexDigitValue? c).map (16 * n + ·)) 0

/-- A number below 256 as two lower-case hexadecimal digits. -/
def hexByte (n : Nat) : List Char := [Nat.digitChar (n / 16), Nat.digitChar (n % 16)]

/-- A hexadecimal digit has the value that it was made of. -/
theorem hexDigitValue?_digitChar {n : Nat} (h : n < 16) :
    hexDigitValue? (Nat.digitChar n) = some n := by
  revert n
  decide

end BlockProgram.Text
