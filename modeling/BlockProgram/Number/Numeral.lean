import BlockProgram.Text.Blank
import BlockProgram.Text.Digits
import BlockProgram.Number.Double

/-!
# Numbers as they are written

A numeral is a sign, digits with at most one point among them, and an exponent of
ten. Reading it as a 64-bit number gives the nearest one. The words for infinity and
for "not a number" are read in any letter case.
-/

namespace BlockProgram

/-- A number as it is written, apart from its sign. -/
structure Numeral where
  /-- The digits before the point. -/
  whole : List Char
  /-- The digits after the point, if there is a point. -/
  fraction : Option (List Char)
  /-- The exponent of ten. -/
  exponent : Int
  deriving DecidableEq, Repr

namespace Numeral

/-- A sign, if there is one, and what follows it; `true` is minus. -/
def splitSign : List Char → Bool × List Char
  | '-' :: cs => (true, cs)
  | '+' :: cs => (false, cs)
  | cs => (false, cs)

/-- An exponent of ten: nothing, or `e` with an optional sign and digits. -/
def exponent? : List Char → Option Int
  | [] => some 0
  | c :: cs =>
    let (negative, digits) := splitSign cs
    if (c == 'e' || c == 'E') && !digits.isEmpty && digits.all Text.isDigit then
      let value : Int := Text.decimalValue digits
      some (if negative then -value else value)
    else none

/-- A number without a sign; at least one digit stands before or after the point. -/
def parse? (cs : List Char) : Option Numeral :=
  let whole := cs.takeWhile Text.isDigit
  match cs.dropWhile Text.isDigit with
  | '.' :: rest =>
    let fraction := rest.takeWhile Text.isDigit
    if whole.isEmpty && fraction.isEmpty then none
    else (exponent? (rest.dropWhile Text.isDigit)).map (⟨whole, some fraction, ·⟩)
  | rest => if whole.isEmpty then none else (exponent? rest).map (⟨whole, none, ·⟩)

/-- All the digits. -/
def digits (n : Numeral) : List Char := n.whole ++ n.fraction.getD []

/-- The exponent of ten that goes with the digits read as one whole number. -/
def scale (n : Numeral) : Int := n.exponent - (n.fraction.getD []).length

/-- The nearest 64-bit number. Numbers with more than 400 decimal places before or
after the point of their first digit are beyond the range on that side. -/
def toDouble (negative : Bool) (n : Numeral) : Double :=
  let value := Text.decimalValue n.digits
  if value = 0 then Double.zero negative
  else if 400 < n.scale then Double.infinity negative
  else if n.scale + n.digits.length < -400 then Double.zero negative
  else
    match n.scale with
    | .ofNat up => Double.ofFraction negative (value * Nat.pow 10 up) 1
    | .negSucc down => Double.ofFraction negative value (Nat.pow 10 (down + 1))

end Numeral

/-- The 64-bit number that a text stands for. -/
def Double.parse? (cs : List Char) : Option Double :=
  let (negative, body) := Numeral.splitSign cs
  match String.ofList (body.map Char.toLower) with
  | "inf" | "infinity" => some (Double.infinity negative)
  | "nan" => some (Double.nan negative)
  | _ => (Numeral.parse? body).map (Numeral.toDouble negative)

/-- The finite 64-bit number that a text stands for, white space around it aside. -/
def Double.readFinite? (s : String) : Option Double :=
  (Double.parse? (Text.trimChars s.toList)).filter Double.isFinite

end BlockProgram
