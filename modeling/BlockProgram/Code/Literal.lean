import BlockProgram.Number.Numeral

/-!
# Literals

Texts and numbers as they stand in a program. A text is quoted on one line, whatever
it holds. A number is taken over as it was typed, provided that it is one.
-/

namespace BlockProgram.Literal

/-- A control character of ASCII. -/
def isControl (c : Char) : Bool := c.toNat < 0x20 || c.toNat = 0x7F

/-- One character inside double quotes. -/
def escape (c : Char) : List Char :=
  match c with
  | '\\' => ['\\', '\\']
  | '"' => ['\\', '"']
  | '\n' => ['\\', 'n']
  | '\r' => ['\\', 'r']
  | '\t' => ['\\', 't']
  | c => if isControl c then '\\' :: 'x' :: Text.hexByte c.toNat else [c]

/-- The characters of a text in double quotes. -/
def quoteChars (cs : List Char) : List Char := '"' :: (cs.flatMap escape ++ ['"'])

/-- A text in double quotes. -/
def quote (s : String) : String := String.ofList (quoteChars s.toList)

/-- The number that a text stands for, as it was typed, or zero if it is none. -/
def number (typed : Option String) : String :=
  match typed with
  | none => "0"
  | some s => if (Double.readFinite? s).isSome then Text.trim s else "0"

end BlockProgram.Literal
