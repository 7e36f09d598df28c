import BlockProgram.Json.Number
import BlockProgram.Text.Automaton

/-!
# Scanning JSON

A text is scanned by one automaton, character by character, into marks, strings, numbers
and words. Strings admit no control characters, and an escaped surrogate is admitted only
as one half of a pair. Numbers have to be in range.
-/

namespace BlockProgram.Json

/-- A piece of JSON. -/
inductive Token where
  /-- One of the marks `{`, `}`, `[`, `]`, `:` and `,`. -/
  | mark (c : Char)
  /-- A string. -/
  | string (s : String)
  /-- A number. -/
  | number (value : Number)
  /-- The word for a truth value. -/
  | bool (value : Bool)
  /-- The word for nothing. -/
  | null
  deriving DecidableEq, Repr

/-- What the scanner is in the middle of; what it collects has the last character first. -/
inductive Mode where
  /-- Between pieces. -/
  | gap
  /-- In a string. -/
  | string (cs : List Char)
  /-- After a backslash in a string. -/
  | escape (cs : List Char)
  /-- In the digits of an escape by number, perhaps after the first half of a pair. -/
  | digits (cs : List Char) (high : Option Nat) (seen : List Char)
  /-- After the first half of a pair of surrogates. -/
  | pair (cs : List Char) (high : Nat)
  /-- After the first half of a pair of surrogates and a backslash. -/
  | pairEscape (cs : List Char) (high : Nat)
  /-- In a number. -/
  | number (cs : List Char)
  /-- In a word. -/
  | word (cs : List Char)
  deriving DecidableEq, Repr

/-- A mode and the pieces that are complete, the last one first. -/
structure Scanner where
  /-- What the scanner is in the middle of. -/
  mode : Mode
  /-- The pieces so far. -/
  tokens : List Token
  deriving DecidableEq, Repr

/-- White space between pieces. -/
def isSpace (c : Char) : Bool := c == ' ' || c == '\n' || c == '\r' || c == '\t'

/-- A character that stands for itself as a piece. -/
def isMark (c : Char) : Bool :=
  c == '\x7b' || c == '\x7d' || c == '[' || c == ']' || c == ':' || c == ','

/-- A character that may stand in a number. -/
def isNumberChar (c : Char) : Bool :=
  Text.isDigit c || c == '-' || c == '+' || c == '.' || c == 'e' || c == 'E'

/-- A character that may stand in a word. -/
def isWordChar (c : Char) : Bool := 'a' ≤ c && c ≤ 'z'

/-- The character that a letter after a backslash stands for. -/
def escaped? (c : Char) : Option Char :=
  match c with
  | '"' => some '"'
  | '\\' => some '\\'
  | '/' => some '/'
  | 'b' => some '\x08'
  | 'f' => some '\x0c'
  | 'n' => some '\n'
  | 'r' => some '\r'
  | 't' => some '\t'
  | _ => none

/-- The number that characters stand for: no plus sign, no zero before other digits, digits on
both sides of a point, and a value in range. -/
def number? (cs : List Char) : Option Token :=
  let (negative, body) :=
    match cs with
    | '-' :: rest => (true, rest)
    | rest => (false, rest)
  match Numeral.parse? body with
  | none => none
  | some n =>
    let value := Number.ofNumeral negative n
    if n.whole.isEmpty || (n.whole.head? == some '0' && n.whole.length != 1) ||
        n.fraction == some [] || !value.inRange then none
    else some (.number value)

/-- The piece that a word stands for. -/
def word? (cs : List Char) : Option Token :=
  match String.ofList cs with
  | "true" => some (.bool true)
  | "false" => some (.bool false)
  | "null" => some .null
  | _ => none

/-- The mode after four digits of an escape by number. -/
def afterDigits? (cs : List Char) (high : Option Nat) (n : Nat) : Option Mode :=
  match high with
  | some h =>
    if 0xDC00 ≤ n && n ≤ 0xDFFF then
      some (.string (Char.ofNat (0x10000 + (h - 0xD800) * 0x400 + (n - 0xDC00)) :: cs))
    else none
  | none =>
    if 0xD800 ≤ n && n ≤ 0xDBFF then some (.pair cs n)
    else if 0xDC00 ≤ n && n ≤ 0xDFFF then none
    else some (.string (Char.ofNat n :: cs))

/-- The mode after a character between pieces, and the piece that it is. -/
def gapStep (c : Char) : Option (Mode × Option Token) :=
  if isSpace c then some (.gap, none)
  else if isMark c then some (.gap, some (.mark c))
  else if c = '"' then some (.string [], none)
  else if Text.isDigit c || c = '-' then some (.number [c], none)
  else if isWordChar c then some (.word [c], none)
  else none

/-- The next mode, and the pieces that are complete with a character, the last one first. -/
def Mode.step (mode : Mode) (c : Char) : Option (Mode × List Token) :=
  match mode with
  | .gap => (gapStep c).map fun (mode, token) => (mode, token.toList)
  | .string cs =>
    if c = '"' then some (.gap, [.string (String.ofList cs.reverse)])
    else if c = '\\' then some (.escape cs, [])
    else if c.toNat < 0x20 then none
    else some (.string (c :: cs), [])
  | .escape cs =>
    if c = 'u' then some (.digits cs none [], [])
    else (escaped? c).map fun e => (.string (e :: cs), [])
  | .digits cs high seen =>
    if seen.length < 3 then
      (Text.hexDigitValue? c).map fun _ => (.digits cs high (c :: seen), [])
    else
      ((Text.hexValue? (c :: seen).reverse).bind (afterDigits? cs high)).map (·, [])
  | .pair cs high => if c = '\\' then some (.pairEscape cs high, []) else none
  | .pairEscape cs high => if c = 'u' then some (.digits cs (some high) [], []) else none
  | .number cs =>
    if isNumberChar c then some (.number (c :: cs), [])
    else
      match number? cs.reverse, gapStep c with
      | some done, some (mode, token) => some (mode, token.toList ++ [done])
      | _, _ => none
  | .word cs =>
    if isWordChar c then some (.word (c :: cs), [])
    else
      match word? cs.reverse, gapStep c with
      | some done, some (mode, token) => some (mode, token.toList ++ [done])
      | _, _ => none

/-- The scanner after one character. -/
def Scanner.step (s : Scanner) (c : Char) : Option Scanner :=
  (s.mode.step c).map fun (mode, tokens) => ⟨mode, tokens ++ s.tokens⟩

/-- All pieces, at the end of the text. -/
def Scanner.finish (s : Scanner) : Option (List Token) :=
  match s.mode with
  | .gap => some s.tokens.reverse
  | .number cs => (number? cs.reverse).map fun t => (t :: s.tokens).reverse
  | .word cs => (word? cs.reverse).map fun t => (t :: s.tokens).reverse
  | _ => none

/-- The pieces of a text, if it is made of them. -/
def tokens? (cs : List Char) : Option (List Token) :=
  (Text.run Scanner.step ⟨.gap, []⟩ cs).bind Scanner.finish

end BlockProgram.Json
