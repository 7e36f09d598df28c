/-!
# Identifiers

The names that a program may use for its variables, `[A-Za-z_][A-Za-z0-9_]*`, and
the rule that makes such a name out of any text.
-/

namespace BlockProgram.Identifier

/-- A character that may stand at the head of an identifier. -/
def isHead (c : Char) : Bool := c.isAlpha || c == '_'

/-- A character that may stand anywhere after the head. -/
def isTail (c : Char) : Bool := c.isAlphanum || c == '_'

/-- The characters of an identifier: one that may lead, then any number that may follow. -/
def accepts : List Char → Bool
  | [] => false
  | c :: cs => isHead c && cs.all isTail

/-- A text that can be used as a name as it stands. -/
def isIdentifier (name : String) : Bool := accepts name.toList

/-- A character that cannot stand in an identifier is replaced by an underscore. -/
def mask (c : Char) : Char := if isTail c then c else '_'

/-- An underscore goes before a leading digit. -/
def guardDigit : List Char → List Char
  | [] => []
  | c :: cs => if c.isDigit then '_' :: c :: cs else c :: cs

/-- The name of a variable that has none: `var1` for the first position, and so on. Positions are
places in a list of variables, so that each of them has a next one. -/
def fallback (index : Nat) : String := "var" ++ toString (index + 1)

/-- The identifier for a name at a position: the characters that cannot stand in an
identifier become underscores, an underscore goes before a leading digit, and a
missing or empty name is called after its position. -/
def sanitize (name : Option String) (index : Nat) : String :=
  match name with
  | none => fallback index
  | some s =>
    if s.isEmpty then fallback index
    else String.ofList (guardDigit (s.toList.map mask))

@[simp] theorem sanitize_none (index : Nat) : sanitize none index = fallback index := rfl

@[simp] theorem sanitize_empty (index : Nat) : sanitize (some "") index = fallback index := rfl

end BlockProgram.Identifier
