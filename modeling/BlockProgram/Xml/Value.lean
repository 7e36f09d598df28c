import BlockProgram.Xml.Token

/-!
# Values of attributes

The value of an attribute is scanned by an automaton of its own. Characters stand for
themselves, apart from references. A `<` opens no tag in a value: it may stand before a
slash, or it opens a comment or a section of character data. These belong to the value as
they are written, with all that they hold, so that neither quotation marks nor references
count in them.

Nothing else is opened by `<!`, neither here nor between tags. In particular a declaration of
a type of documents (`<!DOCTYPE ...>`) is not scanned: a document that has one is refused.
-/

namespace BlockProgram.Xml

/-- What `<!` may open. -/
inductive Section where
  /-- A comment. -/
  | comment
  /-- A section of character data. -/
  | data
  deriving DecidableEq, Repr

/-- The characters after `<!` that open a section. -/
def Section.opening : Section → List Char
  | comment => ['-', '-']
  | data => ['[', 'C', 'D', 'A', 'T', 'A', '[']

/-- What characters after `<!` lead to: a section that they open, or none yet. -/
def Section.opened? (seen : List Char) : Option (Option Section) :=
  match [comment, data].find? fun s => seen.isPrefixOf s.opening with
  | none => none
  | some s => some (if seen = s.opening then some s else none)

/-- What the scanner is in the middle of in a value. -/
inductive ValueMode where
  /-- Among characters that stand for themselves. -/
  | plain
  /-- In a reference. -/
  | reference (name : List Char)
  /-- Right after `<`. -/
  | markup
  /-- After `<!` and some characters. -/
  | bang (seen : List Char)
  /-- In a comment, after a number of dashes in a row. -/
  | comment (dashes : Nat)
  /-- In a section of character data, after a number of closing brackets in a row. -/
  | data (brackets : Nat)
  deriving DecidableEq, Repr

/-- The mode inside a section that has just been opened. -/
def ValueMode.inside : Section → ValueMode
  | .comment => .comment 0
  | .data => .data 0

/-- The next mode in a value, and the value with what a character adds to it; the last character
of a value comes first. -/
def ValueMode.step (v : Version) (mode : ValueMode) (value : List Char) (c : Char) :
    Option (ValueMode × List Char) :=
  match mode with
  | plain =>
    if c = '<' then some (markup, c :: value)
    else if c = '&' then some (reference [], value)
    else if v.isPlain c then some (plain, c :: value)
    else none
  | reference name =>
    if c = ';' then (reference? v name.reverse).map fun r => (plain, r :: value)
    else if isNameChar c || c = '#' then some (reference (c :: name), value)
    else none
  | markup =>
    if c = '/' then some (plain, c :: value)
    else if c = '!' then some (bang [], c :: value)
    else none
  | bang seen =>
    (Section.opened? (seen ++ [c])).map fun s =>
      ((s.map inside).getD (bang (seen ++ [c])), c :: value)
  | comment dashes =>
    if 2 ≤ dashes then if c = '>' then some (plain, c :: value) else none
    else if v.isPlain c then some (comment (if c = '-' then dashes + 1 else 0), c :: value)
    else none
  | data brackets =>
    if c = '>' && 2 ≤ brackets then some (plain, c :: value)
    else if v.isPlain c then some (data (if c = ']' then brackets + 1 else 0), c :: value)
    else none

/-- A character that is neither `<` nor `&` is added to a value as it is. -/
theorem ValueMode.step_plain {v : Version} {c : Char} (value : List Char) (hc : v.isPlain c)
    (h : c ≠ '<') (h' : c ≠ '&') : plain.step v value c = some (plain, c :: value) := by
  simp [step, h, h', hc]

end BlockProgram.Xml
