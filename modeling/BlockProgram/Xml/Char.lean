/-!
# Characters of markup

Which characters a document may hold, which may stand in names, and which separate
words. There are two versions of markup, 1.0 and 1.1. They differ in the characters that a
document may hold: the second one admits nearly all of them, but some of these only as
references or in comments, instructions and sections of character data. Documents are
written in the first version.
-/

namespace BlockProgram.Xml

/-- A character that a document may hold. -/
def isChar (c : Char) : Bool :=
  let n := c.toNat
  n == 0x09 || n == 0x0A || n == 0x0D || (0x20 ≤ n && n ≤ 0xD7FF) || (0xE000 ≤ n && n ≤ 0xFFFD) ||
    0x10000 ≤ n

/-- The versions of markup. -/
inductive Version where
  /-- 1.0. -/
  | first
  /-- 1.1. -/
  | second
  deriving DecidableEq, Repr

namespace Version

/-- A version as a declaration gives it. -/
def number : Version → String
  | first => "1.0"
  | second => "1.1"

/-- A character that a document of a version may hold, in whatever way. -/
def isChar (v : Version) (c : Char) : Bool :=
  match v with
  | first => Xml.isChar c
  | second => c.toNat != 0 && c.toNat != 0xFFFE && c.toNat != 0xFFFF

/-- A control character that the second version admits between tags and in values only as a
reference. -/
def isRestricted (c : Char) : Bool :=
  let n := c.toNat
  n ≤ 0x08 || n == 0x0B || n == 0x0C || (0x0E ≤ n && n ≤ 0x1F) || (0x7F ≤ n && n ≤ 0x84) ||
    (0x86 ≤ n && n ≤ 0x9F)

/-- A character that may stand for itself between tags and in values. -/
def isPlain (v : Version) (c : Char) : Bool :=
  match v with
  | first => Xml.isChar c
  | second => second.isChar c && !isRestricted c

@[simp] theorem isChar_first (c : Char) : first.isChar c = Xml.isChar c := rfl

@[simp] theorem isPlain_first (c : Char) : first.isPlain c = Xml.isChar c := rfl

end Version

/-- White space between words. -/
def isSpace (c : Char) : Bool := c == ' ' || c == '\t' || c == '\n' || c == '\r'

/-- A character that may stand at the head of a name. -/
def isNameHead (c : Char) : Bool :=
  let n := c.toNat
  c == ':' || c == '_' || ('A' ≤ c && c ≤ 'Z') || ('a' ≤ c && c ≤ 'z') ||
    (0xC0 ≤ n && n ≤ 0xD6) || (0xD8 ≤ n && n ≤ 0xF6) || (0xF8 ≤ n && n ≤ 0x2FF) ||
    (0x370 ≤ n && n ≤ 0x37D) || (0x37F ≤ n && n ≤ 0x1FFF) || (0x200C ≤ n && n ≤ 0x200D) ||
    (0x2070 ≤ n && n ≤ 0x218F) || (0x2C00 ≤ n && n ≤ 0x2FEF) || (0x3001 ≤ n && n ≤ 0xD7FF) ||
    (0xF900 ≤ n && n ≤ 0xFDCF) || (0xFDF0 ≤ n && n ≤ 0xFFFD) || (0x10000 ≤ n && n ≤ 0xEFFFF)

/-- A character that may stand in a name. -/
def isNameChar (c : Char) : Bool :=
  let n := c.toNat
  isNameHead c || c == '-' || c == '.' || ('0' ≤ c && c ≤ '9') || n == 0xB7 ||
    (0x300 ≤ n && n ≤ 0x36F) || (0x203F ≤ n && n ≤ 0x2040)

/-- What may lead a name may stand in it. -/
theorem isNameChar_of_isNameHead {c : Char} (h : isNameHead c) : isNameChar c := by
  simp [isNameChar, h]

end BlockProgram.Xml
