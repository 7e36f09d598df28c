import BlockProgram.Text.Digits
import BlockProgram.Xml.Char

/-!
# Tokens of markup

The pieces of a document: characters, tags, comments and instructions. Names are still
as they are written, with the name of a space before a colon.
-/

namespace BlockProgram.Xml

/-- A name as it is written. -/
structure QName where
  /-- The name of a space of names, if one stands before a colon. -/
  space : Option String
  /-- The name within the space. -/
  base : String
  deriving DecidableEq, Repr

/-- A name of at most one colon, which stands neither first nor last. -/
def QName.parse? (cs : List Char) : Option QName :=
  let before := cs.takeWhile (· != ':')
  if before.isEmpty || !cs.all isNameChar || !(cs.take 1).all isNameHead then none
  else
    match cs.dropWhile (· != ':') with
    | [] => some ⟨none, String.ofList before⟩
    | _ :: after =>
      if after.isEmpty || after.contains ':' then none
      else some ⟨some (String.ofList before), String.ofList after⟩

/-- The head of an element as it is written. -/
structure RawTag where
  /-- The name of the element. -/
  name : QName
  /-- Its attributes in the order in which they are written. -/
  attributes : List (QName × String)
  deriving DecidableEq, Repr

/-- A piece of a document. -/
inductive Token where
  /-- A character that stands for itself. -/
  | char (c : Char)
  /-- Characters given by a reference or in a section of character data. -/
  | quoted (cs : List Char)
  /-- A comment. -/
  | comment (body : List Char)
  /-- An instruction to some program. -/
  | instruction (target body : List Char)
  /-- A tag that opens an element. -/
  | openTag (tag : RawTag)
  /-- A tag that is an element by itself. -/
  | emptyTag (tag : RawTag)
  /-- A tag that closes an element. -/
  | closeTag (name : QName)
  deriving DecidableEq, Repr

/-- The character with a number, if a document of a version may hold it. -/
def charOfNat? (v : Version) (n : Nat) : Option Char :=
  if n.isValidChar && v.isChar (Char.ofNat n) then some (Char.ofNat n) else none

/-- The character that a reference names, given what stands between `&` and `;`. -/
def reference? (v : Version) (name : List Char) : Option Char :=
  match name with
  | ['l', 't'] => some '<'
  | ['g', 't'] => some '>'
  | ['a', 'm', 'p'] => some '&'
  | ['a', 'p', 'o', 's'] => some '\''
  | ['q', 'u', 'o', 't'] => some '"'
  | '#' :: 'x' :: digits =>
    if digits.isEmpty then none else (Text.hexValue? digits).bind (charOfNat? v)
  | '#' :: digits =>
    if digits.isEmpty || !digits.all Text.isDigit then none
    else charOfNat? v (Text.decimalValue digits)
  | _ => none

end BlockProgram.Xml
