import BlockProgram.Xml.Scanner
import BlockProgram.Xml.Content

/-!
# Reading markup

A text is an optional mark of byte order, an optional declaration, and content that has no
characters of its own outside its elements. The first element is what the text is about.

The declaration gives the version of the markup, by which the declaration itself is scanned as
well, and perhaps an encoding. A text is given by its characters, so that the bytes which an
encoding is about are those of the characters in UTF-8.

Refused are texts that are declared to be in UTF-16, and texts with a declaration of a type of
documents (`<!DOCTYPE ...>`), whatever it declares.
-/

namespace BlockProgram.Xml

/-- What stands before `?>`, and what stands after it. -/
def splitMark? : List Char → Option (List Char × List Char)
  | [] => none
  | '?' :: '>' :: rest => some ([], rest)
  | c :: rest => (splitMark? rest).map fun (before, after) => (c :: before, after)

/-- Whether a name is a word of a declaration: a letter, and then the rest of the word, which
may be in a space of names. -/
def isWord (head : Char) (tail : String) (name : QName) : Bool :=
  match name.space with
  | none => name.base.toList = head :: tail.toList
  | some space =>
    match space.toList with
    | c :: d :: _ => c = head && isNameHead d && name.base = tail
    | _ => false

/-- The version that an attribute of a declaration gives. -/
def Version.ofAttribute? (a : QName × String) : Option Version :=
  if isWord 'v' "ersion" a.1 then [first, second].find? (·.number = a.2) else none

/-- The encodings in which a text may be declared to be. -/
inductive Encoding where
  /-- UTF-8. -/
  | unicode
  /-- ISO 8859-1: every byte is a character. -/
  | latin
  /-- US-ASCII: there are no bytes but the lower ones. -/
  | ascii
  deriving DecidableEq, Repr

/-- The labels of an encoding. -/
def Encoding.labels : Encoding → List String
  | unicode => ["utf-8", "utf8"]
  | latin => ["iso-8859-1", "latin1"]
  | ascii => ["ascii", "us-ascii"]

/-- The characters that the bytes of a text stand for in an encoding. -/
def Encoding.decode? (e : Encoding) (cs : List Char) : Option (List Char) :=
  match e with
  | unicode => some cs
  | latin => some ((cs.flatMap String.utf8EncodeChar).map fun b => Char.ofNat b.toNat)
  | ascii => if cs.all fun c => c.toNat < 0x80 then some cs else none

/-- Whether a label and a name of an encoding agree as far as both go, in any letter case. -/
def isLabel (name label : String) : Bool :=
  (label.toList.zip name.toList).all fun (l, c) => l = c.toLower

/-- The encoding that an attribute of a declaration gives. -/
def Encoding.ofAttribute? (a : QName × String) : Option Encoding :=
  if isWord 'e' "ncoding" a.1 then
    [unicode, latin, ascii].find? fun e => e.labels.any (isLabel a.2)
  else none

/-- The attribute of a declaration that says whether the text stands alone. -/
def isStandalone (a : QName × String) : Bool :=
  isWord 's' "tandalone" a.1 && (a.2 = "yes" || a.2 = "no")

/-- The version and the encoding that the attributes of a declaration give if they are in order:
the version, perhaps the encoding, perhaps whether the text stands alone. -/
def declared? : List (QName × String) → Option (Version × Encoding)
  | [v] => (Version.ofAttribute? v).map (·, .unicode)
  | [v, a] => do
    let version ← Version.ofAttribute? v
    if isStandalone a then some (version, .unicode)
    else (Encoding.ofAttribute? a).map (version, ·)
  | [v, e, a] => do
    let version ← Version.ofAttribute? v
    let encoding ← Encoding.ofAttribute? e
    if isStandalone a then some (version, encoding) else none
  | _ => none

/-- The version and the encoding that a declaration gives. It is made like a tag, and it is scanned
by the version that it gives. -/
def header? (header : List Char) : Option (Version × Encoding) :=
  if header.contains '<' then none
  else
    [Version.first, .second].findSome? fun v =>
      match tokens? v ("<xml ".toList ++ header ++ "/>".toList) with
      | some [.emptyTag t] => (declared? t.attributes).filter (·.1 = v)
      | _ => none

/-- The version of a text and the characters after its declaration, if it has one; a declaration
stands at the very start. After a mark of byte order it can give no encoding but one. -/
def skipHeader? (marked : Bool) (cs : List Char) : Option (Version × List Char) :=
  match cs with
  | '<' :: '?' :: 'x' :: 'm' :: 'l' :: c :: rest =>
    if isSpace c then
      match splitMark? rest with
      | none => none
      | some (header, after) =>
        match header? header with
        | none => none
        | some (version, encoding) =>
          if marked && encoding ≠ .unicode then none
          else (encoding.decode? after).map (version, ·)
    else some (.first, cs)
  | _ => some (.first, cs)

/-- The version of a text and its characters, without a mark of byte order and a declaration. -/
def source? (text : String) : Option (Version × List Char) :=
  match text.toList with
  | '\uFEFF' :: cs => skipHeader? true cs
  | cs => skipHeader? false cs

/-- The tree of a text that is well formed. -/
def content? (text : String) : Option (Content Tag) := do
  let (version, cs) ← source? text
  let tokens ← tokens? version cs
  let content ← Content.ofTokens? tokens
  if content.isOuter then content.resolve? [builtin, declarator] else none

/-- The first element of a text that is well formed. -/
def root? (text : String) : Option (Tag × Content Tag) := (content? text).bind Content.first?

end BlockProgram.Xml
