import BlockProgram.Text.Indent

/-!
# Writing markup

An element is written in one of three ways: without content, with a text on one line, or
with its children on lines of their own, one level deeper. A line feed stands before every
element but the outermost.
-/

namespace BlockProgram.Xml

/-- Elements to be written, one after the other. -/
inductive Markup where
  /-- None. -/
  | nil
  /-- An element with a text, and the elements after it. -/
  | text (name : String) (attributes : List (String × String)) (content : String) (rest : Markup)
  /-- An element with other elements in it, and the elements after it. -/
  | element (name : String) (attributes : List (String × String)) (children rest : Markup)
  deriving DecidableEq, Repr

/-- A character of a text. -/
def escapeText (c : Char) : List Char :=
  match c with
  | '<' => "&lt;".toList
  | '>' => "&gt;".toList
  | '&' => "&amp;".toList
  | c => [c]

/-- A character of the value of an attribute. -/
def escapeValue (c : Char) : List Char :=
  match c with
  | '"' => "&quot;".toList
  | '\'' => "&apos;".toList
  | '\n' => "&#xA;".toList
  | '\r' => "&#xD;".toList
  | c => escapeText c

/-- A text with the characters escaped that mean something else. -/
def textChars (s : String) : String := String.ofList (s.toList.flatMap escapeText)

/-- The value of an attribute with the characters escaped that mean something else. -/
def valueChars (s : String) : String := String.ofList (s.toList.flatMap escapeValue)

/-- One attribute with the space before it. -/
def attributeText (a : String × String) : String :=
  " " ++ a.1 ++ "=\"" ++ valueChars a.2 ++ "\""

/-- The head of an element, still open. -/
def headText (name : String) (attributes : List (String × String)) : String :=
  "<" ++ name ++ String.join (attributes.map attributeText)

/-- The tag that closes an element. -/
def closeText (name : String) : String := "</" ++ name ++ ">"

namespace Markup

/-- Whether there are no elements. -/
def isNil : Markup → Bool
  | nil => true
  | _ => false

/-- The text of elements on a level. -/
def print (level : Nat) : Markup → String
  | nil => ""
  | text name attributes content rest =>
    "\n" ++ Text.indent level ++ headText name attributes ++ ">" ++ textChars content
      ++ closeText name ++ rest.print level
  | element name attributes children rest =>
    "\n" ++ Text.indent level ++ headText name attributes ++
      (if children.isNil then " />"
        else ">" ++ children.print (level + 1) ++ "\n" ++ Text.indent level ++ closeText name)
      ++ rest.print level

/-- The text of an outermost element. -/
def document (name : String) (children : Markup) : String :=
  headText name [] ++
    (if children.isNil then " />" else ">" ++ children.print 1 ++ "\n" ++ closeText name)

end Markup

end BlockProgram.Xml
