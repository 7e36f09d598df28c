import BlockProgram.Xml.Content

/-!
# The outline of a document

Of all that a document holds, only some of its elements matter. The outline keeps them:
the variables listed in the first `variables` element, the `block` and `shadow` elements at
the top, and below each of these its fields and its slots, in the order in which they are
written. A slot is filled by its first `block` element or, if it has none, by its first
`shadow` element. Comments, instructions, text between elements and elements of other names
leave no trace.
-/

namespace BlockProgram.Document

open Xml

/-- The kinds of slots as a document names them. -/
inductive SlotElement where
  /-- A value input. -/
  | value
  /-- A statement input. -/
  | statement
  /-- The following block. -/
  | next
  deriving DecidableEq, Repr

/-- The element that stands for a slot. -/
def SlotElement.name : SlotElement → String
  | value => "value"
  | statement => "statement"
  | next => "next"

/-- What an element says about the block that it stands for, its parts aside. -/
structure Head where
  /-- The name of the element. -/
  element : String
  /-- The tag of the kind. -/
  type? : Option String
  /-- The identity. -/
  id? : Option String
  deriving DecidableEq, Repr

/-- The parts of a block element in the order in which they are written. -/
inductive Parts where
  /-- None. -/
  | nil
  /-- A field with its name, its handle and its text, and the parts after it. -/
  | field (name? handle? : Option String) (text : String) (rest : Parts)
  /-- A slot in which there is no block, and the parts after it. -/
  | vacant (slot : SlotElement) (name? : Option String) (rest : Parts)
  /-- A slot with the block element that fills it, and the parts after it. -/
  | filled (slot : SlotElement) (name? : Option String) (head : Head) (below rest : Parts)
  deriving DecidableEq, Repr

/-- A block element with its parts. -/
structure BlockElement where
  /-- What it says about the block. -/
  head : Head
  /-- Its parts. -/
  parts : Parts
  deriving DecidableEq, Repr

/-- A block element at the top, with its coordinates. -/
structure TopElement where
  /-- The block element. -/
  block : BlockElement
  /-- The coordinate to the right. -/
  x? : Option String
  /-- The coordinate downwards. -/
  y? : Option String
  deriving DecidableEq, Repr

/-- A listed variable. -/
structure VariableElement where
  /-- The handle. -/
  handle? : Option String
  /-- The name. -/
  name : String
  deriving DecidableEq, Repr

/-- All that matters in a document. -/
structure Outline where
  /-- The listed variables. -/
  listed : List VariableElement
  /-- The block elements at the top. -/
  top : List TopElement
  deriving DecidableEq, Repr

/-- What the tag of a block element says. -/
def Head.ofTag (t : Tag) : Head := ⟨t.name, t.get? "type", t.get? "id"⟩

/-- Whether a tag is that of a block element. -/
def isBlockTag (t : Tag) : Bool := t.name = "block" || t.name = "shadow"

/-- A slot with what fills it, and the parts after it. -/
def slotPart (slot : SlotElement) (name? : Option String) (filling : Option BlockElement)
    (rest : Parts) : Parts :=
  match filling with
  | none => .vacant slot name? rest
  | some b => .filled slot name? b.head b.parts rest

mutual

/-- The parts that a content has as that of a block element. -/
def parts : Content Tag → Parts
  | .nil => .nil
  | .text _ rest => parts rest
  | .quoted _ rest => parts rest
  | .comment _ rest => parts rest
  | .instruction _ _ rest => parts rest
  | .element t content rest =>
    if t.name = "field" then
      .field (t.get? "name") (t.get? "id") (String.ofList content.chars) (parts rest)
    else if t.name = "value" then slotPart .value (t.get? "name") (filling content) (parts rest)
    else if t.name = "statement" then
      slotPart .statement (t.get? "name") (filling content) (parts rest)
    else if t.name = "next" then slotPart .next (t.get? "name") (filling content) (parts rest)
    else parts rest

/-- The block element that a content has as that of a slot: the first `block`, or else the
first `shadow`. -/
def filling : Content Tag → Option BlockElement
  | .nil => none
  | .text _ rest => filling rest
  | .quoted _ rest => filling rest
  | .comment _ rest => filling rest
  | .instruction _ _ rest => filling rest
  | .element t content rest =>
    if t.name = "block" then some ⟨Head.ofTag t, parts content⟩
    else if t.name = "shadow" then
      match filling rest with
      | some b => if b.head.element = "block" then some b else some ⟨Head.ofTag t, parts content⟩
      | none => some ⟨Head.ofTag t, parts content⟩
    else filling rest

end

/-- The block elements at the top of a content. -/
def topElements : Content Tag → List TopElement
  | .nil => []
  | .text _ rest => topElements rest
  | .quoted _ rest => topElements rest
  | .comment _ rest => topElements rest
  | .instruction _ _ rest => topElements rest
  | .element t content rest =>
    if isBlockTag t then
      ⟨⟨Head.ofTag t, parts content⟩, t.get? "x", t.get? "y"⟩ :: topElements rest
    else topElements rest

/-- The variables listed in a content. -/
def listedVariables : Content Tag → List VariableElement
  | .nil => []
  | .text _ rest => listedVariables rest
  | .quoted _ rest => listedVariables rest
  | .comment _ rest => listedVariables rest
  | .instruction _ _ rest => listedVariables rest
  | .element t content rest =>
    if t.name = "variable" then
      ⟨t.get? "id", String.ofList content.chars⟩ :: listedVariables rest
    else listedVariables rest

/-- The variables listed in the first `variables` element of a content. -/
def firstVariables : Content Tag → List VariableElement
  | .nil => []
  | .text _ rest => firstVariables rest
  | .quoted _ rest => firstVariables rest
  | .comment _ rest => firstVariables rest
  | .instruction _ _ rest => firstVariables rest
  | .element t content rest =>
    if t.name = "variables" then listedVariables content else firstVariables rest

/-- The outline of a document, given the content of its outermost element. -/
def outline (content : Content Tag) : Outline := ⟨firstVariables content, topElements content⟩

end BlockProgram.Document
