import BlockProgram.Number.Coordinate
import BlockProgram.Workspace.Basic
import BlockProgram.Xml.Markup

/-!
# Writing a document

A canvas is written as the variables with the names they go by, then the chains. A block is
an element with its fields, then its slots in their order, each with the block in it.
-/

namespace BlockProgram

open Xml

/-- The element of a field, before other elements. A variable is given by its handle and, if
it is declared, by its name. -/
def Field.markup (r : Registry) (name : String) (f : Field) (rest : Markup) : Markup :=
  let (attributes, content) :=
    match f with
    | .text s => ([("name", name)], s)
    | .var h => ([("name", name), ("id", h.text)], ((r.get? h).map Variable.resolved).getD "")
  if content.isEmpty then .element "field" attributes .nil rest
  else .text "field" attributes content rest

/-- The elements of all fields, before other elements. -/
def Fields.markup (r : Registry) (f : Fields) (rest : Markup) : Markup :=
  f.entries.foldr (fun e rest => e.2.markup r e.1 rest) rest

/-- The element of a slot. -/
def Slot.element : Slot → String
  | .input _ => "value"
  | .statement _ => "statement"
  | .next => "next"

/-- The attributes of the element of a slot. -/
def Slot.attributes : Slot → List (String × String)
  | .input name => [("name", name)]
  | .statement name => [("name", name)]
  | .next => []

/-- The element of a block, before other elements, given what comes after its fields. -/
def Node.markup (r : Registry) (n : Node) (place : List (String × String))
    (slots rest : Markup) : Markup :=
  .element "block" (("type", n.kind.tag) :: ("id", n.id.text) :: place) (n.fields.markup r slots)
    rest

/-- The elements of slots with the blocks in them. -/
def Children.markup (r : Registry) : Children → Markup
  | .nil => .nil
  | .cons slot n below rest =>
    .element slot.element slot.attributes (n.markup r [] (below.markup r) .nil) (rest.markup r)

/-- The attributes that say where a chain is. -/
def Position.attributes (p : Position) : List (String × String) :=
  [("x", Coordinate.text p.x), ("y", Coordinate.text p.y)]

/-- The element of a chain, before other elements. -/
def TopBlock.markup (r : Registry) (t : TopBlock) (rest : Markup) : Markup :=
  t.block.node.markup r ((t.position.map Position.attributes).getD [])
    (t.block.children.markup r) rest

/-- The elements of variables. -/
def Registry.markup (r : Registry) : Markup :=
  r.vars.foldr
    (fun v rest => .text "variable" [("id", v.handle.text)] v.resolved rest) .nil

namespace Document

/-- The elements of a canvas. -/
def markup (w : Workspace) : Markup :=
  let blocks := w.top.foldr (TopBlock.markup w.registry) .nil
  if w.registry.vars.isEmpty then blocks
  else .element "variables" [] w.registry.markup blocks

/-- The text of a canvas. -/
def write (w : Workspace) : String := (markup w).document "xml"

end Document

end BlockProgram
