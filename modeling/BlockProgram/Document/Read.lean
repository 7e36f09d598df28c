import BlockProgram.Document.Outline
import BlockProgram.Number.Numeral
import BlockProgram.Workspace.Basic
import BlockProgram.Xml.Reader

/-!
# Reading a document

A document is read into a canvas. Variables are declared as the document lists them, then
the blocks are read in the order in which they are written. A block without an identity is
given one, a field that names a variable by handle declares it if need be, and a block of a
variable kind that gives its variable by name has it bound.
-/

namespace BlockProgram

/-- Why a document is refused. -/
inductive DocumentError where
  /-- The text is no well-formed markup, or there is no element in it. -/
  | malformed
  /-- The outermost element has a wrong name. -/
  | unexpectedRoot (name : String)
  /-- An element lacks an attribute. -/
  | missingAttribute (element name : String)
  /-- Two blocks have one identity. -/
  | duplicateBlock (id : BlockId)
  deriving DecidableEq, Repr

/-- The reason of a refusal in words. -/
def DocumentError.message : DocumentError → String
  | malformed => "invalid document XML"
  | unexpectedRoot name => "expected <xml> root element, found <" ++ name ++ ">"
  | missingAttribute element name =>
    "<" ++ element ++ "> element is missing the '" ++ name ++ "' attribute"
  | duplicateBlock id => "block id '" ++ id.text ++ "' appears more than once"

namespace Document

/-- The name of the outermost element. -/
def rootName : String := "xml"

/-- What has been met so far. -/
structure Reading where
  /-- The variables. -/
  registry : Registry
  /-- The identities of blocks. -/
  seen : List BlockId
  /-- The number of the last identity that was made up. -/
  minted : Nat
  deriving DecidableEq, Repr

namespace Reading

/-- Nothing has been met. -/
def start : Reading := ⟨.empty, [], 0⟩

/-- An identity for a block that has none. -/
def mint (s : Reading) : BlockId × Reading :=
  let n := Fresh.next "doc_block_" (fun t => s.seen.contains ⟨t⟩) s.seen.length s.minted
  let id : BlockId := ⟨Fresh.name "doc_block_" n⟩
  (id, { s with seen := id :: s.seen, minted := n })

/-- A listed variable is declared under its handle, or admitted by name if it has none. -/
def listed (s : Reading) (v : VariableElement) : Reading :=
  match v.handle? with
  | some h => { s with registry := s.registry.declare ⟨h⟩ v.name }
  | none => { s with registry := (s.registry.register v.name).2 }

/-- A field of a block of a kind. -/
def field (s : Reading) (kind : Kind) (name : String) (handle? : Option String) (text : String) :
    Field × Reading :=
  match handle? with
  | some h =>
    if text.isEmpty then (.var ⟨h⟩, s)
    else (.var ⟨h⟩, { s with registry := s.registry.declare ⟨h⟩ text })
  | none =>
    if name = variableField && kind.hasVariable then
      let (handle, r) := s.registry.bind text
      (.var handle, { s with registry := r })
    else (.text text, s)

/-- The block that an element stands for, without its parts. -/
def head (s : Reading) (h : Head) : Except DocumentError (Node × Reading) :=
  match h.type? with
  | none => .error (.missingAttribute h.element "type")
  | some tag =>
    let kind := Kind.ofTag tag
    match h.id? with
    | none =>
      let (id, s) := s.mint
      .ok (⟨id, kind, .empty⟩, s)
    | some text =>
      let id : BlockId := ⟨text⟩
      if s.seen.contains id then .error (.duplicateBlock id)
      else .ok (⟨id, kind, .empty⟩, { s with seen := id :: s.seen })

end Reading

/-- The slot that an element stands for; a slot for values or statements needs a name. -/
def slotOf (slot : SlotElement) (name? : Option String) : Except DocumentError Slot :=
  match slot, name? with
  | .next, _ => .ok .next
  | .value, some name => .ok (.input name)
  | .statement, some name => .ok (.statement name)
  | slot, none => .error (.missingAttribute slot.name "name")

/-- A block with its parts read into it one after the other. -/
def Parts.read : Parts → Block → Reading → Except DocumentError (Block × Reading)
  | .nil, b, s => .ok (b, s)
  | .field name? handle? text rest, b, s =>
    match name? with
    | none => .error (.missingAttribute "field" "name")
    | some name =>
      let (value, s) := s.field b.kind name handle? text
      rest.read (b.setField name value) s
  | .vacant slot name? rest, b, s =>
    match slotOf slot name? with
    | .error e => .error e
    | .ok _ => rest.read b s
  | .filled slot name? h below rest, b, s =>
    match slotOf slot name? with
    | .error e => .error e
    | .ok slot =>
      match s.head h with
      | .error e => .error e
      | .ok (node, s) =>
        match below.read ⟨node, .nil⟩ s with
        | .error e => .error e
        | .ok (child, s) => rest.read (b.plug slot child) s

/-- The block that an element with its parts stands for. -/
def BlockElement.read (e : BlockElement) (s : Reading) :
    Except DocumentError (Block × Reading) :=
  match s.head e.head with
  | .error fault => .error fault
  | .ok (node, s) => e.parts.read ⟨node, .nil⟩ s

/-- The place of an element at the top, if both coordinates are finite numbers. -/
def TopElement.position (e : TopElement) : Option Position :=
  match e.x?.bind Double.readFinite?, e.y?.bind Double.readFinite? with
  | some x, some y => some ⟨x, y⟩
  | _, _ => none

/-- The chains that elements at the top stand for. -/
def readTop : List TopElement → Reading → Except DocumentError (List TopBlock × Reading)
  | [], s => .ok ([], s)
  | e :: es, s =>
    match e.block.read s with
    | .error fault => .error fault
    | .ok (b, s) =>
      match readTop es s with
      | .error fault => .error fault
      | .ok (bs, s) => .ok (⟨b, e.position⟩ :: bs, s)

/-- The canvas that an outline stands for. -/
def Outline.read (o : Outline) : Except DocumentError Workspace :=
  match readTop o.top (o.listed.foldl Reading.listed .start) with
  | .error fault => .error fault
  | .ok (top, s) => .ok (.ofParts top s.registry)

/-- The canvas that an element stands for. -/
def readElement (tag : Xml.Tag) (content : Xml.Content Xml.Tag) : Except DocumentError Workspace :=
  if tag.name = rootName then (outline content).read else .error (.unexpectedRoot tag.name)

/-- The canvas that a text stands for. -/
def read (text : String) : Except DocumentError Workspace :=
  match Xml.root? text with
  | none => .error .malformed
  | some (tag, content) => readElement tag content

end Document

end BlockProgram
