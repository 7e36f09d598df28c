import BlockProgram.Xml.Token

/-!
# Trees of markup

The content of an element is a list of characters, comments, instructions and elements,
each with its own content. Tokens are put together from the last one to the first, so that
a tag that opens an element meets the content that follows it. Names are then freed of the
names of their spaces, which have to be declared.
-/

namespace BlockProgram.Xml

/-- The content of an element, with heads of elements of type `τ`. -/
inductive Content (τ : Type) where
  /-- Nothing. -/
  | nil
  /-- Characters that stand for themselves, and what follows. -/
  | text (cs : List Char) (rest : Content τ)
  /-- Characters given by a reference or as data, and what follows. -/
  | quoted (cs : List Char) (rest : Content τ)
  /-- A comment, and what follows. -/
  | comment (body : List Char) (rest : Content τ)
  /-- An instruction, and what follows. -/
  | instruction (target body : List Char) (rest : Content τ)
  /-- An element with its content, and what follows. -/
  | element (tag : τ) (content rest : Content τ)
  deriving DecidableEq, Repr

namespace Content

variable {τ : Type}

/-- A character put before a content. -/
def consChar (c : Char) : Content τ → Content τ
  | text cs rest => text (c :: cs) rest
  | other => text [c] other

/-- The characters of a content, those of its elements aside. -/
def chars : Content τ → List Char
  | nil => []
  | text cs rest => cs ++ rest.chars
  | quoted cs rest => cs ++ rest.chars
  | comment _ rest => rest.chars
  | instruction _ _ rest => rest.chars
  | element _ _ rest => rest.chars

/-- Whether a content can stand outside all elements: it has no characters but white space. -/
def isOuter : Content τ → Bool
  | nil => true
  | text cs rest => cs.all isSpace && rest.isOuter
  | quoted _ _ => false
  | comment _ rest => rest.isOuter
  | instruction _ _ rest => rest.isOuter
  | element _ _ rest => rest.isOuter

/-- The first element of a content. -/
def first? : Content τ → Option (τ × Content τ)
  | nil => none
  | text _ rest => rest.first?
  | quoted _ rest => rest.first?
  | comment _ rest => rest.first?
  | instruction _ _ rest => rest.first?
  | element tag content _ => some (tag, content)

end Content

/-! ### From tokens to trees -/

/-- What follows a token: the content up to the end of the element, and for each closing tag
that is still to be opened its name and what follows it. -/
structure Tail where
  /-- The content up to the end of the element. -/
  content : Content RawTag
  /-- The closing tags that are still to be opened, the next one first. -/
  pending : List (QName × Content RawTag)
  deriving DecidableEq, Repr

/-- What follows, with a token put before it. -/
def Tail.cons? (token : Token) (t : Tail) : Option Tail :=
  match token with
  | .char c => some { t with content := t.content.consChar c }
  | .quoted cs => some { t with content := .quoted cs t.content }
  | .comment body => some { t with content := .comment body t.content }
  | .instruction target body => some { t with content := .instruction target body t.content }
  | .closeTag name => some ⟨.nil, (name, t.content) :: t.pending⟩
  | .emptyTag tag => some { t with content := .element tag .nil t.content }
  | .openTag tag =>
    match t.pending with
    | (name, outer) :: pending =>
      if tag.name = name then some ⟨.element tag t.content outer, pending⟩ else none
    | [] => none

/-- Tokens put together from the last to the first. -/
def Tail.ofTokens? : List Token → Option Tail
  | [] => some ⟨.nil, []⟩
  | token :: tokens => (Tail.ofTokens? tokens).bind (Tail.cons? token)

/-- The tree that tokens make, if every tag has its partner. -/
def Content.ofTokens? (tokens : List Token) : Option (Content RawTag) :=
  match Tail.ofTokens? tokens with
  | some ⟨content, []⟩ => some content
  | _ => none

/-! ### Spaces of names -/

/-- The head of an element, its names without the names of their spaces. -/
structure Tag where
  /-- The name of the element. -/
  name : String
  /-- Its attributes in the order in which they are written. -/
  attributes : List (String × String)
  deriving DecidableEq, Repr

/-- The value of an attribute; the last one counts. -/
def Tag.get? (t : Tag) (name : String) : Option String := t.attributes.reverse.lookup name

/-- The word by which spaces of names are declared. -/
def declarator : String := "xmlns"

/-- The space of names that is always there. -/
def builtin : String := "xml"

/-- The steps of a path under the authority that names the reserved spaces. -/
def reservedUri (path : List String) : String :=
  "/".intercalate (["http:", "", "www.w3.org"] ++ path)

/-- What the built-in space is called. -/
def builtinUri : String := reservedUri ["XML", "1998", "namespace"]

/-- What the space of declarations is called. -/
def declaratorUri : String := reservedUri ["2000", "xmlns", ""]

/-- An attribute that declares a space of names, or the one without a name. -/
def isDeclaration (name : QName) : Bool :=
  name.space = some declarator || (name.space = none && name.base = declarator)

/-- Whether a declaration may be made. -/
def isLawful (name : QName) (value : String) : Bool :=
  if name.space = none then
    !([declarator, builtin, builtinUri, declaratorUri].contains value)
  else
    name.base != declarator && (name.base != builtin || value == builtinUri) && value != ""

/-- The spaces that a tag declares. -/
def RawTag.declared (t : RawTag) : List String :=
  (t.attributes.filter fun a => a.1.space = some declarator).map fun a => a.1.base

/-- The attributes that declare nothing. -/
def RawTag.plain (t : RawTag) : List (QName × String) :=
  t.attributes.filter fun a => !isDeclaration a.1

/-- Whether a name is without a space or in one that is known. -/
def isBound (known : List String) (name : QName) : Bool :=
  match name.space with
  | none => true
  | some s => known.contains s

/-- Whether all names of a tag can be resolved: its declarations are lawful, the spaces of its
names are known, and no attribute is given twice. -/
def RawTag.isLawful (known : List String) (t : RawTag) : Bool :=
  t.attributes.all (fun a => !isDeclaration a.1 || Xml.isLawful a.1 a.2) &&
    isBound known t.name && t.name.space != some builtin && t.name.space != some declarator &&
    t.plain.all (fun a => isBound known a.1) &&
    decide (t.plain.map Prod.fst).Nodup

/-- A tag without the names of spaces. -/
def RawTag.toTag (t : RawTag) : Tag :=
  ⟨t.name.base, t.plain.map fun a => (a.1.base, a.2)⟩

/-- A tree without the names of spaces, if all of them are known where they are used. -/
def Content.resolve? (known : List String) : Content RawTag → Option (Content Tag)
  | .nil => some .nil
  | .text cs rest => (rest.resolve? known).map (.text cs)
  | .quoted cs rest => (rest.resolve? known).map (.quoted cs)
  | .comment body rest => (rest.resolve? known).map (.comment body)
  | .instruction target body rest => (rest.resolve? known).map (.instruction target body)
  | .element t content rest =>
    let inner := t.declared ++ known
    if t.isLawful inner then
      match content.resolve? inner, rest.resolve? known with
      | some content, some rest => some (.element t.toTag content rest)
      | _, _ => none
    else none

end BlockProgram.Xml
