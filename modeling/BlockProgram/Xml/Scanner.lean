import BlockProgram.Text.Automaton
import BlockProgram.Xml.Value

/-!
# Scanning markup

A document is scanned by one automaton, character by character. A mode says what the
automaton is in the middle of; texts that it collects are kept with the last character
first. Scanning ends well if the automaton ends between tags. The version of the markup
decides which characters are taken.
-/

namespace BlockProgram.Xml

/-- What the scanner is in the middle of. -/
inductive Mode where
  /-- Between tags, after a number of closing brackets in a row. -/
  | text (brackets : Nat)
  /-- In a reference between tags. -/
  | reference (name : List Char)
  /-- Right after `<`. -/
  | markup
  /-- After `<!` and some characters. -/
  | bang (seen : List Char)
  /-- In a comment, after a number of dashes in a row. -/
  | comment (body : List Char) (dashes : Nat)
  /-- In a section of character data, after a number of closing brackets in a row. -/
  | data (body : List Char) (brackets : Nat)
  /-- In the target of an instruction. -/
  | target (name : List Char)
  /-- After a question mark that ends the target of an instruction. -/
  | targetEnd (name : List Char)
  /-- In an instruction, perhaps right after a question mark. -/
  | instruction (target body : List Char) (mark : Bool)
  /-- In the name of a tag that closes an element. -/
  | closeName (name : List Char)
  /-- After the name of a tag that closes an element. -/
  | closeEnd (name : QName)
  /-- In the name of a tag that opens an element. -/
  | openName (name : List Char)
  /-- In a tag that opens an element, perhaps right after white space. -/
  | tag (tag : RawTag) (spaced : Bool)
  /-- In the name of an attribute. -/
  | attrName (tag : RawTag) (name : List Char)
  /-- After the name of an attribute. -/
  | attrEquals (tag : RawTag) (name : QName)
  /-- Before the value of an attribute. -/
  | attrQuote (tag : RawTag) (name : QName)
  /-- In the value of an attribute. -/
  | attrValue (tag : RawTag) (name : QName) (quote : Char) (value : List Char) (mode : ValueMode)
  /-- After a slash in a tag that opens an element. -/
  | slash (tag : RawTag)
  deriving DecidableEq, Repr

/-- A mode and the tokens that are complete, the last one first. -/
structure Scanner where
  /-- What the scanner is in the middle of. -/
  mode : Mode
  /-- The tokens so far. -/
  tokens : List Token
  deriving DecidableEq, Repr

/-- The mode inside a section that has just been opened. -/
def Mode.inside : Section → Mode
  | .comment => .comment [] 0
  | .data => .data [] 0

/-- The target that is kept for the declaration of a document, in any letter case. -/
def isReserved (target : List Char) : Bool := target.map Char.toLower == ['x', 'm', 'l']

/-- A tag with one attribute more. -/
def RawTag.push (t : RawTag) (name : QName) (value : List Char) : RawTag :=
  { t with attributes := t.attributes ++ [(name, String.ofList value)] }

/-- The next mode, and the token that is complete with a character. -/
def Mode.step (v : Version) (mode : Mode) (c : Char) : Option (Mode × Option Token) :=
  match mode with
  | .text brackets =>
    if c = '<' then some (.markup, none)
    else if c = '&' then some (.reference [], none)
    else if c = '>' && 2 ≤ brackets then none
    else if !v.isPlain c then none
    else some (.text (if c = ']' then brackets + 1 else 0), some (.char c))
  | .reference name =>
    if c = ';' then (reference? v name.reverse).map fun r => (.text 0, some (.quoted [r]))
    else if isNameChar c || c = '#' then some (.reference (c :: name), none)
    else none
  | .markup =>
    if c = '!' then some (.bang [], none)
    else if c = '?' then some (.target [], none)
    else if c = '/' then some (.closeName [], none)
    else if isNameHead c then some (.openName [c], none)
    else none
  | .bang seen =>
    (Section.opened? (seen ++ [c])).map fun s => ((s.map inside).getD (.bang (seen ++ [c])), none)
  | .comment body dashes =>
    if 2 ≤ dashes then
      if c = '>' then some (.text 0, some (.comment (body.drop 2).reverse)) else none
    else if v.isChar c then some (.comment (c :: body) (if c = '-' then dashes + 1 else 0), none)
    else none
  | .data body brackets =>
    if c = '>' && 2 ≤ brackets then some (.text 0, some (.quoted (body.drop 2).reverse))
    else if v.isChar c then some (.data (c :: body) (if c = ']' then brackets + 1 else 0), none)
    else none
  | .target name =>
    if c = '?' then
      if name.isEmpty || isReserved name.reverse then none else some (.targetEnd name, none)
    else if isSpace c then
      if isReserved name.reverse then none else some (.instruction name.reverse [] false, none)
    else if (if name.isEmpty then isNameHead c else isNameChar c) then
      some (.target (c :: name), none)
    else none
  | .targetEnd name =>
    if c = '>' then some (.text 0, some (.instruction name.reverse [])) else none
  | .instruction goal body mark =>
    if c = '>' && mark then some (.text 0, some (.instruction goal (body.drop 1).reverse))
    else if v.isChar c then some (.instruction goal (c :: body) (c == '?'), none)
    else none
  | .closeName name =>
    if c = '>' then (QName.parse? name.reverse).map fun q => (.text 0, some (.closeTag q))
    else if isSpace c then (QName.parse? name.reverse).map fun q => (.closeEnd q, none)
    else if isNameChar c then some (.closeName (c :: name), none)
    else none
  | .closeEnd name =>
    if c = '>' then some (.text 0, some (.closeTag name))
    else if isSpace c then some (.closeEnd name, none)
    else none
  | .openName name =>
    if c = '>' then (QName.parse? name.reverse).map fun q => (.text 0, some (.openTag ⟨q, []⟩))
    else if c = '/' then (QName.parse? name.reverse).map fun q => (.slash ⟨q, []⟩, none)
    else if isSpace c then (QName.parse? name.reverse).map fun q => (.tag ⟨q, []⟩ true, none)
    else if isNameChar c then some (.openName (c :: name), none)
    else none
  | .tag t spaced =>
    if c = '>' then some (.text 0, some (.openTag t))
    else if c = '/' then some (.slash t, none)
    else if isSpace c then some (.tag t true, none)
    else if spaced && isNameHead c then some (.attrName t [c], none)
    else none
  | .attrName t name =>
    if c = '=' then (QName.parse? name.reverse).map fun q => (.attrQuote t q, none)
    else if isSpace c then (QName.parse? name.reverse).map fun q => (.attrEquals t q, none)
    else if isNameChar c then some (.attrName t (c :: name), none)
    else none
  | .attrEquals t name =>
    if c = '=' then some (.attrQuote t name, none)
    else if isSpace c then some (.attrEquals t name, none)
    else none
  | .attrQuote t name =>
    if c = '"' || c = '\'' then some (.attrValue t name c [] .plain, none)
    else if isSpace c then some (.attrQuote t name, none)
    else none
  | .attrValue t name quote value mode =>
    if c = quote && mode = .plain then some (.tag (t.push name value.reverse) false, none)
    else
      (mode.step v value c).map fun (mode, value) => (.attrValue t name quote value mode, none)
  | .slash t => if c = '>' then some (.text 0, some (.emptyTag t)) else none

/-- The scanner after one character. -/
def Scanner.step (v : Version) (s : Scanner) (c : Char) : Option Scanner :=
  (s.mode.step v c).map fun (mode, token) => ⟨mode, token.toList ++ s.tokens⟩

/-- The tokens of a scanner that stands between tags. -/
def Scanner.finish (s : Scanner) : Option (List Token) :=
  match s.mode with
  | .text _ => some s.tokens.reverse
  | _ => none

/-- The tokens of a text, if it is made of them. -/
def tokens? (v : Version) (cs : List Char) : Option (List Token) :=
  (Text.run (Scanner.step v) ⟨.text 0, []⟩ cs).bind Scanner.finish

end BlockProgram.Xml
