import BlockProgram.Json.Scanner

/-!
# JSON values

Pieces are put together into a value by a machine with a stack of the lists and objects
that are still open. Values may be nested in one another 127 deep.
-/

namespace BlockProgram.Json

/-- A value. -/
inductive Value where
  /-- Nothing. -/
  | null
  /-- A truth value. -/
  | bool (value : Bool)
  /-- A number. -/
  | number (value : Number)
  /-- A string. -/
  | string (s : String)
  /-- A list of values. -/
  | array (items : List Value)
  /-- Values by name, as they are written. -/
  | object (members : List (String × Value))
  deriving Repr

/-- A value that is still open; what it holds so far has the last one first. -/
inductive Frame where
  /-- A list. -/
  | array (items : List Value)
  /-- An object, with the name whose value is to come. -/
  | object (members : List (String × Value)) (name : Option String)
  deriving Repr

/-- What may come next. -/
inductive Expect where
  /-- A value. -/
  | value
  /-- A value or the end of a list. -/
  | valueOrEnd
  /-- A name. -/
  | name
  /-- A name or the end of an object. -/
  | nameOrEnd
  /-- A colon. -/
  | colon
  /-- A comma or an end. -/
  | commaOrEnd
  /-- Nothing more. -/
  | finished (v : Value)
  deriving Repr

/-- The open values, the innermost first, and what may come next. -/
structure Builder where
  /-- The open values. -/
  stack : List Frame
  /-- What may come next. -/
  expect : Expect
  deriving Repr

/-- How deep values may be nested. -/
def maxDepth : Nat := 127

namespace Builder

/-- Nothing has been read. -/
def start : Builder := ⟨[], .value⟩

/-- A value is complete inside the given open ones. -/
def give? (stack : List Frame) (v : Value) : Option Builder :=
  match stack with
  | [] => some ⟨[], .finished v⟩
  | .array items :: stack => some ⟨.array (v :: items) :: stack, .commaOrEnd⟩
  | .object members (some name) :: stack =>
    some ⟨.object ((name, v) :: members) none :: stack, .commaOrEnd⟩
  | .object _ none :: _ => none

/-- A value is opened. -/
def enter? (b : Builder) (frame : Frame) (expect : Expect) : Option Builder :=
  if b.stack.length < maxDepth then some ⟨frame :: b.stack, expect⟩ else none

/-- The innermost value is closed. -/
def leave? (b : Builder) (c : Char) : Option Builder :=
  match b.stack with
  | .array items :: stack => if c = ']' then give? stack (.array items.reverse) else none
  | .object members none :: stack =>
    if c = '\x7d' then give? stack (.object members.reverse) else none
  | _ => none

/-- A value begins. -/
def begin? (b : Builder) : Token → Option Builder
  | .string s => give? b.stack (.string s)
  | .number v => give? b.stack (.number v)
  | .bool v => give? b.stack (.bool v)
  | .null => give? b.stack .null
  | .mark c =>
    if c = '[' then b.enter? (.array []) .valueOrEnd
    else if c = '\x7b' then b.enter? (.object [] none) .nameOrEnd
    else none

/-- A name is read. -/
def name? (b : Builder) : Token → Option Builder
  | .string s =>
    match b.stack with
    | .object members _ :: stack => some ⟨.object members (some s) :: stack, .colon⟩
    | _ => none
  | _ => none

/-- What comes after a comma. -/
def afterComma? (b : Builder) : Option Builder :=
  match b.stack with
  | .array _ :: _ => some { b with expect := .value }
  | .object _ _ :: _ => some { b with expect := .name }
  | [] => none

/-- One piece is read. -/
def step (b : Builder) (t : Token) : Option Builder :=
  match b.expect with
  | .value => b.begin? t
  | .valueOrEnd => if t = .mark ']' then b.leave? ']' else b.begin? t
  | .name => b.name? t
  | .nameOrEnd => if t = .mark '\x7d' then b.leave? '\x7d' else b.name? t
  | .colon => if t = .mark ':' then some { b with expect := .value } else none
  | .commaOrEnd =>
    match t with
    | .mark c => if c = ',' then b.afterComma? else b.leave? c
    | _ => none
  | .finished _ => none

end Builder

/-- The value that a text stands for. -/
def parse? (cs : List Char) : Option Value := do
  let tokens ← tokens? cs
  let b ← tokens.foldlM Builder.step .start
  match b.expect with
  | .finished v => some v
  | _ => none

/-! ### Strings -/

/-- One character inside a string. -/
def escape (c : Char) : List Char :=
  match c with
  | '"' => ['\\', '"']
  | '\\' => ['\\', '\\']
  | '\x08' => ['\\', 'b']
  | '\x0c' => ['\\', 'f']
  | '\n' => ['\\', 'n']
  | '\r' => ['\\', 'r']
  | '\t' => ['\\', 't']
  | c => if c.toNat < 0x20 then '\\' :: 'u' :: '0' :: '0' :: Text.hexByte c.toNat else [c]

/-- A string as it is written. -/
def quote (s : String) : String := String.ofList ('"' :: (s.toList.flatMap escape ++ ['"']))

end BlockProgram.Json
