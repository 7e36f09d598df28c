/-!
# Kinds of blocks

What a block does, the tag under which a document names each kind, and the operators
that a block chooses by a selector.
-/

namespace BlockProgram

/-- What a block does. -/
inductive Kind where
  /-- Run a body if a condition holds. -/
  | ifThen
  /-- Run one of two bodies. -/
  | ifElse
  /-- Run one of three bodies, by two conditions. -/
  | ifElifElse
  /-- Run a body for each number of a range. -/
  | forRange
  /-- Run a body while a condition holds. -/
  | whileLoop
  /-- Make a module available. -/
  | importModule
  /-- The value of a variable. -/
  | variableGet
  /-- Give a variable a value. -/
  | variableSet
  /-- Compare two values. -/
  | compare
  /-- Join two conditions. -/
  | logic
  /-- A truth value. -/
  | boolean
  /-- A number. -/
  | number
  /-- Compute with two numbers. -/
  | arithmetic
  /-- Round a number. -/
  | round
  /-- A text. -/
  | text
  /-- Print a value. -/
  | print
  /-- A list of three items. -/
  | listCreate
  /-- An item of a list. -/
  | listGet
  /-- Replace an item of a list. -/
  | listSet
  /-- A dictionary of two entries. -/
  | dictCreate
  /-- An entry of a dictionary. -/
  | dictGet
  /-- Replace an entry of a dictionary. -/
  | dictSet
  /-- A tuple of two items. -/
  | tupleCreate
  /-- An item of a tuple. -/
  | tupleGet
  /-- Ask for a text. -/
  | inputText
  /-- A kind outside the vocabulary, known by its tag only. -/
  | unknown (tag : String)
  deriving DecidableEq, Repr

namespace Kind

/-- The kind that a tag names; any other tag is kept as it is. -/
def ofTag (tag : String) : Kind :=
  match tag with
  | "controls_if" => .ifThen
  | "controls_if_else" => .ifElse
  | "controls_ifelseif" => .ifElifElse
  | "controls_for" => .forRange
  | "controls_whileUntil" => .whileLoop
  | "import_statement" => .importModule
  | "variables_get" => .variableGet
  | "variables_set" => .variableSet
  | "logic_compare" => .compare
  | "logic_operation" => .logic
  | "logic_boolean" => .boolean
  | "math_number" => .number
  | "math_arithmetic" => .arithmetic
  | "math_round" => .round
  | "text" => .text
  | "text_print" => .print
  | "lists_create_with" => .listCreate
  | "lists_getIndex" => .listGet
  | "lists_setIndex" => .listSet
  | "dict_create" => .dictCreate
  | "dict_get" => .dictGet
  | "dict_set" => .dictSet
  | "tuple_create" => .tupleCreate
  | "tuple_get" => .tupleGet
  | "input_text" => .inputText
  | other => .unknown other

/-- The tag that names a kind. -/
def tag : Kind → String
  | ifThen => "controls_if"
  | ifElse => "controls_if_else"
  | ifElifElse => "controls_ifelseif"
  | forRange => "controls_for"
  | whileLoop => "controls_whileUntil"
  | importModule => "import_statement"
  | variableGet => "variables_get"
  | variableSet => "variables_set"
  | compare => "logic_compare"
  | logic => "logic_operation"
  | boolean => "logic_boolean"
  | number => "math_number"
  | arithmetic => "math_arithmetic"
  | round => "math_round"
  | text => "text"
  | print => "text_print"
  | listCreate => "lists_create_with"
  | listGet => "lists_getIndex"
  | listSet => "lists_setIndex"
  | dictCreate => "dict_create"
  | dictGet => "dict_get"
  | dictSet => "dict_set"
  | tupleCreate => "tuple_create"
  | tupleGet => "tuple_get"
  | inputText => "input_text"
  | unknown tag => tag

/-- Whether a kind lies outside the vocabulary. -/
def isUnknown : Kind → Bool
  | unknown _ => true
  | _ => false

/-- Whether the field `VAR` of a kind holds a variable. -/
def hasVariable : Kind → Bool
  | variableGet | variableSet | forRange => true
  | _ => false

/-- A tag is not lost by reading it. -/
@[simp] theorem tag_ofTag (t : String) : (ofTag t).tag = t := by
  unfold ofTag
  split <;> rfl

end Kind

/-- The field by which a block names its variable. -/
def variableField : String := "VAR"

/-! ### Operators -/

/-- How two values are compared. -/
inductive CompareOp where
  /-- Equal. -/
  | eq
  /-- Not equal. -/
  | ne
  /-- Less. -/
  | lt
  /-- Less or equal. -/
  | le
  /-- Greater. -/
  | gt
  /-- Greater or equal. -/
  | ge
  deriving DecidableEq, Repr

/-- The comparison that a selector names; equality if it names none. -/
def CompareOp.ofSelector : Option String → CompareOp
  | some "NEQ" => .ne
  | some "LT" => .lt
  | some "LTE" => .le
  | some "GT" => .gt
  | some "GTE" => .ge
  | _ => .eq

/-- A comparison in program text. -/
def CompareOp.symbol : CompareOp → String
  | eq => "=="
  | ne => "!="
  | lt => "<"
  | le => "<="
  | gt => ">"
  | ge => ">="

/-- How two conditions are joined. -/
inductive LogicOp where
  /-- Both. -/
  | and
  /-- At least one. -/
  | or
  deriving DecidableEq, Repr

/-- The connective that a selector names, in any letter case; `and` if it names none. -/
def LogicOp.ofSelector : Option String → LogicOp
  | some s => if s.toList.map Char.toUpper = ['O', 'R'] then .or else .and
  | none => .and

/-- A connective in program text. -/
def LogicOp.keyword : LogicOp → String
  | and => "and"
  | or => "or"

/-- How two numbers are combined. -/
inductive ArithOp where
  /-- Their sum. -/
  | add
  /-- Their difference. -/
  | sub
  /-- Their product. -/
  | mul
  /-- Their quotient. -/
  | div
  deriving DecidableEq, Repr

/-- The operation that a selector names; the sum if it names none. -/
def ArithOp.ofSelector : Option String → ArithOp
  | some "MINUS" => .sub
  | some "MULTIPLY" => .mul
  | some "DIVIDE" => .div
  | _ => .add

/-- An operation in program text. -/
def ArithOp.symbol : ArithOp → String
  | add => "+"
  | sub => "-"
  | mul => "*"
  | div => "/"

end BlockProgram
