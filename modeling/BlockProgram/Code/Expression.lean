import BlockProgram.Code.Literal
import BlockProgram.Variable.Registry

/-!
# Expressions

The program text of a block in the place of a value. The texts of the value inputs come
first, by name; a block's own text is put together from them, with a placeholder for
every input that is empty. Operands are not put in parentheses.
-/

namespace BlockProgram

/-- The text that stands for a block that has no place in a program. -/
def Kind.unsupported (k : Kind) : String := "# Unsupported block type: " ++ k.tag

/-- The texts of the value inputs of a block, by name. -/
abbrev Arguments := List (String × String)

/-- The text of an input, or a placeholder if the input is empty. -/
def Arguments.get (args : Arguments) (name placeholder : String) : String :=
  (args.lookup name).getD placeholder

/-- Two operands around an operator. -/
def operatorText (left op right : String) : String := left ++ " " ++ op ++ " " ++ right

/-- The item of a container. -/
def itemText (container index : String) : String := container ++ "[" ++ index ++ "]"

/-- A new value for a name or an item. -/
def assignText (target value : String) : String := target ++ " = " ++ value

/-- Texts with commas between them. -/
def commaText (items : List String) : String := ", ".intercalate items

/-- The text of a block as a value, given the texts of its inputs. -/
def Node.expression (r : Registry) (n : Node) (args : Arguments) : String :=
  match n.kind with
  | .variableGet => r.resolve (n.handle? variableField)
  | .variableSet => assignText (r.resolve (n.handle? variableField)) (args.get "VALUE" "None")
  | .compare =>
    operatorText (args.get "A" "0") (CompareOp.ofSelector (n.text? "OP")).symbol (args.get "B" "0")
  | .logic =>
    operatorText (args.get "A" "False") (LogicOp.ofSelector (n.text? "OP")).keyword
      (args.get "B" "False")
  | .boolean => if n.text? "BOOL" = some "TRUE" then "True" else "False"
  | .number => Literal.number (n.text? "NUM")
  | .arithmetic =>
    operatorText (args.get "A" "0") (ArithOp.ofSelector (n.text? "OP")).symbol (args.get "B" "0")
  | .round => "round(" ++ args.get "VALUE" "0" ++ ")"
  | .text => Literal.quote ((n.text? "TEXT").getD "")
  | .print => "print(" ++ args.get "VALUE" "\"\"" ++ ")"
  | .listCreate =>
    "[" ++ commaText [args.get "ITEM0" "None", args.get "ITEM1" "None", args.get "ITEM2" "None"]
      ++ "]"
  | .listGet => itemText (args.get "LIST" "[]") (args.get "INDEX" "0")
  | .listSet =>
    assignText (itemText (args.get "LIST" "[]") (args.get "INDEX" "0")) (args.get "VALUE" "None")
  | .dictCreate =>
    "\x7b" ++ commaText [args.get "KEY0" "\"\"" ++ ": " ++ args.get "VALUE0" "None",
      args.get "KEY1" "\"\"" ++ ": " ++ args.get "VALUE1" "None"] ++ "\x7d"
  | .dictGet => itemText (args.get "DICT" "\x7b\x7d") (args.get "KEY" "\"\"")
  | .dictSet =>
    assignText (itemText (args.get "DICT" "\x7b\x7d") (args.get "KEY" "\"\""))
      (args.get "VALUE" "None")
  | .tupleCreate => "(" ++ commaText [args.get "ITEM0" "None", args.get "ITEM1" "None"] ++ ")"
  | .tupleGet => itemText (args.get "TUPLE" "()") (args.get "INDEX" "0")
  | .inputText => "input(" ++ Literal.quote ((n.text? "PROMPT").getD "") ++ ")"
  | .ifThen | .ifElse | .ifElifElse | .forRange | .whileLoop | .importModule | .unknown _ =>
    n.kind.unsupported

/-- The texts of the value inputs in a forest, by name. -/
def Children.arguments (r : Registry) : Children → Arguments
  | .nil => []
  | .cons (.input name) n below rest =>
    (name, n.expression r (below.arguments r)) :: rest.arguments r
  | .cons _ _ _ rest => rest.arguments r

/-- The text of a block as a value. -/
def Block.expression (r : Registry) (b : Block) : String :=
  b.node.expression r (b.children.arguments r)

/-- The text under a name is the text of the block in the input of that name. -/
theorem Children.lookup_arguments (r : Registry) (name : String) (cs : Children) :
    (cs.arguments r).lookup name = (cs.get? (.input name)).map (Block.expression r) := by
  induction cs with
  | nil => rfl
  | cons s n below rest _ ih =>
    cases s with
    | input other =>
      by_cases h : other = name
      · simp [arguments, get?, h, Block.expression]
      · have hb : (name == other) = false := beq_eq_false_iff_ne.mpr (Ne.symm h)
        simp [arguments, List.lookup_cons, hb, ih, get?, h]
    | statement _ => simp [arguments, get?, ih]
    | next => simp [arguments, get?, ih]

end BlockProgram
