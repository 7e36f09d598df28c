import BlockProgram.Code.Expression
import BlockProgram.Code.Suite

/-!
# Statements

The lines of a block in the place of a statement, and of the chain that goes on from it.
The lines of the bodies come first, by slot; an empty body is the single line `pass`. A
block that is a value stands as a line of its own.
-/

namespace BlockProgram

/-- The suites of the statement inputs of a block and of the chain that follows it. -/
abbrev Suites := List (Slot × Suite)

/-- The body in a statement input. -/
def Suites.body (suites : Suites) (name : String) : Suite :=
  (suites.lookup (.statement name)).getD (.line "pass")

/-- The lines of the chain that follows. -/
def Suites.following (suites : Suites) : Suite := (suites.lookup .next).getD .nil

/-- The name that a loop counts by if its variable is not declared. -/
def loopName : String := "i"

/-- The lines of one block, given the texts of its inputs and the suites of its bodies. -/
def Node.statement (r : Registry) (n : Node) (args : Arguments) (suites : Suites) : Suite :=
  match n.kind with
  | .ifThen => .head ("if " ++ args.get "IF0" "False" ++ ":") (suites.body "DO0")
  | .ifElse =>
    .head ("if " ++ args.get "IF0" "False" ++ ":") (suites.body "DO0") ++
      .head "else:" (suites.body "ELSE")
  | .ifElifElse =>
    .head ("if " ++ args.get "IF0" "False" ++ ":") (suites.body "DO0") ++
      .head ("elif " ++ args.get "IF1" "False" ++ ":") (suites.body "DO1") ++
      .head "else:" (suites.body "ELSE")
  | .forRange =>
    let name := (r.lookup (n.handle? variableField)).getD loopName
    .head ("for " ++ name ++ " in range(" ++ args.get "FROM" "0" ++ ", " ++ args.get "TO" "0"
      ++ " + 1):") (suites.body "DO")
  | .whileLoop => .head ("while " ++ args.get "BOOL" "False" ++ ":") (suites.body "DO")
  | .importModule => .line ("import " ++ (n.text? "MODULE").getD "")
  | _ => .line (n.expression r args)

/-- The suites of a forest, slot by slot; value inputs have none. -/
def Children.suites (r : Registry) : Children → Suites
  | .nil => []
  | .cons (.input _) _ _ rest => rest.suites r
  | .cons slot n below rest =>
    let suites := below.suites r
    (slot, n.statement r (below.arguments r) suites ++ suites.following) :: rest.suites r

/-- The lines of a block and of the chain that goes on from it. -/
def Block.suite (r : Registry) (b : Block) : Suite :=
  let suites := b.children.suites r
  b.node.statement r (b.children.arguments r) suites ++ suites.following

/-- The lines of the body in a statement input. -/
def Block.body (r : Registry) (b : Block) (name : String) : Suite :=
  Suites.body (b.children.suites r) name

/-- The text of a chain at a level. -/
def Block.render (r : Registry) (level : Nat) (b : Block) : String := (b.suite r).print level

/-- The suite under a slot that is no value input is that of the block in the slot. -/
theorem Children.lookup_suites (r : Registry) (slot : Slot) (cs : Children)
    (h : ∀ name, slot ≠ .input name) :
    (cs.suites r).lookup slot = (cs.get? slot).map (Block.suite r) := by
  induction cs with
  | nil => rfl
  | cons s n below rest _ ih =>
    cases s with
    | input name => simp [suites, get?, ih, Ne.symm (h name)]
    | statement name =>
      by_cases hs : slot = .statement name
      · simp [suites, get?, hs, Block.suite]
      · have hb : (slot == .statement name) = false := beq_eq_false_iff_ne.mpr hs
        simp [suites, List.lookup_cons, hb, ih, get?, Ne.symm hs]
    | next =>
      by_cases hs : slot = .next
      · simp [suites, get?, hs, Block.suite]
      · have hb : (slot == .next) = false := beq_eq_false_iff_ne.mpr hs
        simp [suites, List.lookup_cons, hb, ih, get?, Ne.symm hs]

/-- A body is the suite of the block in its input, or the line `pass`. -/
theorem Block.body_eq (r : Registry) (b : Block) (name : String) :
    b.body r name = ((b.statement? name).map (suite r)).getD (.line "pass") := by
  rw [body, Suites.body, Children.lookup_suites r _ _ (by simp), statement?]

end BlockProgram
