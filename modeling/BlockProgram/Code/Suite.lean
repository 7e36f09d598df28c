import BlockProgram.Text.Indent

/-!
# Suites of lines

A program is a forest of lines: under a line stand the lines of its body. On paper a
body stands one level deeper than the line it belongs to, two spaces for each level, and
every line ends in a line feed.
-/

namespace BlockProgram

/-- Lines one after the other, each with the lines of its body. -/
inductive Suite where
  /-- No lines. -/
  | nil
  /-- A line, its body, and the lines after it. -/
  | cons (line : String) (body rest : Suite)
  deriving DecidableEq, Repr

namespace Suite

/-- A single line without a body. -/
def line (text : String) : Suite := cons text nil nil

/-- A single line with a body. -/
def head (text : String) (body : Suite) : Suite := cons text body nil

/-- The lines of one suite, then those of another. -/
def append : Suite → Suite → Suite
  | nil, t => t
  | cons text body rest, t => cons text body (rest.append t)

instance : Append Suite := ⟨append⟩

@[simp] theorem nil_append (t : Suite) : nil ++ t = t := rfl

@[simp] theorem cons_append (text : String) (body rest t : Suite) :
    cons text body rest ++ t = cons text body (rest ++ t) := rfl

@[simp] theorem append_nil (s : Suite) : s ++ nil = s := by
  induction s with
  | nil => rfl
  | cons text body rest _ ih => simp [ih]

/-- The text of a suite at a level. -/
def print (level : Nat) : Suite → String
  | nil => ""
  | cons text body rest =>
    Text.indent level ++ text ++ "\n" ++ body.print (level + 1) ++ rest.print level

@[simp] theorem print_nil (level : Nat) : nil.print level = "" := rfl

end Suite

end BlockProgram
