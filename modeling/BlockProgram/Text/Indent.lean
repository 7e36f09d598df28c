/-!
# Indentation

Two spaces for each level.
-/

namespace BlockProgram.Text

/-- The spaces before the lines of a level. -/
def indent (level : Nat) : String := String.ofList (List.replicate (2 * level) ' ')

@[simp] theorem indent_zero : indent 0 = "" := rfl

@[simp] theorem toList_indent (level : Nat) :
    (indent level).toList = List.replicate (2 * level) ' ' := by
  simp [indent]

end BlockProgram.Text
