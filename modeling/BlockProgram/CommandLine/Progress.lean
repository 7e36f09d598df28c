/-!
# Progress

One line for each stage of a run, with a bar that fills as the run goes on.
-/

namespace BlockProgram.CommandLine

/-- How wide the bar is. -/
def barWidth : Nat := 14

/-- A bar that is filled as far as a step is into a total, to the nearest mark. -/
def bar (step total : Nat) : String :=
  let filled := min barWidth ((step * barWidth + total / 2) / total)
  "[" ++ String.ofList (List.replicate filled '=' ++ List.replicate (barWidth - filled) '-') ++ "]"

/-- The line for a stage. -/
def progressLine (step total : Nat) (label : String) : String :=
  "[Generate] " ++ label ++ "... (" ++ toString step ++ "/" ++ toString total ++ ") "
    ++ bar step total ++ "\n"

end BlockProgram.CommandLine
