import BlockProgram.CommandLine.Options
import BlockProgram.CommandLine.Progress
import BlockProgram.CommandLine.Shell
import BlockProgram.Generate
import BlockProgram.Session

/-!
# Runs

A run reads a document from a file and writes its program, and if asked the document as
well. Or it serves a host: a session whose messages are lines of output and whose commands
are lines of input.
-/

namespace BlockProgram.CommandLine

section Files

variable {m : Type → Type} [Monad m]

/-- The full path of a file that has to be there. -/
def locate (sh : Shell m) (path : String) : ExceptT RunError m String := do
  if ← sh.isFile path then
    match ← sh.fullPath path with
    | some full => return full
    | none => throw .file
  else throw (.notFound path)

/-- The text of a file. -/
def readText (sh : Shell m) (path : String) : ExceptT RunError m String := do
  match ← sh.read path with
  | some text => return text
  | none => throw .file

/-- A text is put into a file. -/
def writeText (sh : Shell m) (path text : String) : ExceptT RunError m Unit := do
  if !(← sh.write path text) then throw .file

/-- The canvas of the document in a file. -/
def readWorkspace (sh : Shell m) (path : String) : ExceptT RunError m Workspace := do
  match Document.read (← readText sh path) with
  | .ok w => return w
  | .error e => throw (.document e path)

/-- The program of the document in a file. -/
def generateFrom (sh : Shell m) (order : Order) (path : String) : ExceptT RunError m String := do
  let full ← locate sh path
  match Document.generate order (← readText sh full) with
  | .ok code => return code
  | .error e => throw (.document e full)

/-- How many stages a run has. -/
def Options.stages (o : Options) : Nat :=
  3 + (if o.emitDocument.isSome then 1 else 0) + (if o.output.isSome then 1 else 0)

/-- A run that writes the program of the document in a file. -/
def generate (sh : Shell m) (o : Options) (input : String) : ExceptT RunError m Unit := do
  let stage (step : Nat) (label : String) : ExceptT RunError m Unit :=
    sh.report (progressLine step o.stages label)
  stage 1 "Resolving input path"
  let path ← locate sh input
  stage 2 "Reading block document"
  let read ← readWorkspace sh path
  stage 3 "Sanitizing variables and generating Python"
  let w := read.migrate.2
  let code := w.program o.order
  if let some target := o.emitDocument then
    stage 4 "Writing normalized document"
    writeText sh target (Document.write w)
  match o.output with
  | some target =>
    stage o.stages "Writing Python output"
    writeText sh target code
  | none => sh.print code

/-- The canvas with which a host is served: that of the document in a file, or an empty one. -/
def initial (sh : Shell m) (o : Options) : ExceptT RunError m Workspace := do
  match o.input with
  | some path => readWorkspace sh (← locate sh path)
  | none => return .empty

end Files

/-! ### Serving a host -/

/-- What a session that serves a host works with. -/
def bridgeSetup (o : Options) : Setup String := ⟨.lines, o.order⟩

/-- The session with which a host is served. -/
def bridgeStart (o : Options) (w : Workspace) : Session String :=
  .start (bridgeSetup o) "" [some w]

/-- The command in a line of input; other lines are passed over. -/
def bridgeCommand? (line : String) : Option Command :=
  (HostCommand.parse? line).map Command.host

/-- All that is written to a host that writes some lines. -/
def serve (o : Options) (w : Workspace) (lines : List String) : String :=
  ((bridgeStart o w).run (bridgeSetup o) (lines.filterMap bridgeCommand?)).sent

end BlockProgram.CommandLine
