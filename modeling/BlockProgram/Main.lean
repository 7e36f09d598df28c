import BlockProgram.CommandLine.Run

/-!
# The command

Runs with the files and streams of the system.
-/

namespace BlockProgram.CommandLine

/-- The outcome of an action, nothing if it fails. -/
def attempt {α : Type} (action : IO α) : IO (Option α) := do
  try return some (← action) catch _ => return none

/-- The files and streams of the system. -/
def systemShell : Shell IO where
  isFile path := do
    try
      discard (IO.FS.readBinFile path)
      return true
    catch
      | .permissionDenied .. => return true
      | _ => return false
  fullPath path := attempt do return toString (← IO.FS.realPath path)
  read path := attempt (IO.FS.readFile path)
  write path text := do return (← attempt (IO.FS.writeFile path text)).isSome
  print text := do
    let out ← IO.getStdout
    out.putStr text
    out.flush
  report text := do (← IO.getStderr).putStr text

/-- Serves a host line by line until the session or the input ends. -/
partial def bridgeLoop (o : Options) (s : Session String) : IO Unit := do
  let line ← (← IO.getStdin).getLine
  if line.isEmpty then return ()
  let next := ((bridgeCommand? line).map (s.step (bridgeSetup o))).getD s
  systemShell.print (String.ofList (next.sent.toList.drop s.sent.length))
  if next.stage ≠ .disposed then bridgeLoop o next

/-- What is said when the command line is not understood. -/
def usageText : String :=
  "Usage: [OPTIONS] [INPUT] [OUTPUT]\n\n" ++
  "  --emit-document PATH   Write the document with sanitized variables to this path.\n" ++
  "  --visual-order         Emit top-level chains top-to-bottom by canvas position.\n" ++
  "  --bridge               Serve the host protocol as JSON lines over stdin/stdout.\n" ++
  "  --wait-timeout-ms N    How long the bridge waits for the editor to become ready.\n" ++
  "  -v, --verbose          Log debug output to stderr.\n"

/-- A run as the options say, and its exit code. -/
def execute (o : Options) : IO UInt32 := do
  let result ← ExceptT.run do
    if o.bridge then
      let w ← initial systemShell o
      let s := bridgeStart o w
      systemShell.print s.sent
      bridgeLoop o s
    else
      match o.input with
      | some path => generate systemShell o path
      | none => throw .file
  match result with
  | .ok () => return 0
  | .error e =>
    systemShell.report ("Error: " ++ e.message ++ "\n")
    return 1

end BlockProgram.CommandLine

/-- The command. -/
def main (words : List String) : IO UInt32 := do
  match BlockProgram.CommandLine.Options.parse words with
  | .ok o => BlockProgram.CommandLine.execute o
  | .error .help =>
    BlockProgram.CommandLine.systemShell.print BlockProgram.CommandLine.usageText
    return 0
  | .error .usage =>
    BlockProgram.CommandLine.systemShell.report BlockProgram.CommandLine.usageText
    return 2
