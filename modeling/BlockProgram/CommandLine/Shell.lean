import BlockProgram.Document.Read

/-!
# The surroundings of a run

What a run needs from outside: files by path, and two places to write to. A working
directory kept in memory is one such surrounding.
-/

namespace BlockProgram.CommandLine

/-- What a run can do, in a monad of effects. -/
structure Shell (m : Type → Type) where
  /-- Whether a path leads to a file. -/
  isFile : String → m Bool
  /-- The full path of a file. -/
  fullPath : String → m (Option String)
  /-- The text of a file, if it can be read as text. -/
  read : String → m (Option String)
  /-- Puts a text into a file, and tells whether that was possible. -/
  write : String → String → m Bool
  /-- Writes to the output. -/
  print : String → m Unit
  /-- Writes to where progress is told. -/
  report : String → m Unit

/-- Why a run fails. -/
inductive RunError where
  /-- There is no such file. -/
  | notFound (path : String)
  /-- A document in a file cannot be read. -/
  | document (e : DocumentError) (path : String)
  /-- A file cannot be read or written. -/
  | file
  deriving DecidableEq, Repr

/-- The reason of a failure in words. -/
def RunError.message : RunError → String
  | notFound path => "Input file not found: '" ++ path ++ "'."
  | document e path => "Document error: " ++ e.message ++ " (file '" ++ path ++ "')"
  | file => "a file could not be read or written"

/-! ### A working directory in memory -/

/-- What is under a path. -/
inductive Entry where
  /-- A file of text. -/
  | text (s : String)
  /-- A file that is no text. -/
  | binary
  /-- A directory. -/
  | directory
  deriving DecidableEq, Repr

/-- Whether an entry is a file. -/
def Entry.isFile : Entry → Bool
  | directory => false
  | _ => true

/-- A working directory, and what has been written to the two places. -/
structure WorkingDirectory where
  /-- Files and directories by the steps that lead to them. -/
  entries : List (List String × Entry)
  /-- What has been printed. -/
  printed : String
  /-- What has been told of progress. -/
  reported : String
  deriving DecidableEq, Repr

namespace WorkingDirectory

/-- What is at the end of steps; the working directory itself is a directory. -/
def entry? (d : WorkingDirectory) : List String → Option Entry
  | [] => some .directory
  | steps => d.entries.lookup steps

/-- The steps to a place that a path leads to, from a place; all places on the way have to be
directories of this one. -/
def resolveFrom? (d : WorkingDirectory) : (place path : List String) → Option (List String)
  | place, [] => some place
  | place, step :: path =>
    if d.entry? place ≠ some .directory then none
    else if step = "" || step = "." then d.resolveFrom? place path
    else if step = ".." then
      if place.isEmpty then none else d.resolveFrom? place.dropLast path
    else d.resolveFrom? (place ++ [step]) path

/-- The steps of a path. -/
def stepsOf (path : String) : List String := (path.toList.splitOn '/').map String.ofList

/-- Whether a path can be followed from here: it does not start elsewhere, it has no character
that ends a name, and neither it nor one of its steps is too long. -/
def isPath (path : String) : Bool :=
  path.toList.head? != some '/' && !path.toList.contains '\x00' &&
    path.utf8ByteSize ≤ 4095 && (stepsOf path).all fun step => step.utf8ByteSize ≤ 255

/-- The steps to a place that a path leads to. -/
def resolve? (d : WorkingDirectory) (path : String) : Option (List String) :=
  if isPath path then d.resolveFrom? [] (stepsOf path) else none

/-- What a path leads to. -/
def at? (d : WorkingDirectory) (path : String) : Option Entry := (d.resolve? path).bind d.entry?

/-- The place that a path names for a file to be written: a name in a directory. -/
def target? (d : WorkingDirectory) (path : String) : Option (List String) := do
  let name ← (stepsOf path).getLast?
  let place ← if isPath path then d.resolveFrom? [] (stepsOf path).dropLast else none
  if ["", ".", ".."].contains name || d.entry? place ≠ some .directory ||
      d.entry? (place ++ [name]) = some .directory then none
  else some (place ++ [name])

/-- Entries with one of them put in place of the one with its steps. -/
def setEntry (steps : List String) (e : Entry) :
    List (List String × Entry) → List (List String × Entry)
  | [] => [(steps, e)]
  | other :: rest =>
    if other.1 = steps then (steps, e) :: rest else other :: setEntry steps e rest

/-- The working directory as a surrounding. -/
def shell : Shell (StateM WorkingDirectory) where
  isFile path := do return ((← get).at? path).any Entry.isFile
  fullPath path := do return ((← get).resolve? path).map "/".intercalate
  read path := do
    match (← get).at? path with
    | some (.text s) => return some s
    | _ => return none
  write path text := do
    match (← get).target? path with
    | none => return false
    | some steps =>
      modify fun d => { d with entries := setEntry steps (.text text) d.entries }
      return true
  print text := modify fun d => { d with printed := d.printed ++ text }
  report text := modify fun d => { d with reported := d.reported ++ text }

end WorkingDirectory

end BlockProgram.CommandLine
