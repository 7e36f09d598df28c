import BlockProgram.Code.Program
import BlockProgram.Document.Read
import BlockProgram.Document.Write

/-!
# From document to program

A document is read, the names of its variables are migrated, and the result is written as a
program or as a document again.
-/

namespace BlockProgram.Document

/-- The canvas of a document with the names of its variables migrated. -/
def load (text : String) : Except DocumentError Workspace :=
  (read text).map fun w => w.migrate.2

/-- The program of a document. -/
def generate (order : Order) (text : String) : Except DocumentError String :=
  (load text).map (Workspace.program order)

/-- A document in the form in which documents are written. -/
def normalize (text : String) : Except DocumentError String := (load text).map write

end BlockProgram.Document
