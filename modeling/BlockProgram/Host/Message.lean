import BlockProgram.Json.Value
import BlockProgram.Text.Blank

/-!
# Talking to the host

The host is told the program and the document after every change, and it may ask for a
document to be restored or for the end of the session. Either side writes a value of JSON
that says by its tag what it is: an object with the tag under `type`, or a list that begins
with the tag.
-/

namespace BlockProgram

/-- What the host is told. -/
inductive HostMessage where
  /-- The program. -/
  | program (code : String)
  /-- The document. -/
  | document (xml : String)
  /-- That something failed. -/
  | failure (message : String)
  deriving DecidableEq, Repr

/-- What the host asks for. -/
inductive HostCommand where
  /-- Go on with another document. -/
  | restore (xml : String)
  /-- End the session. -/
  | dispose
  deriving DecidableEq, Repr

/-! ### Tagged values -/

/-- What comes with a tag. -/
inductive Payload where
  /-- Values by name. -/
  | named (members : List (String × Json.Value))
  /-- Values one after the other. -/
  | listed (items : List Json.Value)
  deriving Repr

/-- The only value with a name, if it is a string. -/
def theString? (name : String) (members : List (String × Json.Value)) : Option String :=
  match members.filter fun m => m.1 = name with
  | [(_, .string s)] => some s
  | _ => none

/-- The tag of a value, and what comes with it. -/
def tagged? : Json.Value → Option (String × Payload)
  | .object members =>
    (theString? "type" members).map fun tag =>
      (tag, .named (members.filter fun m => m.1 ≠ "type"))
  | .array (.string tag :: items) => some (tag, .listed items)
  | _ => none

/-- The one string that comes with a tag, under a name if there are names. -/
def Payload.string? (name : String) : Payload → Option String
  | .named members => theString? name members
  | .listed [.string s] => some s
  | .listed _ => none

/-- Whether nothing need come with the tag. -/
def Payload.isBare : Payload → Bool
  | .named _ => true
  | .listed items => items.isEmpty

/-! ### Messages -/

/-- The tag of a message, the name of what comes with it, and that. -/
def HostMessage.parts : HostMessage → String × String × String
  | program code => ("python", "code", code)
  | document xml => ("workspace", "xml", xml)
  | failure message => ("error", "message", message)

/-- A message as an object. -/
def HostMessage.json (m : HostMessage) : String :=
  let (tag, name, value) := m.parts
  "\x7b\"type\":" ++ Json.quote tag ++ "," ++ Json.quote name ++ ":" ++ Json.quote value ++ "\x7d"

/-- A message as a line. -/
def HostMessage.line (m : HostMessage) : String := m.json ++ "\n"

/-- The message that a value stands for. -/
def HostMessage.ofValue? (v : Json.Value) : Option HostMessage :=
  match tagged? v with
  | some ("python", payload) => (payload.string? "code").map program
  | some ("workspace", payload) => (payload.string? "xml").map document
  | some ("error", payload) => (payload.string? "message").map failure
  | _ => none

/-- The message that a text stands for. -/
def HostMessage.parse? (text : String) : Option HostMessage :=
  (Json.parse? text.toList).bind ofValue?

/-! ### Commands -/

/-- The command that a value stands for. -/
def HostCommand.ofValue? (v : Json.Value) : Option HostCommand :=
  match tagged? v with
  | some ("restore", payload) => (payload.string? "xml").map restore
  | some ("dispose", payload) => if payload.isBare then some dispose else none
  | _ => none

/-- The command that a text stands for, white space around it aside. -/
def HostCommand.parse? (text : String) : Option HostCommand :=
  (Json.parse? (Text.trimChars text.toList)).bind ofValue?

end BlockProgram
