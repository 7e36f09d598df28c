import BlockProgram.Code.Program
import BlockProgram.Text.Digits

/-!
# The words of the command line

Words are taken from left to right, and the first one that does not fit decides. A word
that begins with two dashes is an option, with its value in the same word after an equals
sign or in the next word; a word that begins with one dash is a row of switches; after a
word of just two dashes, and otherwise, a word names a file.
-/

namespace BlockProgram.CommandLine

/-- What the command line asks for. -/
structure Options where
  /-- The document to read. -/
  input : Option String
  /-- The file for the program. -/
  output : Option String
  /-- The file for the document with identifiers for names. -/
  emitDocument : Option String
  /-- Whether chains are written in the order in which they are seen. -/
  visualOrder : Bool
  /-- Whether to serve a host. -/
  bridge : Bool
  /-- How many milliseconds to wait for a canvas. -/
  waitTimeout : Option Nat
  /-- Whether to say more. -/
  verbose : Bool
  deriving DecidableEq, Repr

/-- Why a command line is not followed. -/
inductive Refusal where
  /-- It is not understood. -/
  | usage
  /-- It asks for help. -/
  | help
  deriving DecidableEq, Repr

namespace Options

/-- Nothing is asked for. -/
def none : Options := ⟨.none, .none, .none, false, false, .none, false⟩

/-- The order in which chains are written. -/
def order (o : Options) : Order := if o.visualOrder then .visual else .insertion

/-- A file is named: the first for reading, the second for writing, and no more. -/
def positional (o : Options) (word : String) : Except Refusal Options :=
  if word.isEmpty then .error .usage
  else if o.input.isNone then .ok { o with input := some word }
  else if o.output.isNone then .ok { o with output := some word }
  else .error .usage

/-- A switch is turned on, once. -/
def switch (o : Options) (name : String) : Except Refusal Options :=
  match name with
  | "visual-order" => if o.visualOrder then .error .usage else .ok { o with visualOrder := true }
  | "bridge" => if o.bridge then .error .usage else .ok { o with bridge := true }
  | "verbose" => if o.verbose then .error .usage else .ok { o with verbose := true }
  | "help" => .error .help
  | _ => .error .usage

/-- A row of switches, a letter for each. -/
def letters : Options → List Char → Except Refusal Options
  | o, [] => .ok o
  | o, 'v' :: cs => (o.switch "verbose").bind (letters · cs)
  | _, 'h' :: _ => .error .help
  | _, _ :: _ => .error .usage

/-- Whether an option takes a value. -/
def takesValue (name : String) : Bool := name = "emit-document" || name = "wait-timeout-ms"

/-- A number of up to 64 bits, perhaps after a plus sign. -/
def word64? (s : String) : Option Nat :=
  let digits :=
    match s.toList with
    | '+' :: ds => ds
    | ds => ds
  let n := Text.decimalValue digits
  if digits.isEmpty || !digits.all Text.isDigit || 0x10000000000000000 ≤ n then .none else some n

/-- An option is given a value, once. -/
def assign (o : Options) (name value : String) : Except Refusal Options :=
  match name with
  | "emit-document" =>
    if o.emitDocument.isSome || value.isEmpty then .error .usage
    else .ok { o with emitDocument := some value }
  | "wait-timeout-ms" =>
    match o.waitTimeout, word64? value with
    | .none, some n => .ok { o with waitTimeout := some n }
    | _, _ => .error .usage
  | _ => .error .usage

/-- The name of an option, and its value if there is an equals sign. -/
def splitEquals (cs : List Char) : String × Option String :=
  match cs.dropWhile (· != '=') with
  | [] => (String.ofList cs, .none)
  | _ :: value => (String.ofList (cs.takeWhile (· != '=')), some (String.ofList value))

/-- Whether a word can be the value of the option before it. -/
def isValue (word : String) : Bool := word = "-" || word.toList.head? != some '-'

/-- Whether the words that are required are there. -/
def complete (o : Options) : Except Refusal Options :=
  if o.input.isNone && !o.bridge then .error .usage else .ok o

/-- The words from the first on, taken as names of files. -/
def positionals : Options → List String → Except Refusal Options
  | o, [] => .ok o
  | o, word :: words => (o.positional word).bind (positionals · words)

/-- The words from the first on; `pending` is an option whose value is to come. -/
def takeWords : Options → (pending : Option String) → List String → Except Refusal Options
  | o, .none, [] => .ok o
  | _, some _, [] => .error .usage
  | o, some name, word :: words =>
    if isValue word then (o.assign name word).bind (takeWords · .none words) else .error .usage
  | o, .none, word :: words =>
    match word.toList with
    | ['-', '-'] => o.positionals words
    | '-' :: '-' :: cs =>
      match splitEquals cs with
      | (name, some value) =>
        if takesValue name then (o.assign name value).bind (takeWords · .none words)
        else .error .usage
      | (name, .none) =>
        if takesValue name then takeWords o (some name) words
        else (o.switch name).bind (takeWords · .none words)
    | '-' :: c :: cs => (o.letters (c :: cs)).bind (takeWords · .none words)
    | _ => (o.positional word).bind (takeWords · .none words)

/-- What a command line asks for. -/
def parse (words : List String) : Except Refusal Options :=
  (none.takeWords .none words).bind complete

end Options

end BlockProgram.CommandLine
